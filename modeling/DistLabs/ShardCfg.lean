import DistLabs.Balance
import DistLabs.GoMaps
import DistLabs.Runs

/-!
# Shard configurations

The package `shardcfg`: a configuration assigns every shard to a replica group,
and `rebalance` evens out the assignment after groups joined or left. A call
that ends in `log.Fatalf` or `t.Fatalf` is an `Except.error` with its text. Every
`range` over a map takes its own `RangeOrder`; a function with several of them
takes a numbered family.
-/
namespace ShardCfg

open GoMaps Balance

abbrev Tgid := Int
abbrev Tshid := Int
abbrev Tnum := Int

/-- The number of shards. -/
def NShards : Nat := 12

@[ext] structure ShardConfig where
  num : Tnum
  shards : Fin NShards → Tgid
  groups : GoMap Tgid (List String)

def makeShardConfig : ShardConfig := ⟨0, fun _ => 0, ∅⟩

/-- Which shard a key is in. `sum32` is the FNV-1a hash; the conversion of its
`uint32` to a 64-bit `int` is exact, and `%` is Go's truncated remainder. -/
def key2Shard (sum32 : String → UInt32) (key : String) : Tshid :=
  Int.tmod (sum32 key).toNat NShards

/-- The map `counts` that `analyze` and `checkConfig` build from the shards. -/
def counts (c : ShardConfig) : GoMap Tgid Int :=
  collect id 0 (fun n _ => n + 1) (List.ofFn c.shards)

/-- The running `mg, mn, lg, ln` of `analyze`. -/
structure Extremes where
  mg : Tgid
  mn : Int
  lg : Tgid
  ln : Int
  deriving DecidableEq, Repr

/-- One pass of the loop over the sorted groups. -/
def Extremes.visit (c : ShardConfig) (e : Extremes) (g : Tgid) : Extremes :=
  let n := getD (counts c) g 0
  let e := if n < e.ln then { e with ln := n, lg := g } else e
  if n > e.mn then { e with mn := n, mg := g } else e

/-- The most and the least heavily loaded group with their numbers of shards. -/
def analyze (ω : RangeOrder Tgid) (c : ShardConfig) : Extremes :=
  ((ω.order c.groups.keys).insertionSort (· ≤ ·)).foldl (Extremes.visit c) ⟨-1, -1, -1, 257⟩

def least (ω : RangeOrder Tgid) (c : ShardConfig) : Tgid := (analyze ω c).lg

/-- Point one shard to a group. -/
def assign (c : ShardConfig) (s : Fin NShards) (g : Tgid) : ShardConfig :=
  { c with shards := Function.update c.shards s g }

/-- One pass of the loop that assigns all unassigned shards. The loop ranges over
`old`, the copy of the array that Go takes before the first pass. -/
def assignPass (ω : Nat → RangeOrder Tgid) (old : Fin NShards → Tgid) (c : ShardConfig)
    (s : Fin NShards) : ShardConfig :=
  if old s ∈ c.groups then c else assign c s (least (ω s) c)

def assignOrphans (ω : Nat → RangeOrder Tgid) (c : ShardConfig) : ShardConfig :=
  (List.finRange NShards).foldl (assignPass ω c.shards) c

/-- Move one shard from `mg` to `lg`: the first one found. -/
def moveOne (c : ShardConfig) (mg lg : Tgid) : ShardConfig :=
  match (List.finRange NShards).find? fun s => c.shards s = mg with
  | some s => assign c s lg
  | none => c

/-- One pass of the loop that moves shards from most to least heavily loaded; the
number says how many times `analyze` has been called before. -/
def movePass (ω : Nat → RangeOrder Tgid) (p : Nat × ShardConfig) : Option (Nat × ShardConfig) :=
  let e := analyze (ω p.1) p.2
  if e.mn < e.ln + 2 then none else some (p.1 + 1, moveOne p.2 e.mg e.lg)

theorem getD_counts (c : ShardConfig) (g : Tgid) : getD (counts c) g 0 = load c.shards g := by
  have hlen : ∀ (l : List Tgid) (n : Int), l.foldl (fun n _ => n + 1) n = n + l.length := by
    intro l
    induction l with
    | nil => simp
    | cons x l ih =>
      intro n
      simp only [List.foldl_cons, ih, List.length_cons]
      omega
  rw [counts, getD_collect, hlen, List.ofFn_eq_map, List.filter_map, List.length_map, zero_add]
  rfl

theorem load_le_nShards (c : ShardConfig) (g : Tgid) : load c.shards g ≤ NShards := by
  simpa using load_le_card c.shards g

/-- The extremes really are groups, with their loads, and bound all the others. -/
structure Extremes.Spec (c : ShardConfig) (groups : List Tgid) (e : Extremes) : Prop where
  mgMem : e.mg ∈ groups
  mnEq : e.mn = load c.shards e.mg
  most : ∀ g ∈ groups, load c.shards g ≤ load c.shards e.mg
  lgMem : e.lg ∈ groups
  lnEq : e.ln = load c.shards e.lg
  least : ∀ g ∈ groups, load c.shards e.lg ≤ load c.shards g

/-- The start values lie outside the possible counts, so the first group replaces both. -/
theorem visit_first (c : ShardConfig) (g : Tgid) :
    Extremes.Spec c [g] (Extremes.visit c ⟨-1, -1, -1, 257⟩ g) := by
  have hle : load c.shards g ≤ 12 := load_le_nShards c g
  have h₁ : ((load c.shards g : Nat) : Int) < 257 := by omega
  have h₂ : ((load c.shards g : Nat) : Int) > -1 := by omega
  simp only [Extremes.visit, getD_counts, h₁, h₂, if_true]
  constructor <;> simp

theorem visit_next {c : ShardConfig} {groups : List Tgid} {e : Extremes}
    (h : Extremes.Spec c groups e) (g : Tgid) :
    Extremes.Spec c (groups ++ [g]) (Extremes.visit c e g) := by
  have hln := h.lnEq
  have hmn := h.mnEq
  have hrange := h.most e.lg h.lgMem
  simp only [Extremes.visit, getD_counts]
  by_cases hlow : ((load c.shards g : Nat) : Int) < e.ln
  · have hnot : ¬ ((load c.shards g : Nat) : Int) > e.mn := by omega
    simp only [hlow, if_true, hnot, if_false]
    constructor
    · simp [h.mgMem]
    · exact hmn
    · intro k hk
      rcases List.mem_append.mp hk with hk | hk
      · exact h.most k hk
      · rw [List.mem_singleton.mp hk]
        change load c.shards g ≤ load c.shards e.mg
        omega
    · simp
    · rfl
    · intro k hk
      rcases List.mem_append.mp hk with hk | hk
      · have := h.least k hk
        change load c.shards g ≤ load c.shards k
        omega
      · rw [List.mem_singleton.mp hk]
  · have hlg : ∀ k ∈ groups ++ [g], load c.shards e.lg ≤ load c.shards k := by
      intro k hk
      rcases List.mem_append.mp hk with hk | hk
      · exact h.least k hk
      · rw [List.mem_singleton.mp hk]
        omega
    simp only [hlow, if_false]
    by_cases hhigh : ((load c.shards g : Nat) : Int) > e.mn
    · simp only [hhigh, if_true]
      refine ⟨by simp, rfl, ?_, by simp [h.lgMem], hln, hlg⟩
      intro k hk
      rcases List.mem_append.mp hk with hk | hk
      · have := h.most k hk
        change load c.shards k ≤ load c.shards g
        omega
      · rw [List.mem_singleton.mp hk]
    · simp only [hhigh, if_false]
      refine ⟨by simp [h.mgMem], hmn, ?_, by simp [h.lgMem], hln, hlg⟩
      intro k hk
      rcases List.mem_append.mp hk with hk | hk
      · exact h.most k hk
      · rw [List.mem_singleton.mp hk]
        omega

theorem visit_all (c : ShardConfig) (g : Tgid) (rest : List Tgid) :
    Extremes.Spec c (g :: rest) ((g :: rest).foldl (Extremes.visit c) ⟨-1, -1, -1, 257⟩) := by
  induction rest using List.reverseRecOn with
  | nil => exact visit_first c g
  | append_singleton rest k ih =>
    have := visit_next ih k
    simpa only [List.foldl_cons, List.foldl_append, List.foldl_nil, List.cons_append] using this

/-- With at least one group `analyze` finds a most and a least loaded one. -/
theorem analyze_spec (ω : RangeOrder Tgid) (c : ShardConfig) (hne : c.groups.keys ≠ []) :
    Extremes.Spec c c.groups.keys (analyze ω c) := by
  have hmem : ∀ g, g ∈ (ω.order c.groups.keys).insertionSort (· ≤ ·) ↔ g ∈ c.groups.keys := by
    intro g
    rw [List.mem_insertionSort, RangeOrder.mem_order]
  unfold analyze
  cases hl : (ω.order c.groups.keys).insertionSort (· ≤ ·) with
  | nil =>
    obtain ⟨g, hg⟩ := List.exists_mem_of_ne_nil _ hne
    have := (hmem g).mpr hg
    simp [hl] at this
  | cons g rest =>
    have h := visit_all c g rest
    rw [hl] at hmem
    exact ⟨(hmem _).mp h.mgMem, h.mnEq, fun k hk => h.most k ((hmem k).mpr hk),
      (hmem _).mp h.lgMem, h.lnEq, fun k hk => h.least k ((hmem k).mpr hk)⟩

/-- Without groups the start values remain and the move loop breaks at once. -/
theorem analyze_empty (ω : RangeOrder Tgid) (c : ShardConfig) (h : c.groups.keys = []) :
    analyze ω c = ⟨-1, -1, -1, 257⟩ := by
  have hnil : ω.order c.groups.keys = [] := by
    have := ω.perm c.groups.keys
    rw [h] at this ⊢
    exact this.eq_nil
  rw [analyze, hnil]
  rfl

/-- All that a pass of the move loop can do: one shard leaves a most loaded group
for a least loaded one that has at least two shards fewer. -/
theorem movePass_cases {ω : Nat → RangeOrder Tgid} {p q : Nat × ShardConfig}
    (h : movePass ω p = some q) :
    ∃ s low, p.2.shards s ∈ p.2.groups ∧ low ∈ p.2.groups ∧
      (∀ g ∈ p.2.groups, load p.2.shards g ≤ load p.2.shards (p.2.shards s)) ∧
      (∀ g ∈ p.2.groups, load p.2.shards low ≤ load p.2.shards g) ∧
      load p.2.shards low + 2 ≤ load p.2.shards (p.2.shards s) ∧
      q = (p.1 + 1, assign p.2 s low) := by
  obtain ⟨k, c⟩ := p
  simp only [movePass] at h
  by_cases hb : (analyze (ω k) c).mn < (analyze (ω k) c).ln + 2
  · simp [hb] at h
  · simp only [hb, if_false, Option.some.injEq] at h
    have hne : c.groups.keys ≠ [] := by
      intro he
      rw [analyze_empty _ _ he] at hb
      simp at hb
    have hs := analyze_spec (ω k) c hne
    have hmn := hs.mnEq
    have hln := hs.lnEq
    have hpos : 0 < load c.shards (analyze (ω k) c).mg := by omega
    obtain ⟨x, hx⟩ := (load_pos_iff _ _).mp hpos
    cases hf : (List.finRange NShards).find? (fun s => c.shards s = (analyze (ω k) c).mg) with
    | none =>
      rw [List.find?_eq_none] at hf
      exact absurd hx (by simpa using hf x (List.mem_finRange x))
    | some s =>
      have hmg : c.shards s = (analyze (ω k) c).mg := by simpa using List.find?_some hf
      refine ⟨s, (analyze (ω k) c).lg, ?_, hs.lgMem, ?_, hs.least, ?_, ?_⟩
      · rw [hmg]
        exact hs.mgMem
      · rw [hmg]
        exact hs.most
      · rw [hmg]
        change load c.shards (analyze (ω k) c).lg + 2 ≤ load c.shards (analyze (ω k) c).mg
        omega
      · simp only [moveOne, hf] at h
        exact h.symm

theorem movePass_decreases (ω : Nat → RangeOrder Tgid) (p q : Nat × ShardConfig)
    (h : movePass ω p = some q) : imbalance q.2.shards < imbalance p.2.shards := by
  obtain ⟨s, low, -, -, -, -, hgap, rfl⟩ := movePass_cases h
  exact imbalance_update_lt hgap

/-- The move loop. Its first `analyze` comes after those for the `NShards` shards. -/
def moveLoop (ω : Nat → RangeOrder Tgid) (c : ShardConfig) : Nat × ShardConfig :=
  Runs.loop (movePass ω) (fun p => imbalance p.2.shards) (movePass_decreases ω) (NShards, c)

/-- Balance the assignment of shards to groups. -/
def rebalance (ω : Nat → RangeOrder Tgid) (c : ShardConfig) : ShardConfig :=
  if c.groups.keys.length < 1 then { c with shards := fun _ => 0 }
  else (moveLoop ω (assignOrphans ω c)).2

/-- The text of the `log.Fatalf` for the first server name that a joining group
shares with a group of the configuration, if there is one. -/
def sharedServer (ω : RangeOrder Tgid) (cfg : ShardConfig) (gid : Tgid) (servers : List String) :
    Option String :=
  (ω.order cfg.groups.keys).findSome? fun xgid =>
    (getD cfg.groups xgid []).findSome? fun s1 =>
      servers.findSome? fun s2 =>
        if s1 = s2 then some s!"Join({gid}) puts server {s1} in groups {xgid} and {gid}" else none

/-- The loop of `join` over the joining groups. A re-join returns `false` from
inside the loop, with the groups before it already added. -/
def joinLoop (ω : Nat → RangeOrder Tgid) (servers : GoMap Tgid (List String)) :
    Nat → List Tgid → Bool → ShardConfig → Except String (Bool × ShardConfig)
  | _, [], changed, cfg =>
    if changed = false then .error "Join but no change"
    else .ok (true, { cfg with num := cfg.num + 1 })
  | k, gid :: rest, _, cfg =>
    if gid ∈ cfg.groups then .ok (false, cfg)
    else
      match sharedServer (ω k) cfg gid (getD servers gid []) with
      | some msg => .error msg
      | none => joinLoop ω servers (k + 1) rest true
          { cfg with groups := cfg.groups.insert gid (getD servers gid []) }

def join (ω : Nat → RangeOrder Tgid) (servers : GoMap Tgid (List String)) (cfg : ShardConfig) :
    Except String (Bool × ShardConfig) :=
  joinLoop ω servers 1 ((ω 0).order servers.keys) false cfg

/-- The loop of `leave`; an unknown group returns `false` from inside it. -/
def leaveLoop : List Tgid → Bool → ShardConfig → Except String (Bool × ShardConfig)
  | [], changed, cfg =>
    if changed = false then .error "Leave but no change"
    else .ok (true, { cfg with num := cfg.num + 1 })
  | gid :: rest, _, cfg =>
    if gid ∈ cfg.groups then leaveLoop rest true { cfg with groups := cfg.groups.erase gid }
    else .ok (false, cfg)

def leave (gids : List Tgid) (cfg : ShardConfig) : Except String (Bool × ShardConfig) :=
  leaveLoop gids false cfg

/-- `joinBalance` makes the range choices `ω 0` inside `join` and `ω 1` inside `rebalance`. -/
def joinBalance (ω : Nat → Nat → RangeOrder Tgid) (servers : GoMap Tgid (List String))
    (cfg : ShardConfig) : Except String (Bool × ShardConfig) :=
  match join (ω 0) servers cfg with
  | .ok (true, cfg) => .ok (true, rebalance (ω 1) cfg)
  | .ok (false, cfg) => .ok (false, cfg)
  | .error msg => .error msg

def leaveBalance (ω : Nat → RangeOrder Tgid) (gids : List Tgid) (cfg : ShardConfig) :
    Except String (Bool × ShardConfig) :=
  match leave gids cfg with
  | .ok (true, cfg) => .ok (true, rebalance ω cfg)
  | .ok (false, cfg) => .ok (false, cfg)
  | .error msg => .error msg

/-- The group of a shard and its servers; `none` is the panic of an index out of range. -/
def gidServers (cfg : ShardConfig) (sh : Tshid) : Option (Tgid × List String × Bool) :=
  if h : 0 ≤ sh ∧ sh < NShards then
    let gid := cfg.shards ⟨sh.toNat, (Int.toNat_lt h.1).mpr h.2⟩
    some (gid, getD cfg.groups gid [], decide (gid ∈ cfg.groups))
  else none

def isMember (cfg : ShardConfig) (gid : Tgid) : Bool :=
  (List.ofFn cfg.shards).any fun g => g == gid

/-- The loop of `checkConfig` for the largest and the smallest number of shards. -/
def countRange (ω : RangeOrder Tgid) (cfg : ShardConfig) : Int × Int :=
  (ω.order cfg.groups.keys).foldl (fun m g =>
    let n := getD (counts cfg) g 0
    (if n > m.1 then n else m.1, if n < m.2 then n else m.2)) (0, 257)

def checkConfig (ω : RangeOrder Tgid) (cfg : ShardConfig) (groups : List Tgid) :
    Except String Unit :=
  let want := groups.length
  let got := cfg.groups.keys.length
  if got ≠ want then .error s!"wanted {want} groups, got {got}"
  else match groups.find? fun g => g ∉ cfg.groups with
    | some g => .error s!"missing group {g}"
    | none =>
      let invalid := if 0 < want then
        (List.finRange NShards).find? fun s => cfg.shards s ∉ cfg.groups else none
      match invalid with
      | some s =>
        let g := cfg.shards s
        .error s!"shard {s} -> invalid group {g}"
      | none =>
        let max := (countRange ω cfg).1
        let min := (countRange ω cfg).2
        if max > min + 1 then .error s!"max {max} too much larger than min {min}" else .ok ()

end ShardCfg
