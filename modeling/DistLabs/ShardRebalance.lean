import DistLabs.ShardCfg

/-!
# What rebalancing does

Both loops of `rebalance` are frugal reassignments of the shards: the first gives
every orphan to a least loaded group, the second takes from a most loaded group
for a least loaded one until no two groups differ by more than one. Everything
said about the result, its minimality included, follows from that.
-/
namespace ShardCfg

open GoMaps Balance

/-- The key set of `groups`. -/
def owners (c : ShardConfig) : Finset Tgid := c.groups.keys.toFinset

@[simp] theorem mem_owners (c : ShardConfig) (g : Tgid) : g ∈ owners c ↔ g ∈ c.groups := by
  rw [owners, List.mem_toFinset, AList.mem_keys]

/-- Every shard has a group, and any two groups' shard counts differ by at most one. -/
def Balanced (groups : GoMap Tgid (List String)) (shards : Fin NShards → Tgid) : Prop :=
  (∀ s, shards s ∈ groups) ∧ ∀ g ∈ groups, ∀ h ∈ groups, load shards g ≤ load shards h + 1

theorem Balanced.level {c : ShardConfig} {shards : Fin NShards → Tgid}
    (h : Balanced c.groups shards) : Level (owners c) shards :=
  fun g hg k hk => h.2 g ((mem_owners c g).mp hg) k ((mem_owners c k).mp hk)

/-- The state of the loop over the orphans before the shards of `todo` are visited. -/
structure Assigning (c : ShardConfig) (todo : List (Fin NShards)) (c' : ShardConfig) : Prop where
  num : c'.num = c.num
  groups : c'.groups = c.groups
  frugal : Frugal (owners c) c.shards c'.shards
  noneGave : ∀ g ∈ owners c, ¬ Gave c.shards c'.shards g
  visited : ∀ s, s ∉ todo → c'.shards s ∈ owners c
  unvisited : ∀ s ∈ todo, c'.shards s = c.shards s

theorem Assigning.start (c : ShardConfig) : Assigning c (List.finRange NShards) c := by
  refine ⟨rfl, rfl, Frugal.refl _ _, fun g _ ⟨s, h, h'⟩ => h' h, ?_, fun s _ => rfl⟩
  intro s hs
  exact absurd (List.mem_finRange s) hs

/-- A pass either finds its shard in order or hands it to a least loaded group. -/
theorem Assigning.pass {c c' : ShardConfig} {s : Fin NShards} {todo : List (Fin NShards)}
    (hne : c.groups.keys ≠ []) (hs : s ∉ todo) (h : Assigning c (s :: todo) c')
    (ω : Nat → RangeOrder Tgid) : Assigning c todo (assignPass ω c.shards c' s) := by
  have hcur := h.unvisited s (by simp)
  rw [assignPass, h.groups]
  by_cases hm : c.shards s ∈ c.groups
  · rw [if_pos hm]
    refine ⟨h.num, h.groups, h.frugal, h.noneGave, ?_, fun x hx => h.unvisited x (by simp [hx])⟩
    intro x hx
    by_cases he : x = s
    · subst he
      rw [hcur]
      simpa using hm
    · exact h.visited x (by simp [he, hx])
  · rw [if_neg hm]
    have hspec := analyze_spec (ω s) c' (by rwa [h.groups])
    rw [h.groups] at hspec
    have hlow : least (ω s) c' ∈ owners c := by
      rw [mem_owners]
      exact hspec.lgMem
    have hmin : ∀ k ∈ owners c, load c'.shards (least (ω s) c') ≤ load c'.shards k :=
      fun k hk => hspec.least k ((mem_owners c k).mp hk)
    have horphan : c.shards s ∉ owners c := by simpa using hm
    obtain ⟨hf, hn⟩ := h.frugal.adopt h.noneGave horphan (by rwa [hcur]) hlow hmin
    refine ⟨h.num, h.groups, hf, hn, ?_, ?_⟩
    · intro x hx
      by_cases he : x = s
      · subst he
        simpa [assign] using hlow
      · simpa [assign, he] using h.visited x (by simp [he, hx])
    · intro x hx
      have he : x ≠ s := by
        rintro rfl
        exact hs hx
      simpa [assign, he] using h.unvisited x (by simp [hx])

theorem Assigning.passes {c : ShardConfig} (hne : c.groups.keys ≠ []) (ω : Nat → RangeOrder Tgid)
    (todo : List (Fin NShards)) (hd : todo.Nodup) (c' : ShardConfig) (h : Assigning c todo c') :
    Assigning c [] (todo.foldl (assignPass ω c.shards) c') := by
  induction todo generalizing c' with
  | nil => exact h
  | cons s todo ih =>
    have hs := List.nodup_cons.mp hd
    exact ih hs.2 _ (h.pass hne hs.1 ω)

theorem assignOrphans_spec {c : ShardConfig} (hne : c.groups.keys ≠ [])
    (ω : Nat → RangeOrder Tgid) : Assigning c [] (assignOrphans ω c) :=
  Assigning.passes hne ω _ (List.nodup_finRange _) c (Assigning.start c)

/-- The state of the move loop, and, once it is level, the result of `rebalance`. -/
structure Moving (c c' : ShardConfig) : Prop where
  num : c'.num = c.num
  groups : c'.groups = c.groups
  frugal : Frugal (owners c) c.shards c'.shards
  valid : ∀ s, c'.shards s ∈ owners c

theorem Assigning.moving {c c' : ShardConfig} (h : Assigning c [] c') : Moving c c' :=
  ⟨h.num, h.groups, h.frugal, fun s => h.visited s (by simp)⟩

theorem Moving.pass {c : ShardConfig} {ω : Nat → RangeOrder Tgid} {p q : Nat × ShardConfig}
    (h : Moving c p.2) (hp : movePass ω p = some q) : Moving c q.2 := by
  obtain ⟨s, low, hhigh, hlow, hmax, hmin, hgap, rfl⟩ := movePass_cases hp
  rw [h.groups] at hhigh hlow hmax hmin
  simp only [← mem_owners c] at hhigh hlow hmax hmin
  refine ⟨h.num, h.groups, h.frugal.move hhigh hlow hmax hmin hgap, ?_⟩
  intro x
  by_cases hx : x = s
  · subst hx
    simpa [assign] using hlow
  · simpa [assign, hx] using h.valid x

/-- Where the move loop breaks no two groups differ by more than one. -/
theorem level_of_break {c : ShardConfig} {ω : Nat → RangeOrder Tgid} {p : Nat × ShardConfig}
    (hne : c.groups.keys ≠ []) (hg : p.2.groups = c.groups) (hp : movePass ω p = none) :
    Level (owners c) p.2.shards := by
  have hspec := analyze_spec (ω p.1) p.2 (by rwa [hg])
  rw [hg] at hspec
  have hbreak : (analyze (ω p.1) p.2).mn < (analyze (ω p.1) p.2).ln + 2 := by
    by_contra hb
    simp [movePass, hb] at hp
  intro g hgm k hkm
  have hmost := hspec.most g ((mem_owners c g).mp hgm)
  have hleast := hspec.least k ((mem_owners c k).mp hkm)
  have hmn := hspec.mnEq
  have hln := hspec.lnEq
  omega

theorem moveLoop_breaks (ω : Nat → RangeOrder Tgid) (c : ShardConfig) :
    ∃ n, Runs.BreaksAfter (movePass ω) n (NShards, c) (moveLoop ω c) := by
  obtain ⟨n, -, hn⟩ := Runs.loop_breaks (d := movePass_decreases ω) (NShards, c)
  exact ⟨n, hn⟩

theorem moveLoop_moving (ω : Nat → RangeOrder Tgid) {c c' : ShardConfig} (h : Moving c c') :
    Moving c (moveLoop ω c').2 :=
  Runs.loop_invariant (I := fun p : Nat × ShardConfig => Moving c p.2)
    (fun _ _ hm hp => hm.pass hp) h

theorem rebalance_nonempty (ω : Nat → RangeOrder Tgid) {c : ShardConfig}
    (hne : c.groups.keys ≠ []) : rebalance ω c = (moveLoop ω (assignOrphans ω c)).2 := by
  have hlen := List.length_pos_iff.mpr hne
  rw [rebalance, if_neg (by omega)]

theorem rebalance_spec (ω : Nat → RangeOrder Tgid) {c : ShardConfig} (hne : c.groups.keys ≠ []) :
    Moving c (rebalance ω c) ∧ Level (owners c) (rebalance ω c).shards := by
  have hm := moveLoop_moving ω (assignOrphans_spec hne ω).moving
  obtain ⟨n, -, hbreak⟩ := moveLoop_breaks ω (assignOrphans ω c)
  rw [rebalance_nonempty ω hne]
  exact ⟨hm, level_of_break hne hm.groups hbreak⟩

theorem rebalance_balanced (ω : Nat → RangeOrder Tgid) (c : ShardConfig)
    (hne : c.groups.keys ≠ []) : Balanced c.groups (rebalance ω c).shards := by
  obtain ⟨hm, hl⟩ := rebalance_spec ω hne
  constructor
  · intro s
    exact (mem_owners c _).mp (hm.valid s)
  · intro g hg k hk
    exact hl g ((mem_owners c g).mpr hg) k ((mem_owners c k).mpr hk)

theorem rebalance_moved_le (ω : Nat → RangeOrder Tgid) (c : ShardConfig)
    (hne : c.groups.keys ≠ []) {t : Fin NShards → Tgid} (ht : Balanced c.groups t) :
    moved c.shards (rebalance ω c).shards ≤ moved c.shards t := by
  obtain ⟨hm, hl⟩ := rebalance_spec ω hne
  exact hm.frugal.moved_le hm.valid hl (fun s => (mem_owners c _).mpr (ht.1 s)) ht.level

/-- A balanced configuration is its own cheapest balanced successor. -/
theorem rebalance_of_balanced (ω : Nat → RangeOrder Tgid) (c : ShardConfig)
    (hne : c.groups.keys ≠ []) (hb : Balanced c.groups c.shards) : rebalance ω c = c := by
  have hle := rebalance_moved_le ω c hne hb
  have hzero : moved c.shards c.shards = 0 := by simp [moved]
  have hsame : (rebalance ω c).shards = c.shards := by
    funext s
    by_contra hs
    have hpos : 0 < moved c.shards (rebalance ω c).shards :=
      Finset.card_pos.mpr ⟨s, by simpa using fun h => hs h.symm⟩
    omega
  obtain ⟨hm, -⟩ := rebalance_spec ω hne
  exact ShardConfig.ext hm.num hsame hm.groups

/-- `rebalance` terminates, keeps the number and the groups, ends with a balanced
assignment that changes as few shards as any balanced assignment does, leaves a
balanced configuration alone, and is idempotent. -/
theorem rebalance_correct_and_minimal (ω : Nat → RangeOrder Tgid) (c : ShardConfig)
    (hne : 1 ≤ c.groups.keys.length) :
    (∃ n k, Runs.BreaksAfter (movePass ω) n (NShards, assignOrphans ω c) (k, rebalance ω c)) ∧
    (rebalance ω c).num = c.num ∧ (rebalance ω c).groups = c.groups ∧
    Balanced c.groups (rebalance ω c).shards ∧
    IsLeast {n | ∃ t, Balanced c.groups t ∧ n = moved c.shards t}
      (moved c.shards (rebalance ω c).shards) ∧
    (Balanced c.groups c.shards → rebalance ω c = c) ∧
    ∀ ω', rebalance ω' (rebalance ω c) = rebalance ω c := by
  have hne' : c.groups.keys ≠ [] := List.length_pos_iff.mp hne
  obtain ⟨hm, -⟩ := rebalance_spec ω hne'
  have hb := rebalance_balanced ω c hne'
  obtain ⟨n, hn⟩ := moveLoop_breaks ω (assignOrphans ω c)
  refine ⟨⟨n, _, by rw [rebalance_nonempty ω hne']; exact hn⟩, hm.num, hm.groups, hb,
    ⟨⟨_, hb, rfl⟩, ?_⟩, rebalance_of_balanced ω c hne', ?_⟩
  · rintro n ⟨t, ht, rfl⟩
    exact rebalance_moved_le ω c hne' ht
  · intro ω'
    apply rebalance_of_balanced
    · rwa [hm.groups]
    · rwa [hm.groups]

/-- Two groups, of which one is new, and eight shards left behind by a departed group. -/
def lopsided : ShardConfig :=
  ⟨7, fun s => if s.val < 4 then 1 else 9, literal [(1, ["x"]), (2, ["a", "b"])]⟩

theorem rebalance_lopsided :
    Balanced lopsided.groups (rebalance (fun _ => .stored _) lopsided).shards ∧
      IsLeast {n | ∃ t, Balanced lopsided.groups t ∧ n = moved lopsided.shards t}
        (moved lopsided.shards (rebalance (fun _ => .stored _) lopsided).shards) :=
  have h := rebalance_correct_and_minimal (fun _ => .stored _) lopsided (by decide)
  ⟨h.2.2.2.1, h.2.2.2.2.1⟩

end ShardCfg
