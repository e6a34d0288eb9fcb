import DistLabs.NetCalls
import DistLabs.ShardOrder

/-!
# Concurrent controllers of the sharded tests

The goroutines of `concurCtrler`: each takes a new gid, lets that group join and, if
it became a member, leave again, all of them at the same time and through controllers
of their own. A change starts from the configuration that `Query` returned, on a copy
of it, and goes to `ChangeConfigTo`.

The controller itself is not part of the repository. `Query` returns anything, and any
configuration becomes the current one at any moment; what is expected of a controller is
said by `QueryFits` and `InstallFits`. It need not be exact: `Query` may return an old
configuration, but not one that is older than what the same controller has returned.
-/
namespace ShardCtrlers

open Runs GoMaps ShardCfg Tester

def Gid1 : Tgid := 1

/-- The number of servers of a group. -/
def NSRV : Nat := 3

def srvNames (gid : Tgid) : List String := (List.range NSRV).map (serverName gid)

/-- Which group a change is about. -/
inductive Change where
  | join (gid : Tgid)
  | leave (gid : Tgid)
  deriving DecidableEq

def Change.gid : Change → Tgid
  | .join gid => gid
  | .leave gid => gid

/-- A call `ChangeConfigTo(new)`, and what it was computed from. -/
structure Proposal where
  old : ShardConfig
  change : Change
  new : ShardConfig

/-- Where a goroutine is with its gid: it has called `join`, `joinGroups` has checked that, it
has found its group to be a member, it has called `leave`. -/
inductive Phase where
  | select
  | made (gid : Tgid)
  | joined (gid : Tgid)
  | checked (gid : Tgid)
  | member (gid : Tgid)
  | left (gid : Tgid)
  | ended
  | fatal (msg : String)
  deriving DecidableEq

/-- A goroutine. Not in the source: `seen` is the number of the configuration that `Query` has
returned last through its present controller. -/
structure Ctrler where
  phase : Phase
  seen : Tnum
  deriving DecidableEq

/-- The goroutines, and what they have passed to `ChangeConfigTo`. Not in the source: `cur` is
the current configuration of the service, and `past` those before it. -/
structure Test where
  past : List ShardConfig
  cur : ShardConfig
  proposals : List Proposal
  ngid : Tgid
  ctrlers : List Ctrler

def Test.start (first : ShardConfig) (ctrlers : Nat) : Test :=
  ⟨[], first, [], Gid1 + 1, List.replicate ctrlers ⟨.select, 0⟩⟩

def Test.installed (s : Test) : List ShardConfig := s.past ++ [s.cur]

/-- A goroutine goes on, given what `Query` returns, or a configuration is installed. -/
inductive Act where
  | stop (c : Nat)
  | newGid (c : Nat)
  | join (c : Nat) (cfg : ShardConfig) (ω : Nat → Nat → RangeOrder Tgid)
  | checkJoined (c : Nat) (cfg : ShardConfig)
  | checkMember (c : Nat) (cfg : ShardConfig)
  | leave (c : Nat) (cfg : ShardConfig) (ω : Nat → RangeOrder Tgid)
  | checkLeft (c : Nat) (cfg : ShardConfig)
  | install (cfg : ShardConfig)

def Test.go (s : Test) (c : Nat) (phase : Phase) (seen : Tnum) : Test :=
  { s with ctrlers := s.ctrlers.set c ⟨phase, seen⟩ }

/-- The outcome of `JoinBalance` or `LeaveBalance` on a copy of `cfg`. -/
def Test.propose (s : Test) (c : Nat) (cfg : ShardConfig) (change : Change) (next : Phase)
    (refused : String) : Except String (Bool × ShardConfig) → Test
  | .ok (true, new) => { s with
      proposals := s.proposals ++ [⟨cfg, change, new⟩]
      ctrlers := s.ctrlers.set c ⟨next, cfg.num⟩ }
  | .ok (false, _) => s.go c (.fatal refused) cfg.num
  | .error msg => s.go c (.fatal msg) cfg.num

def Test.step (s : Test) : Act → Option Test
  | .stop c =>
    match s.ctrlers[c]? with
    | some ⟨.select, seen⟩ => some (s.go c .ended seen)
    | _ => none
  | .newGid c =>
    match s.ctrlers[c]? with
    | some ⟨.select, _⟩ => some { s.go c (.made s.ngid) 0 with ngid := s.ngid + 1 }
    | _ => none
  | .join c cfg ω =>
    match s.ctrlers[c]? with
    | some ⟨.made gid, _⟩ => some (s.propose c cfg (.join gid) (.joined gid)
        s!"join: group {gid} is already present"
        (joinBalance ω (literal [(gid, srvNames gid)]) cfg))
    | _ => none
  | .checkJoined c cfg =>
    -- what joinGroups returns is not looked at
    match s.ctrlers[c]? with
    | some ⟨.joined gid, _⟩ => some (s.go c (.checked gid) cfg.num)
    | _ => none
  | .checkMember c cfg =>
    match s.ctrlers[c]? with
    | some ⟨.checked gid, _⟩ =>
      some (s.go c (if isMember cfg gid then .member gid else .select) cfg.num)
    | _ => none
  | .leave c cfg ω =>
    match s.ctrlers[c]? with
    | some ⟨.member gid, _⟩ => some (s.propose c cfg (.leave gid) (.left gid)
        s!"leave: group {gid} is already not present" (leaveBalance ω [gid] cfg))
    | _ => none
  | .checkLeft c cfg =>
    match s.ctrlers[c]? with
    | some ⟨.left _, _⟩ => some (s.go c .select cfg.num)
    | _ => none
  | .install cfg => some { s with past := s.installed, cur := cfg }

/-! ## What is expected of a controller -/

/-- What `Query` returns through a goroutine's controller. -/
def Act.answer : Act → Option (Nat × ShardConfig)
  | .join c cfg _ | .checkJoined c cfg | .checkMember c cfg | .leave c cfg _ | .checkLeft c cfg =>
    some (c, cfg)
  | .stop _ | .newGid _ | .install _ => none

/-- `Query` returns a configuration that is or was the current one, and none that is older than
one that it has returned through the same controller. -/
def Test.QueryFits (s : Test) (a : Act) : Prop :=
  ∀ q ∈ a.answer, q.2 ∈ s.installed ∧ ∀ x ∈ s.ctrlers[q.1]?, x.seen ≤ q.2.num

def Act.installs : Act → Option ShardConfig
  | .install cfg => some cfg
  | _ => none

/-- What becomes the current configuration was passed to `ChangeConfigTo` by some goroutine and
has the next number. -/
def Test.InstallFits (s : Test) (a : Act) : Prop :=
  ∀ cfg ∈ a.installs, (∃ p ∈ s.proposals, p.new = cfg) ∧ cfg.num = s.cur.num + 1

theorem config_eq_iff (c c' : ShardConfig) :
    (c.num = c'.num ∧ c.shards = c'.shards ∧ c.groups.entries = c'.groups.entries) ↔ c = c' := by
  constructor
  · rintro ⟨hnum, hshards, hgroups⟩
    have hmaps : c.groups = c'.groups := AList.ext hgroups
    cases c
    cases c'
    simp_all
  · rintro rfl
    exact ⟨rfl, rfl, rfl⟩

instance : DecidableEq ShardConfig := fun c c' => decidable_of_iff _ (config_eq_iff c c')

instance (s : Test) (a : Act) : Decidable (s.QueryFits a) :=
  inferInstanceAs (Decidable (∀ q ∈ a.answer, _))

instance (s : Test) (a : Act) : Decidable (s.InstallFits a) :=
  inferInstanceAs (Decidable (∀ cfg ∈ a.installs, _))

/-! ## What a change does -/

/-- The members after a change. -/
def Change.members (change : Change) (groups : Tgid → Option (List String)) (g : Tgid) :
    Option (List String) :=
  match change with
  | .join gid => if g = gid then some (srvNames gid) else groups g
  | .leave gid => if g = gid then none else groups g

theorem Change.members_of_ne {change : Change} {g : Tgid} (h : change.gid ≠ g)
    (groups : Tgid → Option (List String)) : change.members groups g = groups g := by
  cases change <;> simp_all [Change.members, Change.gid, Ne.symm]

/-- The proposal is a successful change of its configuration. -/
structure Proposal.Valid (p : Proposal) : Prop where
  call : ∃ call, Call.step p.old call = some p.new
  num : p.new.num = p.old.num + 1
  groups : ∀ g, p.new.groups.lookup g = p.change.members p.old.groups.lookup g

theorem srvNames_apart {g g' : Tgid} (h : g ≠ g') : ∀ s ∈ srvNames g, s ∉ srvNames g' := by
  intro s hs hs'
  obtain ⟨i, -, rfl⟩ := List.mem_map.mp hs
  obtain ⟨i', -, he⟩ := List.mem_map.mp hs'
  exact h (serverName_inj he).1.symm

theorem rebalance_num (ω : Nat → RangeOrder Tgid) (c : ShardConfig) :
    (rebalance ω c).num = c.num := by
  by_cases h : c.groups.keys = []
  · rw [rebalance_empty ω h]
  · exact (rebalance_spec ω h).1.num

/-- A group with a new gid can always join. -/
theorem join_valid (ω : Nat → Nat → RangeOrder Tgid) {gid : Tgid} {c : ShardConfig}
    (hnew : gid ∉ c.groups) (hnames : ∀ g srvs, c.groups.lookup g = some srvs → srvs = srvNames g) :
    ∃ new, joinBalance ω (literal [(gid, srvNames gid)]) c = .ok (true, new) ∧
      (⟨c, .join gid, new⟩ : Proposal).Valid := by
  have hkeys : (literal [(gid, srvNames gid)]).keys = [gid] := rfl
  have hlook : ∀ g, (literal [(gid, srvNames gid)]).lookup g =
      if g = gid then some (srvNames gid) else none := by
    intro g
    rw [literal, List.foldl_cons, List.foldl_nil, lookup_insert_apply]
    rfl
  have hservers : getD (literal [(gid, srvNames gid)]) gid [] = srvNames gid := by
    rw [getD, hlook, if_pos rfl]
    rfl
  have hjoinable : Joinable (literal [(gid, srvNames gid)]) [gid] c := by
    constructor
    · intro g hg
      rwa [List.mem_singleton.mp hg]
    · intro g hg x xservers hx
      rw [List.mem_singleton.mp hg, hservers, hnames x xservers hx]
      apply srvNames_apart
      rintro rfl
      exact hnew (mem_of_lookup hx)
    · intro g hg g' hg' hne
      exact absurd ((List.mem_singleton.mp hg).trans (List.mem_singleton.mp hg').symm) hne
  obtain ⟨new, hok⟩ := (joinBalance_true_iff ω (literal [(gid, srvNames gid)]) c).mpr
    (hkeys ▸ ⟨List.cons_ne_nil _ _, hjoinable⟩)
  refine ⟨new, hok, ⟨.join ω (literal [(gid, srvNames gid)]), ?_⟩, ?_, ?_⟩
  · simp [Call.step, Call.exec, hok]
  · obtain ⟨j, rfl, hnum, -⟩ := joinBalance_true hok
    exact (rebalance_num _ j).trans hnum
  · obtain ⟨j, rfl, -, -, -, -, hgroups⟩ := joinBalance_true hok
    intro g
    have hmem : g ∈ literal [(gid, srvNames gid)] ↔ g = gid := by
      rw [AList.mem_keys, hkeys, List.mem_singleton]
    simp only [rebalance_groups, hgroups, hmem, Change.members, hlook]
    split <;> rfl

/-- A member can leave. -/
theorem leave_valid (ω : Nat → RangeOrder Tgid) {gid : Tgid} {c : ShardConfig}
    (hmem : gid ∈ c.groups) :
    ∃ new, leaveBalance ω [gid] c = .ok (true, new) ∧ (⟨c, .leave gid, new⟩ : Proposal).Valid := by
  obtain ⟨new, hok⟩ : ∃ new, leaveBalance ω [gid] c = .ok (true, new) := by
    simp [leaveBalance, leave, leaveLoop, hmem]
  refine ⟨new, hok, ⟨.leave ω [gid], ?_⟩, ?_, ?_⟩
  · simp [Call.step, Call.exec, hok]
  · obtain ⟨j, rfl, hnum, -⟩ := leaveBalance_true hok
    exact (rebalance_num _ j).trans hnum
  · obtain ⟨j, rfl, -, -, hgroups⟩ := leaveBalance_true hok
    intro g
    simp only [rebalance_groups, hgroups, Change.members, List.mem_singleton]

/-! ## The invariant -/

/-- The gid that the goroutine works on. -/
def Phase.gid : Phase → Option Tgid
  | .made gid | .joined gid | .checked gid | .member gid | .left gid => some gid
  | .select | .ended | .fatal _ => none

/-- The gid that the goroutine has let join and not yet leave. -/
def Phase.stays : Phase → Option Tgid
  | .joined gid | .checked gid | .member gid => some gid
  | _ => none

theorem Phase.gid_of_stays {phase : Phase} {g : Tgid} (h : phase.stays = some g) :
    phase.gid = some g := by
  cases phase <;> simp_all [Phase.stays, Phase.gid]

/-- No two goroutines work on one gid. -/
def Own (ctrlers : List Ctrler) : Prop :=
  ∀ (c d : Nat) x y g, ctrlers[c]? = some x → ctrlers[d]? = some y →
    x.phase.gid = some g → y.phase.gid = some g → c = d

/-- Every configuration that was installed is the result of successful joins and leaves, and so
is every proposal. -/
structure Test.Configs (s : Test) : Prop where
  history : ∀ cfg ∈ s.installed, ∃ calls, run Call.step makeShardConfig calls = some cfg
  names : ∀ cfg ∈ s.installed, ∀ g srvs, cfg.groups.lookup g = some srvs → srvs = srvNames g
  newest : ∀ cfg ∈ s.past, cfg.num < s.cur.num
  valid : ∀ p ∈ s.proposals, p.Valid
  basis : ∀ p ∈ s.proposals, p.old ∈ s.installed
  lasting : ∀ g, (∀ p ∈ s.proposals, p.change ≠ .leave g) →
    ∀ cfg ∈ s.installed, ∀ cfg' ∈ s.installed, cfg.num ≤ cfg'.num →
      g ∈ cfg.groups → g ∈ cfg'.groups

/-- A gid is used by one goroutine, which first joins and then leaves with it. -/
structure Test.Gids (s : Test) : Prop where
  first : Gid1 < s.ngid
  current : ∀ cfg ∈ s.installed, ∀ g ∈ cfg.groups, g < s.ngid
  proposed : ∀ p ∈ s.proposals, p.change.gid < s.ngid
  taken : ∀ x ∈ s.ctrlers, ∀ g, x.phase.gid = some g → Gid1 < g ∧ g < s.ngid
  own : Own s.ctrlers
  fresh : ∀ x ∈ s.ctrlers, ∀ g, x.phase = .made g →
    (∀ cfg ∈ s.installed, g ∉ cfg.groups) ∧ ∀ p ∈ s.proposals, p.change.gid ≠ g
  stays : ∀ x ∈ s.ctrlers, ∀ g, x.phase.stays = some g → ∀ p ∈ s.proposals, p.change ≠ .leave g
  member : ∀ x ∈ s.ctrlers, ∀ g, x.phase = .member g →
    ∃ cfg ∈ s.installed, cfg.num ≤ x.seen ∧ g ∈ cfg.groups
  quiet : ∀ x ∈ s.ctrlers, ∀ msg, x.phase ≠ .fatal msg

theorem mem_installed {s : Test} {cfg : ShardConfig} :
    cfg ∈ s.installed ↔ cfg ∈ s.past ∨ cfg = s.cur := by
  simp [Test.installed]

theorem mem_set_cases {xs : List Ctrler} {c : Nat} {x y : Ctrler} (h : x ∈ xs.set c y) :
    x = y ∨ ∃ d, d ≠ c ∧ xs[d]? = some x := by
  obtain ⟨d, hd⟩ := List.getElem?_of_mem h
  rcases getElem?_set_cases hd with ⟨-, hx⟩ | ⟨hne, hx⟩
  · exact Or.inl hx
  · exact Or.inr ⟨d, hne, hx⟩

theorem Own.set {ctrlers : List Ctrler} (h : Own ctrlers) {c : Nat} {x y : Ctrler}
    (hx : ctrlers[c]? = some x) (hy : ∀ g, y.phase.gid = some g → x.phase.gid = some g) :
    Own (ctrlers.set c y) := by
  intro d e z z' g hd he hg hg'
  rcases getElem?_set_cases hd with ⟨rfl, rfl⟩ | ⟨hdc, hd'⟩ <;>
    rcases getElem?_set_cases he with ⟨rfl, rfl⟩ | ⟨hec, he'⟩
  · rfl
  · exact h d e x z' g hx he' (hy g hg) hg'
  · exact h d e z x g hd' hx hg (hy g hg')
  · exact h d e z z' g hd' he' hg hg'

/-- What a goroutine may become: it goes on with its gid, or stops working on it, and may have
proposed a change of it. -/
structure Goes (s : Test) (x y : Ctrler) (proposals : List Proposal) : Prop where
  gid : ∀ g, y.phase.gid = some g → x.phase.gid = some g
  proposed : ∀ p ∈ proposals, p ∈ s.proposals ∨ x.phase.gid = some p.change.gid
  made : ∀ g, y.phase ≠ .made g
  stays : ∀ g, y.phase.stays = some g → ∀ p ∈ proposals, p.change ≠ .leave g
  member : ∀ g, y.phase = .member g → ∃ cfg ∈ s.installed, cfg.num ≤ y.seen ∧ g ∈ cfg.groups
  quiet : ∀ msg, y.phase ≠ .fatal msg

/-- It stops working on its gid. -/
theorem Goes.idle {s : Test} {x y : Ctrler} (hgid : y.phase.gid = none)
    (hquiet : ∀ msg, y.phase ≠ .fatal msg) : Goes s x y s.proposals where
  gid := by simp [hgid]
  proposed := fun _ hp => Or.inl hp
  made := by
    intro g hmade
    simp [hmade, Phase.gid] at hgid
  stays := by
    intro g hg
    cases hphase : y.phase <;> simp_all [Phase.gid, Phase.stays]
  member := by
    intro g hmember
    simp [hmember, Phase.gid] at hgid
  quiet := hquiet

theorem Test.Gids.go {s : Test} (h : s.Gids) {c : Nat} {x y : Ctrler}
    (hx : s.ctrlers[c]? = some x) {proposals : List Proposal} (hgo : Goes s x y proposals) :
    Test.Gids { s with proposals := proposals, ctrlers := s.ctrlers.set c y } := by
  have hmem : x ∈ s.ctrlers := List.mem_of_getElem? hx
  -- the others work on other gids
  have hother : ∀ d z g, d ≠ c → s.ctrlers[d]? = some z → z.phase.gid = some g →
      x.phase.gid ≠ some g := by
    intro d z g hdc hd hg hgx
    exact hdc (h.own d c z x g hd hx hg hgx)
  refine ⟨h.first, h.current, ?_, ?_, h.own.set hx hgo.gid, ?_, ?_, ?_, ?_⟩
  · intro p hp
    rcases hgo.proposed p hp with hp | hp
    · exact h.proposed p hp
    · exact (h.taken x hmem _ hp).2
  · intro z hz g hg
    rcases mem_set_cases hz with rfl | ⟨d, -, hd⟩
    · exact h.taken x hmem g (hgo.gid g hg)
    · exact h.taken z (List.mem_of_getElem? hd) g hg
  · intro z hz g hg
    rcases mem_set_cases hz with rfl | ⟨d, hdc, hd⟩
    · exact absurd hg (hgo.made g)
    · obtain ⟨hnot, hnone⟩ := h.fresh z (List.mem_of_getElem? hd) g hg
      refine ⟨hnot, ?_⟩
      rintro p hp rfl
      rcases hgo.proposed p hp with hp | hp
      · exact hnone p hp rfl
      · exact hother d z _ hdc hd (by rw [hg]; rfl) hp
  · intro z hz g hg p hp hleave
    rcases mem_set_cases hz with rfl | ⟨d, hdc, hd⟩
    · exact hgo.stays g hg p hp hleave
    · rcases hgo.proposed p hp with hp | hp
      · exact h.stays z (List.mem_of_getElem? hd) g hg p hp hleave
      · rw [hleave] at hp
        exact hother d z g hdc hd (Phase.gid_of_stays hg) hp
  · intro z hz g hg
    rcases mem_set_cases hz with rfl | ⟨d, -, hd⟩
    · exact hgo.member g hg
    · exact h.member z (List.mem_of_getElem? hd) g hg
  · intro z hz msg
    rcases mem_set_cases hz with rfl | ⟨d, -, hd⟩
    · exact hgo.quiet msg
    · exact h.quiet z (List.mem_of_getElem? hd) msg

theorem Test.Gids.newGid {s : Test} (h : s.Gids) {c : Nat} {seen : Tnum}
    (hx : s.ctrlers[c]? = some ⟨.select, seen⟩) :
    Test.Gids { s.go c (.made s.ngid) 0 with ngid := s.ngid + 1 } := by
  have hless : ∀ {g : Tgid}, g < s.ngid → g < s.ngid + 1 :=
    fun hg => Int.lt_add_one_of_le (Int.le_of_lt hg)
  refine ⟨hless h.first, fun cfg hcfg g hg => hless (h.current cfg hcfg g hg),
    fun p hp => hless (h.proposed p hp), ?_, ?_, ?_, ?_, ?_, ?_⟩
  · intro z hz g hg
    rcases mem_set_cases hz with rfl | ⟨d, -, hd⟩
    · cases hg
      exact ⟨h.first, Int.lt_succ s.ngid⟩
    · obtain ⟨hlow, hhigh⟩ := h.taken z (List.mem_of_getElem? hd) g hg
      exact ⟨hlow, hless hhigh⟩
  · -- the new gid is above all that are in use
    have hnew : ∀ (d : Nat) z g, s.ctrlers[d]? = some z → z.phase.gid = some g → g ≠ s.ngid := by
      rintro d z g hd hg rfl
      exact Int.lt_irrefl _ (h.taken z (List.mem_of_getElem? hd) _ hg).2
    intro d e z z' g hd he hg hg'
    rcases getElem?_set_cases hd with ⟨rfl, rfl⟩ | ⟨hdc, hd'⟩ <;>
      rcases getElem?_set_cases he with ⟨rfl, rfl⟩ | ⟨hec, he'⟩
    · rfl
    · cases hg
      exact absurd rfl (hnew e z' _ he' hg')
    · cases hg'
      exact absurd rfl (hnew d z _ hd' hg)
    · exact h.own d e z z' g hd' he' hg hg'
  · intro z hz g hg
    rcases mem_set_cases hz with rfl | ⟨d, -, hd⟩
    · cases hg
      refine ⟨fun cfg hcfg hmem => Int.lt_irrefl _ (h.current cfg hcfg _ hmem), ?_⟩
      intro p hp he
      exact Int.lt_irrefl _ (he ▸ h.proposed p hp)
    · exact h.fresh z (List.mem_of_getElem? hd) g hg
  · intro z hz g hg
    rcases mem_set_cases hz with rfl | ⟨d, -, hd⟩
    · cases hg
    · exact h.stays z (List.mem_of_getElem? hd) g hg
  · intro z hz g hg
    rcases mem_set_cases hz with rfl | ⟨d, -, hd⟩
    · cases hg
    · exact h.member z (List.mem_of_getElem? hd) g hg
  · intro z hz msg
    rcases mem_set_cases hz with rfl | ⟨d, -, hd⟩
    · simp
    · exact h.quiet z (List.mem_of_getElem? hd) msg

/-- Only a change of the group itself touches its membership. -/
theorem Proposal.Valid.mem_iff {p : Proposal} (h : p.Valid) {g : Tgid} (hne : p.change.gid ≠ g) :
    g ∈ p.new.groups ↔ g ∈ p.old.groups := by
  rw [← AList.lookup_isSome, ← AList.lookup_isSome, h.groups g, Change.members_of_ne hne]

/-- Who can still leave is not a group that leaves. -/
theorem Proposal.Valid.mem_of_mem {p : Proposal} (h : p.Valid) {g : Tgid} (hg : g ∈ p.old.groups)
    (hnot : p.change ≠ .leave g) : g ∈ p.new.groups := by
  by_cases hne : p.change.gid = g
  · rw [← AList.lookup_isSome, h.groups g]
    cases hchange : p.change with
    | join gid =>
      rw [hchange] at hne
      simp [Change.members, ← hne, Change.gid]
    | leave gid =>
      rw [hchange] at hne hnot
      exact absurd (congrArg Change.leave hne) hnot
  · exact (h.mem_iff hne).mpr hg

theorem Test.Gids.install {s : Test} (h : s.Gids) {p : Proposal} (hp : p ∈ s.proposals)
    (hvalid : p.Valid) (hold : p.old = s.cur) :
    Test.Gids { s with past := s.installed, cur := p.new } := by
  have hcur : s.cur ∈ s.installed := mem_installed.mpr (Or.inr rfl)
  refine ⟨h.first, ?_, h.proposed, h.taken, h.own, ?_, h.stays, ?_, h.quiet⟩
  · intro cfg hcfg g hg
    rcases mem_installed.mp hcfg with hcfg | rfl
    · exact h.current cfg hcfg g hg
    · by_cases hne : p.change.gid = g
      · exact hne ▸ h.proposed p hp
      · exact h.current s.cur hcur g (hold ▸ (hvalid.mem_iff hne).mp hg)
  · intro x hx g hg
    obtain ⟨hnot, hnone⟩ := h.fresh x hx g hg
    refine ⟨?_, hnone⟩
    intro cfg hcfg hmem
    rcases mem_installed.mp hcfg with hcfg | rfl
    · exact hnot cfg hcfg hmem
    · exact hnot s.cur hcur (hold ▸ (hvalid.mem_iff (hnone p hp)).mp hmem)
  · intro x hx g hg
    obtain ⟨cfg, hcfg, hrest⟩ := h.member x hx g hg
    exact ⟨cfg, mem_installed.mpr (Or.inl hcfg), hrest⟩

/-- The next configuration is the current one after one more successful call. -/
theorem Test.Configs.install {s : Test} (h : s.Configs) {p : Proposal} (hp : p ∈ s.proposals)
    (hnum : p.new.num = s.cur.num + 1) :
    p.old = s.cur ∧ Test.Configs { s with past := s.installed, cur := p.new } := by
  have hvalid := h.valid p hp
  have hcur : s.cur ∈ s.installed := mem_installed.mpr (Or.inr rfl)
  have hsame : p.old.num = s.cur.num := (Int.add_left_inj 1).mp (hvalid.num.symm.trans hnum)
  have hold : p.old = s.cur := by
    rcases mem_installed.mp (h.basis p hp) with hpast | hcur
    · exact absurd hsame (Int.ne_of_lt (h.newest p.old hpast))
    · exact hcur
  have hle : ∀ cfg ∈ s.installed, cfg.num ≤ s.cur.num := by
    intro cfg hcfg
    rcases mem_installed.mp hcfg with hcfg | rfl
    · exact Int.le_of_lt (h.newest cfg hcfg)
    · exact Int.le_refl _
  refine ⟨hold, ?_, ?_, ?_, h.valid, ?_, ?_⟩
  · intro cfg hcfg
    rcases mem_installed.mp hcfg with hcfg | rfl
    · exact h.history cfg hcfg
    · obtain ⟨calls, hcalls⟩ := h.history s.cur hcur
      obtain ⟨call, hcall⟩ := hvalid.call
      exact ⟨calls ++ [call], run_concat_eq_some.mpr ⟨s.cur, hcalls, hold ▸ hcall⟩⟩
  · intro cfg hcfg g srvs hg
    rcases mem_installed.mp hcfg with hcfg | rfl
    · exact h.names cfg hcfg g srvs hg
    · rw [hvalid.groups g, hold] at hg
      by_cases hne : p.change.gid = g
      · cases hchange : p.change with
        | join gid =>
          rw [hchange] at hg hne
          simp only [Change.members, ← hne, Change.gid, if_true, Option.some.injEq] at hg ⊢
          exact hg.symm
        | leave gid =>
          rw [hchange] at hg hne
          simp [Change.members, ← hne, Change.gid] at hg
      · rw [Change.members_of_ne hne] at hg
        exact h.names s.cur hcur g srvs hg
  · intro cfg hcfg
    exact hnum ▸ Int.lt_add_one_of_le (hle cfg hcfg)
  · intro q hq
    exact mem_installed.mpr (Or.inl (h.basis q hq))
  · intro g hnone cfg hcfg cfg' hcfg' hnums hg
    rcases mem_installed.mp hcfg with hcfg | rfl
    · rcases mem_installed.mp hcfg' with hcfg' | rfl
      · exact h.lasting g hnone cfg hcfg cfg' hcfg' hnums hg
      · -- it was a member up to the configuration that the change starts from
        refine hvalid.mem_of_mem ?_ (hnone p hp)
        rw [hold]
        exact h.lasting g hnone cfg hcfg s.cur hcur (hle cfg hcfg) hg
    · rcases mem_installed.mp hcfg' with hcfg' | rfl
      · exact absurd (hnum ▸ hnums) (Int.not_le.mpr (Int.lt_add_one_of_le (hle cfg' hcfg')))
      · exact hg

theorem Test.Configs.go {s : Test} (h : s.Configs) (ngid : Tgid) (ctrlers : List Ctrler) :
    Test.Configs { s with ngid := ngid, ctrlers := ctrlers } :=
  ⟨h.history, h.names, h.newest, h.valid, h.basis, h.lasting⟩

theorem Test.Configs.propose {s : Test} (h : s.Configs) {p : Proposal}
    (hold : p.old ∈ s.installed) (hvalid : p.Valid) (ctrlers : List Ctrler) :
    Test.Configs { s with proposals := s.proposals ++ [p], ctrlers := ctrlers } := by
  refine ⟨h.history, h.names, h.newest, ?_, ?_, ?_⟩
  · intro q hq
    rcases List.mem_append.mp hq with hq | hq
    · exact h.valid q hq
    · rwa [List.mem_singleton.mp hq]
  · intro q hq
    rcases List.mem_append.mp hq with hq | hq
    · exact h.basis q hq
    · rwa [List.mem_singleton.mp hq]
  · intro g hnone
    exact h.lasting g fun q hq => hnone q (List.mem_append_left _ hq)

/-- A gid that owns shards is the gid of a member. -/
theorem Test.Configs.mem_of_isMember {s : Test} (h : s.Configs) {cfg : ShardConfig}
    (hcfg : cfg ∈ s.installed) {g : Tgid} (hpos : Gid1 < g) (hmember : isMember cfg g = true) :
    g ∈ cfg.groups := by
  obtain ⟨calls, hcalls⟩ := h.history cfg hcfg
  have hsound := Sound.of_run hcalls
  obtain ⟨shard, rfl⟩ := (Balance.load_pos_iff _ _).mp ((isMember_iff cfg g).mp hmember)
  by_cases hempty : cfg.groups.keys = []
  · rw [hsound.unassigned hempty shard] at hpos
    exact absurd hpos (by decide)
  · exact (hsound.balanced hempty).1 shard

/-- A group that was found to be a member is one in whatever `Query` returns later. -/
theorem Test.mem_of_member {s : Test} (hc : s.Configs) (hg : s.Gids) {x : Ctrler}
    (hx : x ∈ s.ctrlers) {g : Tgid} (hmember : x.phase = .member g) {cfg : ShardConfig}
    (hcfg : cfg ∈ s.installed) (hseen : x.seen ≤ cfg.num) : g ∈ cfg.groups := by
  obtain ⟨old, hold, hnum, hmem⟩ := hg.member x hx g hmember
  refine hc.lasting g (hg.stays x hx g ?_) old hold cfg hcfg (Int.le_trans hnum hseen) hmem
  rw [hmember]
  rfl

theorem mem_concat_cases {proposals : List Proposal} {p q : Proposal} {x : Ctrler}
    (hq : x.phase.gid = some q.change.gid) (hp : p ∈ proposals ++ [q]) :
    p ∈ proposals ∨ x.phase.gid = some p.change.gid := by
  rcases List.mem_append.mp hp with hp | hp
  · exact Or.inl hp
  · rw [List.mem_singleton.mp hp]
    exact Or.inr hq

/-- A new group is in no configuration that `Query` may return, so it can join. -/
theorem Test.inv_join {s : Test} (hc : s.Configs) (hg : s.Gids) {c : Nat} {gid : Tgid}
    {seen : Tnum} (hx : s.ctrlers[c]? = some ⟨.made gid, seen⟩) {cfg : ShardConfig}
    (hcfg : cfg ∈ s.installed) (ω : Nat → Nat → RangeOrder Tgid) (refused : String) {s' : Test}
    (hs' : s' = s.propose c cfg (.join gid) (.joined gid) refused
      (joinBalance ω (literal [(gid, srvNames gid)]) cfg)) : s'.Configs ∧ s'.Gids := by
  obtain ⟨hnew, hnone⟩ := hg.fresh _ (List.mem_of_getElem? hx) gid rfl
  obtain ⟨new, hok, hvalid⟩ := join_valid ω (hnew cfg hcfg) (hc.names cfg hcfg)
  rw [hs', hok]
  refine ⟨hc.propose hcfg hvalid _,
    hg.go hx ⟨fun _ hy => hy, fun p hp => mem_concat_cases rfl hp, by simp, ?_, by simp, by simp⟩⟩
  rintro g ⟨⟩ p hp hleave
  rcases List.mem_append.mp hp with hp | hp
  · exact hnone p hp (by rw [hleave]; rfl)
  · rw [List.mem_singleton.mp hp] at hleave
    cases hleave

theorem Test.inv_checkMember {s : Test} (hc : s.Configs) (hg : s.Gids) {c : Nat} {gid : Tgid}
    {seen : Tnum} (hx : s.ctrlers[c]? = some ⟨.checked gid, seen⟩) {cfg : ShardConfig}
    (hcfg : cfg ∈ s.installed) {s' : Test}
    (hs' : s' = s.go c (if isMember cfg gid then .member gid else .select) cfg.num) :
    s'.Configs ∧ s'.Gids := by
  have hmem := List.mem_of_getElem? hx
  rw [hs']
  refine ⟨hc.go _ _, ?_⟩
  by_cases hmember : isMember cfg gid = true
  · rw [if_pos hmember]
    refine hg.go hx ⟨fun _ hy => hy, fun _ hp => Or.inl hp, by simp, ?_, ?_, by simp⟩
    · rintro g ⟨⟩
      exact hg.stays _ hmem gid rfl
    · rintro g ⟨⟩
      have hpos := (hg.taken _ hmem gid rfl).1
      exact ⟨cfg, hcfg, Int.le_refl _, hc.mem_of_isMember hcfg hpos hmember⟩
  · rw [if_neg hmember]
    exact hg.go hx (.idle rfl (by simp))

/-- A group that was found to be a member can leave. -/
theorem Test.inv_leave {s : Test} (hc : s.Configs) (hg : s.Gids) {c : Nat} {gid : Tgid}
    {seen : Tnum} (hx : s.ctrlers[c]? = some ⟨.member gid, seen⟩) {cfg : ShardConfig}
    (hcfg : cfg ∈ s.installed) (hseen : seen ≤ cfg.num) (ω : Nat → RangeOrder Tgid)
    (refused : String) {s' : Test}
    (hs' : s' = s.propose c cfg (.leave gid) (.left gid) refused (leaveBalance ω [gid] cfg)) :
    s'.Configs ∧ s'.Gids := by
  have hmem : gid ∈ cfg.groups :=
    Test.mem_of_member hc hg (List.mem_of_getElem? hx) rfl hcfg hseen
  obtain ⟨new, hok, hvalid⟩ := leave_valid ω hmem
  rw [hs', hok]
  exact ⟨hc.propose hcfg hvalid _,
    hg.go hx ⟨fun _ hy => hy, fun p hp => mem_concat_cases rfl hp, by simp,
      by simp [Phase.stays], by simp, by simp⟩⟩

theorem Test.inv_step {s s' : Test} {a : Act} (hc : s.Configs) (hg : s.Gids)
    (hquery : s.QueryFits a) (hinstall : s.InstallFits a) (hstep : s.step a = some s') :
    s'.Configs ∧ s'.Gids := by
  cases a with
  | stop c =>
    simp only [Test.step] at hstep
    split at hstep
    · cases hstep
      exact ⟨hc.go _ _, hg.go ‹_› (.idle rfl (by simp))⟩
    · cases hstep
  | newGid c =>
    simp only [Test.step] at hstep
    split at hstep
    · cases hstep
      exact ⟨hc.go _ _, hg.newGid ‹_›⟩
    · cases hstep
  | join c cfg ω =>
    simp only [Test.step] at hstep
    split at hstep
    · rename_i gid seen hx
      obtain ⟨hcfg, -⟩ := hquery (c, cfg) rfl
      exact Test.inv_join hc hg hx hcfg ω _ (Option.some.inj hstep).symm
    · cases hstep
  | checkJoined c cfg =>
    simp only [Test.step] at hstep
    split at hstep
    · rename_i gid seen hx
      cases hstep
      refine ⟨hc.go _ _,
        hg.go hx ⟨fun _ hy => hy, fun _ hp => Or.inl hp, by simp, ?_, by simp, by simp⟩⟩
      rintro g ⟨⟩
      exact hg.stays _ (List.mem_of_getElem? hx) gid rfl
    · cases hstep
  | checkMember c cfg =>
    simp only [Test.step] at hstep
    split at hstep
    · rename_i gid seen hx
      obtain ⟨hcfg, -⟩ := hquery (c, cfg) rfl
      exact Test.inv_checkMember hc hg hx hcfg (Option.some.inj hstep).symm
    · cases hstep
  | leave c cfg ω =>
    simp only [Test.step] at hstep
    split at hstep
    · rename_i gid seen hx
      obtain ⟨hcfg, hlater⟩ := hquery (c, cfg) rfl
      exact Test.inv_leave hc hg hx hcfg (hlater _ hx) ω _ (Option.some.inj hstep).symm
    · cases hstep
  | checkLeft c cfg =>
    simp only [Test.step] at hstep
    split at hstep
    · cases hstep
      exact ⟨hc.go _ _, hg.go ‹_› (.idle rfl (by simp))⟩
    · cases hstep
  | install cfg =>
    cases hstep
    obtain ⟨⟨p, hp, rfl⟩, hnum⟩ := hinstall cfg rfl
    obtain ⟨hold, hconfigs⟩ := hc.install hp hnum
    exact ⟨hconfigs, hg.install hp (hc.valid p hp) hold⟩

/-- What holds at the start: the first group is a member. -/
theorem Test.inv_start {ω : Nat → Nat → RangeOrder Tgid} {first : ShardConfig}
    (hfirst : joinBalance ω (literal [(Gid1, srvNames Gid1)]) makeShardConfig = .ok (true, first))
    (ctrlers : Nat) : (Test.start first ctrlers).Configs ∧ (Test.start first ctrlers).Gids := by
  obtain ⟨new, hok, hvalid⟩ := join_valid ω (AList.notMem_empty Gid1) (c := makeShardConfig)
    (fun g srvs hg => by cases hg)
  obtain rfl : new = first := by
    rw [hfirst] at hok
    cases hok
    rfl
  have hmembers : ∀ g, new.groups.lookup g = if g = Gid1 then some (srvNames Gid1) else none :=
    hvalid.groups
  have honly : ∀ cfg ∈ (Test.start new ctrlers).installed, cfg = new := by
    intro cfg hcfg
    simpa [Test.start, mem_installed] using hcfg
  have hidle : ∀ x ∈ (Test.start new ctrlers).ctrlers, x = ⟨.select, 0⟩ :=
    fun x hx => List.eq_of_mem_replicate hx
  constructor
  · refine ⟨?_, ?_, by simp [Test.start], by simp [Test.start], by simp [Test.start], ?_⟩
    · intro cfg hcfg
      obtain ⟨call, hcall⟩ := hvalid.call
      exact ⟨[call], by simpa [honly cfg hcfg] using hcall⟩
    · intro cfg hcfg g srvs hg
      rw [honly cfg hcfg, hmembers g] at hg
      split at hg
      · rename_i he
        rw [he, Option.some.inj hg]
      · cases hg
    · intro g _ cfg hcfg cfg' hcfg' _ hg
      rwa [honly cfg' hcfg', ← honly cfg hcfg]
  · refine ⟨Int.lt_succ Gid1, ?_, by simp [Test.start], ?_, ?_, ?_, ?_, ?_, ?_⟩
    · intro cfg hcfg g hg
      rw [honly cfg hcfg, ← AList.lookup_isSome, hmembers g] at hg
      split at hg
      · rename_i he
        rw [he]
        exact Int.lt_succ Gid1
      · cases hg
    · intro x hx g hg
      rw [hidle x hx] at hg
      cases hg
    · intro c d x y g hc _ hg
      rw [hidle x (List.mem_of_getElem? hc)] at hg
      cases hg
    · intro x hx g hg
      rw [hidle x hx] at hg
      cases hg
    · intro x hx g hg
      rw [hidle x hx] at hg
      cases hg
    · intro x hx g hg
      rw [hidle x hx] at hg
      cases hg
    · intro x hx msg
      rw [hidle x hx]
      simp

/-- Any number of concurrent goroutines, over any controllers that keep to what is expected of
them: no goroutine ends in `log.Fatalf`, neither in `join` and `leave` nor in `Join` itself; and
every configuration that is ever installed is the result of successful joins and leaves, with the
servers of each group under their own names. -/
theorem ctrlers_never_fatal {ω : Nat → Nat → RangeOrder Tgid} {first : ShardConfig}
    (hfirst : joinBalance ω (literal [(Gid1, srvNames Gid1)]) makeShardConfig = .ok (true, first))
    {ctrlers : Nat} {acts : List Act} {s : Test}
    (hrun : run Test.step (Test.start first ctrlers) acts = some s)
    (hquery : Obeys Test.step (Test.start first ctrlers) Test.QueryFits acts)
    (hinstall : Obeys Test.step (Test.start first ctrlers) Test.InstallFits acts) :
    (∀ x ∈ s.ctrlers, ∀ msg, x.phase ≠ .fatal msg) ∧
      ∀ cfg ∈ s.installed, (∃ calls, run Call.step makeShardConfig calls = some cfg) ∧
        ∀ g srvs, cfg.groups.lookup g = some srvs → srvs = srvNames g := by
  have hobeys : Obeys Test.step (Test.start first ctrlers)
      (fun s a => s.QueryFits a ∧ s.InstallFits a) acts :=
    fun pre a post t he ht => ⟨hquery pre a post t he ht, hinstall pre a post t he ht⟩
  obtain ⟨hconfigs, hgids⟩ : s.Configs ∧ s.Gids := by
    refine run_induction_of_obeys (P := fun _ s => s.Configs ∧ s.Gids)
      (Test.inv_start hfirst ctrlers) ?_ hrun hobeys
    intro as t a t' _ ht hfits hstep
    exact Test.inv_step ht.1 ht.2 hfits.1 hfits.2 hstep
  exact ⟨hgids.quiet, fun cfg hcfg => ⟨hconfigs.history cfg hcfg, hconfigs.names cfg hcfg⟩⟩

/-- What a change leads to. -/
def changed : Except String (Bool × ShardConfig) → ShardConfig
  | .ok (_, new) => new
  | .error _ => makeShardConfig

def joinedWith (gid : Tgid) (cfg : ShardConfig) : ShardConfig :=
  changed (joinBalance (fun _ _ => .stored _) (literal [(gid, srvNames gid)]) cfg)

def leftBy (gid : Tgid) (cfg : ShardConfig) : ShardConfig :=
  changed (leaveBalance (fun _ => .stored _) [gid] cfg)

def config1 : ShardConfig := joinedWith Gid1 makeShardConfig
def config2 : ShardConfig := joinedWith 2 config1
def config3 : ShardConfig := leftBy 2 config2

/-- Two goroutines propose a join each, from the same configuration. The second one loses, is
shown the old configuration and then the new one, and stops; the first one goes on to leave. -/
def contest : List Act :=
  [.newGid 0, .newGid 1, .join 0 config1 (fun _ _ => .stored _),
   .join 1 config1 (fun _ _ => .stored _), .install config2, .checkJoined 1 config1,
   .checkJoined 0 config2, .checkMember 0 config2, .checkMember 1 config2,
   .leave 0 config2 (fun _ => .stored _), .stop 1, .install config3, .checkLeft 0 config3]

theorem config1_joined : joinBalance (fun _ _ => .stored _) (literal [(Gid1, srvNames Gid1)])
    makeShardConfig = .ok (true, config1) := rfl

theorem contest_run : (run Test.step (Test.start config1 2) contest).map (fun s =>
    (s.ctrlers.map (·.phase), s.cur, s.proposals.length)) =
      some ([.select, .ended], config3, 3) := by
  decide +kernel

theorem contest_never_fatal : ∃ s,
    run Test.step (Test.start config1 2) contest = some s ∧
    s.ctrlers.map (·.phase) = [.select, .ended] ∧ s.cur = config3 ∧ s.proposals.length = 3 ∧
    ∀ x ∈ s.ctrlers, ∀ msg, x.phase ≠ .fatal msg := by
  obtain ⟨s, hs, hlast⟩ := Option.map_eq_some_iff.mp contest_run
  simp only [Prod.mk.injEq] at hlast
  obtain ⟨hphases, hcur, hproposals⟩ := hlast
  refine ⟨s, hs, hphases, hcur, hproposals,
    (ctrlers_never_fatal config1_joined hs (.of_check ?_) (.of_check ?_)).1⟩
  · decide +kernel
  · decide +kernel

end ShardCtrlers
