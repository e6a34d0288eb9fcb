import DistLabs.ShardHistory

/-!
# The order in which Go visits its maps

Two configurations are the same for a Go program if they have the same number,
shards and map lookups; the representations of their maps may still differ by
the order in which groups were inserted. Sorting the groups before `analyze`
looks at them makes `rebalance` independent of all orders, and a `join` that goes
through checks conditions that do not depend on the order either.

A `join` or `leave` that fails half way has already changed the configuration.
Whether it does can depend on the order.
-/
namespace ShardCfg

open GoMaps Balance

/-! ## Equal configurations -/

/-- What a Go program can see of two configurations is the same. -/
structure Same (c c' : ShardConfig) : Prop where
  num : c'.num = c.num
  shards : c'.shards = c.shards
  groups : ∀ g, c'.groups.lookup g = c.groups.lookup g

theorem Same.refl (c : ShardConfig) : Same c c := ⟨rfl, rfl, fun _ => rfl⟩

theorem Same.mem {c c' : ShardConfig} (h : Same c c') (g : Tgid) :
    g ∈ c'.groups ↔ g ∈ c.groups := by
  rw [← AList.lookup_isSome, ← AList.lookup_isSome, h.groups g]

theorem Same.keys_perm {c c' : ShardConfig} (h : Same c c') :
    c'.groups.keys.Perm c.groups.keys := GoMaps.keys_perm h.groups

theorem Same.assign {c c' : ShardConfig} (h : Same c c') (s : Fin NShards) (g : Tgid) :
    Same (assign c s g) (assign c' s g) :=
  ⟨h.num, by simp only [ShardCfg.assign, h.shards], h.groups⟩

/-- `analyze` sorts the groups, so it sees them in one order. -/
theorem Same.analyze {c c' : ShardConfig} (h : Same c c') (ω ω' : RangeOrder Tgid) :
    analyze ω' c' = analyze ω c := by
  have hcounts : counts c' = counts c := by rw [counts, counts, h.shards]
  have hvisit : Extremes.visit c' = Extremes.visit c := by
    funext e g
    rw [Extremes.visit, Extremes.visit, hcounts]
  have hsort : c'.groups.keys.insertionSort (· ≤ ·) = c.groups.keys.insertionSort (· ≤ ·) :=
    List.Perm.eq_of_pairwise' (List.pairwise_insertionSort _ _) (List.pairwise_insertionSort _ _)
      (((List.perm_insertionSort _ _).trans h.keys_perm).trans (List.perm_insertionSort _ _).symm)
  rw [ShardCfg.analyze, ShardCfg.analyze, RangeOrder.sort_order, RangeOrder.sort_order, hsort,
    hvisit]

theorem Same.assignPass {c c' : ShardConfig} (h : Same c c') (ω ω' : Nat → RangeOrder Tgid)
    (old : Fin NShards → Tgid) (s : Fin NShards) :
    Same (assignPass ω old c s) (assignPass ω' old c' s) := by
  simp only [ShardCfg.assignPass, h.mem, least, h.analyze (ω s) (ω' s)]
  split
  · exact h
  · exact h.assign s _

theorem Same.assignOrphans {c c' : ShardConfig} (h : Same c c') (ω ω' : Nat → RangeOrder Tgid) :
    Same (assignOrphans ω c) (assignOrphans ω' c') := by
  rw [ShardCfg.assignOrphans, ShardCfg.assignOrphans, h.shards]
  generalize List.finRange NShards = todo
  generalize c.shards = old
  induction todo generalizing c c' with
  | nil => exact h
  | cons s todo ih => exact ih (h.assignPass ω ω' old s)

theorem Same.moveOne {c c' : ShardConfig} (h : Same c c') (mg lg : Tgid) :
    Same (moveOne c mg lg) (moveOne c' mg lg) := by
  simp only [ShardCfg.moveOne, h.shards]
  split
  · exact h.assign _ lg
  · exact h

/-- `rebalance` makes the same of the same configuration, whatever the orders. -/
theorem Same.rebalance {c c' : ShardConfig} (h : Same c c') (ω ω' : Nat → RangeOrder Tgid) :
    Same (rebalance ω c) (rebalance ω' c') := by
  have hmove : ∀ d d' : ShardConfig, Same d d' → Same (moveLoop ω d).2 (moveLoop ω' d').2 := by
    intro d d' hd
    refine Runs.loop_related (R := fun p p' : Nat × ShardConfig => Same p.2 p'.2) ?_ hd
    intro p p' hp
    simp only [movePass, hp.analyze (ω p.1) (ω' p'.1)]
    split
    · exact Or.inl ⟨rfl, rfl⟩
    · exact Or.inr ⟨_, _, rfl, rfl, hp.moveOne _ _⟩
  simp only [ShardCfg.rebalance, h.keys_perm.length_eq]
  split
  · exact ⟨h.num, rfl, h.groups⟩
  · exact hmove _ _ (h.assignOrphans ω ω')

/-! ## When a join goes through -/

/-- No server name is shared by two different groups. -/
def Apart (groups : Tgid → Option (List String)) : Prop :=
  ∀ g g' servers servers', g ≠ g' → groups g = some servers → groups g' = some servers' →
    ∀ s ∈ servers, s ∉ servers'

/-- The groups of a configuration and the joining ones together. -/
def joined (c : ShardConfig) (servers : GoMap Tgid (List String)) (g : Tgid) :
    Option (List String) :=
  if g ∈ servers then servers.lookup g else c.groups.lookup g

theorem lookup_eq_some_getD {m : GoMap Tgid (List String)} {g : Tgid} (h : g ∈ m) :
    m.lookup g = some (getD m g []) := by
  obtain ⟨v, hv⟩ := Option.isSome_iff_exists.mp (AList.lookup_isSome.mpr h)
  simp [getD, hv]

theorem mem_of_lookup {m : GoMap Tgid (List String)} {g : Tgid} {servers : List String}
    (h : m.lookup g = some servers) : g ∈ m := by
  rw [← AList.lookup_isSome, h]
  rfl

/-- `Join` finds no shared server name: the joining group is disjoint from all groups of the
configuration. -/
theorem sharedServer_eq_none_iff (ω : RangeOrder Tgid) (c : ShardConfig) (gid : Tgid)
    (servers : List String) :
    sharedServer ω c gid servers = none ↔
      ∀ x xservers, c.groups.lookup x = some xservers → ∀ s ∈ xservers, s ∉ servers := by
  simp only [sharedServer, List.findSome?_eq_none_iff, RangeOrder.mem_order, ← AList.mem_keys,
    ite_eq_right_iff, reduceCtorEq, imp_false]
  constructor
  · intro h x xservers hx s hs hs'
    have hD : getD c.groups x [] = xservers := by simp [getD, hx]
    exact h x (mem_of_lookup hx) s (hD ▸ hs) s hs' rfl
  · rintro h x hx s hs _ hs' rfl
    exact h x _ (lookup_eq_some_getD hx) s hs hs'

/-- What the loop of `join` needs in order to run to its end. -/
structure Joinable (servers : GoMap Tgid (List String)) (gids : List Tgid) (c : ShardConfig) :
    Prop where
  fresh : ∀ g ∈ gids, g ∉ c.groups
  apart : ∀ g ∈ gids, ∀ x xservers, c.groups.lookup x = some xservers →
    ∀ s ∈ xservers, s ∉ getD servers g []
  distinct : ∀ g ∈ gids, ∀ g' ∈ gids, g ≠ g' → ∀ s ∈ getD servers g [], s ∉ getD servers g' []

/-- The configuration with one group more. -/
def addGroup (c : ShardConfig) (g : Tgid) (servers : List String) : ShardConfig :=
  { c with groups := c.groups.insert g servers }

theorem joinable_cons {servers : GoMap Tgid (List String)} {gid : Tgid} {rest : List Tgid}
    {c : ShardConfig} (hgid : gid ∉ rest) :
    Joinable servers (gid :: rest) c ↔
      gid ∉ c.groups ∧
      (∀ x xservers, c.groups.lookup x = some xservers → ∀ s ∈ xservers, s ∉ getD servers gid []) ∧
      Joinable servers rest (addGroup c gid (getD servers gid [])) := by
  have hlook := lookup_insert_apply c.groups gid
  constructor
  · rintro ⟨hfresh, hapart, hdistinct⟩
    refine ⟨hfresh gid (by simp), hapart gid (by simp), ?_, ?_, ?_⟩
    · intro g hg hmem
      rcases AList.mem_insert _ |>.mp hmem with rfl | hmem
      · exact hgid hg
      · exact hfresh g (by simp [hg]) hmem
    · intro g hg x xservers hx
      rw [addGroup, hlook] at hx
      split at hx
      · cases hx
        exact hdistinct gid (by simp) g (by simp [hg]) fun he => hgid (he ▸ hg)
      · exact hapart g (by simp [hg]) x xservers hx
    · intro g hg g' hg'
      exact hdistinct g (by simp [hg]) g' (by simp [hg'])
  · rintro ⟨hnew, hnames, hfresh, hapart, hdistinct⟩
    have hfirst : ∀ g ∈ rest, ∀ s ∈ getD servers gid [], s ∉ getD servers g [] := by
      intro g hg
      exact hapart g hg gid _ (by rw [addGroup, hlook, if_pos rfl])
    refine ⟨?_, ?_, ?_⟩
    · intro g hg
      rcases List.mem_cons.mp hg with rfl | hg
      · exact hnew
      · exact fun hmem => hfresh g hg (AList.mem_insert _ |>.mpr (Or.inr hmem))
    · intro g hg x xservers hx
      rcases List.mem_cons.mp hg with rfl | hg
      · exact hnames x xservers hx
      · refine hapart g hg x xservers ?_
        have hne : x ≠ gid := fun he => hnew (he ▸ mem_of_lookup hx)
        rw [addGroup, hlook, if_neg hne]
        exact hx
    · intro g hg g' hg' hne
      rcases List.mem_cons.mp hg with rfl | hr <;> rcases List.mem_cons.mp hg' with rfl | hr'
      · exact absurd rfl hne
      · exact hfirst g' hr'
      · exact fun s hs hs' => hfirst g hr s hs' hs
      · exact hdistinct g hr g' hr' hne

/-- The loop of `join` runs to its end exactly when its groups are joinable. -/
theorem joinLoop_true_iff (ω : Nat → RangeOrder Tgid) (servers : GoMap Tgid (List String)) (k : Nat)
    (gids : List Tgid) (hgids : gids.Nodup) (changed : Bool) (c : ShardConfig) :
    (∃ c', joinLoop ω servers k gids changed c = .ok (true, c')) ↔
      (changed = true ∨ gids ≠ []) ∧ Joinable servers gids c := by
  induction gids generalizing k changed c with
  | nil =>
    have hjoinable : Joinable servers [] c := ⟨by simp, by simp, by simp⟩
    cases changed <;> simp [joinLoop, hjoinable]
  | cons gid rest ih =>
    obtain ⟨hgid, hrest⟩ := List.nodup_cons.mp hgids
    rw [joinable_cons hgid, joinLoop]
    by_cases hmem : gid ∈ c.groups
    · simp [hmem]
    · rw [if_neg hmem]
      have hshared := sharedServer_eq_none_iff (ω k) c gid (getD servers gid [])
      cases hs : sharedServer (ω k) c gid (getD servers gid []) with
      | some msg =>
        rw [hs] at hshared
        simp only [reduceCtorEq, false_iff] at hshared
        simp [hshared]
      | none =>
        have hnames := hshared.mp hs
        have hnext := ih (k + 1) hrest true (addGroup c gid (getD servers gid []))
        rw [addGroup] at hnext
        simp only [hnext, true_or, true_and, hmem, not_false_eq_true, ne_eq, reduceCtorEq, or_true]
        exact ⟨fun h => ⟨fun x xs hx => hnames x xs hx, h⟩, fun h => h.2⟩

theorem Joinable.of_mem {servers : GoMap Tgid (List String)} {gids gids' : List Tgid}
    {c : ShardConfig} (h : Joinable servers gids c) (hmem : ∀ g, g ∈ gids' → g ∈ gids) :
    Joinable servers gids' c :=
  ⟨fun g hg => h.fresh g (hmem g hg), fun g hg => h.apart g (hmem g hg),
    fun g hg g' hg' => h.distinct g (hmem g hg) g' (hmem g' hg')⟩

/-- Whether `joinBalance` returns `true` does not depend on the orders. -/
theorem joinBalance_true_iff (ω : Nat → Nat → RangeOrder Tgid) (servers : GoMap Tgid (List String))
    (c : ShardConfig) :
    (∃ c', joinBalance ω servers c = .ok (true, c')) ↔
      servers.keys ≠ [] ∧ Joinable servers servers.keys c := by
  have hperm := (ω 0 0).perm servers.keys
  have hloop := joinLoop_true_iff (ω 0) servers 1 ((ω 0 0).order servers.keys)
    (hperm.nodup_iff.mpr servers.keys_nodup) false c
  have hjoin : (∃ c', joinBalance ω servers c = .ok (true, c')) ↔
      ∃ j, join (ω 0) servers c = .ok (true, j) := by
    rw [joinBalance]
    split <;> simp_all
  rw [hjoin]
  refine hloop.trans ?_
  simp only [Bool.false_eq_true, false_or]
  constructor
  · rintro ⟨hne, hjoinable⟩
    refine ⟨?_, hjoinable.of_mem fun g hg => hperm.mem_iff.mpr hg⟩
    intro hnil
    rw [hnil] at hne hperm
    exact hne hperm.eq_nil
  · rintro ⟨hne, hjoinable⟩
    refine ⟨?_, hjoinable.of_mem fun g hg => hperm.mem_iff.mp hg⟩
    intro hnil
    rw [hnil] at hperm
    exact hne hperm.nil_eq.symm

/-- For groups with disjoint servers: no group joins again, and all groups together have
disjoint servers. -/
theorem joinable_iff_apart {servers : GoMap Tgid (List String)} {c : ShardConfig}
    (hc : Apart c.groups.lookup) :
    Joinable servers servers.keys c ↔
      (∀ g ∈ servers, g ∉ c.groups) ∧ Apart (joined c servers) := by
  constructor
  · intro h
    refine ⟨fun g hg => h.fresh g (AList.mem_keys.mp hg), ?_⟩
    intro g g' l l' hne hl hl'
    simp only [joined] at hl hl'
    by_cases hg : g ∈ servers <;> by_cases hg' : g' ∈ servers
    · rw [if_pos hg, lookup_eq_some_getD hg] at hl
      rw [if_pos hg', lookup_eq_some_getD hg'] at hl'
      cases hl
      cases hl'
      exact h.distinct g (AList.mem_keys.mp hg) g' (AList.mem_keys.mp hg') hne
    · rw [if_pos hg, lookup_eq_some_getD hg] at hl
      rw [if_neg hg'] at hl'
      cases hl
      exact fun s hs hs' => h.apart g (AList.mem_keys.mp hg) g' l' hl' s hs' hs
    · rw [if_neg hg] at hl
      rw [if_pos hg', lookup_eq_some_getD hg'] at hl'
      cases hl'
      exact h.apart g' (AList.mem_keys.mp hg') g l hl
    · rw [if_neg hg] at hl
      rw [if_neg hg'] at hl'
      exact hc g g' l l' hne hl hl'
  · rintro ⟨hfresh, hapart⟩
    have hjoining : ∀ g ∈ servers, joined c servers g = some (getD servers g []) := by
      intro g hg
      rw [joined, if_pos hg, lookup_eq_some_getD hg]
    refine ⟨fun g hg => hfresh g (AList.mem_keys.mpr hg), ?_, ?_⟩
    · intro g hg x xservers hx
      have hx' : x ∉ servers := fun hxs => hfresh x hxs (mem_of_lookup hx)
      have hg' := AList.mem_keys.mpr hg
      refine hapart x g xservers _ (fun he => hx' (he ▸ hg')) ?_ (hjoining g hg')
      rw [joined, if_neg hx']
      exact hx
    · intro g hg g' hg' hne
      exact hapart g g' _ _ hne (hjoining g (AList.mem_keys.mpr hg))
        (hjoining g' (AList.mem_keys.mpr hg'))

theorem rebalance_order (ω ω' : Nat → RangeOrder Tgid) (c : ShardConfig) :
    rebalance ω' c = rebalance ω c := by
  have h := (Same.refl c).rebalance ω ω'
  exact ShardConfig.ext h.num h.shards (by rw [rebalance_groups, rebalance_groups])

/-- Reconfiguration does not depend on the iteration orders. For a configuration whose
groups have disjoint servers and a non-empty map of joining groups, `joinBalance` returns
`true` under one choice of the orders if and only if it does under any other, namely when no
joining group is there already and no server is shared by two groups of the old and the
joining ones together. The results are then the same, with disjoint servers again. A
`leaveBalance` that returns `true` ends in one configuration for all orders. -/
theorem reconfiguration_order_independent :
    (∀ (c : ShardConfig) (servers : GoMap Tgid (List String)), Apart c.groups.lookup →
      servers.keys ≠ [] → ∀ ω ω' : Nat → Nat → RangeOrder Tgid,
      ((∃ r, joinBalance ω servers c = .ok (true, r)) ↔
        (∀ g ∈ servers, g ∉ c.groups) ∧ Apart (joined c servers)) ∧
      ((∃ r, joinBalance ω servers c = .ok (true, r)) ↔
        ∃ r', joinBalance ω' servers c = .ok (true, r')) ∧
      ∀ r r', joinBalance ω servers c = .ok (true, r) → joinBalance ω' servers c = .ok (true, r') →
        Same r r' ∧ Apart r.groups.lookup) ∧
    ∀ (c : ShardConfig) (gids : List Tgid) (ω ω' : Nat → RangeOrder Tgid) (r : ShardConfig),
      leaveBalance ω gids c = .ok (true, r) → leaveBalance ω' gids c = .ok (true, r) := by
  constructor
  · intro c servers hc hne ω ω'
    have hiff : ∀ ω : Nat → Nat → RangeOrder Tgid, (∃ r, joinBalance ω servers c = .ok (true, r)) ↔
        (∀ g ∈ servers, g ∉ c.groups) ∧ Apart (joined c servers) := by
      intro ω
      rw [joinBalance_true_iff, joinable_iff_apart hc]
      exact ⟨And.right, fun h => ⟨hne, h⟩⟩
    refine ⟨hiff ω, (hiff ω).trans (hiff ω').symm, ?_⟩
    intro r r' hr hr'
    obtain ⟨j, rfl, hnum, hshards, -, -, hlook⟩ := joinBalance_true hr
    obtain ⟨j', rfl, hnum', hshards', -, -, hlook'⟩ := joinBalance_true hr'
    have hsame : Same j j' :=
      ⟨hnum'.trans hnum.symm, hshards'.trans hshards.symm, fun g => (hlook' g).trans (hlook g).symm⟩
    refine ⟨hsame.rebalance (ω 1) (ω' 1), ?_⟩
    have hjoined : (rebalance (ω 1) j).groups.lookup = joined c servers := by
      funext g
      rw [rebalance_groups, hlook g, joined]
    rw [hjoined]
    exact ((hiff ω).mp ⟨_, hr⟩).2
  · intro c gids ω ω' r hr
    rw [leaveBalance] at hr ⊢
    cases hl : leave gids c with
    | error msg => simp [hl] at hr
    | ok p =>
      obtain ⟨b, j⟩ := p
      cases b with
      | false => simp [hl] at hr
      | true =>
        simp only [hl] at hr ⊢
        rw [rebalance_order ω ω' j]
        exact hr

/-- The keys in reverse. -/
def reversed : RangeOrder Tgid := ⟨List.reverse, fun keys => List.reverse_perm keys⟩

def oneGroup : ShardConfig := ⟨1, fun _ => 1, literal [(1, ["a"])]⟩

theorem oneGroup_apart : Apart oneGroup.groups.lookup := by
  have hlook : ∀ g, oneGroup.groups.lookup g = if g = 1 then some ["a"] else none := by
    intro g
    exact (lookup_insert_apply ∅ 1 g ["a"]).trans (by rw [AList.lookup_empty])
  intro g g' l l' hne hl hl'
  simp only [hlook] at hl hl'
  obtain ⟨rfl, -⟩ := Option.ite_none_right_eq_some.mp hl
  obtain ⟨rfl, -⟩ := Option.ite_none_right_eq_some.mp hl'
  exact absurd rfl hne

theorem reconfiguration_of_oneGroup :
    (∃ r, joinBalance (fun _ _ => .stored _) (literal [(2, ["b"]), (3, ["c"])]) oneGroup =
      .ok (true, r)) ∧
    ∃ r', joinBalance (fun _ _ => reversed) (literal [(2, ["b"]), (3, ["c"])]) oneGroup =
      .ok (true, r') := by
  have h := (reconfiguration_order_independent.1 oneGroup (literal [(2, ["b"]), (3, ["c"])])
    oneGroup_apart (by decide) (fun _ _ => .stored _) (fun _ _ => reversed)).2.1
  have hstored : ∃ r, joinBalance (fun _ _ => .stored _) (literal [(2, ["b"]), (3, ["c"])])
      oneGroup = .ok (true, r) := ⟨_, rfl⟩
  exact ⟨hstored, h.mp hstored⟩

/-! ## Failed reconfigurations -/

/-- A loop of `join` that returns `false` has met a group of the configuration. -/
theorem joinLoop_false {ω : Nat → RangeOrder Tgid} {servers : GoMap Tgid (List String)} {k : Nat}
    {gids : List Tgid} (hgids : gids.Nodup) {changed : Bool} {c r : ShardConfig}
    (h : joinLoop ω servers k gids changed c = .ok (false, r)) : ∃ g ∈ gids, g ∈ c.groups := by
  induction gids generalizing k changed c with
  | nil => cases changed <;> simp [joinLoop] at h
  | cons gid rest ih =>
    obtain ⟨hgid, hrest⟩ := List.nodup_cons.mp hgids
    by_cases hmem : gid ∈ c.groups
    · exact ⟨gid, by simp, hmem⟩
    · rw [joinLoop, if_neg hmem] at h
      split at h
      · cases h
      · obtain ⟨g, hg, hgmem⟩ := ih hrest h
        have hne : g ≠ gid := fun he => hgid (he ▸ hg)
        exact ⟨g, by simp [hg], ((AList.mem_insert _).mp hgmem).resolve_left hne⟩

theorem joinBalance_false_iff {ω : Nat → Nat → RangeOrder Tgid}
    {servers : GoMap Tgid (List String)} {c r : ShardConfig} :
    joinBalance ω servers c = .ok (false, r) ↔ join (ω 0) servers c = .ok (false, r) := by
  rw [joinBalance]
  split <;> simp_all

theorem leaveBalance_false_iff {ω : Nat → RangeOrder Tgid} {gids : List Tgid}
    {c r : ShardConfig} :
    leaveBalance ω gids c = .ok (false, r) ↔ leaveLoop gids false c = .ok (false, r) := by
  rw [leaveBalance, leave]
  split <;> simp_all

/-- The joining group shares a server with a group of the configuration. -/
def Clashes (c : ShardConfig) (servers : List String) : Prop :=
  ∃ x xservers, c.groups.lookup x = some xservers ∧ ∃ s ∈ xservers, s ∈ servers

theorem sharedServer_eq_none_iff_not_clashes (ω : RangeOrder Tgid) (c : ShardConfig) (gid : Tgid)
    (servers : List String) : sharedServer ω c gid servers = none ↔ ¬ Clashes c servers := by
  rw [sharedServer_eq_none_iff]
  simp only [Clashes, not_exists, not_and]

/-- A new group that comes before a known one is added before the call fails. -/
theorem join_adds_before_failing (servers : GoMap Tgid (List String)) (c : ShardConfig)
    {g g' : Tgid} (hg : g ∈ servers) (hg' : g' ∈ servers) (hnew : g ∉ c.groups)
    (hold : g' ∈ c.groups) (hclash : ¬ Clashes c (getD servers g [])) :
    ∃ ω, joinBalance ω servers c = .ok (false, addGroup c g (getD servers g [])) := by
  have hne : g' ≠ g := fun he => hnew (he ▸ hold)
  have hperm : (g :: g' :: (servers.keys.erase g).erase g').Perm servers.keys := by
    have hmem' : g' ∈ servers.keys.erase g :=
      (List.mem_erase_of_ne hne).mpr (AList.mem_keys.mp hg')
    exact ((List.perm_cons_erase hmem').symm.cons g).trans
      (List.perm_cons_erase (AList.mem_keys.mp hg)).symm
  obtain ⟨ω, hω⟩ := RangeOrder.exists_order hperm
  refine ⟨fun _ _ => ω, joinBalance_false_iff.mpr ?_⟩
  have hshared := (sharedServer_eq_none_iff_not_clashes ω c g (getD servers g [])).mpr hclash
  have hmem : g' ∈ c.groups.insert g (getD servers g []) := (AList.mem_insert _).mpr (Or.inr hold)
  rw [join, hω, joinLoop, if_neg hnew, hshared]
  simp only
  rw [joinLoop, if_pos hmem]
  rfl

theorem not_same_addGroup {c : ShardConfig} {g : Tgid} (hnew : g ∉ c.groups)
    (servers : List String) : ¬ Same c (addGroup c g servers) := by
  intro h
  exact hnew ((h.mem g).mp ((AList.mem_insert _).mpr (Or.inl rfl)))

/-- The groups can leave one after the other. -/
def Leavable (gids : List Tgid) (c : ShardConfig) : Prop := gids.Nodup ∧ ∀ g ∈ gids, g ∈ c.groups

theorem leavable_cons {gid : Tgid} {rest : List Tgid} {c : ShardConfig} :
    Leavable (gid :: rest) c ↔
      gid ∈ c.groups ∧ Leavable rest { c with groups := c.groups.erase gid } := by
  simp only [Leavable, List.nodup_cons, List.forall_mem_cons, AList.mem_erase]
  constructor
  · rintro ⟨⟨hgid, hrest⟩, hmem, hall⟩
    exact ⟨hmem, hrest, fun g hg => ⟨fun he => hgid (he ▸ hg), hall g hg⟩⟩
  · rintro ⟨hmem, hrest, hall⟩
    exact ⟨⟨fun hg => (hall gid hg).1 rfl, hrest⟩, hmem, fun g hg => (hall g hg).2⟩

/-- The loop of `leave` returns `false` unless all groups can leave; groups never come back. -/
theorem leaveLoop_false (gids : List Tgid) (changed : Bool) (c : ShardConfig) :
    (Leavable gids c → ∀ r, leaveLoop gids changed c ≠ .ok (false, r)) ∧
    (¬ Leavable gids c → ∃ r, leaveLoop gids changed c = .ok (false, r) ∧
      ∀ g, g ∉ c.groups → g ∉ r.groups) := by
  induction gids generalizing changed c with
  | nil =>
    refine ⟨?_, fun h => absurd ⟨List.nodup_nil, by simp⟩ h⟩
    intro _ r
    cases changed <;> simp [leaveLoop]
  | cons gid rest ih =>
    rw [leavable_cons, leaveLoop]
    obtain ⟨hstays, hfails⟩ := ih true { c with groups := c.groups.erase gid }
    by_cases hmem : gid ∈ c.groups
    · rw [if_pos hmem]
      refine ⟨fun h => hstays h.2, ?_⟩
      intro h
      obtain ⟨r, hr, hgone⟩ := hfails fun hrest => h ⟨hmem, hrest⟩
      exact ⟨r, hr, fun g hg => hgone g fun hmem' => hg (AList.mem_erase.mp hmem').2⟩
    · rw [if_neg hmem]
      exact ⟨fun h => absurd h.1 hmem, fun _ => ⟨c, rfl, fun _ hg => hg⟩⟩

/-- Failed calls leave the configuration unchanged under every order if and only if, for
`joinBalance`, no new group with servers of its own joins together with a known group, and,
for `leaveBalance`, the first group is unknown or all groups can leave. -/
theorem failed_calls_unchanged_iff (c : ShardConfig) (servers : GoMap Tgid (List String))
    (gids : List Tgid) :
    ((∀ ω r, joinBalance ω servers c = .ok (false, r) → Same c r) ↔
      ∀ g ∈ servers, ∀ g' ∈ servers, g ∉ c.groups → g' ∈ c.groups →
        Clashes c (getD servers g [])) ∧
    ((∀ ω r, leaveBalance ω gids c = .ok (false, r) → Same c r) ↔
      ∀ g rest, gids = g :: rest → g ∈ c.groups →
        gids.Nodup ∧ ∀ x ∈ gids, x ∈ c.groups) := by
  constructor
  · constructor
    · intro h g hg g' hg' hnew hold
      by_contra hclash
      obtain ⟨ω, hω⟩ := join_adds_before_failing servers c hg hg' hnew hold hclash
      exact not_same_addGroup hnew _ (h ω _ hω)
    · intro h ω r hr
      rw [joinBalance_false_iff, join] at hr
      have hperm := (ω 0 0).perm servers.keys
      have hnodup := hperm.nodup_iff.mpr servers.keys_nodup
      have hmem : ∀ g ∈ (ω 0 0).order servers.keys, g ∈ servers :=
        fun g hg => AList.mem_keys.mpr (hperm.mem_iff.mp hg)
      -- the first group decides: a known one ends the loop, a new one must clash
      generalize (ω 0 0).order servers.keys = visited at hr hnodup hmem
      cases visited with
      | nil => cases hr
      | cons g rest =>
        obtain ⟨hg, hrest⟩ := List.nodup_cons.mp hnodup
        rw [joinLoop] at hr
        by_cases hold : g ∈ c.groups
        · rw [if_pos hold] at hr
          cases hr
          exact Same.refl c
        · rw [if_neg hold] at hr
          split at hr
          · cases hr
          · rename_i hshared
            obtain ⟨g', hg', hmem'⟩ := joinLoop_false hrest hr
            have hne : g' ≠ g := fun he => hg (he ▸ hg')
            exact absurd (h g (hmem g (by simp)) g' (hmem g' (by simp [hg'])) hold
                (((AList.mem_insert _).mp hmem').resolve_left hne))
              ((sharedServer_eq_none_iff_not_clashes _ _ _ _).mp hshared)
  · constructor
    · rintro h g rest rfl hold
      by_contra hleavable
      have hrest : ¬ Leavable rest { c with groups := c.groups.erase g } :=
        fun hrest => hleavable (leavable_cons.mpr ⟨hold, hrest⟩)
      obtain ⟨r, hr, hgone⟩ := (leaveLoop_false rest true _).2 hrest
      have hfalse : leaveLoop (g :: rest) false c = .ok (false, r) := by
        rw [leaveLoop, if_pos hold]
        exact hr
      have hsame := h (fun _ => .stored _) r (leaveBalance_false_iff.mpr hfalse)
      exact hgone g (fun hmem => (AList.mem_erase.mp hmem).1 rfl) ((hsame.mem g).mpr hold)
    · intro h ω r hr
      rw [leaveBalance_false_iff] at hr
      cases gids with
      | nil => cases hr
      | cons g rest =>
        by_cases hold : g ∈ c.groups
        · exact absurd hr ((leaveLoop_false _ false c).1 (h g rest rfl hold) r)
        · rw [leaveLoop, if_neg hold] at hr
          cases hr
          exact Same.refl c

/-- Groups 1 and 5 are told to leave; 5 is unknown, but 1 is gone and its shards are left
behind. Groups 2 and 1 are told to join; 1 is there already, but 2 was added. -/
theorem failed_calls_change :
    (∃ r, leaveBalance (fun _ => .stored _) [1, 5] oneGroup = .ok (false, r) ∧ ¬ Same oneGroup r) ∧
    ∃ r, joinBalance (fun _ _ => .stored _) (literal [(1, ["z"]), (2, ["b"])]) oneGroup =
      .ok (false, r) ∧ ¬ Same oneGroup r := by
  constructor
  · refine ⟨_, rfl, fun h => ?_⟩
    exact absurd (h.groups 1) (by decide)
  · refine ⟨_, rfl, fun h => ?_⟩
    exact absurd (h.groups 2) (by decide)

end ShardCfg
