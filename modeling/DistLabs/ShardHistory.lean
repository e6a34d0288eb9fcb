import DistLabs.ShardRebalance

/-!
# Histories of reconfigurations

A history is a list of `joinBalance` and `leaveBalance` calls, each with the
range orders it met. `latestJoin` says what the membership should be after a
history, without any configuration; the configuration that the calls compute
has exactly these groups and a balanced assignment to them.
-/
namespace ShardCfg

open GoMaps Balance

inductive Call where
  | join (ω : Nat → Nat → RangeOrder Tgid) (servers : GoMap Tgid (List String))
  | leave (ω : Nat → RangeOrder Tgid) (gids : List Tgid)

def Call.exec (c : ShardConfig) : Call → Except String (Bool × ShardConfig)
  | .join ω servers => joinBalance ω servers c
  | .leave ω gids => leaveBalance ω gids c

/-- A call that returned `true`. Any other outcome ends the history. -/
def Call.step (c : ShardConfig) (call : Call) : Option ShardConfig :=
  match call.exec c with
  | .ok (true, c') => some c'
  | _ => none

/-- The groups that joined and have not left since, with the servers of their latest join. -/
def latestJoin (calls : List Call) : Tgid → Option (List String) :=
  calls.foldl (fun members call g =>
    match call with
    | .join _ servers => if g ∈ servers then servers.lookup g else members g
    | .leave _ gids => if g ∈ gids then none else members g) fun _ => none

theorem latestJoin_concat_join (calls : List Call) (ω : Nat → Nat → RangeOrder Tgid)
    (servers : GoMap Tgid (List String)) (g : Tgid) :
    latestJoin (calls ++ [.join ω servers]) g =
      if g ∈ servers then servers.lookup g else latestJoin calls g := by
  simp [latestJoin, List.foldl_append]

theorem latestJoin_concat_leave (calls : List Call) (ω : Nat → RangeOrder Tgid)
    (gids : List Tgid) (g : Tgid) :
    latestJoin (calls ++ [.leave ω gids]) g = if g ∈ gids then none else latestJoin calls g := by
  simp [latestJoin, List.foldl_append]

/-- A loop of `join` that runs to its end has added exactly its groups, all of them new. -/
theorem joinLoop_true {ω : Nat → RangeOrder Tgid} {servers : GoMap Tgid (List String)} {k : Nat}
    {gids : List Tgid} {changed : Bool} {cfg cfg' : ShardConfig}
    (h : joinLoop ω servers k gids changed cfg = .ok (true, cfg')) :
    cfg'.num = cfg.num + 1 ∧ cfg'.shards = cfg.shards ∧ (changed = true ∨ gids ≠ []) ∧
      (∀ g ∈ gids, g ∉ cfg.groups) ∧
      ∀ g, cfg'.groups.lookup g =
        if g ∈ gids then some (getD servers g []) else cfg.groups.lookup g := by
  induction gids generalizing k changed cfg with
  | nil =>
    cases changed with
    | false => simp [joinLoop] at h
    | true =>
      simp only [joinLoop, Bool.true_eq_false, if_false, Except.ok.injEq, Prod.mk.injEq,
        true_and] at h
      subst h
      simp
  | cons gid rest ih =>
    rw [joinLoop] at h
    by_cases hm : gid ∈ cfg.groups
    · simp [hm] at h
    · rw [if_neg hm] at h
      cases hs : sharedServer (ω k) cfg gid (getD servers gid []) with
      | some msg => simp [hs] at h
      | none =>
        rw [hs] at h
        obtain ⟨hnum, hshards, -, hnew, hlook⟩ := ih h
        refine ⟨hnum, hshards, Or.inr (by simp), ?_, ?_⟩
        · intro g hg
          rcases List.mem_cons.mp hg with rfl | hg
          · exact hm
          · intro hmem
            exact hnew g hg (by simp [AList.mem_insert, hmem])
        · intro g
          rw [hlook g, lookup_insert_apply]
          by_cases hg : g ∈ rest <;> by_cases he : g = gid <;> simp [hg, he]

theorem leaveLoop_true {gids : List Tgid} {changed : Bool} {cfg cfg' : ShardConfig}
    (h : leaveLoop gids changed cfg = .ok (true, cfg')) :
    cfg'.num = cfg.num + 1 ∧ cfg'.shards = cfg.shards ∧
      ∀ g, cfg'.groups.lookup g = if g ∈ gids then none else cfg.groups.lookup g := by
  induction gids generalizing changed cfg with
  | nil =>
    cases changed with
    | false => simp [leaveLoop] at h
    | true =>
      simp only [leaveLoop, Bool.true_eq_false, if_false, Except.ok.injEq, Prod.mk.injEq,
        true_and] at h
      subst h
      simp
  | cons gid rest ih =>
    rw [leaveLoop] at h
    by_cases hm : gid ∈ cfg.groups
    · rw [if_pos hm] at h
      obtain ⟨hnum, hshards, hlook⟩ := ih h
      refine ⟨hnum, hshards, ?_⟩
      intro g
      rw [hlook g, lookup_erase_apply]
      by_cases hg : g ∈ rest <;> by_cases he : g = gid <;> simp [hg, he]
    · simp [hm] at h

/-- A successful join: the membership of the joined configuration, which is then rebalanced. -/
theorem joinBalance_true {ω : Nat → Nat → RangeOrder Tgid} {servers : GoMap Tgid (List String)}
    {c c' : ShardConfig} (h : joinBalance ω servers c = .ok (true, c')) :
    ∃ j : ShardConfig, c' = rebalance (ω 1) j ∧ j.num = c.num + 1 ∧ j.shards = c.shards ∧
      (∃ g, g ∈ servers) ∧ (∀ g ∈ servers, g ∉ c.groups) ∧
      ∀ g, j.groups.lookup g = if g ∈ servers then servers.lookup g else c.groups.lookup g := by
  rw [joinBalance] at h
  cases hj : join (ω 0) servers c with
  | error msg => simp [hj] at h
  | ok r =>
    obtain ⟨b, j⟩ := r
    cases b with
    | false => simp [hj] at h
    | true =>
      simp only [hj, Except.ok.injEq, Prod.mk.injEq, true_and] at h
      obtain ⟨hnum, hshards, hsome, hnew, hlook⟩ := joinLoop_true hj
      simp only [RangeOrder.mem_order, ← AList.mem_keys] at hnew hlook
      refine ⟨j, h.symm, hnum, hshards, ?_, hnew, ?_⟩
      · obtain ⟨g, hg⟩ := List.exists_mem_of_ne_nil _ (hsome.resolve_left (by simp))
        exact ⟨g, AList.mem_keys.mpr ((RangeOrder.mem_order _ _ _).mp hg)⟩
      · intro g
        rw [hlook g]
        by_cases hg : g ∈ servers
        · obtain ⟨v, hv⟩ := Option.isSome_iff_exists.mp (AList.lookup_isSome.mpr hg)
          simp [hg, getD, hv]
        · simp [hg]

theorem leaveBalance_true {ω : Nat → RangeOrder Tgid} {gids : List Tgid} {c c' : ShardConfig}
    (h : leaveBalance ω gids c = .ok (true, c')) :
    ∃ j : ShardConfig, c' = rebalance ω j ∧ j.num = c.num + 1 ∧ j.shards = c.shards ∧
      ∀ g, j.groups.lookup g = if g ∈ gids then none else c.groups.lookup g := by
  rw [leaveBalance] at h
  cases hj : leave gids c with
  | error msg => simp [hj] at h
  | ok r =>
    obtain ⟨b, j⟩ := r
    cases b with
    | false => simp [hj] at h
    | true =>
      simp only [hj, Except.ok.injEq, Prod.mk.injEq, true_and] at h
      exact ⟨j, h.symm, leaveLoop_true hj⟩

/-- What every history of successful calls establishes. -/
structure Sound (calls : List Call) (c : ShardConfig) : Prop where
  num : c.num = calls.length
  members : ∀ g, c.groups.lookup g = latestJoin calls g
  balanced : c.groups.keys ≠ [] → Balanced c.groups c.shards
  unassigned : c.groups.keys = [] → ∀ s, c.shards s = 0

theorem rebalance_empty (ω : Nat → RangeOrder Tgid) {c : ShardConfig} (h : c.groups.keys = []) :
    rebalance ω c = { c with shards := fun _ => 0 } := by
  rw [rebalance, if_pos (by simp [h])]

theorem rebalance_groups (ω : Nat → RangeOrder Tgid) (c : ShardConfig) :
    (rebalance ω c).groups = c.groups := by
  by_cases h : c.groups.keys = []
  · rw [rebalance_empty ω h]
  · exact (rebalance_spec ω h).1.groups

/-- Rebalancing establishes the two facts about the assignment, whatever it was before. -/
theorem Sound.of_rebalance {calls : List Call} (ω : Nat → RangeOrder Tgid) {j : ShardConfig}
    (hnum : j.num = calls.length) (hmem : ∀ g, j.groups.lookup g = latestJoin calls g) :
    Sound calls (rebalance ω j) := by
  by_cases he : j.groups.keys = []
  · rw [rebalance_empty ω he]
    exact ⟨hnum, hmem, fun h => absurd he h, fun _ _ => rfl⟩
  · obtain ⟨hm, -⟩ := rebalance_spec ω he
    have hb := rebalance_balanced ω j he
    refine ⟨hm.num.trans hnum, ?_, ?_, ?_⟩
    · rwa [hm.groups]
    · rw [hm.groups]
      exact fun _ => hb
    · rw [hm.groups]
      exact fun h => absurd h he

theorem Sound.step {calls : List Call} {c c' : ShardConfig} {call : Call} (h : Sound calls c)
    (hs : call.step c = some c') : Sound (calls ++ [call]) c' := by
  have hexec : call.exec c = .ok (true, c') := by
    rw [Call.step] at hs
    split at hs <;> simp_all
  cases call with
  | join ω servers =>
    obtain ⟨j, rfl, hnum, -, -, -, hlook⟩ := joinBalance_true hexec
    apply Sound.of_rebalance
    · simp [hnum, h.num]
    · intro g
      rw [hlook g, latestJoin_concat_join, h.members g]
  | leave ω gids =>
    obtain ⟨j, rfl, hnum, -, hlook⟩ := leaveBalance_true hexec
    apply Sound.of_rebalance
    · simp [hnum, h.num]
    · intro g
      rw [hlook g, latestJoin_concat_leave, h.members g]

theorem Sound.of_run {calls : List Call} {c : ShardConfig}
    (h : Runs.run Call.step makeShardConfig calls = some c) : Sound calls c := by
  refine Runs.run_induction (P := Sound) ?_ (fun _ _ _ _ _ hs hstep => hs.step hstep) h
  exact ⟨rfl, fun _ => rfl, fun h => absurd rfl h, fun _ _ => rfl⟩

theorem key2Shard_range (sum32 : String → UInt32) (key : String) :
    0 ≤ key2Shard sum32 key ∧ key2Shard sum32 key < NShards :=
  ⟨Int.tmod_nonneg _ (Int.natCast_nonneg _), Int.tmod_lt_of_pos _ (by decide)⟩

/-- A shard number in range is looked up without a panic. -/
theorem gidServers_found {c : ShardConfig} (hv : ∀ s, c.shards s ∈ c.groups) {sh : Tshid}
    (h : 0 ≤ sh ∧ sh < NShards) : ∃ gid srvs, gidServers c sh = some (gid, srvs, true) := by
  rw [gidServers, dif_pos h]
  simp [hv]

theorem isMember_iff (c : ShardConfig) (g : Tgid) : isMember c g = true ↔ 0 < load c.shards g := by
  rw [isMember, load_pos_iff]
  simp [List.any_eq_true, List.mem_ofFn]

theorem isMember_iff_mem {c : ShardConfig} (hb : Balanced c.groups c.shards)
    (hle : c.groups.keys.length ≤ NShards) (g : Tgid) : isMember c g = true ↔ g ∈ c.groups := by
  rw [isMember_iff]
  constructor
  · rintro hpos
    obtain ⟨s, rfl⟩ := (load_pos_iff _ _).mp hpos
    exact hb.1 s
  · intro hg
    have hcard : (owners c).card ≤ Fintype.card (Fin NShards) := by
      rw [Fintype.card_fin]
      exact (List.toFinset_card_le _).trans hle
    exact level_load_pos (owners c) c.shards (fun s => (mem_owners c _).mpr (hb.1 s)) hb.level
      hcard ((mem_owners c g).mpr hg)

/-- The counting loop of `checkConfig` ends on its start values or on real counts. -/
theorem countRange_attained (c : ShardConfig) (l : List Tgid) :
    let m := l.foldl (fun (m : Int × Int) g =>
      let n := getD (counts c) g 0
      (if n > m.1 then n else m.1, if n < m.2 then n else m.2)) (0, 257)
    (m.1 = 0 ∨ ∃ g ∈ l, m.1 = load c.shards g) ∧
      (m.2 = 257 ∨ ∃ g ∈ l, m.2 = load c.shards g) := by
  induction l using List.reverseRecOn with
  | nil => simp
  | append_singleton l g ih =>
    obtain ⟨hmax, hmin⟩ := ih
    simp only [List.foldl_append, List.foldl_cons, List.foldl_nil, getD_counts] at hmax hmin ⊢
    constructor
    · split
      · exact Or.inr ⟨g, by simp, rfl⟩
      · rcases hmax with h | ⟨k, hk, h⟩
        · exact Or.inl h
        · exact Or.inr ⟨k, by simp [hk], h⟩
    · split
      · exact Or.inr ⟨g, by simp, rfl⟩
      · rcases hmin with h | ⟨k, hk, h⟩
        · exact Or.inl h
        · exact Or.inr ⟨k, by simp [hk], h⟩

theorem countRange_le {c : ShardConfig} (ω : RangeOrder Tgid)
    (hl : ∀ g ∈ c.groups, ∀ h ∈ c.groups, load c.shards g ≤ load c.shards h + 1) :
    ¬ (countRange ω c).1 > (countRange ω c).2 + 1 := by
  obtain ⟨hmax, hmin⟩ := countRange_attained c (ω.order c.groups.keys)
  rw [← countRange] at hmax hmin
  rcases hmax with hmax | ⟨g, hg, hmax⟩ <;> rcases hmin with hmin | ⟨k, hk, hmin⟩
  · omega
  · omega
  · have : load c.shards g ≤ 12 := load_le_nShards c g
    omega
  · rw [RangeOrder.mem_order] at hg hk
    have := hl g hg k hk
    omega

/-- `checkConfig` with the group list accepts a balanced or an empty configuration. -/
theorem checkConfig_ok {c : ShardConfig} (ω : RangeOrder Tgid)
    (hb : c.groups.keys ≠ [] → Balanced c.groups c.shards) {groups : List Tgid}
    (hp : groups.Perm c.groups.keys) : checkConfig ω c groups = .ok () := by
  have hfind : groups.find? (fun g => g ∉ c.groups) = none := by
    rw [List.find?_eq_none]
    intro g hg
    have : g ∈ c.groups := AList.mem_keys.mpr (hp.mem_iff.mp hg)
    simpa using this
  have hinv : (if 0 < groups.length then
      (List.finRange NShards).find? (fun s => c.shards s ∉ c.groups) else none) = none := by
    split
    · next hpos =>
      have hne : c.groups.keys ≠ [] := by
        rw [hp.length_eq] at hpos
        exact List.length_pos_iff.mp hpos
      rw [List.find?_eq_none]
      intro s _
      simpa using (hb hne).1 s
    · rfl
  have hrange : ¬ (countRange ω c).1 > (countRange ω c).2 + 1 := by
    apply countRange_le
    intro g hg k hk
    exact (hb (keys_ne_nil hg)).2 g hg k hk
  simp only [checkConfig, hp.length_eq, ne_eq, not_true_eq_false, if_false, hfind]
  rw [hp.length_eq] at hinv
  simp only [hinv, hrange, if_false]

/-- After every history of successful calls the configuration is numbered by the
calls, has the groups that joined and did not leave, and is balanced over them. -/
theorem history_sound (calls : List Call) (c : ShardConfig)
    (h : Runs.run Call.step makeShardConfig calls = some c) :
    c.num = calls.length ∧
    (∀ g, c.groups.lookup g = latestJoin calls g) ∧
    (c.groups.keys ≠ [] → Balanced c.groups c.shards) ∧
    (c.groups.keys = [] → ∀ s, c.shards s = 0) ∧
    (∀ ω groups, groups.Perm c.groups.keys → checkConfig ω c groups = .ok ()) ∧
    (c.groups.keys ≠ [] → ∀ sum32 key, ∃ gid srvs,
      gidServers c (key2Shard sum32 key) = some (gid, srvs, true)) ∧
    (1 ≤ c.groups.keys.length → c.groups.keys.length ≤ NShards →
      ∀ g, isMember c g = true ↔ g ∈ c.groups) := by
  have hs := Sound.of_run h
  refine ⟨hs.num, hs.members, hs.balanced, hs.unassigned, ?_, ?_, ?_⟩
  · intro ω groups hp
    exact checkConfig_ok ω hs.balanced hp
  · intro hne sum32 key
    exact gidServers_found (hs.balanced hne).1 (key2Shard_range sum32 key)
  · intro hpos hle g
    exact isMember_iff_mem (hs.balanced (List.length_pos_iff.mp hpos)) hle g

/-- Two groups join, one after the other, and the first one leaves. -/
def joinJoinLeave : List Call :=
  [.join (fun _ _ => .stored _) (literal [(1, ["x", "y", "z"])]),
    .join (fun _ _ => .stored _) (literal [(2, ["a", "b", "c"])]),
    .leave (fun _ => .stored _) [1]]

theorem joinJoinLeave_succeeds :
    ∃ c, Runs.run Call.step makeShardConfig joinJoinLeave = some c := by
  have hjoin : ∀ c : ShardConfig, c.groups = literal [(1, ["x", "y", "z"])] → ∃ c',
      Call.step c (.join (fun _ _ => .stored _) (literal [(2, ["a", "b", "c"])])) = some c' ∧
        c'.groups = literal [(1, ["x", "y", "z"]), (2, ["a", "b", "c"])] := by
    rintro ⟨num, shards, groups⟩ rfl
    exact ⟨_, rfl, rebalance_groups _ _⟩
  have hleave : ∀ c : ShardConfig,
      c.groups = literal [(1, ["x", "y", "z"]), (2, ["a", "b", "c"])] →
        ∃ c', Call.step c (.leave (fun _ => .stored _) [1]) = some c' := by
    rintro ⟨num, shards, groups⟩ rfl
    exact ⟨_, rfl⟩
  have h₁ : Call.step makeShardConfig (.join (fun _ _ => .stored _)
      (literal [(1, ["x", "y", "z"])])) = some (rebalance (fun _ => .stored _)
        ⟨1, fun _ => 0, literal [(1, ["x", "y", "z"])]⟩) := rfl
  obtain ⟨c₂, h₂, hg₂⟩ := hjoin _ (rebalance_groups (fun _ => .stored _)
    ⟨1, fun _ => 0, literal [(1, ["x", "y", "z"])]⟩)
  obtain ⟨c₃, h₃⟩ := hleave c₂ hg₂
  exact ⟨c₃, by simp [joinJoinLeave, h₁, h₂, h₃]⟩

theorem history_sound_joinJoinLeave : ∃ c,
    Runs.run Call.step makeShardConfig joinJoinLeave = some c ∧ c.num = 3 ∧
      c.groups.lookup 2 = some ["a", "b", "c"] ∧ c.groups.lookup 1 = none := by
  obtain ⟨c, hc⟩ := joinJoinLeave_succeeds
  obtain ⟨hnum, hmem, -⟩ := history_sound joinJoinLeave c hc
  exact ⟨c, hc, hnum, (hmem 2).trans rfl, (hmem 1).trans rfl⟩

/-- Shards that a rebalancing moves between two groups of the old, balanced
configuration would have been moved against the order of the loads. -/
theorem rebalance_keeps {c j : ShardConfig} (ω : Nat → RangeOrder Tgid)
    (hb : Balanced c.groups c.shards) (hs : j.shards = c.shards) (hne : j.groups.keys ≠ [])
    {s : Fin NShards} (hold : c.shards s ∈ j.groups) (hnew : (rebalance ω j).shards s ∈ c.groups) :
    (rebalance ω j).shards s = c.shards s := by
  obtain ⟨hm, -⟩ := rebalance_spec ω hne
  have hlevel := hb.2 _ (hb.1 s) _ hnew
  rw [← hs] at hlevel hold ⊢
  exact (hm.frugal.no_exchange ((mem_owners j _).mpr hold) (hm.valid s) hlevel).symm

/-- In every configuration that a history reaches, a join moves shards only to the
joining groups and a leave moves only shards of the leaving groups. -/
theorem reconfiguration_moves_involved (calls : List Call) (c : ShardConfig)
    (h : Runs.run Call.step makeShardConfig calls = some c) :
    (∀ ω servers c', joinBalance ω servers c = .ok (true, c') →
      ∀ s, c'.shards s ≠ c.shards s → c'.shards s ∈ servers) ∧
    (∀ ω gids c', leaveBalance ω gids c = .ok (true, c') →
      ∀ s, c'.shards s ≠ c.shards s → c.shards s ∈ gids) := by
  have hsound := Sound.of_run h
  constructor
  · intro ω servers c' hjoin s hs
    obtain ⟨j, rfl, -, hshards, ⟨g, hg⟩, hnew, hlook⟩ := joinBalance_true hjoin
    have hmem : ∀ k, k ∈ j.groups ↔ k ∈ servers ∨ k ∈ c.groups := by
      intro k
      rw [← AList.lookup_isSome, hlook k, ← AList.lookup_isSome (s := c.groups)]
      by_cases hk : k ∈ servers
      · simp [hk, AList.lookup_isSome]
      · simp [hk]
    have hne : j.groups.keys ≠ [] := keys_ne_nil ((hmem g).mpr (Or.inl hg))
    have hto := (rebalance_balanced (ω 1) j hne).1 s
    rcases (hmem _).mp hto with hto | hto
    · exact hto
    · -- an old group as the new owner: the old assignment was balanced over the old groups
      have hb := hsound.balanced (keys_ne_nil hto)
      exact absurd (rebalance_keeps (ω 1) hb hshards hne ((hmem _).mpr (Or.inr (hb.1 s))) hto) hs
  · intro ω gids c' hleave s hs
    obtain ⟨j, rfl, -, hshards, hlook⟩ := leaveBalance_true hleave
    have hmem : ∀ k, k ∈ j.groups ↔ k ∉ gids ∧ k ∈ c.groups := by
      intro k
      rw [← AList.lookup_isSome, hlook k, ← AList.lookup_isSome (s := c.groups)]
      by_cases hk : k ∈ gids <;> simp [hk]
    by_contra hstay
    by_cases hempty : c.groups.keys = []
    · -- nothing was assigned, and no group can have appeared
      have hzero := hsound.unassigned hempty s
      have hj : j.groups.keys = [] := by
        rw [List.eq_nil_iff_forall_not_mem]
        intro k hk
        have := ((hmem k).mp (AList.mem_keys.mpr hk)).2
        rw [AList.mem_keys, hempty] at this
        simp at this
      rw [rebalance_empty ω hj, hzero] at hs
      exact hs rfl
    · have hb := hsound.balanced hempty
      have hold : c.shards s ∈ j.groups := (hmem _).mpr ⟨hstay, hb.1 s⟩
      have hne : j.groups.keys ≠ [] := keys_ne_nil hold
      have hto := (rebalance_balanced ω j hne).1 s
      exact hs (rebalance_keeps ω hb hshards hne hold ((hmem _).mp hto).2)

theorem reconfiguration_after_joinJoinLeave : ∃ c,
    Runs.run Call.step makeShardConfig joinJoinLeave = some c ∧
      ∀ ω servers c', joinBalance ω servers c = .ok (true, c') →
        ∀ s, c'.shards s ≠ c.shards s → c'.shards s ∈ servers := by
  obtain ⟨c, hc⟩ := joinJoinLeave_succeeds
  exact ⟨c, hc, (reconfiguration_moves_involved joinJoinLeave c hc).1⟩

end ShardCfg
