import DistLabs.Connections

/-!
# Partitions of a server group

`Partition` detaches and attaches the servers one by one, and what it attaches
depends on the flags at that moment. From any state of the ends and the flags it
ends with the two lists as the connected components. `MakePartition` computes
such lists for an odd number of servers; for an even number its slices have one
slot too many.
-/
namespace Tester

open Labrpc Runs

variable {n : Nat}

namespace ServerGrp

/-- One pass of the loops of `Partition`, for a server of the list `p`. -/
def regroup (p q : List (Fin n)) (sg : ServerGrp n) (i : Fin n) : ServerGrp n :=
  (sg.disconnect i q).connect i p

theorem partition_eq (sg : ServerGrp n) (p1 p2 : List (Fin n)) :
    sg.partition p1 p2 = p2.foldl (regroup p2 p1) (p1.foldl (regroup p1 p2) sg) := rfl

/-- `ConnectAll` passes like `Partition` with one empty list. -/
theorem connectAll_eq (sg : ServerGrp n) :
    sg.connectAll = (all n).foldl (regroup (all n) []) sg := by
  have hone : (connectOne : ServerGrp n → Fin n → ServerGrp n) = regroup (all n) [] := by
    funext sg i
    rw [connectOne, regroup, disconnect_eq, connect_eq, connect_eq, Function.update_idem]
    rfl
  rw [connectAll, hone]

theorem Named.regroup {sg : ServerGrp n} (h : sg.Named) (p q : List (Fin n)) (i : Fin n) :
    (sg.regroup p q i).Named := (h.disconnect i q).connect i p

theorem Named.regroups {sg : ServerGrp n} (h : sg.Named) (p q l : List (Fin n)) :
    (l.foldl (ServerGrp.regroup p q) sg).Named :=
  List.foldlRecOn l _ h fun _ h i _ => h.regroup p q i

/-- An end is on after a pass for `i` if it is an end between `i` and a server of the list
that is on the network, or was on and is not between `i` and a server of the other list. -/
theorem regroup_linked {sg : ServerGrp n} (h : sg.Distinct) {p q : List (Fin n)} (i a b : Fin n) :
    (sg.regroup p q i).linked a b = true ↔
      (a = i ∧ b ∈ p ∧ Function.update sg.connected i true b = true) ∨
      (b = i ∧ a ∈ p ∧ Function.update sg.connected i true a = true) ∨
      (¬ ((a = i ∧ b ∈ q) ∨ (b = i ∧ a ∈ q)) ∧ sg.linked a b = true) := by
  have hd : (sg.disconnect i q).Distinct := h
  rw [regroup, connect_linked hd, disconnect_linked h, disconnect_connected, Function.update_idem]

/-- What the passes for the servers of `l`, which are in `p`, have done: these servers are
connected with each other and cut off from those of `q`. -/
structure Regrouped (q l : List (Fin n)) (sg sg' : ServerGrp n) : Prop where
  connected : ∀ a ∈ l, sg'.connected a = true
  mesh : ∀ a ∈ l, ∀ b ∈ l, sg'.linked a b = true
  cut : ∀ a ∈ l, ∀ b ∈ q, sg'.linked a b = false ∧ sg'.linked b a = false
  others : ∀ a b, a ∉ l → b ∉ l → sg'.linked a b = sg.linked a b

theorem Regrouped.concat {p q l : List (Fin n)} {sg sg' : ServerGrp n} {i : Fin n}
    (h : Regrouped q l sg sg') (hd : sg'.Distinct) (hdisj : ∀ a ∈ p, a ∉ q)
    (hl : ∀ a ∈ l, a ∈ p) (hi : i ∈ p) : Regrouped q (l ++ [i]) sg (sg'.regroup p q i) := by
  have hmem : ∀ a, a ∈ l ++ [i] ↔ a = i ∨ a ∈ l := by simp [or_comm]
  have hup : ∀ a ∈ l ++ [i], Function.update sg'.connected i true a = true := by
    intro a ha
    by_cases hai : a = i
    · rw [hai, Function.update_self]
    · rw [Function.update_of_ne hai]
      exact h.connected a (((hmem a).mp ha).resolve_left hai)
  have hin : ∀ a ∈ l ++ [i], a ∈ p := by
    intro a ha
    rcases (hmem a).mp ha with rfl | ha
    · exact hi
    · exact hl a ha
  constructor
  · intro a ha
    rw [regroup, connect_connected, disconnect_connected, Function.update_idem]
    exact hup a ha
  · intro a ha b hb
    rw [regroup_linked hd]
    by_cases hai : a = i
    · exact Or.inl ⟨hai, hin b hb, hup b hb⟩
    · by_cases hbi : b = i
      · exact Or.inr (Or.inl ⟨hbi, hin a ha, hup a ha⟩)
      · refine Or.inr (Or.inr ⟨by simp [hai, hbi], ?_⟩)
        exact h.mesh a (((hmem a).mp ha).resolve_left hai) b (((hmem b).mp hb).resolve_left hbi)
  · intro a ha b hb
    -- `b` is not in `p`, so the pass enables no end between `a` and `b`
    have hbp : b ∉ p := fun hbp => hdisj b hbp hb
    have hbi : b ≠ i := fun hbi => hbp (hbi ▸ hi)
    constructor
    · rw [Bool.eq_false_iff, Ne, regroup_linked hd]
      rintro (⟨-, hbp', -⟩ | ⟨hbi', -⟩ | ⟨hnot, hon⟩)
      · exact hbp hbp'
      · exact hbi hbi'
      · have hal := ((hmem a).mp ha).resolve_left fun hai => hnot (Or.inl ⟨hai, hb⟩)
        simp [(h.cut a hal b hb).1] at hon
    · rw [Bool.eq_false_iff, Ne, regroup_linked hd]
      rintro (⟨hbi', -⟩ | ⟨-, hbp', -⟩ | ⟨hnot, hon⟩)
      · exact hbi hbi'
      · exact hbp hbp'
      · have hal := ((hmem a).mp ha).resolve_left fun hai => hnot (Or.inr ⟨hai, hb⟩)
        simp [(h.cut a hal b hb).2] at hon
  · intro a b ha hb
    rw [hmem, not_or] at ha hb
    rw [Bool.eq_iff_iff, regroup_linked hd, h.others a b ha.2 hb.2]
    simp [ha.1, hb.1]

theorem regrouped {sg : ServerGrp n} (h : sg.Named) {p q : List (Fin n)}
    (hdisj : ∀ a ∈ p, a ∉ q) (l : List (Fin n)) (hl : ∀ a ∈ l, a ∈ p) :
    Regrouped q l sg (l.foldl (regroup p q) sg) := by
  induction l using List.reverseRecOn with
  | nil => exact ⟨by simp, by simp, by simp, fun _ _ _ _ => rfl⟩
  | append_singleton l i ih =>
    have hl' : ∀ a ∈ l, a ∈ p := fun a ha => hl a (by simp [ha])
    rw [List.foldl_append, List.foldl_cons, List.foldl_nil]
    exact (ih hl').concat (h.regroups p q l).distinct hdisj hl' (hl i (by simp))

theorem partition_linked {sg : ServerGrp n} (h : sg.Named) {p1 p2 : List (Fin n)}
    (hdisj : ∀ a ∈ p1, a ∉ p2) (hcover : ∀ a, a ∈ p1 ∨ a ∈ p2) (a b : Fin n) :
    (sg.partition p1 p2).linked a b = true ↔ (a ∈ p1 ∧ b ∈ p1) ∨ (a ∈ p2 ∧ b ∈ p2) := by
  have hdisj' : ∀ a ∈ p2, a ∉ p1 := fun a h2 h1 => hdisj a h1 h2
  have hfirst := regrouped h hdisj p1 fun _ => id
  have hsecond := regrouped (h.regroups p1 p2 p1) hdisj' p2 fun _ => id
  rw [← partition_eq] at hsecond
  rcases hcover a with ha | ha <;> rcases hcover b with hb | hb
  · rw [hsecond.others a b (hdisj a ha) (hdisj b hb), hfirst.mesh a ha b hb]
    simp [ha, hb]
  · rw [(hsecond.cut b hb a ha).2]
    simp [hdisj a ha, hdisj' b hb]
  · rw [(hsecond.cut a ha b hb).1]
    simp [hdisj' a ha, hdisj b hb]
  · rw [hsecond.mesh a ha b hb]
    simp [ha, hb]

theorem connectAll_linked {sg : ServerGrp n} (h : sg.Named) (a b : Fin n) :
    sg.connectAll.linked a b = true := by
  rw [connectAll_eq]
  exact (regrouped h (by simp) (all n) fun _ => id).mesh a (List.mem_finRange a) b
    (List.mem_finRange b)

theorem Named.connectAll {sg : ServerGrp n} (h : sg.Named) : sg.connectAll.Named := by
  rw [connectAll_eq]
  exact h.regroups _ _ _

/-- Every operation keeps the names of the ends apart. -/
theorem Named.step {gid : Int} {sg sg' : ServerGrp n} {op : GrpOp n} (h : sg.Named)
    (hs : op.step gid sg = some sg') : sg'.Named := by
  cases op with
  | connectOne i =>
    cases hs
    exact h.connect i (all n)
  | connectAll =>
    cases hs
    exact h.connectAll
  | disconnectAll i =>
    cases hs
    exact h.disconnect i (all n)
  | partition p1 p2 =>
    cases hs
    exact (h.regroups p1 p2 p1).regroups p2 p1 p2
  | shutdownServer i p =>
    have hw := sameWiring_of_shutdownServer hs
    exact (h.disconnect i (all n)).of_ends hw.ends hw.rows hw.former
  | startServer i endNames daemon => exact h.newRow (newRow_of_startServer hs)
  | startServers endNames daemons =>
    obtain ⟨started, hstarted, rfl⟩ := Option.map_eq_some_iff.mp hs
    refine Named.connectAll (startSrvs_keeps ?_ (all n) h hstarted)
    intro sg i sg' hn hstart
    exact hn.newRow (newRow_of_startServer hstart)

/-- The group with its ends enabled and its flags set in any way. -/
def rewire (sg : ServerGrp n) (enabled : String → Bool) (connected : Fin n → Bool) :
    ServerGrp n :=
  { sg with net := { sg.net with enabled := enabled }, connected := connected }

end ServerGrp

/-- In whatever state the ends and the flags of a group are, `Partition` of all its servers
into two lists without common servers enables the ends within the lists and no others, and
`ConnectAll` enables every end. -/
theorem partition_exact (gid : Int) (rn : Network String) (endNames : Fin n → Fin n → String)
    (ops : List (GrpOp n)) (sg₀ sg : ServerGrp n)
    (hmake : ServerGrp.makeSrvGrp gid rn endNames = some sg₀)
    (hrun : run (GrpOp.step gid) sg₀ ops = some sg) (enabled : String → Bool)
    (connected : Fin n → Bool) :
    (∀ p1 p2 : List (Fin n), (∀ i ∈ p1, i ∉ p2) → (∀ i, i ∈ p1 ∨ i ∈ p2) →
      ∀ i j, ((sg.rewire enabled connected).partition p1 p2).linked i j = true ↔
        (i ∈ p1 ∧ j ∈ p1) ∨ (i ∈ p2 ∧ j ∈ p2)) ∧
    ∀ i j, (sg.rewire enabled connected).connectAll.linked i j = true := by
  have hnamed : sg.Named := by
    refine run_induction (P := fun _ sg => sg.Named) (ServerGrp.Named.makeSrvGrp hmake).1 ?_ hrun
    intro ops sg op sg' _ hn hs
    exact hn.step hs
  have hprior : (sg.rewire enabled connected).Named := hnamed.of_ends rfl (fun _ => rfl) rfl
  refine ⟨?_, ServerGrp.connectAll_linked hprior⟩
  intro p1 p2 hdisj hcover
  exact ServerGrp.partition_linked hprior hdisj hcover

/-- The first server is cut off from the second, although every end was on and no flag was. -/
theorem partition_exact_pair : ∃ sg : ServerGrp 2,
    ServerGrp.makeSrvGrp 0 (makeNetwork String)
      (pair (pair "p" "q") (pair "r" "s")) = some sg ∧
    ((sg.rewire (fun _ => true) (fun _ => false)).partition [0] [1]).linked 0 1 = false ∧
    ((sg.rewire (fun _ => true) (fun _ => false)).partition [0] [1]).linked 1 1 = true := by
  obtain ⟨sg, hmake⟩ : ∃ sg : ServerGrp 2, ServerGrp.makeSrvGrp 0 (makeNetwork String)
      (pair (pair "p" "q") (pair "r" "s")) = some sg := ⟨_, rfl⟩
  have h := (partition_exact 0 _ _ [] sg sg hmake rfl (fun _ => true) (fun _ => false)).1
    [0] [1] (by decide) (by decide)
  refine ⟨sg, hmake, ?_, (h 1 1).mpr (by decide)⟩
  rw [Bool.eq_false_iff, Ne, h 0 1]
  decide

/-! ## `MakePartition` -/

theorem set_append_cons (d rest : List Nat) (x i : Nat) :
    (d ++ x :: rest).set d.length i = d ++ i :: rest := by simp

/-- The loop writes the servers other than `l` into the slots of the two slices, one after
the other. -/
theorem fillPartition_eq (l : Nat) (is d p1 p2 : List Nat) (k : Nat)
    (hslots : p1 ++ p2 = d ++ List.replicate k 0) (hroom : (is.filter (· != l)).length ≤ k) :
    ∃ q1 q2, fillPartition l is p1 p2 d.length = some (q1, q2) ∧ q1.length = p1.length ∧
      q2.length = p2.length ∧
      q1 ++ q2 = d ++ is.filter (· != l) ++
        List.replicate (k - (is.filter (· != l)).length) 0 := by
  induction is generalizing d p1 p2 k with
  | nil => exact ⟨p1, p2, rfl, rfl, rfl, by simpa using hslots⟩
  | cons i is ih =>
    by_cases hi : i = l
    · subst hi
      simpa [fillPartition] using ih d p1 p2 k hslots (by simpa using hroom)
    · have hfilter : (i :: is).filter (· != l) = i :: is.filter (· != l) := by simp [hi]
      rw [hfilter, List.length_cons] at hroom
      obtain ⟨k, rfl⟩ : ∃ k', k = k' + 1 := ⟨k - 1, by omega⟩
      have hlength : p1.length + p2.length = d.length + (k + 1) := by
        simpa using congrArg List.length hslots
      have hwritten : (p1 ++ p2).set d.length i = (d ++ [i]) ++ List.replicate k 0 := by
        rw [hslots, List.replicate_succ, set_append_cons]
        simp
      have hnext : d.length + 1 = (d ++ [i]).length := by simp
      have hrest : d ++ [i] ++ is.filter (· != l) ++
          List.replicate (k - (is.filter (· != l)).length) 0 =
          d ++ (i :: is).filter (· != l) ++
            List.replicate (k + 1 - ((i :: is).filter (· != l)).length) 0 := by
        simp [hfilter]
      rw [fillPartition, if_pos hi, hnext]
      by_cases hfirst : d.length < p1.length
      · rw [List.set_append_left _ _ hfirst] at hwritten
        rw [if_pos hfirst, ← hrest]
        simpa using ih (d ++ [i]) (p1.set d.length i) p2 k hwritten (by omega)
      · rw [List.set_append_right _ _ (by omega)] at hwritten
        rw [if_neg hfirst, if_pos (by omega), ← hrest]
        simpa using ih (d ++ [i]) p1 (p2.set (d.length - p1.length) i) k hwritten (by omega)

/-- The lists partition the servers `0..n-1`, the leader in the smaller one. -/
structure Splits (n l : Nat) (p1 p2 : List Nat) : Prop where
  nodup₁ : p1.Nodup
  nodup₂ : p2.Nodup
  disjoint : ∀ i ∈ p1, i ∉ p2
  servers : ∀ i, i ∈ p1 ∨ i ∈ p2 ↔ i < n
  leader : l ∈ p2
  minority : p2.length < p1.length

/-- No two lists partition more servers than there are. -/
theorem Splits.length_le {n l : Nat} {p1 p2 : List Nat} (h : Splits n l p1 p2) :
    p1.length + p2.length ≤ n := by
  have hnodup : (p1 ++ p2).Nodup := by
    refine List.nodup_append.mpr ⟨h.nodup₁, h.nodup₂, ?_⟩
    rintro a ha b hb rfl
    exact h.disjoint a ha hb
  have hsub : p1 ++ p2 ⊆ List.range n := by
    intro i hi
    exact List.mem_range.mpr ((h.servers i).mp (List.mem_append.mp hi))
  simpa using (List.subperm_of_subset hnodup hsub).length_le

/-- The servers other than the leader, as the loop of `MakePartition` meets them. -/
theorem length_others {n l : Nat} (hl : l < n) :
    ((List.range n).filter (· != l)).length = n - 1 := by
  rw [← List.nodup_range.erase_eq_filter, List.length_erase_of_mem (List.mem_range.mpr hl),
    List.length_range]

theorem makePartition_lengths {n l : Nat} (hn : 3 ≤ n) (hl : l < n) :
    ∃ p1 q, makePartition n l = some (p1, q.set (n / 2 - 1) l) ∧ p1.length = n / 2 + 1 ∧
      q.length = n / 2 ∧ p1 ++ q = (List.range n).filter (· != l) ++
        List.replicate (n / 2 + 1 + n / 2 - (n - 1)) 0 := by
  have hslots : List.replicate (n / 2 + 1) 0 ++ List.replicate (n / 2) 0 =
      [] ++ List.replicate (n / 2 + 1 + n / 2) 0 := by simp [List.replicate_append_replicate]
  obtain ⟨p1, q, hfill, hp1, hq, happend⟩ := fillPartition_eq l (List.range n) [] _ _ _ hslots
    (by rw [length_others hl]; omega)
  rw [length_others hl, List.nil_append] at happend
  rw [List.length_replicate] at hp1 hq
  refine ⟨p1, q, ?_, hp1, hq, happend⟩
  have hne : ¬ q.length = 0 := by omega
  simp only [makePartition, List.length_nil] at hfill ⊢
  rw [hfill, Option.bind_some, if_neg hne, hq]

/-- `MakePartition` partitions a group of at least three servers exactly when their number
is odd. -/
theorem makePartition_splits_iff (n l : Nat) (hn : 3 ≤ n) (hl : l < n) :
    (∃ p1 p2, makePartition n l = some (p1, p2) ∧ Splits n l p1 p2) ↔ n % 2 = 1 := by
  obtain ⟨p1, q, hmake, hp1, hq, happend⟩ := makePartition_lengths hn hl
  constructor
  · -- the slices of an even group have more slots than there are servers
    rintro ⟨r1, r2, hr, hsplits⟩
    rw [hmake] at hr
    cases hr
    have hle := hsplits.length_le
    rw [List.length_set] at hle
    omega
  · intro hodd
    have hothers := length_others hl
    have hone : n / 2 + 1 + n / 2 - (n - 1) = 1 := by omega
    have hindex : p1.length + (n / 2 - 1) = ((List.range n).filter (· != l)).length := by omega
    have hall : p1 ++ q.set (n / 2 - 1) l = (List.range n).filter (· != l) ++ [l] := by
      have hset := List.set_append_right (s := p1) (t := q) (p1.length + (n / 2 - 1)) l (by omega)
      rw [Nat.add_sub_cancel_left] at hset
      rw [← hset, happend, hone, hindex]
      simp
    have hnodup : (p1 ++ q.set (n / 2 - 1) l).Nodup := by
      rw [hall, List.nodup_append]
      exact ⟨List.nodup_range.filter _, List.nodup_singleton l, by simp⟩
    obtain ⟨hnodup₁, hnodup₂, hdisj⟩ := List.nodup_append.mp hnodup
    refine ⟨p1, q.set (n / 2 - 1) l, hmake, hnodup₁, hnodup₂, ?_, ?_, ?_, ?_⟩
    · intro i h1 h2
      exact hdisj i h1 i h2 rfl
    · intro i
      rw [← List.mem_append, hall]
      by_cases hi : i = l <;> simp [hi, hl]
    · exact List.mem_set (by omega) l
    · rw [List.length_set]
      omega

/-- With four servers and leader 1, server 0 is on both sides. -/
theorem makePartition_four : makePartition 4 1 = some ([0, 2, 3], [0, 1]) ∧
    ¬ ∃ p1 p2, makePartition 4 1 = some (p1, p2) ∧ Splits 4 1 p1 p2 := by
  have heq : makePartition 4 1 = some ([0, 2, 3], [0, 1]) := rfl
  refine ⟨heq, ?_⟩
  rintro ⟨p1, p2, h, hsplits⟩
  rw [heq] at h
  cases h
  exact hsplits.disjoint 0 (by decide) (by decide)

theorem makePartition_five : ∃ p1 p2, makePartition 5 2 = some (p1, p2) ∧ Splits 5 2 p1 p2 :=
  (makePartition_splits_iff 5 2 (by decide) (by decide)).mpr rfl

end Tester
