import Mathlib.Data.List.Dedup
import Mathlib.Data.List.Sort

/-!
# Grouping a sorted list by key

`Grouped key l gs` says what a grouping of `l` is, whatever computed it: the keys
of the groups are those of `l` in strictly increasing order, and each group is
the sublist of the elements with its key. Over a sorted list a grouping grows by
one maximal run of equal keys at a time.
-/
namespace Grouping

variable {α κ : Type*} [LinearOrder κ] [DecidableEq κ] {key : α → κ}

structure Grouped (key : α → κ) (l : List α) (gs : List (κ × List α)) : Prop where
  increasing : (gs.map Prod.fst).Pairwise (· < ·)
  keys : ∀ k, k ∈ gs.map Prod.fst ↔ k ∈ l.map key
  elems : ∀ g ∈ gs, g.2 = l.filter (key · = g.1)

/-- The elements are in the order of their keys; those with equal keys in any order. -/
def Ordered (key : α → κ) (l : List α) : Prop := l.Pairwise fun a b => ¬ key b < key a

theorem Grouped.nil (key : α → κ) : Grouped key [] [] :=
  ⟨List.Pairwise.nil, by simp, by simp⟩

theorem filter_eq_nil_of_lt {l : List α} {k : κ} (h : ∀ a ∈ l, key a < k) :
    l.filter (key · = k) = [] := by
  rw [List.filter_eq_nil_iff]
  intro a ha
  simp [(h a ha).ne]

omit [LinearOrder κ] in
theorem filter_eq_self_of_eq {l : List α} {k : κ} (h : ∀ a ∈ l, key a = k) :
    l.filter (key · = k) = l := by
  rw [List.filter_eq_self]
  intro a ha
  simp [h a ha]

/-- One more run of a key above all that came before. -/
theorem Grouped.concat {l run : List α} {gs : List (κ × List α)} {k : κ} (h : Grouped key l gs)
    (hne : run ≠ []) (hrun : ∀ a ∈ run, key a = k) (hbefore : ∀ a ∈ l, key a < k) :
    Grouped key (l ++ run) (gs ++ [(k, run)]) := by
  have hlt : ∀ k' ∈ gs.map Prod.fst, k' < k := by
    intro k' hk'
    obtain ⟨a, ha, rfl⟩ := List.mem_map.mp ((h.keys k').mp hk')
    exact hbefore a ha
  constructor
  · rw [List.map_append, List.pairwise_append]
    refine ⟨h.increasing, List.pairwise_singleton _ _, ?_⟩
    intro k' hk' k'' hk''
    rw [show k'' = k by simpa using hk'']
    exact hlt k' hk'
  · intro k'
    have hkeys : k' ∈ run.map key ↔ k' = k := by
      constructor
      · intro hk'
        obtain ⟨a, ha, rfl⟩ := List.mem_map.mp hk'
        exact hrun a ha
      · rintro rfl
        obtain ⟨a, ha⟩ := List.exists_mem_of_ne_nil run hne
        exact List.mem_map.mpr ⟨a, ha, hrun a ha⟩
    rw [List.map_append, List.map_append, List.mem_append, List.mem_append, h.keys, hkeys]
    simp
  · intro g hg
    rw [List.filter_append]
    rcases List.mem_append.mp hg with hold | hnew
    · -- the key of an old group does not occur in the run
      have hk := hlt g.1 (List.mem_map_of_mem hold)
      have hnone : run.filter (key · = g.1) = [] := by
        rw [List.filter_eq_nil_iff]
        intro a ha
        simp [hrun a ha, hk.ne']
      rw [hnone, List.append_nil]
      exact h.elems g hold
    · obtain rfl := List.mem_singleton.mp hnew
      rw [filter_eq_nil_of_lt hbefore, filter_eq_self_of_eq hrun, List.nil_append]

/-- The first run of equal keys of a list that continues a sorted one. -/
theorem Ordered.next_run {done rest : List α} {a : α} (h : Ordered key (done ++ a :: rest)) :
    ∀ b ∈ rest.dropWhile (key · = key a), key a < key b := by
  have htail : Ordered key (a :: rest) := (List.pairwise_append.mp h).2.1
  obtain ⟨hhead, hrest⟩ := List.pairwise_cons.mp htail
  cases hdrop : rest.dropWhile (key · = key a) with
  | nil => simp
  | cons c tail =>
    have hsuffix : (c :: tail) <:+ rest := hdrop ▸ List.dropWhile_suffix _
    -- the first element after the run has another key, hence a greater one
    have hc : key a < key c := by
      have hne : ¬ key c = key a := by
        have hhd := List.head_dropWhile_not (key · = key a) (l := rest) (by simp [hdrop])
        simpa [hdrop] using hhd
      have hle : ¬ key c < key a := hhead c (hsuffix.mem List.mem_cons_self)
      exact lt_of_le_of_ne (not_lt.mp hle) (Ne.symm hne)
    intro b hb
    rcases List.mem_cons.mp hb with rfl | hb
    · exact hc
    · have hcb := (List.pairwise_cons.mp (hrest.sublist hsuffix.sublist)).1 b hb
      exact lt_of_lt_of_le hc (not_lt.mp hcb)

omit [DecidableEq κ] in
/-- A strictly increasing list is determined by its elements. -/
theorem eq_of_increasing {ks ks' : List κ} (h : ks.Pairwise (· < ·)) (h' : ks'.Pairwise (· < ·))
    (hmem : ∀ k, k ∈ ks ↔ k ∈ ks') : ks = ks' := by
  have hperm : ks.Perm ks' :=
    (List.perm_ext_iff_of_nodup (h.imp ne_of_lt) (h'.imp ne_of_lt)).mpr hmem
  exact hperm.eq_of_pairwise (fun a b _ _ hab hba => absurd hab hba.not_gt) h h'

/-- Numbered buckets, one after the other. -/
theorem flatMap_buckets_perm {β : Type*} (bucket : β → Nat) (l : List β) (n : Nat) :
    ((List.range n).flatMap fun r => l.filter (bucket · = r)).Perm
      (l.filter (bucket · < n)) := by
  induction n with
  | zero => simp
  | succ n ih =>
    have hlow : (l.filter (bucket · < n + 1)).filter (bucket · < n) = l.filter (bucket · < n) := by
      rw [List.filter_filter]
      apply List.filter_congr
      intro b _
      simpa using fun h : bucket b < n => Nat.lt_succ_of_lt h
    have hlast : (l.filter (bucket · < n + 1)).filter (fun b => !decide (bucket b < n)) =
        l.filter (bucket · = n) := by
      rw [List.filter_filter]
      apply List.filter_congr
      intro b _
      rw [Bool.eq_iff_iff]
      simp only [Bool.and_eq_true, Bool.not_eq_true', decide_eq_true_eq, decide_eq_false_iff_not]
      omega
    have hsplit := List.filter_append_perm (bucket · < n) (l.filter (bucket · < n + 1))
    rw [hlow, hlast] at hsplit
    rw [List.range_succ, List.flatMap_append, List.flatMap_singleton]
    exact (ih.append_right _).trans hsplit

end Grouping
