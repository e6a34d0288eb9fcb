import Mathlib.Data.List.AList
import Mathlib.Data.List.Induction
import Mathlib.Data.List.Sort

/-!
# Go maps and their iteration order

A Go map is an association list without repeated keys, of which the program can
observe lookups and the length only. A `range` over a map visits its keys in an
order the program does not control and that is chosen again for every loop; that
choice is a `RangeOrder`, and code with several such loops takes one for each.
-/
namespace GoMaps

/-- A Go map `map[κ]ν`. -/
abbrev GoMap (κ ν : Type) := AList (fun _ : κ => ν)

/-- The order in which one `range` loop visits the keys of a map. -/
structure RangeOrder (κ : Type) where
  order : List κ → List κ
  perm : ∀ keys, (order keys).Perm keys

/-- The order in which the keys are stored; one of the orders Go may choose. -/
def RangeOrder.stored (κ : Type) : RangeOrder κ := ⟨id, fun _ => List.Perm.refl _⟩

variable {κ ν τ : Type}

@[simp] theorem RangeOrder.mem_order (ω : RangeOrder κ) (keys : List κ) (k : κ) :
    k ∈ ω.order keys ↔ k ∈ keys := (ω.perm keys).mem_iff

/-- Sorting forgets the order. -/
theorem insertionSort_eq_of_perm [LinearOrder κ] {xs ys : List κ} (h : xs.Perm ys) :
    xs.insertionSort (· ≤ ·) = ys.insertionSort (· ≤ ·) := by
  apply List.Perm.eq_of_pairwise' (r := (· ≤ ·))
  · exact List.pairwise_insertionSort _ _
  · exact List.pairwise_insertionSort _ _
  · exact ((List.perm_insertionSort _ _).trans h).trans (List.perm_insertionSort _ _).symm

/-- Sorting the visited keys undoes the choice of the order. -/
theorem RangeOrder.sort_order [LinearOrder κ] (ω : RangeOrder κ) (keys : List κ) :
    (ω.order keys).insertionSort (· ≤ ·) = keys.insertionSort (· ≤ ·) :=
  insertionSort_eq_of_perm (ω.perm keys)

/-- A range loop may meet the keys in any order. -/
theorem RangeOrder.exists_order [DecidableEq κ] {keys visited : List κ} (h : visited.Perm keys) :
    ∃ ω : RangeOrder κ, ω.order keys = visited := by
  refine ⟨⟨fun ks => if ks = keys then visited else ks, ?_⟩, if_pos rfl⟩
  intro ks
  by_cases hk : ks = keys
  · rw [if_pos hk, hk]
    exact h
  · rw [if_neg hk]

theorem keys_ne_nil {m : GoMap κ ν} {k : κ} (h : k ∈ m) : m.keys ≠ [] :=
  List.ne_nil_of_mem (AList.mem_keys.mp h)

section Fold

variable [DecidableEq κ]

/-- The value a Go program reads at a key: the zero value where the key is absent. -/
def getD (m : GoMap κ ν) (k : κ) (zero : ν) : ν := (m.lookup k).getD zero

/-- A composite literal `map[κ]ν{k: v, ...}`. -/
def literal (entries : List (κ × ν)) : GoMap κ ν :=
  entries.foldl (fun m e => m.insert e.1 e.2) ∅

/-- The loop `for _, x := range xs { m[key(x)] = f(m[key(x)], x) }` from an empty map. -/
def collect (key : τ → κ) (zero : ν) (f : ν → τ → ν) (xs : List τ) : GoMap κ ν :=
  xs.foldl (fun m x => m.insert (key x) (f (getD m (key x) zero) x)) ∅

theorem lookup_insert_apply (m : GoMap κ ν) (k k' : κ) (v : ν) :
    (m.insert k v).lookup k' = if k' = k then some v else m.lookup k' := by
  split
  · next h => subst h; exact AList.lookup_insert m
  · next h => exact AList.lookup_insert_ne h

theorem lookup_erase_apply (m : GoMap κ ν) (k k' : κ) :
    (m.erase k).lookup k' = if k' = k then none else m.lookup k' := by
  split
  · next h => subst h; exact AList.lookup_erase _ m
  · next h => exact AList.lookup_erase_ne h

/-- A range loop over the keys, as one over the entries. -/
theorem filterMap_lookup_keys (m : GoMap κ ν) (g : κ → ν → τ) :
    (m.keys.filterMap fun k => (m.lookup k).map (g k)) = m.entries.map fun e => g e.1 e.2 := by
  change (m.entries.map Sigma.fst).filterMap _ = _
  rw [List.filterMap_map, ← List.filterMap_eq_map]
  apply List.filterMap_congr
  intro e he
  have hlookup : m.lookup e.1 = some e.2 := AList.mem_lookup_iff.mpr he
  simp [hlookup]

theorem entries_perm_of_lookup {m : GoMap κ ν} {k : κ} {v : ν} (h : m.lookup k = some v) :
    m.entries.Perm (⟨k, v⟩ :: (m.erase k).entries) := by
  have hmem : k ∈ m.entries.keys := by
    have hsome : k ∈ m := AList.lookup_isSome.mp (by simp [h])
    exact hsome
  obtain ⟨v', l₁, l₂, -, hentries, herase⟩ := List.exists_of_kerase hmem
  have hv : m.lookup k = some v' := AList.mem_lookup_iff.mpr (by simp [hentries])
  obtain rfl : v = v' := Option.some.inj (h.symm.trans hv)
  change m.entries.Perm (⟨k, v⟩ :: List.kerase k m.entries)
  rw [herase, hentries]
  exact List.perm_middle

theorem entries_erase_of_none {m : GoMap κ ν} {k : κ} (h : m.lookup k = none) :
    (m.erase k).entries = m.entries :=
  List.kerase_of_notMem_keys (AList.lookup_eq_none.mp h)

/-- A map is known by its lookups, up to the order of its keys. -/
theorem keys_perm {m m' : GoMap κ ν} (h : ∀ k, m.lookup k = m'.lookup k) : m.keys.Perm m'.keys := by
  refine (List.perm_ext_iff_of_nodup m.keys_nodup m'.keys_nodup).mpr ?_
  intro k
  rw [← AList.mem_keys, ← AList.mem_keys, ← AList.lookup_isSome, ← AList.lookup_isSome, h k]

theorem filter_key_eq_nil {key : τ → κ} {xs : List τ} {k : κ} (h : k ∉ xs.map key) :
    xs.filter (key · = k) = [] := by
  rw [List.filter_eq_nil_iff]
  intro y hy he
  exact h (List.mem_map.mpr ⟨y, hy, by simpa using he⟩)

/-- The loop leaves at each key the fold over the elements with that key, in their order. -/
theorem lookup_collect (key : τ → κ) (zero : ν) (f : ν → τ → ν) (xs : List τ) (k : κ) :
    (collect key zero f xs).lookup k =
      if k ∈ xs.map key then some ((xs.filter (key · = k)).foldl f zero) else none := by
  induction xs using List.reverseRecOn with
  | nil => simp [collect]
  | append_singleton xs x ih =>
    have hstep : collect key zero f (xs ++ [x]) = (collect key zero f xs).insert (key x)
        (f (getD (collect key zero f xs) (key x) zero) x) := by
      simp [collect]
    rw [hstep, lookup_insert_apply]
    by_cases hk : k = key x
    · subst hk
      rw [getD, ih]
      by_cases hm : key x ∈ xs.map key
      · simp [hm]
      · simp [hm, filter_key_eq_nil hm]
    · rw [if_neg hk, ih]
      simp [Ne.symm hk, hk]

theorem mem_collect (key : τ → κ) (zero : ν) (f : ν → τ → ν) (xs : List τ) (k : κ) :
    k ∈ collect key zero f xs ↔ k ∈ xs.map key := by
  rw [← AList.lookup_isSome, lookup_collect]
  split <;> simp_all

theorem getD_collect (key : τ → κ) (zero : ν) (f : ν → τ → ν) (xs : List τ) (k : κ) :
    getD (collect key zero f xs) k zero = (xs.filter (key · = k)).foldl f zero := by
  rw [getD, lookup_collect]
  split
  · rfl
  · next hm => simp [filter_key_eq_nil hm]

end Fold

end GoMaps
