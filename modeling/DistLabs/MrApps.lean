import DistLabs.GoMaps
import DistLabs.MapReduce
import Mathlib.Algebra.BigOperators.Group.List.Basic

/-!
# The reference output of wc and indexer

The two applications whose distributed output is compared with that of
`mrsequential`. A word is a maximal run of letters. The output depends neither
on the order of the files, nor on the sort, nor on the order in which the
indexer's map is ranged over, which is chosen again for each of its calls.
-/
namespace Mr

open GoMaps Grouping

/-! ## The applications -/

/-- The decoding of strings into runes, each given by its bytes, and `unicode.IsLetter`. -/
structure Unicode where
  runes : GoString → List GoString
  isLetter : GoString → Bool

/-- The maximal runs of runes that do not satisfy `f`. -/
def fieldsFunc (u : Unicode) (s : GoString) (f : GoString → Bool) : List GoString :=
  (((u.runes s).splitOnP f).filter (· ≠ [])).map List.flatten

def words (u : Unicode) (contents : GoString) : List GoString :=
  fieldsFunc u contents fun r => !u.isLetter r

def itoa (n : Nat) : GoString := text (toString n)

def Wc.map (u : Unicode) (_filename contents : GoString) : List KeyValue :=
  (words u contents).foldl (fun kva w => kva ++ [⟨w, text "1"⟩]) []

/-- The number of occurrences of the word. -/
def Wc.reduce (_key : GoString) (values : List GoString) : GoString := itoa values.length

def wc (u : Unicode) : Plugin := ⟨fun _ => Wc.map u, fun _ => Wc.reduce⟩

def Indexer.map (u : Unicode) (ω : RangeOrder GoString) (document value : GoString) :
    List KeyValue :=
  let m : GoMap GoString Bool := (words u value).foldl (fun m w => m.insert w true) ∅
  (ω.order m.keys).foldl (fun res w => res ++ [⟨w, document⟩]) []

def Indexer.reduce (_key : GoString) (values : List GoString) : GoString :=
  let values := values.insertionSort (· ≤ ·)
  itoa values.length ++ text " " ++ (text ",").intercalate values

def indexer (u : Unicode) (ω : Nat → RangeOrder GoString) : Plugin :=
  ⟨fun n => Indexer.map u (ω n), fun _ => Indexer.reduce⟩

/-! ## Output determined by the keys -/

/-- Where the output of a call depends on the key and on the values up to their order, the
file is one line for each key. -/
theorem Reduced.ofile_eq {reducef : Nat → GoString → List GoString → GoString}
    {kva : List KeyValue} {final : Reducing} {out : GoString → GoString} {ks : List GoString}
    (h : Reduced reducef kva final)
    (hout : ∀ n k values, values.Perm ((kva.filter (·.key = k)).map KeyValue.value) →
      reducef n k values = out k)
    (hks : ks.Pairwise (· < ·)) (hmem : ∀ k, k ∈ ks ↔ k ∈ kva.map KeyValue.key) :
    final.ofile = ks.flatMap fun k => line k (out k) := by
  have hkeys : final.calls.map Call.key = ks :=
    eq_of_increasing h.increasing hks fun k => (h.keys k).trans (hmem k).symm
  have hline : ∀ c ∈ final.calls, c.line = line c.key (out c.key) := by
    intro c hc
    obtain ⟨n, hn⟩ := List.getElem?_of_mem hc
    rw [Call.line, h.outputs n c hn, hout n c.key c.values (h.values c hc)]
  rw [h.ofile, ← hkeys, List.flatMap_map]
  exact List.flatMap_congr hline

/-- The values of a key, where what a map call emits for it does not depend on the calls
before. -/
theorem values_emitted (mapf : Nat → GoString → GoString → List KeyValue) {k : GoString}
    {vs : Input → List GoString}
    (h : ∀ n f, ((mapf n f.filename f.contents).filter (·.key = k)).map KeyValue.value = vs f)
    (inputs : List Input) :
    ((emitted mapf inputs).filter (·.key = k)).map KeyValue.value = inputs.flatMap vs := by
  rw [emitted, List.filter_flatMap, List.map_flatMap]
  calc inputs.zipIdx.flatMap _
      = inputs.zipIdx.flatMap (fun p => vs p.1) := List.flatMap_congr fun p _ => h p.2 p.1
    _ = (inputs.zipIdx.map Prod.fst).flatMap vs := (List.flatMap_map _ _ _).symm
    _ = inputs.flatMap vs := by rw [List.zipIdx_map_fst]

theorem mem_keys_emitted (mapf : Nat → GoString → GoString → List KeyValue)
    {ws : Input → List GoString}
    (h : ∀ n f k, k ∈ (mapf n f.filename f.contents).map KeyValue.key ↔ k ∈ ws f)
    (inputs : List Input) (k : GoString) :
    k ∈ (emitted mapf inputs).map KeyValue.key ↔ ∃ f ∈ inputs, k ∈ ws f := by
  rw [emitted, List.map_flatMap, List.mem_flatMap]
  constructor
  · rintro ⟨p, hp, hk⟩
    exact ⟨p.1, (List.mem_zipIdx' hp).2 ▸ List.getElem_mem _, (h p.2 p.1 k).mp hk⟩
  · rintro ⟨f, hf, hk⟩
    obtain ⟨n, hn, rfl⟩ := List.getElem_of_mem hf
    exact ⟨(inputs[n], n), List.mk_mem_zipIdx_iff_getElem?.mpr (List.getElem?_eq_getElem hn),
      (h n _ k).mpr hk⟩

theorem foldl_concat_map {α β : Type} (f : α → β) (as : List α) (bs : List β) :
    as.foldl (fun bs a => bs ++ [f a]) bs = bs ++ as.map f := by
  induction as generalizing bs with
  | nil => simp
  | cons a as ih => simp [ih]

/-! ## Word count -/

/-- How often the word occurs, over all inputs. -/
def occurrences (u : Unicode) (inputs : List Input) (w : GoString) : Nat :=
  (inputs.map fun f => (words u f.contents).count w).sum

theorem Wc.map_eq (u : Unicode) (filename contents : GoString) :
    Wc.map u filename contents = (words u contents).map fun w => ⟨w, text "1"⟩ := by
  rw [Wc.map, foldl_concat_map, List.nil_append]

theorem Wc.map_keys (u : Unicode) (filename contents w : GoString) :
    w ∈ (Wc.map u filename contents).map KeyValue.key ↔ w ∈ words u contents := by
  rw [Wc.map_eq, List.map_map]
  exact (List.map_id (words u contents)).symm ▸ Iff.rfl

theorem Wc.map_values (u : Unicode) (filename contents w : GoString) :
    ((Wc.map u filename contents).filter (·.key = w)).map KeyValue.value =
      List.replicate ((words u contents).count w) (text "1") := by
  rw [Wc.map_eq, List.filter_map, List.map_map]
  change ((words u contents).filter (· = w)).map _ = _
  rw [List.filter_eq, List.map_replicate]
  rfl

theorem wc_values (u : Unicode) (inputs : List Input) (w : GoString) :
    (((emitted (wc u).mapf inputs).filter (·.key = w)).map KeyValue.value).length =
      occurrences u inputs w := by
  rw [values_emitted (wc u).mapf fun _ f => Wc.map_values u f.filename f.contents w,
    List.length_flatMap]
  simp [occurrences]

/-! ## Indexer -/

/-- The names of the inputs that contain the word, one for each such input, sorted. -/
def listed (u : Unicode) (inputs : List Input) (w : GoString) : List GoString :=
  ((inputs.filter fun f => w ∈ words u f.contents).map Input.filename).insertionSort (· ≤ ·)

/-- The map of the indexer holds each word once. -/
theorem Indexer.map_eq (u : Unicode) (ω : RangeOrder GoString) (document value : GoString) :
    ∃ ws : List GoString, ws.Nodup ∧ (∀ w, w ∈ ws ↔ w ∈ words u value) ∧
      Indexer.map u ω document value = ws.map fun w => ⟨w, document⟩ := by
  let m : GoMap GoString Bool := (words u value).foldl (fun m w => m.insert w true) ∅
  refine ⟨ω.order m.keys, (ω.perm _).nodup_iff.mpr m.keys_nodup, ?_, ?_⟩
  · intro w
    have hmem := mem_collect id false (fun _ _ => true) (words u value) w
    rw [List.map_id] at hmem
    rw [ω.mem_order, ← AList.mem_keys]
    exact hmem
  · rw [Indexer.map, foldl_concat_map, List.nil_append]

theorem Indexer.map_keys (u : Unicode) (ω : RangeOrder GoString) (document value w : GoString) :
    w ∈ (Indexer.map u ω document value).map KeyValue.key ↔ w ∈ words u value := by
  obtain ⟨ws, -, hmem, hmap⟩ := Indexer.map_eq u ω document value
  rw [hmap, List.map_map, ← hmem]
  exact (List.map_id ws).symm ▸ Iff.rfl

theorem Indexer.map_values (u : Unicode) (ω : RangeOrder GoString) (document value w : GoString) :
    ((Indexer.map u ω document value).filter (·.key = w)).map KeyValue.value =
      if w ∈ words u value then [document] else [] := by
  obtain ⟨ws, hnodup, hmem, hmap⟩ := Indexer.map_eq u ω document value
  have hfilter : ws.filter (· = w) = if w ∈ words u value then [w] else [] := by
    rw [List.filter_eq, hnodup.count]
    by_cases h : w ∈ words u value <;> simp [hmem, h]
  rw [hmap, List.filter_map, List.map_map]
  change (ws.filter (· = w)).map _ = _
  rw [hfilter]
  split <;> rfl

theorem indexer_values (u : Unicode) (ω : Nat → RangeOrder GoString) (inputs : List Input)
    (w : GoString) :
    ((emitted (indexer u ω).mapf inputs).filter (·.key = w)).map KeyValue.value =
      (inputs.filter fun f => w ∈ words u f.contents).map Input.filename := by
  rw [values_emitted (indexer u ω).mapf
    fun n f => Indexer.map_values u (ω n) f.filename f.contents w]
  induction inputs with
  | nil => rfl
  | cons f inputs ih => by_cases h : w ∈ words u f.contents <;> simp [h, ih]

/-! ## The reference output -/

def wcOutput (u : Unicode) (inputs : List Input) (w : GoString) : GoString :=
  itoa (occurrences u inputs w)

def indexerOutput (u : Unicode) (inputs : List Input) (w : GoString) : GoString :=
  itoa (listed u inputs w).length ++ text " " ++ (text ",").intercalate (listed u inputs w)

/-- All words of the inputs, in increasing order. -/
def wordList (u : Unicode) (inputs : List Input) : List GoString :=
  ((inputs.flatMap fun f => words u f.contents).dedup).insertionSort (· ≤ ·)

theorem mem_wordList (u : Unicode) (inputs : List Input) (w : GoString) :
    w ∈ wordList u inputs ↔ ∃ f ∈ inputs, w ∈ words u f.contents := by
  rw [wordList, (List.perm_insertionSort _ _).mem_iff, List.mem_dedup, List.mem_flatMap]

theorem wordList_increasing (u : Unicode) (inputs : List Input) :
    (wordList u inputs).Pairwise (· < ·) := by
  have hle : (wordList u inputs).Pairwise (· ≤ ·) := List.pairwise_insertionSort _ _
  have hne : (wordList u inputs).Nodup :=
    (List.perm_insertionSort _ _).nodup_iff.mpr (List.nodup_dedup _)
  exact (hle.and hne).imp fun h => lt_of_le_of_ne h.1 h.2

theorem mrsequential_wc (u : Unicode) (S : ByKey) (inputs : List Input) :
    mrsequential S (wc u) (inputs.map Input.file) =
      .ok ((wordList u inputs).flatMap fun w => line w (wcOutput u inputs w)) := by
  rw [mrsequential_eq]
  congr 1
  refine (reduceLoop_reduced _ S _).ofile_eq ?_ (wordList_increasing u inputs) ?_
  · intro n w values hperm
    change itoa values.length = _
    rw [hperm.length_eq, wc_values, wcOutput]
  · intro w
    rw [mem_wordList, mem_keys_emitted (wc u).mapf fun _ f k =>
      Wc.map_keys u f.filename f.contents k]

theorem mrsequential_indexer (u : Unicode) (ω : Nat → RangeOrder GoString) (S : ByKey)
    (inputs : List Input) :
    mrsequential S (indexer u ω) (inputs.map Input.file) =
      .ok ((wordList u inputs).flatMap fun w => line w (indexerOutput u inputs w)) := by
  rw [mrsequential_eq]
  congr 1
  refine (reduceLoop_reduced _ S _).ofile_eq ?_ (wordList_increasing u inputs) ?_
  · intro n w values hperm
    have hsorted : values.insertionSort (· ≤ ·) = listed u inputs w := by
      rw [indexer_values] at hperm
      exact insertionSort_eq_of_perm hperm
    change Indexer.reduce w values = _
    rw [Indexer.reduce, hsorted, indexerOutput]
  · intro w
    rw [mem_wordList, mem_keys_emitted (indexer u ω).mapf fun n f k =>
      Indexer.map_keys u (ω n) f.filename f.contents k]

theorem wordList_perm (u : Unicode) {inputs inputs' : List Input} (h : inputs'.Perm inputs) :
    wordList u inputs' = wordList u inputs := by
  refine eq_of_increasing (wordList_increasing u inputs') (wordList_increasing u inputs) ?_
  intro w
  simp only [mem_wordList, h.mem_iff]

theorem wcOutput_perm (u : Unicode) {inputs inputs' : List Input} (h : inputs'.Perm inputs) :
    wcOutput u inputs' = wcOutput u inputs := by
  funext w
  rw [wcOutput, wcOutput, occurrences, occurrences, (h.map _).sum_eq]

theorem indexerOutput_perm (u : Unicode) {inputs inputs' : List Input} (h : inputs'.Perm inputs) :
    indexerOutput u inputs' = indexerOutput u inputs := by
  funext w
  have hlisted : listed u inputs' w = listed u inputs w :=
    insertionSort_eq_of_perm ((h.filter _).map _)
  rw [indexerOutput, indexerOutput, hlisted]

/-- The reference output of wc and indexer is one line for each word, in increasing order:
with the number of its occurrences, or with the number and the sorted names of the inputs
that contain it. Permuting the inputs does not change the output. -/
theorem reference_output (u : Unicode) (inputs : List Input) :
    (∃ ws : List GoString, ws.Pairwise (· < ·) ∧
      (∀ w, w ∈ ws ↔ ∃ f ∈ inputs, w ∈ words u f.contents) ∧
      (∀ S, mrsequential S (wc u) (inputs.map Input.file) =
        .ok (ws.flatMap fun w => line w (itoa (occurrences u inputs w)))) ∧
      ∀ S ω, mrsequential S (indexer u ω) (inputs.map Input.file) =
        .ok (ws.flatMap fun w => line w (itoa (listed u inputs w).length ++ text " " ++
          (text ",").intercalate (listed u inputs w)))) ∧
    ∀ inputs' : List Input, inputs'.Perm inputs → ∀ S S',
      mrsequential S' (wc u) (inputs'.map Input.file) =
        mrsequential S (wc u) (inputs.map Input.file) ∧
      ∀ ω ω', mrsequential S' (indexer u ω') (inputs'.map Input.file) =
        mrsequential S (indexer u ω) (inputs.map Input.file) := by
  constructor
  · exact ⟨wordList u inputs, wordList_increasing u inputs, mem_wordList u inputs,
      fun S => mrsequential_wc u S inputs, fun S ω => mrsequential_indexer u ω S inputs⟩
  · intro inputs' hperm S S'
    constructor
    · rw [mrsequential_wc, mrsequential_wc, wordList_perm u hperm, wcOutput_perm u hperm]
    · intro ω ω'
      rw [mrsequential_indexer, mrsequential_indexer, wordList_perm u hperm,
        indexerOutput_perm u hperm]

end Mr
