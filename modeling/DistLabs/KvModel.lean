import Mathlib.Data.String.Basic
import DistLabs.GoMaps
import DistLabs.Linearize

/-!
# The linearizability model of the key/value service

The package `models`: the sequential model of one key that histories of `Get` and
`Put` are checked against, and the partition of a history by keys. The checker
looks at the parts one by one; that this decides the whole history is the locality
of linearizability.
-/
namespace Models

open GoMaps Linearize

structure KvInput where
  op : UInt8
  key : String
  value : String
  version : UInt64
  deriving DecidableEq, Repr

structure KvOutput where
  value : String
  version : UInt64
  err : String
  deriving DecidableEq, Repr

structure KvState where
  value : String
  version : UInt64
  deriving DecidableEq, Repr

/-- An operation of a history, with the times of its call and its return. -/
structure Operation where
  clientId : Int
  input : KvInput
  call : Int
  output : KvOutput
  ret : Int
  deriving DecidableEq, Repr

/-- What `Step` hands back as the next state: a `KvState`, or the string it
answers for an unknown operation. -/
inductive State where
  | kv (st : KvState)
  | text (s : String)
  deriving DecidableEq, Repr

def init : KvState := ⟨"", 0⟩

def step (st : KvState) (inp : KvInput) (out : KvOutput) : Bool × State :=
  if inp.op = 0 then (out.value == st.value, .kv st)
  else if inp.op = 1 then
    if st.version = inp.version then
      (out.err == "OK" || out.err == "ErrMaybe", .kv ⟨inp.value, st.version + 1⟩)
    else (out.err == "ErrVersion" || out.err == "ErrMaybe", .kv st)
  else (false, .text "<invalid>")

/-- One operation accepted by `step`. -/
def accept (st : KvState) (o : Operation) : Option KvState :=
  match step st o.input o.output with
  | (true, .kv st') => some st'
  | _ => none

/-- The operations of the history, by key. -/
def byKey (history : List Operation) : GoMap String (List Operation) :=
  collect (·.input.key) [] (fun ops v => ops ++ [v]) history

def sortedKeys (ω : RangeOrder String) (history : List Operation) : List String :=
  (ω.order (byKey history).keys).insertionSort (· ≤ ·)

def partition (ω : RangeOrder String) (history : List Operation) : List (List Operation) :=
  (sortedKeys ω history).map fun k => getD (byKey history) k []

theorem getD_byKey (history : List Operation) (k : String) :
    getD (byKey history) k [] = history.filter (·.input.key = k) := by
  have hfold : ∀ l acc : List Operation, l.foldl (fun ops v => ops ++ [v]) acc = acc ++ l := by
    intro l
    induction l with
    | nil => simp
    | cons o l ih => intro acc; simp [ih]
  rw [byKey, getD_collect, hfold, List.nil_append]

theorem mem_sortedKeys (ω : RangeOrder String) (history : List Operation) (k : String) :
    k ∈ sortedKeys ω history ↔ ∃ o ∈ history, o.input.key = k := by
  rw [sortedKeys, List.mem_insertionSort, RangeOrder.mem_order, ← AList.mem_keys, byKey,
    mem_collect, List.mem_map]

theorem sortedKeys_nodup (ω : RangeOrder String) (history : List Operation) :
    (sortedKeys ω history).Nodup :=
  (((List.perm_insertionSort _ _).trans (ω.perm _)).nodup_iff).mpr (AList.keys_nodup _)

/-- The parts are the whole history seen through one key each, in the order of the keys. -/
theorem partition_eq (ω : RangeOrder String) (history : List Operation) :
    partition ω history =
      (sortedKeys ω history).map fun k => history.filter (·.input.key = k) := by
  simp only [partition, getD_byKey]

/-- A key that does not occur has nothing to linearize. -/
theorem linearizable_parts_iff (ω : RangeOrder String) (history : List Operation) :
    (∀ part ∈ partition ω history,
      Linearizable Operation.call Operation.ret accept init part) ↔
    ∀ k, Linearizable Operation.call Operation.ret accept init
      (history.filter (·.input.key = k)) := by
  rw [partition_eq, List.forall_mem_map]
  constructor
  · intro h k
    by_cases hk : k ∈ sortedKeys ω history
    · exact h k hk
    · have hnil : history.filter (·.input.key = k) = [] := by
        rw [List.filter_eq_nil_iff]
        intro o ho he
        exact hk ((mem_sortedKeys ω history k).mpr ⟨o, ho, by simpa using he⟩)
      rw [hnil]
      exact linearizable_nil _ _ _ _
  · intro h k _
    exact h k

/-- Checking each part of `partition` is sound and complete for the multi-key
store, and the parts hold every operation once, in its order within its key. -/
theorem partition_sound_complete (ω : RangeOrder String) (history : List Operation)
    (hwf : ∀ o ∈ history, o.call ≤ o.ret) :
    (Linearizable Operation.call Operation.ret (keyed (·.input.key) accept) (fun _ => init)
        history ↔
      ∀ part ∈ partition ω history,
        Linearizable Operation.call Operation.ret accept init part) ∧
    ∃ keys : List String, keys.Nodup ∧ keys.Pairwise (· ≤ ·) ∧
      (∀ k, k ∈ keys ↔ ∃ o ∈ history, o.input.key = k) ∧
      partition ω history = keys.map fun k => history.filter (·.input.key = k) := by
  constructor
  · rw [linearizable_parts_iff]
    exact linearizable_keyed_iff _ _ _ _ _ history hwf
  · exact ⟨sortedKeys ω history, sortedKeys_nodup ω history, List.pairwise_insertionSort _ _,
      mem_sortedKeys ω history, partition_eq ω history⟩

/-- A put and an overlapping get of one key, and a put of another key in between. -/
def overlapping : List Operation :=
  [⟨0, ⟨1, "x", "1", 0⟩, 0, ⟨"", 0, "OK"⟩, 5⟩, ⟨1, ⟨0, "x", "", 0⟩, 1, ⟨"1", 1, "OK"⟩, 9⟩,
    ⟨2, ⟨1, "y", "2", 0⟩, 2, ⟨"", 0, "ErrMaybe"⟩, 3⟩]

theorem partition_overlapping : (∀ o ∈ overlapping, o.call ≤ o.ret) ∧
    (Linearizable Operation.call Operation.ret (keyed (·.input.key) accept) (fun _ => init)
        overlapping ↔
      ∀ part ∈ partition (.stored _) overlapping,
        Linearizable Operation.call Operation.ret accept init part) :=
  ⟨by decide, (partition_sound_complete (.stored _) overlapping (by decide)).1⟩

end Models
