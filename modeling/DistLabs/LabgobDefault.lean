import DistLabs.Labgob
import DistLabs.Runs

/-!
# Decoding into a struct with a lower-case field

`checkDefault1` asks `reflect` for every value of a basic kind that it comes to, and
`reflect` refuses those that were got through an unexported field. The walk is cut
off after three levels, the pointer given to `Decode` being the first; so just the
fields of the struct that it points to can be refused.
-/
namespace Labgob

open Runs

variable {τ : Type}

/-! ## The values that are compared -/

/-- A value of a basic kind that `checkDefault1` comes to. -/
structure Leaf where
  what : String
  hidden : Bool
  zero : Bool

def leaves (G : Types τ) (isUpper : Char → Bool) (heap : Heap G) :
    Nat → {t : τ} → Val G t → RO → String → List Leaf
  | 0, _, _, _, _ => []
  | left + 1, _, .struct fields _ vs, ro, name =>
    (List.finRange fields.length).flatMap fun i =>
      leaves G isUpper heap left (vs i) (ro.field isUpper (fields.get i))
        (if name ≠ "" then name ++ "." ++ (fields.get i).name else (fields.get i).name)
  | _ + 1, _, .ptr _ _ none, _, _ => []
  | left + 1, _, .ptr elem _ (some addr), ro, name =>
    leaves G isUpper heap left (heap elem addr) ro name
  | _ + 1, t, .basic k _ b, ro, name => [⟨if name = "" then G.name t else name, ro.set, isZero k b⟩]
  | _ + 1, _, .slice .., _, _ => []
  | _ + 1, _, .array .., _, _ => []
  | _ + 1, _, .map .., _, _ => []
  | _ + 1, _, .other _, _, _ => []

def checkLeaf (st : Globals τ) (l : Leaf) : Except String (Globals τ) :=
  if l.hidden then .error interfacePanic
  else if l.zero then .ok st
  else .ok (warnDefault l.what st)

/-- The walk compares the values one after the other. -/
theorem checkDefault1_eq (G : Types τ) (isUpper : Char → Bool) (heap : Heap G) (left : Nat) {t : τ}
    (value : Val G t) (ro : RO) (depth : Nat) (hdepth : left = 4 - depth) (name : String)
    (st : Globals τ) :
    checkDefault1 G isUpper heap value ro depth name st =
      (leaves G isUpper heap left value ro name).foldlM checkLeaf st := by
  induction left generalizing t ro depth name st with
  | zero =>
    rw [checkDefault1.eq_def, dif_pos (by omega)]
    rfl
  | succ left ih =>
    rw [checkDefault1.eq_def, dif_neg (by omega)]
    have hnext : left = 4 - (depth + 1) := by omega
    cases value with
    | struct fields h vs =>
      rw [leaves, foldlM_flatMap]
      change (List.finRange fields.length).foldlM _ st = _
      congr 1
      funext st i
      exact ih (vs i) _ _ hnext _ st
    | ptr elem h addr =>
      cases addr with
      | none => rfl
      | some addr => exact ih (heap elem addr) ro _ hnext name st
    | basic k h b => exact (bind_pure _).symm
    | slice elem h => rfl
    | array elem h => rfl
    | map key elem h => rfl
    | other h => rfl

/-! ## What the comparisons do -/

def warnings (ls : List Leaf) : List String := (ls.filter fun l => !l.zero).map Leaf.what

/-- Only warnings were printed, and counted. Nothing is printed but a first one. -/
def warned (st : Globals τ) (whats : List String) : Globals τ :=
  { st with
    printed := st.printed ++ if st.errorCount = 0 then (whats.take 1).map nonDefaultLine else []
    errorCount := st.errorCount + whats.length }

theorem warned_cons (st : Globals τ) (what : String) (whats : List String) :
    warned (warnDefault what st) whats = warned st (what :: whats) := by
  have hcount : st.errorCount + 1 + whats.length = st.errorCount + (whats.length + 1) := by omega
  by_cases h : st.errorCount = 0
  · simp [warned, warnDefault, h, Nat.add_comm]
  · have h1 : ¬ st.errorCount < 1 := by omega
    simp [warned, warnDefault, h, hcount]

theorem foldlM_checkLeaf_ok (ls : List Leaf) (st : Globals τ) (h : ∀ l ∈ ls, l.hidden = false) :
    ls.foldlM checkLeaf st = .ok (warned st (warnings ls)) := by
  induction ls generalizing st with
  | nil => simp [warned, warnings]; rfl
  | cons l ls ih =>
    have hl : l.hidden = false := h l List.mem_cons_self
    have hrest := fun st' => ih st' fun m hm => h m (List.mem_cons_of_mem l hm)
    rw [List.foldlM_cons, checkLeaf, if_neg (by simp [hl])]
    by_cases hzero : l.zero
    · rw [if_pos hzero]
      refine (hrest st).trans ?_
      simp [warnings, hzero]
    · rw [if_neg hzero]
      refine (hrest _).trans ?_
      rw [warned_cons]
      simp [warnings, hzero]

theorem foldlM_checkLeaf_error (ls : List Leaf) (st : Globals τ) (h : ∃ l ∈ ls, l.hidden = true) :
    ls.foldlM checkLeaf st = .error interfacePanic := by
  induction ls generalizing st with
  | nil => simp at h
  | cons l ls ih =>
    rw [List.foldlM_cons, checkLeaf]
    by_cases hl : l.hidden
    · rw [if_pos hl]
      rfl
    · have hrest : ∃ m ∈ ls, m.hidden = true := by simpa [hl] using h
      rw [if_neg hl]
      by_cases hzero : l.zero
      · rw [if_pos hzero]
        exact ih st hrest
      · rw [if_neg hzero]
        exact ih _ hrest

/-! ## Which values are refused -/

theorem set_field_none (isUpper : Char → Bool) (f : Field τ) :
    (RO.none.field isUpper f).set = !f.exported isUpper := by
  rw [RO.set, RO.field, RO.none]
  cases f.exported isUpper <;> cases f.embedded <;> rfl

/-- At the last level only a value of a basic kind is looked at. -/
theorem hidden_leaf_one (G : Types τ) (isUpper : Char → Bool) (heap : Heap G) {t : τ}
    (value : Val G t) (ro : RO) (name : String) :
    (∃ l ∈ leaves G isUpper heap 1 value ro name, l.hidden = true) ↔
      ro.set = true ∧ ∃ k, G.shape t = .basic k := by
  cases value with
  | struct fields h vs => simp [leaves, h]
  | ptr elem h addr => cases addr <;> simp [leaves, h]
  | basic k h b => simp [leaves, h]
  | slice elem h => simp [leaves, h]
  | array elem h => simp [leaves, h]
  | map key elem h => simp [leaves, h]
  | other h => simp [leaves, h]

/-- A struct type with a field that is not exported, of a basic kind. -/
def HidesBasic (G : Types τ) (isUpper : Char → Bool) (t : τ) : Prop :=
  ∃ fields, G.shape t = .struct fields ∧
    ∃ f ∈ fields, f.exported isUpper = false ∧ ∃ k, G.shape f.type = .basic k

theorem hidden_leaf_two (G : Types τ) (isUpper : Char → Bool) (heap : Heap G) {t : τ}
    (value : Val G t) (name : String) :
    (∃ l ∈ leaves G isUpper heap 2 value .none name, l.hidden = true) ↔
      HidesBasic G isUpper t := by
  cases value with
  | struct fields h vs =>
    have hfield : ∀ i name', (∃ l ∈ leaves G isUpper heap 1 (vs i)
          (RO.none.field isUpper (fields.get i)) name', l.hidden = true) ↔
        (fields.get i).exported isUpper = false ∧ ∃ k, G.shape (fields.get i).type = .basic k := by
      intro i name'
      rw [hidden_leaf_one, set_field_none, Bool.not_eq_true']
    constructor
    · rintro ⟨l, hl, hhidden⟩
      obtain ⟨i, -, hi⟩ := List.mem_flatMap.mp hl
      exact ⟨fields, h, fields.get i, List.get_mem fields i, (hfield i _).mp ⟨l, hi, hhidden⟩⟩
    · rintro ⟨fields', h', f, hf, hlower⟩
      rw [h] at h'
      cases h'
      obtain ⟨i, rfl⟩ := List.mem_iff_get.mp hf
      obtain ⟨l, hl, hhidden⟩ := (hfield i _).mpr hlower
      exact ⟨l, List.mem_flatMap.mpr ⟨i, List.mem_finRange i, hl⟩, hhidden⟩
  | ptr elem h addr =>
    cases addr with
    | none => simp [leaves, HidesBasic, h]
    | some addr =>
      rw [leaves, hidden_leaf_one]
      simp [HidesBasic, h, RO.set, RO.none]
  | basic k h b => simp [leaves, HidesBasic, h, RO.set, RO.none]
  | slice elem h => simp [leaves, HidesBasic, h]
  | array elem h => simp [leaves, HidesBasic, h]
  | map key elem h => simp [leaves, HidesBasic, h]
  | other h => simp [leaves, HidesBasic, h]

/-- A non-nil pointer `value` is checked without a panic, with only warnings as the
effect, unless it points to a struct that hides a value of a basic kind. -/
theorem checkDefault_ok_iff (G : Types τ) (isUpper : Char → Bool) (heap : Heap G) {t elem : τ}
    (h : G.shape t = .ptr elem) (addr : Nat) (st : Globals τ) :
    (∃ whats, checkDefault G isUpper heap (some ⟨t, .ptr elem h (some addr)⟩) st =
      .ok (warned st whats)) ↔ ¬ HidesBasic G isUpper elem := by
  have hwalk : checkDefault G isUpper heap (some ⟨t, .ptr elem h (some addr)⟩) st =
      (leaves G isUpper heap 2 (heap elem addr) .none "").foldlM checkLeaf st :=
    checkDefault1_eq G isUpper heap 3 _ _ 1 rfl "" st
  rw [hwalk, ← hidden_leaf_two G isUpper heap (heap elem addr) ""]
  constructor
  · rintro ⟨whats, hok⟩ hhidden
    rw [foldlM_checkLeaf_error _ _ hhidden] at hok
    cases hok
  · intro hnone
    refine ⟨_, foldlM_checkLeaf_ok _ _ ?_⟩
    intro l hl
    exact Bool.eq_false_iff.mpr fun hhidden => hnone ⟨l, hl, hhidden⟩

/-! The structs of the tests: `DD` with the reply `DD{99}`, and a default `T4`. -/

inductive TestType where
  | int | dd | ptrDD | t4 | ptrT4
  deriving DecidableEq

def testTypes : Types TestType where
  name
    | .int => "int"
    | .dd => "DD"
    | .t4 => "T4"
    | .ptrDD => ""
    | .ptrT4 => ""
  shape
    | .int => .basic (.int .int)
    | .dd => .struct [⟨"X", .int, false⟩]
    | .t4 => .struct [⟨"Yes", .int, false⟩, ⟨"no", .int, false⟩]
    | .ptrDD => .ptr .dd
    | .ptrT4 => .ptr .t4

def testInt (n : Nat) : Val testTypes .int := .basic (.int .int) rfl (BitVec.ofNat 64 n)

def testHeap : Heap testTypes
  | .int, _ => testInt 0
  | .dd, _ => .struct [⟨"X", .int, false⟩] rfl fun | ⟨0, _⟩ => testInt 99
  | .t4, _ => .struct [⟨"Yes", .int, false⟩, ⟨"no", .int, false⟩] rfl fun
    | ⟨0, _⟩ => testInt 0
    | ⟨1, _⟩ => testInt 0
  | .ptrDD, _ => .ptr .dd rfl none
  | .ptrT4, _ => .ptr .t4 rfl none

theorem checkDefault_reply :
    checkDefault testTypes Char.isUpper testHeap (some ⟨.ptrDD, .ptr .dd rfl (some 0)⟩) .start =
      .ok (warned .start ["X"]) ∧ ¬ HidesBasic testTypes Char.isUpper .dd := by
  have hreply : checkDefault testTypes Char.isUpper testHeap
      (some ⟨.ptrDD, .ptr .dd rfl (some 0)⟩) .start = .ok (warned .start ["X"]) :=
    checkDefault1_eq testTypes Char.isUpper testHeap 3 _ _ 1 rfl "" _
  exact ⟨hreply, (checkDefault_ok_iff testTypes Char.isUpper testHeap rfl 0 .start).mp ⟨_, hreply⟩⟩

/-- `Decode` into a default `T4` complains about its lower-case field, and then panics. -/
theorem checkDefault_panics :
    ∃ st, checkType testTypes Char.isUpper 4 .ptrT4 .start = some st ∧ st.reported = [(.t4, 1)] ∧
      checkDefault testTypes Char.isUpper testHeap (some ⟨.ptrT4, .ptr .t4 rfl (some 0)⟩) st =
        .error interfacePanic := by
  refine ⟨_, rfl, by decide, ?_⟩
  exact checkDefault1_eq testTypes Char.isUpper testHeap 3 _ _ 1 rfl "" _

end Labgob
