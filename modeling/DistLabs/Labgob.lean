import DistLabs.GoMaps

/-!
# The checks of labgob

`checkType` complains about field names that gob does not send, once for each
type; `checkDefault` warns about values that are not the default in what is decoded
into. Both walk what `reflect` shows of the program: its types, which may refer to
each other in any way, and the values of these types in memory.

`unicode.IsUpper` is a parameter. Of a value that neither check looks into only
the type is kept.
-/
namespace Labgob

open GoMaps

/-! ## Types -/

inductive IntKind where
  | int | int8 | int16 | int32 | int64
  deriving DecidableEq

inductive UintKind where
  | uint | uint8 | uint16 | uint32 | uint64 | uintptr
  deriving DecidableEq

/-- The kinds that `checkDefault1` compares with their zero value. -/
inductive BasicKind where
  | bool
  | int (k : IntKind)
  | uint (k : UintKind)
  | float32
  | float64
  | string
  deriving DecidableEq

structure Field (τ : Type) where
  name : String
  type : τ
  embedded : Bool
  deriving DecidableEq

/-- The kind of a type with the types it is made of; the other kinds are interfaces,
channels, functions and complex numbers. -/
inductive Shape (τ : Type) where
  | struct (fields : List (Field τ))
  | slice (elem : τ)
  | array (elem : τ)
  | ptr (elem : τ)
  | map (key elem : τ)
  | basic (k : BasicKind)
  | other

/-- The types of a program: `Name` and the rest of `reflect.Type`. -/
structure Types (τ : Type) where
  name : τ → String
  shape : τ → Shape τ

variable {τ : Type}

/-- The first rune of a name, as `utf8.DecodeRuneInString` gives it. -/
def firstRune (name : String) : Char := name.toList.headD (Char.ofNat 0xFFFD)

/-- Whether a name begins with an upper-case letter. Go exports just these fields. -/
def Field.exported (isUpper : Char → Bool) (f : Field τ) : Bool := isUpper (firstRune f.name)

/-! ## The types that were checked -/

/-- The global variables, the lines printed, and which fields have been complained about;
the source has no list of these. A nil `checked` is an empty map. -/
structure Globals (τ : Type) where
  checked : GoMap τ Bool
  errorCount : Nat
  printed : List String
  reported : List (τ × Nat)

def Globals.start : Globals τ := ⟨∅, 0, [], []⟩

def lowerCaseLine (G : Types τ) (t : τ) (name : String) : String :=
  "labgob error: lower-case field " ++ name ++ " of " ++ G.name t ++
    " in RPC or persist/snapshot will break your Raft\n"

/-- The complaint about the `i`-th field of a struct, if it is due. -/
def checkField (G : Types τ) (isUpper : Char → Bool) (t : τ) (f : Field τ) (i : Nat)
    (st : Globals τ) : Globals τ :=
  if f.exported isUpper = false then
    { st with
      printed := st.printed ++ [lowerCaseLine G t f.name]
      errorCount := st.errorCount + 1
      reported := st.reported ++ [(t, i)] }
  else st

variable [DecidableEq τ]

def Globals.isChecked (st : Globals τ) (t : τ) : Bool := (st.checked.lookup t).getD false

/-- The recursion is at most `fuel` calls deep. -/
def checkType (G : Types τ) (isUpper : Char → Bool) : Nat → τ → Globals τ → Option (Globals τ)
  | 0, _, _ => none
  | fuel + 1, t, st =>
    -- only complain once, and avoid recursion
    if st.isChecked t then some st
    else
      let st := { st with checked := st.checked.insert t true }
      match G.shape t with
      | .struct fields =>
        fields.zipIdx.foldlM (fun st f =>
          checkType G isUpper fuel f.1.type (checkField G isUpper t f.1 f.2 st)) st
      | .slice elem => checkType G isUpper fuel elem st
      | .array elem => checkType G isUpper fuel elem st
      | .ptr elem => checkType G isUpper fuel elem st
      | .map key elem => (checkType G isUpper fuel elem st).bind (checkType G isUpper fuel key)
      | .basic _ => some st
      | .other => some st

/-- The types that `checkType` goes on to from a type. -/
inductive Refers (G : Types τ) : τ → τ → Prop where
  | field {t : τ} {fields : List (Field τ)} {f : Field τ} (h : G.shape t = .struct fields)
    (hf : f ∈ fields) : Refers G t f.type
  | slice {t elem : τ} (h : G.shape t = .slice elem) : Refers G t elem
  | array {t elem : τ} (h : G.shape t = .array elem) : Refers G t elem
  | ptr {t elem : τ} (h : G.shape t = .ptr elem) : Refers G t elem
  | elem {t key elem : τ} (h : G.shape t = .map key elem) : Refers G t elem
  | key {t key elem : τ} (h : G.shape t = .map key elem) : Refers G t key

/-- The `i`-th field of a type is one that `checkType` complains about. -/
def LowerCase (G : Types τ) (isUpper : Char → Bool) (t : τ) (i : Nat) : Prop :=
  ∃ fields f, G.shape t = .struct fields ∧ fields[i]? = some f ∧ f.exported isUpper = false

/-! ## Values -/

def IntKind.width : IntKind → Nat
  | .int => 64
  | .int8 => 8
  | .int16 => 16
  | .int32 => 32
  | .int64 => 64

def UintKind.width : UintKind → Nat
  | .uint => 64
  | .uint8 => 8
  | .uint16 => 16
  | .uint32 => 32
  | .uint64 => 64
  | .uintptr => 64

/-- The values of a basic kind; floats by their bits, strings by their bytes. -/
def Basic : BasicKind → Type
  | .bool => Bool
  | .int k => BitVec k.width
  | .uint k => BitVec k.width
  | .float32 => BitVec 32
  | .float64 => BitVec 64
  | .string => List UInt8

/-- `reflect.DeepEqual` with the zero value. It compares floats by `==`, so the sign
of a zero does not count. -/
def isZero : (k : BasicKind) → Basic k → Bool
  | .bool, b => not b
  | .int k, n => BitVec.toNat (w := k.width) n == 0
  | .uint k, n => BitVec.toNat (w := k.width) n == 0
  | .float32, x => BitVec.setWidth 31 x == BitVec.zero 31
  | .float64, x => BitVec.setWidth 63 x == BitVec.zero 63
  | .string, s => List.isEmpty s

/-- A value of a type. A pointer is an address, or nil; the values of the other kinds are
not looked into. -/
inductive Val (G : Types τ) : τ → Type where
  | struct {t : τ} (fields : List (Field τ)) (h : G.shape t = .struct fields)
    (vs : ∀ i : Fin fields.length, Val G (fields.get i).type) : Val G t
  | ptr {t : τ} (elem : τ) (h : G.shape t = .ptr elem) (addr : Option Nat) : Val G t
  | basic {t : τ} (k : BasicKind) (h : G.shape t = .basic k) (b : Basic k) : Val G t
  | slice {t : τ} (elem : τ) (h : G.shape t = .slice elem) : Val G t
  | array {t : τ} (elem : τ) (h : G.shape t = .array elem) : Val G t
  | map {t : τ} (key elem : τ) (h : G.shape t = .map key elem) : Val G t
  | other {t : τ} (h : G.shape t = .other) : Val G t

/-- What the pointers of each type point to. -/
abbrev Heap (G : Types τ) := (elem : τ) → Nat → Val G elem

/-- The flags of a `reflect.Value` that was got through an unexported field, one that is
not embedded or one that is. -/
structure RO where
  sticky : Bool
  embed : Bool

def RO.none : RO := ⟨false, false⟩

def RO.set (ro : RO) : Bool := ro.sticky || ro.embed

/-- The flags of `value.Field(i)`. An embedded field hands on only the first flag. -/
def RO.field (isUpper : Char → Bool) (ro : RO) (f : Field τ) : RO where
  sticky := ro.sticky || (!f.exported isUpper && !f.embedded)
  embed := !f.exported isUpper && f.embedded

/-! ## The values decoded into -/

def interfacePanic : String :=
  "reflect.Value.Interface: cannot return value obtained from unexported field or method"

def nonDefaultLine (what : String) : String :=
  "labgob warning: Decoding into a non-default variable/field " ++ what ++ " may not work\n"

def warnDefault (what : String) (st : Globals τ) : Globals τ :=
  { st with
    printed := if st.errorCount < 1 then st.printed ++ [nonDefaultLine what] else st.printed
    errorCount := st.errorCount + 1 }

/-- `value.Interface()` and what is done with the result, for a value of a basic kind. -/
def checkBasic {k : BasicKind} (b : Basic k) (ro : RO) (what : String) (st : Globals τ) :
    Except String (Globals τ) :=
  if ro.set then .error interfacePanic
  else if isZero k b then .ok st
  else .ok (warnDefault what st)

/-- The error is a panic. -/
def checkDefault1 (G : Types τ) (isUpper : Char → Bool) (heap : Heap G) {t : τ} (value : Val G t)
    (ro : RO) (depth : Nat) (name : String) (st : Globals τ) : Except String (Globals τ) :=
  if _h : depth > 3 then .ok st
  else
    match value with
    | .struct fields _ vs =>
      (List.finRange fields.length).foldlM (fun st i =>
        let f := fields.get i
        let name1 := if name ≠ "" then name ++ "." ++ f.name else f.name
        checkDefault1 G isUpper heap (vs i) (ro.field isUpper f) (depth + 1) name1 st) st
    | .ptr _ _ none => .ok st
    | .ptr elem _ (some addr) =>
      checkDefault1 G isUpper heap (heap elem addr) ro (depth + 1) name st
    | .basic _ _ b => checkBasic b ro (if name = "" then G.name t else name) st
    | .slice .. => .ok st
    | .array .. => .ok st
    | .map .. => .ok st
    | .other _ => .ok st
termination_by 4 - depth

/-- A nil `value` has no type. -/
def checkDefault (G : Types τ) (isUpper : Char → Bool) (heap : Heap G)
    (value : Option (Sigma (Val G))) (st : Globals τ) : Except String (Globals τ) :=
  match value with
  | none => .ok st
  | some v => checkDefault1 G isUpper heap v.2 .none 1 "" st

end Labgob
