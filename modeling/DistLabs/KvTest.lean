import DistLabs.GoMaps
import DistLabs.Versioned

/-!
# The concurrent key/value tests

The clients of the package `kvtest` that race on one key, and the checks of their
results. The key is a versioned cell, whose value is `none` while the key is
absent; JSON values stand for what they encode. A client is a program over the
cell, one step for each `Put` and `Get`, and receives from `done` at any `select`
or never. The versions of the key are natural numbers and the tester's counters
integers, neither of which overflow; the clients that put take any type of versions.

A check ends in `ts.Fatalf` with its text, or in the panic of an index out of
range.
-/
namespace KvTest

open GoMaps Versioned

inductive Err where
  | OK | ErrNoKey | ErrVersion | ErrMaybe | ErrWrongLeader | ErrWrongGroup
  deriving DecidableEq, Repr

def Err.text : Err → String
  | .OK => "OK"
  | .ErrNoKey => "ErrNoKey"
  | .ErrVersion => "ErrVersion"
  | .ErrMaybe => "ErrMaybe"
  | .ErrWrongLeader => "ErrWrongLeader"
  | .ErrWrongGroup => "ErrWrongGroup"

abbrev Tversion := Nat

inductive Abort where
  | fatalf (text : String)
  | panic
  deriving DecidableEq, Repr

/-- The error of a `Put` with the given answer. -/
def putErr : Answer → Err
  | .ok => .OK
  | .version => .ErrVersion
  | .maybe => .ErrMaybe

variable {α : Type}

def getJson (key : String) (me : Int) (cell : Cell (Option α)) : Except String (α × Tversion) :=
  match cell.value with
  | some v => .ok (v, cell.version)
  | none => .error (toString me ++ ": Get \"" ++ key ++ "\" err " ++ Err.ErrNoKey.text)

structure ClntRes where
  nok : Int
  nmaybe : Int
  deriving DecidableEq, Repr

/-- The conversion `rpc.Tversion(x)` of an `int`: a negative one becomes a large version. -/
def toTversion (x : Int) : Tversion :=
  if 0 ≤ x then x.toNat else (x + 18446744073709551616).toNat

/-! ## Clients that put -/

/-- An entry, with versions in `τ`. -/
structure EntryV (τ : Type) where
  id : Int
  v : τ
  deriving DecidableEq, Repr

/-- Where a `OneClientPut` has got to: its `select`, the `PutJson` of a further round of
`OnePut`, the `GetJson` after a `PutJson` with the given error, or its end. -/
inductive PutPc where
  | select
  | retry
  | get (err : Err)
  | returned
  | fatal (text : String)
  deriving DecidableEq

/-- The variables of a `OneClientPut` on one key: `ver` is `verm[k]`, and within `OnePut`
its argument. -/
structure PutClient (τ : Type) where
  pc : PutPc
  ver : τ
  res : ClntRes

def PutClient.start : PutClient Tversion := ⟨.select, 0, ⟨0, 0⟩⟩

section OnePut

variable {τ : Type} [DecidableEq τ] [Add τ] [OfNat τ 1] [ToString τ]

/-- The rest of a round of `OnePut` once `PutJson` has returned. -/
def onePutErr (st : PutClient τ) (err : Err) : PutClient τ :=
  if ¬ (err = .OK ∨ err = .ErrVersion ∨ err = .ErrMaybe) then
    { st with pc := .fatal ("Wrong error " ++ err.text) }
  else { st with pc := .get err }

/-- The rest of a round of `OnePut` once `GetJson` has read `e` at `ver0`; when `OnePut`
returns, `OneClientPut` counts it. -/
def onePutRead (me : Int) (st : PutClient τ) (err : Err) (e : EntryV τ) (ver0 : τ) :
    PutClient τ :=
  if (err = .OK ∧ ver0 = st.ver + 1) ∧ (e.id ≠ me ∧ e.v ≠ st.ver) then
    { st with pc := .fatal ("Wrong value \x7b" ++ toString e.id ++ " " ++ toString e.v ++ "\x7d") }
  else if err = .OK then
    ⟨.select, ver0, { st.res with nok := st.res.nok + 1 }⟩
  else if err = .ErrMaybe then
    ⟨.select, ver0, { st.res with nmaybe := st.res.nmaybe + 1 }⟩
  else { st with pc := .retry, ver := ver0 }

end OnePut

/-- One of perhaps many clients doing `OnePut`s until the done signal. -/
def oneClientPut (key : String) (me : Int) :
    Program (Option (EntryV Tversion)) (PutClient Tversion) where
  request st :=
    match st.pc with
    | .select => some (.put (some ⟨me, st.ver⟩) st.ver)
    | .retry => some (.put (some ⟨me, st.ver⟩) st.ver)
    | .get _ => some .get
    | _ => none
  afterPut st a := onePutErr st (putErr a)
  afterGet st value version :=
    match st.pc, getJson key me ⟨value, version⟩ with
    | .get err, .ok (e, ver0) => onePutRead me st err e ver0
    | .get _, .error text => { st with pc := .fatal text }
    | _, _ => st
  stop st :=
    match st.pc with
    | .select => some { st with pc := .returned }
    | _ => none

/-- The loop of `CheckPutConcurrent` over the results of the clients. -/
def addResults (rs : List ClntRes) (res : ClntRes) : ClntRes :=
  rs.foldl (fun res r => ⟨res.nok + r.nok, res.nmaybe + r.nmaybe⟩) res

def ClntRes.text (res : ClntRes) : String :=
  "&\x7b" ++ toString res.nok ++ " " ++ toString res.nmaybe ++ "\x7d"

def checkPutConcurrent (key : String) (cell : Cell (Option (EntryV Tversion)))
    (rs : List ClntRes) (res : ClntRes) (reliable : Bool) : Except String ClntRes :=
  match getJson key (-1) cell with
  | .error text => .error text
  | .ok (_, ver0) =>
    let res := addResults rs res
    if reliable then
      if ver0 ≠ toTversion res.nok then
        .error ("Reliable: Wrong number of puts: server " ++ toString ver0 ++ " clnts " ++ res.text)
      else .ok res
    else if ver0 > toTversion (res.nok + res.nmaybe) then
      .error ("Unreliable: Wrong number of puts: server " ++ toString ver0 ++ " clnts " ++ res.text)
    else .ok res

/-! ## Clients that append -/

/-- The tuples of the list, which `OneClientAppend` writes as `entry`. -/
structure EntryN where
  id : Int
  n : Int
  deriving DecidableEq, Repr

/-- Where a `OneClientAppend` has got to: its `select`, the `GetJson` of a further try, the
`PutJson` with what it has read, or its end. -/
inductive AppendPc where
  | select
  | retry
  | put (es : List EntryN) (ver : Tversion)
  | returned
  | fatal (text : String)

structure AppendClient where
  pc : AppendPc
  i : Nat
  nok : Nat
  nmay : Nat

def AppendClient.start : AppendClient := ⟨.select, 0, 0, 0⟩

def AppendClient.res (st : AppendClient) : ClntRes := ⟨st.nok, st.nmay⟩

/-- At each iteration a client attempts to append a tuple to the list. -/
def oneClientAppend (me : Int) : Program (Option (List EntryN)) AppendClient where
  request st :=
    match st.pc with
    | .select => some .get
    | .retry => some .get
    | .put es ver => some (.put (some (es ++ [⟨me, st.i⟩])) ver)
    | _ => none
  afterGet st value version :=
    match getJson "k" me ⟨value, version⟩ with
    | .ok (es, ver) => { st with pc := .put es ver }
    | .error text => { st with pc := .fatal text }
  afterPut st a :=
    match putErr a with
    | .OK => ⟨.select, st.i + 1, st.nok + 1, st.nmay⟩
    | .ErrMaybe => ⟨.select, st.i + 1, st.nok, st.nmay + 1⟩
    | _ => { st with pc := .retry }
  stop st :=
    match st.pc with
    | .select => some { st with pc := .returned }
    | _ => none

/-- The maps `expect` and `skipped` of `CheckAppends`. -/
structure Tally where
  expect : GoMap Int Int
  skipped : GoMap Int Int

def Tally.start (nclnt : Nat) : Tally :=
  (List.range nclnt).foldl (fun t (i : Nat) => ⟨t.expect.insert i 0, t.skipped.insert i 0⟩) ⟨∅, ∅⟩

/-- One pass of the loop of `CheckAppends` over the list. -/
def Tally.count (t : Tally) (e : EntryN) : Except Abort Tally :=
  let expected := getD t.expect e.id 0
  if expected > e.n then
    .error (.fatalf (toString e.id ++ ": wrong expecting " ++ toString expected ++ " but got " ++
      toString e.n))
  else if expected = e.n then .ok { t with expect := t.expect.insert e.id (expected + 1) }
  else
    let s := e.n - expected
    .ok ⟨t.expect.insert e.id (e.n + 1), t.skipped.insert e.id (getD t.skipped e.id 0 + s)⟩

/-- The result `rs[c]`, unless the index is out of range. -/
def resultOf (rs : List ClntRes) (c : Int) : Option ClntRes := if 0 ≤ c then rs[c.toNat]? else none

/-- One pass of the loop of `CheckAppends` over `expect`. -/
def Tally.checkClient (t : Tally) (rs : List ClntRes) (c : Int) : Except Abort Unit :=
  let n := getD t.expect c 0
  let skipped := getD t.skipped c 0
  match resultOf rs c with
  | none => .error .panic
  | some r =>
    if skipped > r.nmaybe then
      .error (.fatalf (toString c ++ ": skipped puts " ++ toString skipped ++ " on server > " ++
        toString r.nmaybe ++ " maybe"))
    else if n > r.nok + r.nmaybe then
      .error (.fatalf (toString c ++ ": " ++ toString n ++ " puts on server > ok+maybe " ++
        toString (r.nok + r.nmaybe)))
    else .ok ()

def checkAppends (ω : RangeOrder Int) (es : List EntryN) (nclnt : Nat) (rs : List ClntRes)
    (ver : Tversion) : Except Abort Unit := do
  let t ← es.foldlM Tally.count (Tally.start nclnt)
  if es.length + 1 ≠ ver then
    throw (.fatalf (toString es.length ++ " appends in val != puts on server " ++ toString ver))
  (ω.order t.expect.keys).forM (t.checkClient rs)

end KvTest
