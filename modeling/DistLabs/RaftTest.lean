import Mathlib.Logic.Function.Basic
import DistLabs.Runs

/-!
# The Raft tester's copy of the committed logs

The package `raft` as far as the repository implements it: the tester keeps for
every server a copy of the entries the server applied, compares each newly applied
entry with all copies, and is told of the outcome. Without snapshots a server runs
`applier`; with snapshots it runs `applierSnap`, keeps its own log, hands it to Raft
as a snapshot now and then, and starts from a snapshot after a crash.

Commands are Go values of type `any`: `none` is `nil`, and `V` holds the comparable
others. RPCs between server and tester succeed. `served` is not in the source: it
lists the calls that the tester has answered, and the kills in between.
-/
namespace RaftTest

structure ApplyMsg (V Snap : Type) where
  commandValid : Bool
  command : Option V
  commandIndex : Int
  snapshotValid : Bool
  snapshot : Option Snap
  snapshotIndex : Int
  deriving DecidableEq

/-- A call that the tester answered, with the error text it returned, or a kill. -/
inductive Served (n : Nat) (V : Type) where
  | checkLogs (i : Fin n) (index : Int) (command : Option V) (err : String)
  | ingestLog (i : Fin n) (log : Int → Option (Option V))
  | applyErr (i : Fin n) (err : String)
  | kill (i : Fin n)

structure RaftServer (V : Type) where
  rfsrv : Bool
  applyErr : String
  logs : Int → Option (Option V)

def newRaftServer (V : Type) : RaftServer V := ⟨true, "", fun _ => none⟩

structure Test (n : Nat) (V : Type) where
  srvs : Fin n → RaftServer V
  maxIndex : Int
  served : List (Served n V)

def makeTest (n : Nat) (V : Type) : Test n V := ⟨fun _ => newRaftServer V, 0, []⟩

variable {n : Nat} {V Snap : Type}

/-- `mksrv` keeps the tester's record of a server and replaces only its proxy. -/
def mksrv (srv : Fin n) (ts : Test n V) : Test n V :=
  { ts with srvs := Function.update ts.srvs srv { ts.srvs srv with rfsrv := true } }

def kill (srv : Fin n) (ts : Test n V) : Test n V :=
  { ts with
    srvs := Function.update ts.srvs srv { ts.srvs srv with rfsrv := false }
    served := ts.served ++ [.kill srv] }

/-- The text for a server `j` whose copy holds another command; `fmtV` is the verb `%v`. -/
def commitMsg (fmtV : Option V → String) (index : Int) (i : Fin n) (command : Option V) (j : Fin n)
    (old : Option V) : String :=
  let v := fmtV command
  let w := fmtV old
  s!"commit index={index} server={i} {v} != server={j} {w}"

/-- The loop of `checkLogs` over the copies of all servers. -/
def compareAll [DecidableEq V] (fmtV : Option V → String) (ts : Test n V) (i : Fin n)
    (index : Int) (v : Option V) (js : List (Fin n)) : String :=
  js.foldl (fun err j =>
    match (ts.srvs j).logs index with
    | some old => if old ≠ v then commitMsg fmtV index i v j old else err
    | none => err) ""

def checkLogs [DecidableEq V] (fmtV : Option V → String) (i : Fin n) (m : ApplyMsg V Snap)
    (ts : Test n V) : String × Bool × Test n V :=
  let err := compareAll fmtV ts i m.commandIndex m.command (List.finRange n)
  let me := ts.srvs i
  let prevok := (me.logs (m.commandIndex - 1)).isSome
  (err, prevok,
    { srvs := Function.update ts.srvs i
        { me with logs := Function.update me.logs m.commandIndex (some m.command) }
      maxIndex := if m.commandIndex > ts.maxIndex then m.commandIndex else ts.maxIndex
      served := ts.served ++ [.checkLogs i m.commandIndex m.command err] })

/-- `ingestLog` replaces the copy of the server's log by the one it is sent. -/
def ingestLog (i : Fin n) (xlog : Int → Option (Option V)) (ts : Test n V) : Test n V :=
  { ts with
    srvs := Function.update ts.srvs i { ts.srvs i with logs := xlog }
    served := ts.served ++ [.ingestLog i xlog] }

def applyErr (i : Fin n) (err : String) (ts : Test n V) : Test n V :=
  { ts with
    srvs := Function.update ts.srvs i { ts.srvs i with applyErr := err }
    served := ts.served ++ [.applyErr i err] }

/-- The end of a pass of either applier. -/
def report (i : Fin n) (err : String) (ts : Test n V) : Test n V :=
  if err ≠ "" then applyErr i err ts else ts

/-- What `applier` does with one message from Raft. -/
def applier [DecidableEq V] (fmtV : Option V → String) (i : Fin n) (m : ApplyMsg V Snap)
    (ts : Test n V) : Test n V :=
  if m.commandValid = false then ts
  else
    let (err, prevok, ts) := checkLogs fmtV i m ts
    let index := m.commandIndex
    let err := if index > 1 ∧ prevok = false then s!"server {i} apply out of order {index}" else err
    report i err ts

/-- What can happen to the servers of a test without snapshots. -/
inductive Event (n : Nat) (V Snap : Type) where
  | read (i : Fin n) (m : ApplyMsg V Snap)
  | kill (i : Fin n)
  | restart (i : Fin n)
  deriving DecidableEq

def Event.exec [DecidableEq V] (fmtV : Option V → String) (ts : Test n V) :
    Event n V Snap → Test n V
  | .read i m => applier fmtV i m ts
  | .kill i => RaftTest.kill i ts
  | .restart i => mksrv i ts

/-- The tester after a run without snapshots. -/
def runAppliers [DecidableEq V] (fmtV : Option V → String) (events : List (Event n V Snap)) :
    Test n V := events.foldl (Event.exec fmtV) (makeTest n V)

/-! ## Servers with snapshots -/

def SnapShotInterval : Int := 10

/-- The encoding of a snapshot: the index and the log up to it. -/
structure Labgob (V Snap : Type) where
  encode : Int → List (Option V) → Snap
  decode : Snap → Option (Int × List (Option V))
  len : Snap → Nat

structure Rfsrv (V : Type) where
  lastApplied : Int
  log : Int → Option (Option V)

/-- The map with the elements of a slice at their positions. -/
def sliceMap (xlog : List (Option V)) (j : Int) : Option (Option V) :=
  if 0 ≤ j then xlog[j.toNat]? else none

/-- Returns the empty or an error string. -/
def ingestSnap (gob : Labgob V Snap) (me : Fin n) (snapshot : Option Snap) (index : Int)
    (rs : Rfsrv V) : String × Rfsrv V :=
  match snapshot with
  | none => ("nil snapshot", rs)
  | some b =>
    match gob.decode b with
    | none => ("failed to decode snapshot", rs)
    | some (lastIncludedIndex, xlog) =>
      if index ≠ -1 ∧ index ≠ lastIncludedIndex then
        (s!"server {me} snapshot doesn't match m.SnapshotIndex", rs)
      else ("", ⟨lastIncludedIndex, sliceMap xlog⟩)

/-- The log that goes into a snapshot; a missing entry reads as `nil`. -/
def snapLog (log : Int → Option (Option V)) (index : Int) : List (Option V) :=
  (List.range (index + 1).toNat).map fun j => (log j).getD none

/-- The comparison in the command branch of `applierSnap`: the error and the tester. -/
def compareCommand [DecidableEq V] (fmtV : Option V → String) (i : Fin n) (m : ApplyMsg V Snap)
    (rs : Rfsrv V) (ts : Test n V) : String × Test n V :=
  let index := m.commandIndex
  let expected := rs.lastApplied + 1
  if index ≠ expected then
    (s!"server {i} apply out of order, expected index {expected}, got {index}", ts)
  else
    let (err, prevok, ts) := checkLogs fmtV i m ts
    (if err ≠ "ErrRPC" ∧ index > 1 ∧ prevok = false then
      s!"server {i} apply out of order {index}" else err, ts)

/-- The rest of the branch: the command enters the log, whatever the comparison said, and a
snapshot is passed to Raft if it is time for one. -/
def storeCommand (gob : Labgob V Snap) (m : ApplyMsg V Snap) (rs : Rfsrv V) :
    Rfsrv V × Option Snap :=
  let index := m.commandIndex
  let rs : Rfsrv V := ⟨index, Function.update rs.log index (some m.command)⟩
  (rs, if Int.tmod (index + 1) SnapShotInterval = 0 then
    some (gob.encode index (snapLog rs.log index)) else none)

/-- The command branch of `applierSnap`: the error, the new server state, the tester
and the snapshot passed to Raft. -/
def applyCommand [DecidableEq V] (gob : Labgob V Snap) (fmtV : Option V → String) (i : Fin n)
    (m : ApplyMsg V Snap) (rs : Rfsrv V) (ts : Test n V) :
    String × Rfsrv V × Test n V × Option Snap :=
  let (err, ts) := compareCommand fmtV i m rs ts
  let (rs, snap) := storeCommand gob m rs
  (err, rs, ts, snap)

/-- The servers and the tester of a test with snapshots: a server that is down has no
state; `taken` holds the snapshots that it passed to Raft. -/
structure Sys (n : Nat) (V Snap : Type) where
  ts : Test n V
  rf : Fin n → Option (Rfsrv V)
  taken : Fin n → List Snap

def Sys.start (n : Nat) (V Snap : Type) : Sys n V Snap :=
  ⟨makeTest n V, fun _ => some ⟨0, fun _ => none⟩, fun _ => []⟩

/-- What `applierSnap` does with one message from Raft. -/
def applierSnap [DecidableEq V] (gob : Labgob V Snap) (fmtV : Option V → String) (i : Fin n)
    (m : ApplyMsg V Snap) (rs : Rfsrv V) (s : Sys n V Snap) : Sys n V Snap :=
  if m.snapshotValid then
    let (err, rs) := ingestSnap gob i m.snapshot m.snapshotIndex rs
    { s with rf := Function.update s.rf i (some rs)
             ts := report i err (ingestLog i rs.log s.ts) }
  else if m.commandValid then
    let (err, rs, ts, snap) := applyCommand gob fmtV i m rs s.ts
    { rf := Function.update s.rf i (some rs)
      ts := report i err ts
      taken := Function.update s.taken i (s.taken i ++ snap.toList) }
  else s

/-- The start of a server from the snapshot its persister holds. A snapshot that
cannot be ingested ends the server. -/
def newRfsrv (gob : Labgob V Snap) (i : Fin n) (sn : Snap) (s : Sys n V Snap) : Sys n V Snap :=
  let fresh : Rfsrv V := ⟨0, fun _ => none⟩
  if 0 < gob.len sn then
    let (err, rs) := ingestSnap gob i (some sn) (-1) fresh
    if err ≠ "" then { s with rf := Function.update s.rf i none, ts := applyErr i err s.ts }
    else { s with rf := Function.update s.rf i (some rs), ts := ingestLog i rs.log s.ts }
  else { s with rf := Function.update s.rf i (some fresh) }

/-- What can happen to the servers of a test with snapshots. -/
inductive SnapEvent (n : Nat) (V Snap : Type) where
  | read (i : Fin n) (m : ApplyMsg V Snap)
  | kill (i : Fin n)
  | restart (i : Fin n) (sn : Snap)
  deriving DecidableEq

def SnapEvent.step [DecidableEq V] (gob : Labgob V Snap) (fmtV : Option V → String)
    (s : Sys n V Snap) : SnapEvent n V Snap → Option (Sys n V Snap)
  | .read i m => (s.rf i).map fun rs => applierSnap gob fmtV i m rs s
  | .kill i => some { s with rf := Function.update s.rf i none, ts := RaftTest.kill i s.ts }
  | .restart i sn =>
    let s := newRfsrv gob i sn s
    some { s with ts := mksrv i s.ts }

/-! ## Passes that a kill may cut off -/

/-- Where `applierSnap` is: it waits for a message; the command has been compared and has yet
to enter the log; or all that is left is to report the error, if there is one. -/
inductive SnapPc (V Snap : Type) where
  | reading
  | compared (m : ApplyMsg V Snap) (err : String)
  | reporting (err : String)

/-- The error that a pass has found and not reported. -/
def SnapPc.err : SnapPc V Snap → String
  | .reading => ""
  | .compared _ err => err
  | .reporting err => err

/-- An error that a pass has found: the server, the index at which the pass compared (`none` if
it compared nothing: its command was out of order, or its message a snapshot), and the number of
calls that the tester had answered by then. -/
structure Found (n : Nat) where
  server : Fin n
  err : String
  index : Option Int
  calls : Nat

/-- The servers in the middle of their passes. Not in the source: `found` lists the errors that
passes have found. -/
structure Passes (n : Nat) (V Snap : Type) extends Sys n V Snap where
  pc : Fin n → SnapPc V Snap
  found : List (Found n)

def Passes.start (n : Nat) (V Snap : Type) : Passes n V Snap :=
  ⟨Sys.start n V Snap, fun _ => .reading, []⟩

def Passes.note (i : Fin n) (index : Option Int) (err : String) (s : Passes n V Snap) :
    Passes n V Snap :=
  if err ≠ "" then { s with found := s.found ++ [⟨i, err, index, s.ts.served.length⟩] } else s

/-- A pass from the message to the answer of the tester. -/
def Passes.read [DecidableEq V] (gob : Labgob V Snap) (fmtV : Option V → String) (i : Fin n)
    (m : ApplyMsg V Snap) (rs : Rfsrv V) (s : Passes n V Snap) : Passes n V Snap :=
  if m.snapshotValid then
    let (err, rs) := ingestSnap gob i m.snapshot m.snapshotIndex rs
    Passes.note i none err { s with
      rf := Function.update s.rf i (some rs)
      ts := ingestLog i rs.log s.ts
      pc := Function.update s.pc i (.reporting err) }
  else if m.commandValid then
    let (err, ts) := compareCommand fmtV i m rs s.ts
    let index := if m.commandIndex = rs.lastApplied + 1 then some m.commandIndex else none
    Passes.note i index err { s with ts := ts, pc := Function.update s.pc i (.compared m err) }
  else s

inductive PassEvent (n : Nat) (V Snap : Type) where
  | read (i : Fin n) (m : ApplyMsg V Snap)
  | store (i : Fin n)
  | report (i : Fin n)
  | kill (i : Fin n)
  | restart (i : Fin n) (sn : Snap)

/-- One piece of a pass, a kill or a restart. A killed server takes its pass with it. -/
def Passes.step [DecidableEq V] (gob : Labgob V Snap) (fmtV : Option V → String)
    (s : Passes n V Snap) : PassEvent n V Snap → Option (Passes n V Snap)
  | .read i m =>
    match s.rf i, s.pc i with
    | some rs, .reading => some (s.read gob fmtV i m rs)
    | _, _ => none
  | .store i =>
    match s.rf i, s.pc i with
    | some rs, .compared m err =>
      let (rs, snap) := storeCommand gob m rs
      some { s with
        rf := Function.update s.rf i (some rs)
        taken := Function.update s.taken i (s.taken i ++ snap.toList)
        pc := Function.update s.pc i (.reporting err) }
    | _, _ => none
  | .report i =>
    match s.pc i with
    | .reporting err => some { s with
        ts := RaftTest.report i err s.ts
        pc := Function.update s.pc i .reading }
    | _ => none
  | .kill i => some { s with
      rf := Function.update s.rf i none
      ts := RaftTest.kill i s.ts
      pc := Function.update s.pc i .reading }
  | .restart i sn =>
    match s.pc i with
    | .reading =>
      let t := newRfsrv gob i sn s.toSys
      some { s with toSys := { t with ts := mksrv i t.ts } }
    | _ => none

end RaftTest
