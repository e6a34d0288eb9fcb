import DistLabs.Labrpc
import Mathlib.Data.List.FinRange

/-!
# Server daemons and their persisters

A group of `n` servers on the simulated network. Each successful `StartServer`
makes a new incarnation: a daemon process with its own persister, filled from
the one the tester saved, and a new labrpc `Server` object, known by the
position of the incarnation. `StartServer` and `ShutdownServer` take their steps
one by one, between the steps of the requests, of the other servers and of the
tester's other calls on the network. Sockets deliver what is sent: a `forward`
to a daemon is the handler's run there, and its `Save`s fall in between.

The calls that make the ends of the first servers, connect the group and add
clients are among the tester's calls. Servers of other groups, which live under
other names, are left out.
-/
namespace Tester

open Labrpc

def serverName (gid : Int) (i : Nat) : String :=
  "server-" ++ toString gid ++ "-" ++ toString i

structure Persister where
  raftstate : Bytes
  snapshot : Bytes
  deriving DecidableEq

def makePersister : Persister := ⟨[], []⟩

/-- The contents of a persister, and which `Save` of a server program wrote them. A copy
of a persister holds what the same `Save` wrote. -/
structure Stored where
  data : Persister
  writer : Option Nat
  deriving DecidableEq

variable {n : Nat}

/-- A daemon process: its server, what `Init` brought, its persister, and whether it
has not been killed. -/
structure Incarnation (n : Nat) where
  srv : Fin n
  initial : Stored
  persister : Stored
  alive : Bool

/-- A `Save` of a server program: the server, the incarnation, the request whose
handler called it, if any, and the contents. -/
structure SaveCall (n : Nat) where
  srv : Fin n
  inc : Nat
  caller : Option Nat
  data : Persister

/-- The tester's side of a server; `dc` is the incarnation it talks to. -/
structure Server (n : Nat) where
  saved : Option Stored
  endNames : Fin n → String
  dc : Option Nat

/-- A call of `makeServer` on the network, for its end to the given server. -/
inductive EndCall (n : Nat) where
  | makeEnd (j : Fin n)
  | connect (j : Fin n)

/-- Where the `StartServer` or `ShutdownServer` of a server has got to. -/
inductive Task (n : Nat) where
  | idle
  | makingEnds (endNames : Fin n → String) (todo : List (EndCall n))
  | installed
  | spawned
  | inited
  | disconnecting (todo : List (Fin n × Fin n))
  | deleted
  | checkpointed

structure Group (n : Nat) where
  lab : State String
  srvs : Fin n → Server n
  tasks : Fin n → Task n
  incs : List (Incarnation n)
  saves : List (SaveCall n)

def makeSrvGrp (endNames : Fin n → Fin n → String) : Group n where
  lab := start String
  srvs := fun i => ⟨none, endNames i, none⟩
  tasks := fun _ => .idle
  incs := []
  saves := []

/-! ## Steps -/

/-- The calls of `makeServer`: a fresh end to each server of the group. -/
def makeServer (n : Nat) : List (EndCall n) :=
  (List.finRange n).flatMap fun j => [.makeEnd j, .connect j]

def EndCall.control (gid : Int) (endNames : Fin n → String) : EndCall n → Control String
  | .makeEnd j => .makeEnd (endNames j)
  | .connect j => .connect (endNames j) (some (serverName gid j))

/-- The ends that `disconnect` disables: those of the server to all, then those of all
to the server. -/
def disconnect (i : Fin n) : List (Fin n × Fin n) :=
  (List.finRange n).map (fun j => (i, j)) ++ (List.finRange n).map fun j => (j, i)

/-- Only `StartServer` and `ShutdownServer` register servers. -/
def registers : Control String → Bool
  | .addServer _ _ => true
  | .deleteServer _ => true
  | _ => false

/-- A handler may call `Save` while it runs in the incarnation. -/
def runsIn (lab : State String) (k : Nat) : Option Nat → Bool
  | none => true
  | some r =>
    match lab.reqs[r]? with
    | none => false
    | some req => req.handler == .running && (req.target.map fun tgt => tgt.server) == some k

inductive Act (n : Nat) where
  | net (a : Labrpc.Action String)
  | save (k : Nat) (caller : Option Nat) (data : Persister)
  | startServer (i : Fin n) (endNames : Fin n → String)
  | call (i : Fin n)
  | install (i : Fin n)
  | runDaemon (i : Fin n) (ok : Bool)
  | init (i : Fin n)
  | addServer (i : Fin n)
  | shutdownServer (i : Fin n)
  | deleteServer (i : Fin n)
  | checkpointPersister (i : Fin n)
  | kill (i : Fin n)

def Group.setTask (g : Group n) (i : Fin n) (t : Task n) : Group n :=
  { g with tasks := Function.update g.tasks i t }

def Group.setSrv (g : Group n) (i : Fin n) (srv : Server n) : Group n :=
  { g with srvs := Function.update g.srvs i srv }

/-- A call of the group itself on the network. -/
def Group.control (g : Group n) (c : Control String) : Option (Group n) :=
  (c.exec g.lab.net).map fun net => { g with lab := { g.lab with net := net } }

/-- The next step of `StartServer` or `ShutdownServer` that is a call on an end. -/
def Group.call (gid : Int) (g : Group n) (i : Fin n) : Option (Group n) :=
  match g.tasks i with
  | .makingEnds endNames (c :: todo) =>
    (g.setTask i (.makingEnds endNames todo)).control (c.control gid endNames)
  | .disconnecting ((j, peer) :: todo) =>
    (g.setTask i (.disconnecting todo)).control (.enable ((g.srvs j).endNames peer) false)
  | _ => none

def Group.step (gid : Int) (g : Group n) : Act n → Option (Group n)
  | .net (.control c) => if registers c then none else g.control c
  | .net a => (Labrpc.step g.lab a).map fun lab => { g with lab := lab }
  | .save k caller data =>
    match g.incs[k]? with
    | none => none
    | some inc =>
      if inc.alive && runsIn g.lab k caller then
        some { g with
          incs := g.incs.set k { inc with persister := ⟨data, some g.saves.length⟩ }
          saves := g.saves ++ [⟨inc.srv, k, caller, data⟩] }
      else none
  | .startServer i endNames =>
    -- a restarted server was shut down first
    match g.tasks i, (g.srvs i).dc with
    | .idle, none => some (g.setTask i (.makingEnds endNames (makeServer n)))
    | _, _ => none
  | .call i => g.call gid i
  | .install i =>
    match g.tasks i with
    | .makingEnds endNames [] =>
      some ((g.setSrv i
        ⟨some ((g.srvs i).saved.getD ⟨makePersister, none⟩), endNames, none⟩).setTask i .installed)
    | _ => none
  | .runDaemon i ok =>
    match g.tasks i with
    | .installed => some (g.setTask i (if ok then .spawned else .idle))
    | _ => none
  | .init i =>
    match g.tasks i, (g.srvs i).saved with
    | .spawned, some saved =>
      some { (g.setSrv i { g.srvs i with dc := some g.incs.length }).setTask i .inited with
        incs := g.incs ++ [⟨i, saved, saved, true⟩] }
    | _, _ => none
  | .addServer i =>
    match g.tasks i, (g.srvs i).dc with
    | .inited, some k => (g.setTask i .idle).control (.addServer (serverName gid i) k)
    | _, _ => none
  | .shutdownServer i =>
    match g.tasks i with
    | .idle => some (g.setTask i (.disconnecting (disconnect i)))
    | _ => none
  | .deleteServer i =>
    match g.tasks i with
    | .disconnecting [] => (g.setTask i .deleted).control (.deleteServer (serverName gid i))
    | _ => none
  | .checkpointPersister i =>
    match g.tasks i, (g.srvs i).dc with
    | .deleted, none => some (g.setTask i .idle)
    | .deleted, some k =>
      match g.incs[k]? with
      | none => none
      | some inc =>
        some ((g.setSrv i { g.srvs i with saved := some inc.persister }).setTask i .checkpointed)
    | _, _ => none
  | .kill i =>
    match g.tasks i, (g.srvs i).dc with
    | .checkpointed, some k =>
      match g.incs[k]? with
      | none => none
      | some inc =>
        some { (g.setSrv i { g.srvs i with dc := none }).setTask i .idle with
          incs := g.incs.set k { inc with alive := false } }
    | _, _ => none

end Tester
