import DistLabs.Daemons

/-!
# Connections within a server group

The operations of `ServerGrp` that wire the servers of a group: every server has
an end to every server of the group, itself included, and the flag `connected`
says whether the tester means it to be on the network. Here an operation is one
step, as the tester calls them one after another; a `log.Fatalf` ends the run.
The names of new ends, which the source draws at random, and what becomes of the
daemon are given with the operation.

`former` is not in the source: it lists the ends of the servers that
`StartServer` has replaced.
-/
namespace Tester

open Labrpc

variable {n : Nat}

/-- The network after `Enable`. -/
def enable (rn : Network String) (endname : String) (enabled : Bool) : Network String :=
  { rn with enabled := Function.update rn.enabled endname enabled }

example (rn : Network String) (endname : String) (enabled : Bool) :
    (Control.enable endname enabled).exec rn = some (enable rn endname enabled) := rfl

/-- Connect `s` to the servers listed in `targets`. -/
def Server.connect (s : Server n) (connected : Fin n → Bool) (targets : List (Fin n))
    (rn : Network String) : Network String :=
  targets.foldl (fun rn j => if connected j then enable rn (s.endNames j) true else rn) rn

def Server.disconnect (s : Server n) (peers : List (Fin n)) (rn : Network String) :
    Network String :=
  peers.foldl (fun rn j => enable rn (s.endNames j) false) rn

structure ServerGrp (n : Nat) where
  net : Network String
  srvs : Fin n → Server n
  connected : Fin n → Bool
  former : List String

namespace ServerGrp

def all (n : Nat) : List (Fin n) := List.finRange n

def isConnected (sg : ServerGrp n) (i : Fin n) : Bool := sg.connected i

/-- Attach server `i` to the servers listed in `targets`: outgoing ends first, then incoming. -/
def connect (sg : ServerGrp n) (i : Fin n) (targets : List (Fin n)) : ServerGrp n :=
  let sg := { sg with connected := Function.update sg.connected i true }
  let net := (sg.srvs i).connect sg.isConnected targets sg.net
  { sg with
    net := targets.foldl (fun rn j =>
      if sg.isConnected j then enable rn ((sg.srvs j).endNames i) true else rn) net }

/-- Detach server `i` from the servers listed in `peers`. -/
def disconnect (sg : ServerGrp n) (i : Fin n) (peers : List (Fin n)) : ServerGrp n :=
  let sg := { sg with connected := Function.update sg.connected i false }
  let net := (sg.srvs i).disconnect peers sg.net
  { sg with net := peers.foldl (fun rn j => enable rn ((sg.srvs j).endNames i) false) net }

def connectOne (sg : ServerGrp n) (i : Fin n) : ServerGrp n := sg.connect i (all n)

def connectAll (sg : ServerGrp n) : ServerGrp n := (all n).foldl connectOne sg

def disconnectAll (sg : ServerGrp n) (i : Fin n) : ServerGrp n := sg.disconnect i (all n)

def partition (sg : ServerGrp n) (p1 p2 : List (Fin n)) : ServerGrp n :=
  let sg := p1.foldl (fun sg i => (sg.disconnect i p2).connect i p1) sg
  p2.foldl (fun sg i => (sg.disconnect i p1).connect i p2) sg

/-! ## Servers come and go -/

/-- The calls of `makeServer` on the network. -/
def makeEnds (gid : Int) (endNames : Fin n → String) (rn : Network String) :
    Option (Network String) :=
  (makeServer n).foldlM (fun rn c => (c.control gid endNames).exec rn) rn

def makeSrvGrp (gid : Int) (rn : Network String) (endNames : Fin n → Fin n → String) :
    Option (ServerGrp n) :=
  ((all n).foldlM (fun rn i => makeEnds gid (endNames i) rn) rn).map fun rn =>
    ⟨rn, fun i => ⟨none, endNames i, none⟩, fun _ => false, []⟩

/-- `daemon` is the process that `runDaemon` started, with its labrpc `Server`, or `none` if
`runDaemon` failed. -/
def startServer (gid : Int) (sg : ServerGrp n) (i : Fin n) (endNames : Fin n → String)
    (daemon : Option Nat) : Option (ServerGrp n) :=
  (makeEnds gid endNames sg.net).bind fun net =>
    let saved := (sg.srvs i).saved.getD ⟨makePersister, none⟩
    let sg := { sg with
      srvs := Function.update sg.srvs i ⟨some saved, endNames, daemon⟩
      former := sg.former ++ List.ofFn (sg.srvs i).endNames }
    match daemon with
    | none => some { sg with net := net }
    | some k => ((Control.addServer (serverName gid i) k).exec net).map fun net =>
      { sg with net := net }

def startSrvs (gid : Int) (sg : ServerGrp n) (endNames : Fin n → Fin n → String)
    (daemons : Fin n → Option Nat) (srvs : List (Fin n)) : Option (ServerGrp n) :=
  srvs.foldlM (fun sg srv => sg.startServer gid srv (endNames srv) (daemons srv)) sg

def startServers (gid : Int) (sg : ServerGrp n) (endNames : Fin n → Fin n → String)
    (daemons : Fin n → Option Nat) : Option (ServerGrp n) :=
  (sg.startSrvs gid endNames daemons (all n)).map connectAll

/-- `p` is the checkpoint that the daemon of the server returns, if it has one. -/
def shutdownServer (gid : Int) (sg : ServerGrp n) (i : Fin n) (p : Stored) :
    Option (ServerGrp n) :=
  let sg := sg.disconnect i (all n)
  ((Control.deleteServer (serverName gid i)).exec sg.net).map fun net =>
    let srv := sg.srvs i
    { sg with
      net := net
      srvs := Function.update sg.srvs i
        (if srv.dc.isSome then { srv with saved := some p, dc := none } else srv) }

end ServerGrp

/-- The operations that wire a group. -/
inductive GrpOp (n : Nat) where
  | connectOne (i : Fin n)
  | connectAll
  | disconnectAll (i : Fin n)
  | partition (p1 p2 : List (Fin n))
  | shutdownServer (i : Fin n) (p : Stored)
  | startServer (i : Fin n) (endNames : Fin n → String) (daemon : Option Nat)
  | startServers (endNames : Fin n → Fin n → String) (daemons : Fin n → Option Nat)

def GrpOp.step (gid : Int) (sg : ServerGrp n) : GrpOp n → Option (ServerGrp n)
  | .connectOne i => some (sg.connectOne i)
  | .connectAll => some sg.connectAll
  | .disconnectAll i => some (sg.disconnectAll i)
  | .partition p1 p2 => some (sg.partition p1 p2)
  | .shutdownServer i p => sg.shutdownServer gid i p
  | .startServer i endNames daemon => sg.startServer gid i endNames daemon
  | .startServers endNames daemons => sg.startServers gid endNames daemons

/-! ## Partitions -/

/-- The loop of `makePartition` over the servers: the two slices and the running index. A
slot out of range is a panic. -/
def fillPartition (l : Nat) : List Nat → List Nat → List Nat → Nat → Option (List Nat × List Nat)
  | [], p1, p2, _ => some (p1, p2)
  | i :: rest, p1, p2, j =>
    if i ≠ l then
      if j < p1.length then fillPartition l rest (p1.set j i) p2 (j + 1)
      else if j - p1.length < p2.length then
        fillPartition l rest p1 (p2.set (j - p1.length) i) (j + 1)
      else none
    else fillPartition l rest p1 p2 j

/-- Partition servers into 2 groups and put current leader in minority. -/
def makePartition (n l : Nat) : Option (List Nat × List Nat) :=
  (fillPartition l (List.range n) (List.replicate (n / 2 + 1) 0) (List.replicate (n / 2) 0) 0).bind
    fun (p1, p2) => if p2.length = 0 then none else some (p1, p2.set (p2.length - 1) l)

end Tester
