import DistLabs.Runs
import Mathlib.Logic.Function.Basic

/-!
# The simulated network of labrpc

`Network` holds what the mutex of the source protects, with the maps read as
total functions: a missing key reads as the zero value. Each request taken from
`endCh` has its own goroutine `processReq`, a goroutine that runs the handler
and possibly a timer; `Request` is their common activation record. A step of
the system is one operation under the mutex, one receive from `endCh`, or one
move of the goroutines of one request, so the runs are all interleavings. The
random choices are moves that the state allows side by side; time is not
modelled, a timer may fire at any later step.
-/
namespace Labrpc

abbrev Bytes := List UInt8

/-- The identity of a `Server` object. -/
abbrev ServerId := Nat

def LongDelay : Nat := 7000

structure ReplyMsg where
  ok : Bool
  reply : Bytes
  deriving DecidableEq, Repr

/-- The reply `replyMsg{false, nil}` of a lost request. -/
def noReply : ReplyMsg := ⟨false, []⟩

structure Network (Name : Type) where
  reliable : Bool
  longDelays : Bool
  longReordering : Bool
  ends : Name → Bool
  enabled : Name → Bool
  servers : Name → Option ServerId
  connections : Name → Option Name
  done : Bool
  count : Int32
  bytes : Int64

variable {Name : Type}

def makeNetwork (Name : Type) : Network Name where
  reliable := true
  longDelays := false
  longReordering := false
  ends := fun _ => false
  enabled := fun _ => false
  servers := fun _ => none
  connections := fun _ => none
  done := false
  count := 0
  bytes := 0

/-! ## Operations under the mutex -/

/-- What `readEndnameInfo` returns, its results `nil` being `none`. -/
structure EndInfo (Name : Type) where
  enabled : Bool
  servername : Option Name
  server : Option ServerId
  reliable : Bool
  longreordering : Bool

def readEndnameInfo (rn : Network Name) (endname : Name) : EndInfo Name where
  enabled := rn.enabled endname
  servername := rn.connections endname
  server := (rn.connections endname).bind rn.servers
  reliable := rn.reliable
  longreordering := rn.longReordering

def isServerDead (rn : Network Name) (endname servername : Name) (server : ServerId) : Bool :=
  rn.enabled endname == false || rn.servers servername != some server

theorem isServerDead_eq_false {rn : Network Name} {endname servername : Name}
    {server : ServerId} : isServerDead rn endname servername server = false ↔
      rn.enabled endname = true ∧ rn.servers servername = some server := by
  simp [isServerDead]

/-- The calls of the tester on the network. -/
inductive Control (Name : Type) where
  | makeEnd (endname : Name)
  | deleteEnd (endname : Name)
  | connect (endname : Name) (servername : Option Name)
  | enable (endname : Name) (enabled : Bool)
  | addServer (servername : Name) (rs : ServerId)
  | deleteServer (servername : Name)
  | reliable (yes : Bool)
  | longReordering (yes : Bool)
  | longDelays (yes : Bool)
  | cleanup
  deriving DecidableEq

/-- The effect of a call. A `log.Fatalf` or a panic ends the process, and with it
the run. -/
def Control.exec [DecidableEq Name] (rn : Network Name) : Control Name → Option (Network Name)
  | .makeEnd endname =>
    if rn.ends endname then none
    else some { rn with
      ends := Function.update rn.ends endname true
      enabled := Function.update rn.enabled endname false
      connections := Function.update rn.connections endname none }
  | .deleteEnd endname =>
    if rn.ends endname then some { rn with
      ends := Function.update rn.ends endname false
      enabled := Function.update rn.enabled endname false
      connections := Function.update rn.connections endname none }
    else none
  | .connect endname servername =>
    some { rn with connections := Function.update rn.connections endname servername }
  | .enable endname enabled =>
    some { rn with enabled := Function.update rn.enabled endname enabled }
  | .addServer servername rs =>
    some { rn with servers := Function.update rn.servers servername (some rs) }
  | .deleteServer servername =>
    some { rn with servers := Function.update rn.servers servername none }
  | .reliable yes => some { rn with reliable := yes }
  | .longReordering yes => some { rn with longReordering := yes }
  | .longDelays yes => some { rn with longDelays := yes }
  | .cleanup => if rn.done then none else some { rn with done := true }

/-! ## The goroutines of a request -/

/-- The local variables of `processReq` in its main branch: what `readEndnameInfo`
returned for an enabled end with a registered server. -/
structure Target (Name : Type) where
  servername : Name
  server : ServerId
  reliable : Bool
  longreordering : Bool

/-- The condition `enabled && servername != nil && server != nil`. -/
def EndInfo.target (info : EndInfo Name) : Option (Target Name) :=
  match info.enabled, info.servername, info.server with
  | true, some servername, some server =>
    some ⟨servername, server, info.reliable, info.longreordering⟩
  | _, _, _ => none

theorem target_eq_some {rn : Network Name} {endname : Name} {tgt : Target Name}
    (h : (readEndnameInfo rn endname).target = some tgt) :
    rn.enabled endname = true ∧ rn.connections endname = some tgt.servername ∧
      rn.servers tgt.servername = some tgt.server := by
  simp only [EndInfo.target, readEndnameInfo] at h
  split at h
  · rename_i servername server henabled hname hserver
    cases h
    rw [hname] at hserver
    exact ⟨henabled, hname, hserver⟩
  · cases h

/-- Where `processReq`, or the timer it left behind, has got to. -/
inductive Pc where
  | start
  | chosen
  | loop
  | left (reply : Option ReplyMsg)
  | checked (reply : Option ReplyMsg) (serverDead : Bool)
  | unreachable
  | timer (ms : Nat) (reply : Option ReplyMsg)
  | sending (rep : ReplyMsg)
  | finished
  deriving DecidableEq

/-- Where the goroutine that runs the handler has got to; `returned` is blocked on
its send to `ech`. -/
inductive Handler where
  | idle
  | spawned
  | running
  | returned (rep : ReplyMsg)
  | ended
  deriving DecidableEq

/-- A request taken from `endCh`. The lists record the servers whose `dispatch`
was called for it and the messages sent on its `replyCh`. -/
structure Request (Name : Type) where
  endname : Name
  svcMeth : String
  args : Bytes
  target : Option (Target Name)
  pc : Pc
  handler : Handler
  draining : Bool
  executed : List ServerId
  answers : List ReplyMsg

def Request.taken (endname : Name) (svcMeth : String) (args : Bytes) : Request Name :=
  ⟨endname, svcMeth, args, none, .start, .idle, false, [], []⟩

/-- The moves of the goroutines of a request. -/
inductive Move where
  | readEndnameInfo
  | dropRequest
  | spawn
  | dispatch
  | handlerReturn (rep : ReplyMsg)
  | receive
  | poll
  | drain
  | recheck
  | answerDead
  | dropReply
  | delayReply (ms : Nat)
  | release
  | simulateTimeout (ms : Nat)
  | fire
  | send
  deriving DecidableEq

/-- One move; `none` if the goroutines are not there, or the branch is not open. -/
def Request.move (rn : Network Name) (req : Request Name) : Move → Option (Request Name)
  | .readEndnameInfo =>
    match req.pc with
    | .start =>
      let target := (readEndnameInfo rn req.endname).target
      some { req with
        target := target
        pc := if target.isSome then .chosen else .unreachable }
    | _ => none
  | .dropRequest =>
    match req.pc, req.target with
    | .chosen, some tgt =>
      if tgt.reliable = false then some { req with pc := .sending noReply } else none
    | _, _ => none
  | .spawn =>
    match req.pc with
    | .chosen => some { req with pc := .loop, handler := .spawned }
    | _ => none
  | .dispatch =>
    match req.handler, req.target with
    | .spawned, some tgt =>
      some { req with handler := .running, executed := req.executed ++ [tgt.server] }
    | _, _ => none
  | .handlerReturn rep =>
    match req.handler with
    | .running => some { req with handler := .returned rep }
    | _ => none
  | .receive =>
    match req.pc, req.handler with
    | .loop, .returned rep => some { req with pc := .left (some rep), handler := .ended }
    | _, _ => none
  | .poll =>
    match req.pc, req.target with
    | .loop, some tgt =>
      if isServerDead rn req.endname tgt.servername tgt.server then
        some { req with pc := .left none, draining := true }
      else some req
    | _, _ => none
  | .drain =>
    match req.draining, req.handler with
    | true, .returned _ => some { req with handler := .ended }
    | _, _ => none
  | .recheck =>
    match req.pc, req.target with
    | .left reply, some tgt =>
      some { req with
        pc := .checked reply (isServerDead rn req.endname tgt.servername tgt.server) }
    | _, _ => none
  | .answerDead =>
    match req.pc with
    | .checked reply serverDead =>
      if reply = none ∨ serverDead then some { req with pc := .sending noReply } else none
    | _ => none
  | .dropReply =>
    match req.pc, req.target with
    | .checked (some _) false, some tgt =>
      if tgt.reliable = false then some { req with pc := .sending noReply } else none
    | _, _ => none
  | .delayReply ms =>
    match req.pc, req.target with
    | .checked (some rep) false, some tgt =>
      if tgt.longreordering ∧ 200 ≤ ms ∧ ms < 2200 then
        some { req with pc := .timer ms (some rep) }
      else none
    | _, _ => none
  | .release =>
    match req.pc with
    | .checked (some rep) false => some { req with pc := .sending rep }
    | _ => none
  | .simulateTimeout ms =>
    match req.pc with
    | .unreachable =>
      if ms < (if rn.longDelays then LongDelay else 100) then
        some { req with pc := .timer ms none }
      else none
    | _ => none
  | .fire =>
    match req.pc with
    | .timer _ reply => some { req with pc := .sending (reply.getD noReply) }
    | _ => none
  | .send =>
    match req.pc with
    | .sending rep => some { req with pc := .finished, answers := req.answers ++ [rep] }
    | _ => none

/-- The bytes that a move adds to the traffic count before the reply is sent. -/
def Request.released (req : Request Name) : Move → Nat
  | .release =>
    match req.pc with
    | .checked (some rep) _ => rep.reply.length
    | _ => 0
  | .fire =>
    match req.pc with
    | .timer _ (some rep) => rep.reply.length
    | _ => 0
  | _ => 0

/-! ## The whole network -/

/-- The network, the `count` of each `Server` object and the requests taken so far,
each known by its position. -/
structure State (Name : Type) where
  net : Network Name
  counts : ServerId → Nat
  reqs : List (Request Name)

def start (Name : Type) : State Name := ⟨makeNetwork Name, fun _ => 0, []⟩

inductive Action (Name : Type) where
  | control (c : Control Name)
  | take (endname : Name) (svcMeth : String) (args : Bytes)
  | thread (r : Nat) (m : Move)
  deriving DecidableEq

/-- A server counts the requests that reach its `dispatch`. -/
def countDispatch (counts : ServerId → Nat) (req : Request Name) (m : Move) : ServerId → Nat :=
  match m, req.target with
  | .dispatch, some tgt => Function.update counts tgt.server (counts tgt.server + 1)
  | _, _ => counts

def step [DecidableEq Name] (s : State Name) : Action Name → Option (State Name)
  | .control c => (c.exec s.net).map fun net => { s with net := net }
  | .take endname svcMeth args =>
    some { s with
      net := { s.net with
        count := s.net.count + 1
        bytes := s.net.bytes + Int64.ofNat args.length }
      reqs := s.reqs ++ [.taken endname svcMeth args] }
  | .thread r m =>
    match s.reqs[r]? with
    | none => none
    | some req =>
      (req.move s.net m).map fun req' =>
        { net := { s.net with bytes := s.net.bytes + Int64.ofNat (req.released m) }
          counts := countDispatch s.counts req m
          reqs := s.reqs.set r req' }

end Labrpc
