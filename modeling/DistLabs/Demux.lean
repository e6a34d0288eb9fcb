import DistLabs.GoMaps
import DistLabs.Runs

/-!
# The demultiplexer

One `DemuxClnt` and one `DemuxSrv` at the two ends of a connection. Any number
of `SendReceive` and `Close` calls run next to the client's reader, and the
server's reader starts a goroutine for each request. A step is one critical
section, one `ReadCall` or `WriteCall`, or one rendezvous on a channel.

The transport keeps the order of the frames of each direction. A read may fail
at any time, before or after either side closed the connection, and a write may
fail at any time, with or without its frame having got through; the code does
not look at the error of a write.

Frames and replies carry their origin: the call that sent a request, the
goroutine that sent a reply. No step of the code reads it.
-/
namespace Demux

open GoMaps

abbrev Ttag := UInt32
abbrev Bytes := List UInt8

/-! ## The map of outstanding calls -/

/-- `callMap`, the channel of a call being known by the position of the call. -/
structure CallMap where
  closed : Bool
  calls : GoMap Ttag Nat

def newCallMap : CallMap := ⟨false, ∅⟩

def CallMap.close (cm : CallMap) : CallMap := { cm with closed := true }

def CallMap.isClosed (cm : CallMap) : Bool := cm.closed

def CallMap.put (cm : CallMap) (tag : Ttag) (ch : Nat) : Except String CallMap :=
  if cm.closed then .error "conn closed"
  else .ok { cm with calls := cm.calls.insert tag ch }

theorem CallMap.put_closed {cm : CallMap} (h : cm.closed = true) (tag : Ttag) (ch : Nat) :
    cm.put tag ch = .error "conn closed" := if_pos h

theorem CallMap.put_open {cm : CallMap} (h : cm.closed = false) (tag : Ttag) (ch : Nat) :
    cm.put tag ch = .ok { cm with calls := cm.calls.insert tag ch } := if_neg (by simp [h])

def CallMap.remove (cm : CallMap) (tag : Ttag) : Option Nat × CallMap :=
  match cm.calls.lookup tag with
  | some ch => (some ch, { cm with calls := cm.calls.erase tag })
  | none => (none, cm)

theorem CallMap.remove_some {cm : CallMap} {tag : Ttag} {ch : Nat}
    (h : cm.calls.lookup tag = some ch) :
    cm.remove tag = (some ch, { cm with calls := cm.calls.erase tag }) := by
  simp only [CallMap.remove, h]

theorem CallMap.remove_none {cm : CallMap} {tag : Ttag} (h : cm.calls.lookup tag = none) :
    cm.remove tag = (none, cm) := by
  simp only [CallMap.remove, h]

def CallMap.outstanding (cm : CallMap) (ω : RangeOrder Ttag) : List Ttag :=
  ω.order cm.calls.keys

/-! ## State -/

structure Frame where
  tag : Ttag
  data : Bytes
  ok : Bool
  origin : Option Nat

/-- A message on the channel of a call. -/
structure Reply where
  rep : Bytes
  ok : Bool
  err : Option String
  origin : Option Nat

inductive CallerPc where
  | start
  | tagged
  | queued
  | waiting
  | returned (rep : Bytes) (ok : Bool) (err : Option String)
  deriving DecidableEq

/-- A `SendReceive`: its request, its tag, whether its `put` succeeded, and the
messages sent on its channel. -/
structure Caller where
  req : Bytes
  tag : Option Ttag
  pc : CallerPc
  enqueued : Bool
  received : List Reply

/-- The client's `reader`. It returns to reading, or to the rest of the outstanding
tags, once a reply has been handed over. -/
inductive Reader where
  | reading
  | replying (f : Frame)
  | handing (ch : Nat) (r : Reply) (rest : Option (List Ttag))
  | failed
  | closed
  | flushing (tags : List Ttag)
  | finished
  | fatal (b : Bytes) (tag : Ttag)

inductive CloserPc where
  | start
  | open
  | transClosed
  | returned
  deriving DecidableEq

inductive SrvReader where
  | init
  | reading
  | stopped
  deriving DecidableEq

/-- A goroutine of the server: the request, the result of `ServeRequest`, and whether
it has called `WriteCall`. -/
structure Go where
  tag : Ttag
  req : Bytes
  result : Option (Bytes × Bool)
  written : Bool
  origin : Option Nat

/-- The two ends and the frames in between; `replied` records the frames that the client's
reader has looked up a call for. -/
structure State where
  callmap : CallMap
  nextTag : Ttag
  callers : List Caller
  reader : Reader
  replied : List Frame
  closers : List CloserPc
  c2s : List Frame
  s2c : List Frame
  srvReader : SrvReader
  srvClosed : Bool
  gos : List Go

/-- The connection after `NewDemuxClnt` sent the message `init`, which took a tag. -/
def start (init : Bytes) : State where
  callmap := newCallMap
  nextTag := 1
  callers := []
  reader := .reading
  replied := []
  closers := []
  c2s := [⟨0, init, true, none⟩]
  s2c := []
  srvReader := .init
  srvClosed := false
  gos := []

/-! ## Steps -/

inductive Action where
  | sendReceive (b : Bytes)
  | tag (j : Nat)
  | put (j : Nat)
  | writeCall (j : Nat) (delivered : Bool)
  | readCall
  | readFail
  | closeCalls
  | outstanding (ω : RangeOrder Ttag)
  | remove
  | hand
  | finish
  | close
  | isClosed (c : Nat)
  | transClose (c : Nat)
  | closeMap (c : Nat)
  | srvInit
  | srvReadCall
  | srvReadFail (eof : Bool)
  | serveRequest (g : Nat) (rep : Bytes) (ok : Bool)
  | srvWriteCall (g : Nat) (delivered : Bool)
  | srvClose

def State.setCaller (s : State) (j : Nat) (c : Caller) : State :=
  { s with callers := s.callers.set j c }

@[simp] theorem setCaller_reader (s : State) (j : Nat) (c : Caller) :
    (s.setCaller j c).reader = s.reader := rfl

/-- The steps of a `SendReceive`, up to the wait for the reply. -/
def State.caller (s : State) (j : Nat) (c : Caller) : Action → Option State
  | .tag _ =>
    if c.pc = .start then
      some { s.setCaller j { c with tag := some s.nextTag, pc := .tagged } with
        nextTag := s.nextTag + 1 }
    else none
  | .put _ =>
    match c.pc, c.tag with
    | .tagged, some t =>
      match s.callmap.put t j with
      | .error err => some (s.setCaller j { c with pc := .returned [] false (some err) })
      | .ok cm =>
        some { s.setCaller j { c with pc := .queued, enqueued := true } with callmap := cm }
    | _, _ => none
  | .writeCall _ delivered =>
    match c.pc, c.tag with
    | .queued, some t =>
      some { s.setCaller j { c with pc := .waiting } with
        c2s := if delivered then s.c2s ++ [⟨t, c.req, true, some j⟩] else s.c2s }
    | _, _ => none
  | _ => none

/-- `reply`: the reader takes the channel of the tag out of the map, to send on it. -/
def State.reply (s : State) (tag : Ttag) (r : Reply) (rest : Option (List Ttag)) : State :=
  match s.callmap.remove tag with
  | (some ch, cm) => { s with callmap := cm, reader := .handing ch r rest }
  | (none, _) => { s with reader := .fatal r.rep tag }

/-- The steps of the client's `reader`. -/
def State.clntReader (s : State) : Action → Option State
  | .readCall =>
    match s.reader, s.s2c with
    | .reading, f :: s2c => some { s with reader := .replying f, s2c := s2c }
    | _, _ => none
  | .readFail =>
    match s.reader with
    | .reading => some { s with reader := .failed }
    | _ => none
  | .closeCalls =>
    match s.reader with
    | .failed => some { s with reader := .closed, callmap := s.callmap.close }
    | _ => none
  | .outstanding ω =>
    match s.reader with
    | .closed => some { s with reader := .flushing (s.callmap.outstanding ω) }
    | _ => none
  | .remove =>
    match s.reader with
    | .replying f =>
      some { s.reply f.tag ⟨f.data, f.ok, none, f.origin⟩ none with replied := s.replied ++ [f] }
    | .flushing (t :: tags) =>
      some (s.reply t ⟨[], false, some "reader reply fail", none⟩ (some tags))
    | _ => none
  | .hand =>
    match s.reader with
    | .handing ch r rest =>
      match s.callers[ch]? with
      | none => none
      | some c =>
        if c.pc = .waiting then
          some { s.setCaller ch
              { c with pc := .returned r.rep r.ok r.err, received := c.received ++ [r] } with
            reader := match rest with
              | none => .reading
              | some tags => .flushing tags }
        else none
    | _ => none
  | .finish =>
    match s.reader with
    | .flushing [] => some { s with reader := .finished }
    | _ => none
  | _ => none

/-- The steps of a `Close` of the client. -/
def State.closer (s : State) (c : Nat) (pc : CloserPc) : Action → Option State
  | .isClosed _ =>
    if pc = .start then
      some { s with closers := s.closers.set c (if s.callmap.isClosed then .returned else .open) }
    else none
  | .transClose _ =>
    if pc = .open then some { s with closers := s.closers.set c .transClosed } else none
  | .closeMap _ =>
    if pc = .transClosed then
      some { s with closers := s.closers.set c .returned, callmap := s.callmap.close }
    else none
  | _ => none

/-- The steps of the server. -/
def State.server (s : State) : Action → Option State
  | .srvInit =>
    match s.srvReader, s.c2s with
    | .init, _ :: c2s => some { s with srvReader := .reading, c2s := c2s }
    | _, _ => none
  | .srvReadCall =>
    match s.srvReader, s.c2s with
    | .reading, f :: c2s =>
      some { s with c2s := c2s, gos := s.gos ++ [⟨f.tag, f.data, none, false, f.origin⟩] }
    | _, _ => none
  | .srvReadFail eof =>
    match s.srvReader with
    | .reading => some { s with srvReader := .stopped, srvClosed := s.srvClosed || eof }
    | _ => none
  | .serveRequest g rep ok =>
    match s.gos[g]? with
    | none => none
    | some go =>
      if go.result = none then
        some { s with gos := s.gos.set g { go with result := some (rep, ok) } }
      else none
  | .srvWriteCall g delivered =>
    match s.gos[g]? with
    | none => none
    | some go =>
      match go.result, go.written with
      | some (rep, ok), false =>
        some { s with
          gos := s.gos.set g { go with written := true }
          s2c := if delivered then s.s2c ++ [⟨go.tag, rep, ok, some g⟩] else s.s2c }
      | _, _ => none
  | .srvClose => some { s with srvClosed := true }
  | _ => none

def step (s : State) (a : Action) : Option State :=
  match a with
  | .sendReceive b => some { s with callers := s.callers ++ [⟨b, none, .start, false, []⟩] }
  | .tag j | .put j | .writeCall j _ =>
    match s.callers[j]? with
    | none => none
    | some c => s.caller j c a
  | .close => some { s with closers := s.closers ++ [.start] }
  | .isClosed c | .transClose c | .closeMap c =>
    match s.closers[c]? with
    | none => none
    | some pc => s.closer c pc a
  | .readCall | .readFail | .closeCalls | .outstanding _ | .remove | .hand | .finish =>
    s.clntReader a
  | .srvInit | .srvReadCall | .srvReadFail _ | .serveRequest _ _ _ | .srvWriteCall _ _
  | .srvClose => s.server a

end Demux
