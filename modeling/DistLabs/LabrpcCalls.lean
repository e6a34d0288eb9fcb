import DistLabs.LabrpcDelivery

/-!
# The callers of the network

`Labrpc` follows a request from the moment the network takes it. Here are the
other two ends of its channels: the goroutine of `MakeNetwork`, which takes the
requests until the network is cleaned up, and the callers in `ClientEnd.Call` and
`ClientEnd.Forward`, which wait in a `select` until their request is taken or the
network is gone, and then for the message on their `replyCh`. Channels have no
buffer, so a request is sent and taken, and a reply sent and received, in one step.
-/
namespace Labrpc

open Runs

variable {Name : Type}

/-! ## Well-formed requests -/

/-- What the goroutines of a request rely on without looking: `processReq` has the target of
its main branch, and waits in its loop for a message that is still to come; a message of
the handler has someone who will receive it. -/
structure Request.Formed (req : Request Name) : Prop where
  target : req.pc = .chosen ∨ req.pc = .loop ∨ (∃ reply, req.pc = .left reply) →
    req.target.isSome
  fresh : req.pc = .start ∨ req.pc = .chosen → req.draining = false ∧ req.handler = .idle
  waited : req.pc = .loop → req.draining = false ∧ req.handler ≠ .idle ∧ req.handler ≠ .ended
  received : req.handler ≠ .idle → req.handler ≠ .ended → req.pc = .loop ∨ req.draining = true

theorem Request.Formed.taken (endname : Name) (svcMeth : String) (args : Bytes) :
    (Request.taken endname svcMeth args).Formed := by
  constructor <;> simp [Request.taken]

theorem Request.draining_of_drain {rn : Network Name} {req req' : Request Name}
    (h : req.move rn .drain = some req') : req.draining = true := by
  simp only [Request.move] at h
  split at h
  · assumption
  · cases h

theorem Request.Formed.move {rn : Network Name} {req req' : Request Name} {m : Move}
    (h : req.Formed) (hmove : req.move rn m = some req') : req'.Formed := by
  obtain ⟨htarget, hfresh, hwaited, hreceived⟩ := h
  cases Request.moves_of_move hmove with
  | drain rep hh =>
    have hdraining := Request.draining_of_drain hmove
    constructor <;> simp_all
  | _ => constructor <;> simp_all

/-- Only its send ends a request. -/
theorem Request.Moves.not_finished {rn : Network Name} {req req' : Request Name} {m : Move}
    (h : req.Moves rn m req') (hm : m ≠ .send) (hpc : req.pc ≠ .finished) :
    req'.pc ≠ .finished := by
  cases h with
  | send rep hpc => exact absurd rfl hm
  | _ => simp [hpc]

/-! ## Calls -/

inductive Phase where
  | calling
  | waiting (r : Nat)
  | returned (rep : ReplyMsg)
  deriving DecidableEq

/-- A caller in `Call` or `Forward`; both build the same `reqMsg`. -/
structure Caller (Name : Type) where
  endname : Name
  svcMeth : String
  args : Bytes
  phase : Phase

/-- The network, whether the goroutine of `MakeNetwork` is still there, and the calls
made so far, each known by its position. -/
structure Calls (Name : Type) where
  rpc : State Name
  looping : Bool
  callers : List (Caller Name)

def Calls.start (Name : Type) : Calls Name := ⟨Labrpc.start Name, true, []⟩

inductive CallAction (Name : Type) where
  | call (endname : Name) (svcMeth : String) (args : Bytes)
  | enter (c : Nat)
  | giveUp (c : Nat)
  | exit
  | control (op : Control Name)
  | thread (r : Nat) (m : Move)
  | receive (c : Nat)
  deriving DecidableEq

/-- The message that the goroutines of request `r` offer on its `replyCh`. -/
def State.offer (s : State Name) (r : Nat) : Option ReplyMsg :=
  match s.reqs[r]? with
  | some req =>
    match req.pc with
    | .sending rep => some rep
    | _ => none
  | none => none

variable [DecidableEq Name]

def Calls.step (s : Calls Name) : CallAction Name → Option (Calls Name)
  | .call endname svcMeth args =>
    some { s with callers := s.callers ++ [⟨endname, svcMeth, args, .calling⟩] }
  | .enter c =>
    match s.callers[c]? with
    | some caller =>
      if s.looping ∧ caller.phase = .calling then
        (Labrpc.step s.rpc (.take caller.endname caller.svcMeth caller.args)).map fun rpc =>
          { s with
            rpc := rpc
            callers := s.callers.set c { caller with phase := .waiting s.rpc.reqs.length } }
      else none
    | none => none
  | .giveUp c =>
    match s.callers[c]? with
    | some caller =>
      if s.rpc.net.done ∧ caller.phase = .calling then
        some { s with callers := s.callers.set c { caller with phase := .returned noReply } }
      else none
    | none => none
  | .exit =>
    if s.rpc.net.done ∧ s.looping then some { s with looping := false } else none
  | .control op => (Labrpc.step s.rpc (.control op)).map fun rpc => { s with rpc := rpc }
  | .thread r m =>
    -- the send on `replyCh` waits for its caller
    if m = .send then none
    else (Labrpc.step s.rpc (.thread r m)).map fun rpc => { s with rpc := rpc }
  | .receive c =>
    match s.callers[c]? with
    | some caller =>
      match caller.phase with
      | .waiting r =>
        match s.rpc.offer r with
        | some rep =>
          (Labrpc.step s.rpc (.thread r .send)).map fun rpc =>
            { s with
              rpc := rpc
              callers := s.callers.set c { caller with phase := .returned rep } }
        | none => none
      | _ => none
    | none => none

/-- The steps, one constructor for each action. -/
inductive Calls.Steps (s : Calls Name) : CallAction Name → Calls Name → Prop
  | call (endname : Name) (svcMeth : String) (args : Bytes) :
      Steps s (.call endname svcMeth args)
        { s with callers := s.callers ++ [⟨endname, svcMeth, args, .calling⟩] }
  | enter (c : Nat) (caller : Caller Name) (rpc : State Name) (hloop : s.looping = true)
      (hc : s.callers[c]? = some caller) (hphase : caller.phase = .calling)
      (hstep : Labrpc.step s.rpc (.take caller.endname caller.svcMeth caller.args) = some rpc) :
      Steps s (.enter c) { s with
        rpc := rpc
        callers := s.callers.set c { caller with phase := .waiting s.rpc.reqs.length } }
  | giveUp (c : Nat) (caller : Caller Name) (hdone : s.rpc.net.done = true)
      (hc : s.callers[c]? = some caller) (hphase : caller.phase = .calling) :
      Steps s (.giveUp c)
        { s with callers := s.callers.set c { caller with phase := .returned noReply } }
  | exit (hdone : s.rpc.net.done = true) : Steps s .exit { s with looping := false }
  | control (op : Control Name) (rpc : State Name)
      (hstep : Labrpc.step s.rpc (.control op) = some rpc) :
      Steps s (.control op) { s with rpc := rpc }
  | thread (r : Nat) (m : Move) (rpc : State Name) (hm : m ≠ .send)
      (hstep : Labrpc.step s.rpc (.thread r m) = some rpc) :
      Steps s (.thread r m) { s with rpc := rpc }
  | receive (c : Nat) (caller : Caller Name) (r : Nat) (rep : ReplyMsg) (rpc : State Name)
      (hc : s.callers[c]? = some caller) (hphase : caller.phase = .waiting r)
      (hoffer : s.rpc.offer r = some rep)
      (hstep : Labrpc.step s.rpc (.thread r .send) = some rpc) :
      Steps s (.receive c) { s with
        rpc := rpc
        callers := s.callers.set c { caller with phase := .returned rep } }

theorem Calls.steps_of_step {s t : Calls Name} {a : CallAction Name} (h : s.step a = some t) :
    s.Steps a t := by
  cases a with
  | call endname svcMeth args =>
    cases h
    exact .call endname svcMeth args
  | enter c =>
    simp only [Calls.step] at h
    split at h
    · rename_i caller hc
      obtain ⟨⟨hloop, hphase⟩, h⟩ := Option.ite_none_right_eq_some.mp h
      obtain ⟨rpc, hstep, rfl⟩ := Option.map_eq_some_iff.mp h
      exact .enter c caller rpc hloop hc hphase hstep
    · cases h
  | giveUp c =>
    simp only [Calls.step] at h
    split at h
    · rename_i caller hc
      obtain ⟨⟨hdone, hphase⟩, h⟩ := Option.ite_none_right_eq_some.mp h
      cases h
      exact .giveUp c caller hdone hc hphase
    · cases h
  | exit =>
    simp only [Calls.step] at h
    obtain ⟨⟨hdone, -⟩, h⟩ := Option.ite_none_right_eq_some.mp h
    cases h
    exact .exit hdone
  | control op =>
    obtain ⟨rpc, hstep, rfl⟩ := Option.map_eq_some_iff.mp h
    exact .control op rpc hstep
  | thread r m =>
    simp only [Calls.step] at h
    obtain ⟨hm, h⟩ := Option.ite_none_left_eq_some.mp h
    obtain ⟨rpc, hstep, rfl⟩ := Option.map_eq_some_iff.mp h
    exact .thread r m rpc hm hstep
  | receive c =>
    simp only [Calls.step] at h
    split at h
    · rename_i caller hc
      split at h
      · rename_i r hphase
        split at h
        · rename_i rep hoffer
          obtain ⟨rpc, hstep, rfl⟩ := Option.map_eq_some_iff.mp h
          exact .receive c caller r rep rpc hc hphase hoffer hstep
        · cases h
      · cases h
    · cases h

def Calls.phase (s : Calls Name) (c : Nat) : Option Phase := (s.callers[c]?).map Caller.phase

/-! ## What every step keeps -/

section Phases

omit [DecidableEq Name]

theorem Calls.phase_eq_some {s : Calls Name} {c : Nat} {p : Phase} :
    s.phase c = some p ↔ ∃ caller, s.callers[c]? = some caller ∧ caller.phase = p := by
  simp [Calls.phase, Option.map_eq_some_iff]

theorem Calls.phase_set {s : Calls Name} {c : Nat} {caller : Caller Name}
    (hc : s.callers[c]? = some caller) (rpc : State Name) (p : Phase) (d : Nat) :
    Calls.phase { s with rpc := rpc, callers := s.callers.set c { caller with phase := p } } d =
      if d = c then some p else s.phase d := by
  have hlt := (List.getElem?_eq_some_iff.mp hc).1
  by_cases hd : d = c
  · subst hd
    simp [Calls.phase, hlt]
  · simp [Calls.phase, hd, List.getElem?_set_ne (Ne.symm hd)]

end Phases

theorem step_done {s t : State Name} {a : Action Name} (h : step s a = some t)
    (hdone : s.net.done = true) : t.net.done = true := by
  cases a with
  | control op =>
    obtain ⟨net, hexec, rfl⟩ := Option.map_eq_some_iff.mp h
    cases op <;> simp only [Control.exec, Option.ite_none_right_eq_some,
      Option.ite_none_left_eq_some, Option.some.injEq] at hexec <;> grind
  | take endname svcMeth args =>
    cases h
    exact hdone
  | thread r m =>
    obtain ⟨req, req', -, -, rfl⟩ := step_thread h
    exact hdone

theorem step_formed {s t : State Name} {a : Action Name} (h : step s a = some t)
    (hs : ∀ (r : Nat) req, s.reqs[r]? = some req → req.Formed) {r : Nat} {req : Request Name}
    (hr : t.reqs[r]? = some req) : req.Formed := by
  cases a with
  | control op =>
    obtain ⟨net, -, rfl⟩ := Option.map_eq_some_iff.mp h
    exact hs r req hr
  | take endname svcMeth args =>
    cases h
    rcases getElem?_concat_cases hr with hr | ⟨rfl, rfl⟩
    · exact hs r req hr
    · exact .taken endname svcMeth args
  | thread q m =>
    simp only [step] at h
    split at h
    · cases h
    · rename_i old hold
      obtain ⟨req', hmove, rfl⟩ := Option.map_eq_some_iff.mp h
      rcases getElem?_set_cases hr with ⟨rfl, rfl⟩ | ⟨hne, hr⟩
      · exact (hs _ old hold).move hmove
      · exact hs r req hr

/-- A request that is not answered stays so, until it sends its reply. -/
theorem step_pending {s t : State Name} {a : Action Name} (h : step s a = some t) {r : Nat}
    (ha : a ≠ .thread r .send) (hr : ∃ req, s.reqs[r]? = some req ∧ req.pc ≠ .finished) :
    ∃ req, t.reqs[r]? = some req ∧ req.pc ≠ .finished := by
  obtain ⟨req, hreq, hpc⟩ := hr
  cases a with
  | control op =>
    obtain ⟨net, -, rfl⟩ := Option.map_eq_some_iff.mp h
    exact ⟨req, hreq, hpc⟩
  | take endname svcMeth args =>
    cases h
    exact ⟨req, getElem?_concat_of_some hreq _, hpc⟩
  | thread q m =>
    obtain ⟨old, new, hold, hmoves, rfl⟩ := step_thread h
    by_cases hq : q = r
    · subst hq
      cases hold.symm.trans hreq
      refine ⟨new, getElem?_set_of_some hreq new, hmoves.not_finished ?_ hpc⟩
      rintro rfl
      exact ha rfl
    · exact ⟨req, (List.getElem?_set_ne hq).trans hreq, hpc⟩

/-- What holds in every state: the requests are well formed, a caller that waits has its own
request, which is not yet answered, and requests are taken until the network is gone. -/
structure Calls.Inv (s : Calls Name) : Prop where
  formed : ∀ (r : Nat) req, s.rpc.reqs[r]? = some req → req.Formed
  pending : ∀ c r, s.phase c = some (.waiting r) →
    ∃ req, s.rpc.reqs[r]? = some req ∧ req.pc ≠ .finished
  own : ∀ c d r, s.phase c = some (.waiting r) → s.phase d = some (.waiting r) → c = d
  taking : s.looping = false → s.rpc.net.done = true

omit [DecidableEq Name] in
theorem Calls.Inv.start : (Calls.start Name).Inv where
  formed := by simp [Calls.start, Labrpc.start]
  pending := by simp [Calls.start, Calls.phase]
  own := by simp [Calls.start, Calls.phase]
  taking := by simp [Calls.start]

/-- A step of the network that answers no caller. -/
theorem Calls.Inv.rpc_step {s : Calls Name} (hs : s.Inv) {a : Action Name} {rpc : State Name}
    (h : Labrpc.step s.rpc a = some rpc) (ha : ∀ r, a ≠ .thread r .send) :
    Calls.Inv { s with rpc := rpc } where
  formed := fun _ _ hr => step_formed h hs.formed hr
  pending := fun c r hc => step_pending h (ha r) (hs.pending c r hc)
  own := hs.own
  taking := fun hloop => step_done h (hs.taking hloop)

omit [DecidableEq Name] in
/-- Who starts or stops to call waits for nothing. -/
theorem Calls.Inv.callers_step {s t : Calls Name} (hs : s.Inv) (hrpc : t.rpc = s.rpc)
    (hloop : t.looping = s.looping)
    (hwait : ∀ c r, t.phase c = some (.waiting r) → s.phase c = some (.waiting r)) : t.Inv where
  formed := by rw [hrpc]; exact hs.formed
  pending := fun c r hc => by rw [hrpc]; exact hs.pending c r (hwait c r hc)
  own := fun c d r hc hd => hs.own c d r (hwait c r hc) (hwait d r hd)
  taking := by rw [hrpc, hloop]; exact hs.taking

omit [DecidableEq Name] in
theorem Calls.Inv.enter {s : Calls Name} (hs : s.Inv) {c : Nat} {caller : Caller Name}
    (hc : s.callers[c]? = some caller) :
    Calls.Inv { s with
      rpc := { s.rpc with
        net := { s.rpc.net with
          count := s.rpc.net.count + 1
          bytes := s.rpc.net.bytes + Int64.ofNat caller.args.length }
        reqs := s.rpc.reqs ++ [.taken caller.endname caller.svcMeth caller.args] }
      callers := s.callers.set c { caller with phase := .waiting s.rpc.reqs.length } } := by
  have hnew : ∀ d, s.phase d ≠ some (.waiting s.rpc.reqs.length) := by
    intro d hd
    obtain ⟨req, hreq, -⟩ := hs.pending d _ hd
    exact Nat.lt_irrefl _ (List.getElem?_eq_some_iff.mp hreq).1
  refine ⟨?_, ?_, ?_, hs.taking⟩
  · intro r req hr
    rcases getElem?_concat_cases hr with hr | ⟨-, rfl⟩
    · exact hs.formed r req hr
    · exact .taken _ _ _
  · intro d r hd
    rw [Calls.phase_set hc] at hd
    split at hd
    · cases hd
      exact ⟨_, List.getElem?_concat_length, by simp [Request.taken]⟩
    · obtain ⟨req, hreq, hpc⟩ := hs.pending d r hd
      exact ⟨req, getElem?_concat_of_some hreq _, hpc⟩
  · intro d e r hd he
    rw [Calls.phase_set hc] at hd he
    split at hd <;> split at he
    · omega
    · cases hd
      exact absurd he (hnew e)
    · cases he
      exact absurd hd (hnew d)
    · exact hs.own d e r hd he

theorem Calls.Inv.receive {s : Calls Name} (hs : s.Inv) {c r : Nat} {caller : Caller Name}
    {rpc : State Name} (hc : s.callers[c]? = some caller) (hphase : caller.phase = .waiting r)
    (hstep : Labrpc.step s.rpc (.thread r .send) = some rpc) (rep : ReplyMsg) :
    Calls.Inv { s with
      rpc := rpc
      callers := s.callers.set c { caller with phase := .returned rep } } := by
  have hwait : s.phase c = some (.waiting r) := Calls.phase_eq_some.mpr ⟨caller, hc, hphase⟩
  have hothers : ∀ d q, Calls.phase { s with
        rpc := rpc
        callers := s.callers.set c { caller with phase := .returned rep } } d =
      some (.waiting q) → s.phase d = some (.waiting q) ∧ d ≠ c := by
    intro d q hd
    rw [Calls.phase_set hc] at hd
    split at hd
    · cases hd
    · exact ⟨hd, by assumption⟩
  refine ⟨fun _ _ hr => step_formed hstep hs.formed hr, ?_, ?_,
    fun hloop => step_done hstep (hs.taking hloop)⟩
  · intro d q hd
    obtain ⟨hd, hne⟩ := hothers d q hd
    refine step_pending hstep ?_ (hs.pending d q hd)
    intro he
    cases he
    exact hne (hs.own d c r hd hwait)
  · intro d e q hd he
    exact hs.own d e q (hothers d q hd).1 (hothers e q he).1

theorem Calls.Inv.step {s t : Calls Name} {a : CallAction Name} (hs : s.Inv)
    (h : s.step a = some t) : t.Inv := by
  cases Calls.steps_of_step h with
  | call endname svcMeth args =>
    refine hs.callers_step rfl rfl ?_
    intro c r hc
    obtain ⟨caller, hc, hphase⟩ := Calls.phase_eq_some.mp hc
    rcases getElem?_concat_cases hc with hc | ⟨-, rfl⟩
    · exact Calls.phase_eq_some.mpr ⟨caller, hc, hphase⟩
    · cases hphase
  | enter c caller rpc hloop hc hphase hstep =>
    cases hstep
    exact hs.enter hc
  | giveUp c caller hdone hc hphase =>
    refine hs.callers_step rfl rfl ?_
    intro d r hd
    rw [Calls.phase_set hc] at hd
    split at hd
    · cases hd
    · exact hd
  | exit hdone => exact ⟨hs.formed, hs.pending, hs.own, fun _ => hdone⟩
  | control op rpc hstep => exact hs.rpc_step hstep (by simp)
  | thread r m rpc hm hstep => exact hs.rpc_step hstep (by simp [hm])
  | receive c caller r rep rpc hc hphase hoffer hstep => exact hs.receive hc hphase hstep rep

theorem Calls.Inv.of_run {as : List (CallAction Name)} {s : Calls Name}
    (h : run Calls.step (Calls.start Name) as = some s) : s.Inv :=
  run_induction (P := fun _ s => s.Inv) Calls.Inv.start
    (fun _ _ _ _ _ ih ha => ih.step ha) h

end Labrpc
