import DistLabs.Labrpc

/-!
# At-most-once delivery

What the goroutines of one request can do is said once, by `Request.Moves`. A
property of a request that its own moves keep holds in every run
(`request_induction`): the other requests and the calls of the tester only
change the network that these moves read.
-/
namespace Labrpc

open Runs

variable {Name : Type}

/-- The moves of a request, one constructor for each branch. -/
inductive Request.Moves (rn : Network Name) (req : Request Name) : Move → Request Name → Prop
  | readReachable (tgt : Target Name) (hpc : req.pc = .start)
      (htgt : (Labrpc.readEndnameInfo rn req.endname).target = some tgt) :
      Moves rn req .readEndnameInfo { req with target := some tgt, pc := .chosen }
  | readUnreachable (hpc : req.pc = .start)
      (htgt : (Labrpc.readEndnameInfo rn req.endname).target = none) :
      Moves rn req .readEndnameInfo { req with target := none, pc := .unreachable }
  | dropRequest (hpc : req.pc = .chosen) :
      Moves rn req .dropRequest { req with pc := .sending noReply }
  | spawn (hpc : req.pc = .chosen) :
      Moves rn req .spawn { req with pc := .loop, handler := .spawned }
  | dispatch (tgt : Target Name) (hh : req.handler = .spawned) (htgt : req.target = some tgt) :
      Moves rn req .dispatch
        { req with handler := .running, executed := req.executed ++ [tgt.server] }
  | handlerReturn (rep : ReplyMsg) (hh : req.handler = .running) :
      Moves rn req (.handlerReturn rep) { req with handler := .returned rep }
  | receive (rep : ReplyMsg) (hpc : req.pc = .loop) (hh : req.handler = .returned rep) :
      Moves rn req .receive { req with pc := .left (some rep), handler := .ended }
  | pollDead (hpc : req.pc = .loop) :
      Moves rn req .poll { req with pc := .left none, draining := true }
  | pollAlive (hpc : req.pc = .loop) : Moves rn req .poll req
  | drain (rep : ReplyMsg) (hh : req.handler = .returned rep) :
      Moves rn req .drain { req with handler := .ended }
  | recheck (tgt : Target Name) (reply : Option ReplyMsg) (hpc : req.pc = .left reply)
      (htgt : req.target = some tgt) :
      Moves rn req .recheck { req with
        pc := .checked reply (isServerDead rn req.endname tgt.servername tgt.server) }
  | answerDead (reply : Option ReplyMsg) (serverDead : Bool)
      (hpc : req.pc = .checked reply serverDead) :
      Moves rn req .answerDead { req with pc := .sending noReply }
  | dropReply (rep : ReplyMsg) (hpc : req.pc = .checked (some rep) false) :
      Moves rn req .dropReply { req with pc := .sending noReply }
  | delayReply (ms : Nat) (rep : ReplyMsg) (hpc : req.pc = .checked (some rep) false) :
      Moves rn req (.delayReply ms) { req with pc := .timer ms (some rep) }
  | release (rep : ReplyMsg) (hpc : req.pc = .checked (some rep) false) :
      Moves rn req .release { req with pc := .sending rep }
  | simulateTimeout (ms : Nat) (hpc : req.pc = .unreachable) :
      Moves rn req (.simulateTimeout ms) { req with pc := .timer ms none }
  | fire (ms : Nat) (reply : Option ReplyMsg) (hpc : req.pc = .timer ms reply) :
      Moves rn req .fire { req with pc := .sending (reply.getD noReply) }
  | send (rep : ReplyMsg) (hpc : req.pc = .sending rep) :
      Moves rn req .send { req with pc := .finished, answers := req.answers ++ [rep] }

theorem Request.moves_of_move {rn : Network Name} {req req' : Request Name} {m : Move}
    (h : req.move rn m = some req') : req.Moves rn m req' := by
  cases m with
  | readEndnameInfo =>
    simp only [Request.move] at h
    split at h
    · rename_i hpc
      cases htgt : (Labrpc.readEndnameInfo rn req.endname).target with
      | none =>
        simp only [htgt, Option.some.injEq] at h
        subst h
        exact .readUnreachable hpc htgt
      | some tgt =>
        simp only [htgt, Option.some.injEq] at h
        subst h
        exact .readReachable tgt hpc htgt
    · cases h
  | dropRequest =>
    simp only [Request.move] at h
    split at h
    · rename_i tgt hpc htgt
      obtain ⟨-, h⟩ := Option.ite_none_right_eq_some.mp h
      cases h
      exact .dropRequest hpc
    · cases h
  | spawn =>
    simp only [Request.move] at h
    split at h
    · cases h
      exact .spawn ‹_›
    · cases h
  | dispatch =>
    simp only [Request.move] at h
    split at h
    · rename_i tgt hh htgt
      cases h
      exact .dispatch tgt hh htgt
    · cases h
  | handlerReturn rep =>
    simp only [Request.move] at h
    split at h
    · cases h
      exact .handlerReturn rep ‹_›
    · cases h
  | receive =>
    simp only [Request.move] at h
    split at h
    · rename_i rep hpc hh
      cases h
      exact .receive rep hpc hh
    · cases h
  | poll =>
    simp only [Request.move] at h
    split at h
    · rename_i tgt hpc htgt
      split at h
      · cases h
        exact .pollDead hpc
      · cases h
        exact .pollAlive hpc
    · cases h
  | drain =>
    simp only [Request.move] at h
    split at h
    · rename_i rep hd hh
      cases h
      exact .drain rep hh
    · cases h
  | recheck =>
    simp only [Request.move] at h
    split at h
    · rename_i reply tgt hpc htgt
      cases h
      exact .recheck tgt reply hpc htgt
    · cases h
  | answerDead =>
    simp only [Request.move] at h
    split at h
    · rename_i reply serverDead hpc
      obtain ⟨-, h⟩ := Option.ite_none_right_eq_some.mp h
      cases h
      exact .answerDead reply serverDead hpc
    · cases h
  | dropReply =>
    simp only [Request.move] at h
    split at h
    · rename_i rep tgt hpc htgt
      obtain ⟨-, h⟩ := Option.ite_none_right_eq_some.mp h
      cases h
      exact .dropReply rep hpc
    · cases h
  | delayReply ms =>
    simp only [Request.move] at h
    split at h
    · rename_i rep tgt hpc htgt
      obtain ⟨-, h⟩ := Option.ite_none_right_eq_some.mp h
      cases h
      exact .delayReply ms rep hpc
    · cases h
  | release =>
    simp only [Request.move] at h
    split at h
    · rename_i rep hpc
      cases h
      exact .release rep hpc
    · cases h
  | simulateTimeout ms =>
    simp only [Request.move] at h
    split at h
    · rename_i hpc
      obtain ⟨-, h⟩ := Option.ite_none_right_eq_some.mp h
      cases h
      exact .simulateTimeout ms hpc
    · cases h
  | fire =>
    simp only [Request.move] at h
    split at h
    · rename_i ms reply hpc
      cases h
      exact .fire ms reply hpc
    · cases h
  | send =>
    simp only [Request.move] at h
    split at h
    · rename_i rep hpc
      cases h
      exact .send rep hpc
    · cases h

variable [DecidableEq Name]

theorem step_thread {s t : State Name} {r : Nat} {m : Move}
    (h : step s (.thread r m) = some t) :
    ∃ req req', s.reqs[r]? = some req ∧ req.Moves s.net m req' ∧
      t = { net := { s.net with bytes := s.net.bytes + Int64.ofNat (req.released m) }
            counts := countDispatch s.counts req m
            reqs := s.reqs.set r req' } := by
  simp only [step] at h
  split at h
  · cases h
  · rename_i req hreq
    obtain ⟨req', hmove, rfl⟩ := Option.map_eq_some_iff.mp h
    exact ⟨req, req', hreq, Request.moves_of_move hmove, rfl⟩

/-- Where a request of the next state comes from. -/
theorem step_request {s t : State Name} {a : Action Name} (h : step s a = some t) {r : Nat}
    {req' : Request Name} (hr : t.reqs[r]? = some req') :
    (s.reqs[r]? = some req' ∧ ∀ m, a ≠ .thread r m) ∨
    (∃ endname svcMeth args, a = .take endname svcMeth args ∧ r = s.reqs.length ∧
      req' = .taken endname svcMeth args) ∨
    ∃ m req, a = .thread r m ∧ s.reqs[r]? = some req ∧ req.Moves s.net m req' := by
  cases a with
  | control c =>
    obtain ⟨net, -, rfl⟩ := Option.map_eq_some_iff.mp h
    exact Or.inl ⟨hr, by simp⟩
  | take endname svcMeth args =>
    cases h
    rcases getElem?_concat_cases hr with hr | ⟨rfl, rfl⟩
    · exact Or.inl ⟨hr, by simp⟩
    · exact Or.inr (Or.inl ⟨endname, svcMeth, args, rfl, rfl, rfl⟩)
  | thread r' m =>
    obtain ⟨req, req'', hreq, hmoves, rfl⟩ := step_thread h
    rcases getElem?_set_cases hr with ⟨rfl, rfl⟩ | ⟨hne, hr⟩
    · exact Or.inr (Or.inr ⟨m, req, rfl, hreq, hmoves⟩)
    · exact Or.inl ⟨hr, fun m' he => hne (Action.thread.inj he).1.symm⟩

theorem step_reqs_length {s t : State Name} {a : Action Name} (h : step s a = some t) :
    s.reqs.length ≤ t.reqs.length ∧ ∀ r m, a = .thread r m → r < s.reqs.length := by
  cases a with
  | control c =>
    obtain ⟨net, -, rfl⟩ := Option.map_eq_some_iff.mp h
    exact ⟨Nat.le_refl _, by simp⟩
  | take endname svcMeth args =>
    cases h
    exact ⟨by simp, by simp⟩
  | thread r m =>
    obtain ⟨req, req', hreq, -, rfl⟩ := step_thread h
    refine ⟨by simp, ?_⟩
    intro r' m' he
    cases he
    exact (List.getElem?_eq_some_iff.mp hreq).1

/-- Goroutines move only for requests that were taken. -/
theorem thread_lt {as : List (Action Name)} {s : State Name}
    (h : run step (start Name) as = some s) {r : Nat} {m : Move} (hm : .thread r m ∈ as) :
    r < s.reqs.length := by
  refine run_induction (P := fun as s => ∀ r m, .thread r m ∈ as → r < s.reqs.length)
    (by simp) ?_ h r m hm
  intro as s a t _ ih ha r m hm
  obtain ⟨hle, hthread⟩ := step_reqs_length ha
  rcases List.mem_append.mp hm with hm | hm
  · exact Nat.lt_of_lt_of_le (ih r m hm) hle
  · exact Nat.lt_of_lt_of_le (hthread r m (List.mem_singleton.mp hm).symm) hle

/-- The induction rule for a property of a single request. -/
theorem request_induction {P : List (Action Name) → Nat → Request Name → Prop}
    (taken : ∀ as s endname svcMeth args, run step (start Name) as = some s →
      (∀ m, .thread s.reqs.length m ∉ as) →
      P (as ++ [.take endname svcMeth args]) s.reqs.length (.taken endname svcMeth args))
    (frame : ∀ as r req a, (∀ m, a ≠ .thread r m) → P as r req → P (as ++ [a]) r req)
    (move : ∀ as s r req m req', run step (start Name) as = some s → s.reqs[r]? = some req →
      P as r req → req.Moves s.net m req' → P (as ++ [.thread r m]) r req')
    {as : List (Action Name)} {s : State Name} (h : run step (start Name) as = some s)
    {r : Nat} {req : Request Name} (hr : s.reqs[r]? = some req) : P as r req := by
  refine run_induction (P := fun as s => ∀ r req, s.reqs[r]? = some req → P as r req)
    (by simp [start]) ?_ h r req hr
  intro as s a t hs ih ha r req' hr
  rcases step_request ha hr with ⟨hr, hne⟩ | ⟨endname, svcMeth, args, rfl, rfl, rfl⟩ |
    ⟨m, req, rfl, hreq, hmoves⟩
  · exact frame as r req' a hne (ih r req' hr)
  · exact taken as s endname svcMeth args hs fun m hm => Nat.lt_irrefl _ (thread_lt hs hm)
  · exact move as s r req m req' hs hreq (ih r req hreq) hmoves

/-! ## What is known of a request -/

/-- When `readEndnameInfo` ran for the request, its end was enabled and connected to
the name of the target, under which the server of the target was registered. -/
def Reached (as : List (Action Name)) (r : Nat) (endname : Name) (tgt : Target Name) : Prop :=
  TakenAt step (start Name) as (.thread r .readEndnameInfo) fun s =>
    s.net.enabled endname = true ∧ s.net.connections endname = some tgt.servername ∧
      s.net.servers tgt.servername = some tgt.server

/-- At some moment after the handler had returned the reply, the end of the request
was enabled and the server of the target was registered under its name. -/
def AliveAfter (as : List (Action Name)) (r : Nat) (endname : Name) (tgt : Target Name)
    (rep : ReplyMsg) : Prop :=
  Moment step (start Name) as fun pre s =>
    .thread r (.handlerReturn rep) ∈ pre ∧ s.net.enabled endname = true ∧
      s.net.servers tgt.servername = some tgt.server

/-- The one server whose `dispatch` was called for the request is the target's. -/
def Executed (req : Request Name) : Prop :=
  ∃ tgt, req.target = some tgt ∧ req.executed = [tgt.server]

/-- The handler of the request returned once, with this reply. -/
def Returned (as : List (Action Name)) (r : Nat) (rep : ReplyMsg) : Prop :=
  ∀ rep', .thread r (.handlerReturn rep') ∈ as ↔ rep' = rep

/-- A positive reply on its way to the caller comes from a server found alive. -/
def Justified (as : List (Action Name)) (r : Nat) (req : Request Name) (rep : ReplyMsg) : Prop :=
  rep.ok = true → ∃ tgt, req.target = some tgt ∧ AliveAfter as r req.endname tgt rep

def HandlerFacts (as : List (Action Name)) (r : Nat) (req : Request Name) : Handler → Prop
  | .idle | .spawned => req.executed = [] ∧ ∀ rep, .thread r (.handlerReturn rep) ∉ as
  | .running => Executed req ∧ ∀ rep, .thread r (.handlerReturn rep) ∉ as
  | .returned rep => Executed req ∧ Returned as r rep
  | .ended => Executed req ∧ ∃ rep, Returned as r rep

def PcFacts (as : List (Action Name)) (r : Nat) (req : Request Name) : Pc → Prop
  | .start | .chosen | .unreachable => req.handler = .idle ∧ req.answers = []
  | .loop => req.answers = []
  | .left reply =>
    req.answers = [] ∧ ∀ rep, reply = some rep → .thread r (.handlerReturn rep) ∈ as
  | .checked reply serverDead =>
    req.answers = [] ∧ ∀ rep, reply = some rep → serverDead = false → Justified as r req rep
  | .timer _ reply => req.answers = [] ∧ ∀ rep, reply = some rep → Justified as r req rep
  | .sending rep => req.answers = [] ∧ Justified as r req rep
  | .finished => ∃ rep, req.answers = [rep] ∧ Justified as r req rep

/-- What holds of every request, at every point of its life. -/
structure Delivery (as : List (Action Name)) (r : Nat) (req : Request Name) : Prop where
  reached : ∀ tgt, req.target = some tgt → Reached as r req.endname tgt
  handler : HandlerFacts as r req req.handler
  pc : PcFacts as r req req.pc

theorem Justified.extend {as : List (Action Name)} {r : Nat} {req req' : Request Name}
    {rep : ReplyMsg} (h : Justified as r req rep) (htarget : req'.target = req.target)
    (hend : req'.endname = req.endname) (bs : List (Action Name)) :
    Justified (as ++ bs) r req' rep := by
  intro hok
  obtain ⟨tgt, htgt, halive⟩ := h hok
  exact ⟨tgt, htarget.trans htgt, by rw [hend]; exact halive.append bs⟩

omit [DecidableEq Name] in
/-- The facts of the handler outlive whatever is not its own move. -/
theorem HandlerFacts.extend {as bs : List (Action Name)} {r : Nat} {req req' : Request Name}
    {hd : Handler} (h : HandlerFacts as r req hd) (htarget : req'.target = req.target)
    (hexec : req'.executed = req.executed)
    (hbs : ∀ rep, .thread r (.handlerReturn rep) ∉ bs) : HandlerFacts (as ++ bs) r req' hd := by
  have hret : ∀ rep, .thread r (.handlerReturn rep) ∈ as ++ bs ↔
      .thread r (.handlerReturn rep) ∈ as := by
    intro rep
    simp [hbs rep]
  cases hd <;> simp only [HandlerFacts, Executed, Returned, htarget, hexec, hret] at h ⊢ <;> exact h

/-- The facts of `processReq` outlive whatever is not its own move. -/
theorem PcFacts.extend {as : List (Action Name)} {r : Nat} {req req' : Request Name} {pc : Pc}
    (h : PcFacts as r req pc) (htarget : req'.target = req.target)
    (hend : req'.endname = req.endname) (hans : req'.answers = req.answers)
    (hidle : req.handler = .idle → req'.handler = .idle) (bs : List (Action Name)) :
    PcFacts (as ++ bs) r req' pc := by
  cases pc with
  | start => exact ⟨hidle h.1, hans.trans h.2⟩
  | chosen => exact ⟨hidle h.1, hans.trans h.2⟩
  | unreachable => exact ⟨hidle h.1, hans.trans h.2⟩
  | loop => exact hans.trans h
  | left reply => exact ⟨hans.trans h.1, fun rep hrep => List.mem_append_left bs (h.2 rep hrep)⟩
  | checked reply serverDead =>
    exact ⟨hans.trans h.1, fun rep hrep hdead => (h.2 rep hrep hdead).extend htarget hend bs⟩
  | timer ms reply => exact ⟨hans.trans h.1, fun rep hrep => (h.2 rep hrep).extend htarget hend bs⟩
  | sending rep => exact ⟨hans.trans h.1, h.2.extend htarget hend bs⟩
  | finished =>
    obtain ⟨rep, hrep, hj⟩ := h
    exact ⟨rep, hans.trans hrep, hj.extend htarget hend bs⟩

theorem Delivery.taken {as : List (Action Name)} {r : Nat} (hnew : ∀ m, .thread r m ∉ as)
    (endname : Name) (svcMeth : String) (args : Bytes) :
    Delivery (as ++ [.take endname svcMeth args]) r (.taken endname svcMeth args) where
  reached := by
    intro tgt htgt
    cases htgt
  handler := ⟨rfl, fun _ => by simp [hnew]⟩
  pc := ⟨rfl, rfl⟩

theorem Delivery.frame {as : List (Action Name)} {r : Nat} {req : Request Name}
    {a : Action Name} (ha : ∀ m, a ≠ .thread r m) (h : Delivery as r req) :
    Delivery (as ++ [a]) r req where
  reached := fun tgt htgt => (h.reached tgt htgt).append [a]
  handler := h.handler.extend rfl rfl fun _ hmem => ha _ (List.mem_singleton.mp hmem).symm
  pc := h.pc.extend rfl rfl rfl id [a]

/-- A move of `processReq` after `readEndnameInfo`, which leaves the handler alone. -/
theorem Delivery.advance {as : List (Action Name)} {r : Nat} {req : Request Name} {m : Move}
    {pc : Pc} {answers : List ReplyMsg} {draining : Bool} (h : Delivery as r req)
    (hm : ∀ rep, m ≠ .handlerReturn rep)
    (hpc : PcFacts (as ++ [.thread r m])
      r { req with pc := pc, answers := answers, draining := draining } pc) :
    Delivery (as ++ [.thread r m])
      r { req with pc := pc, answers := answers, draining := draining } where
  reached := fun tgt htgt => (h.reached tgt htgt).append _
  handler := h.handler.extend rfl rfl (by simpa using fun rep => (hm rep).symm)
  pc := hpc

/-- A move of the handler's goroutine, which `processReq` does not see. -/
theorem Delivery.handle {as : List (Action Name)} {r : Nat} {req : Request Name} {m : Move}
    {hd : Handler} {executed : List ServerId} (h : Delivery as r req) (hidle : req.handler ≠ .idle)
    (hhd : HandlerFacts (as ++ [.thread r m]) r
      { req with handler := hd, executed := executed } hd) :
    Delivery (as ++ [.thread r m]) r { req with handler := hd, executed := executed } where
  reached := fun tgt htgt => (h.reached tgt htgt).append _
  handler := hhd
  pc := by
    apply h.pc.extend (by rfl) (by rfl) (by rfl)
    intro hi
    exact absurd hi hidle

theorem Delivery.move {as : List (Action Name)} {s : State Name} {r : Nat}
    {req req' : Request Name} {m : Move} (hs : run step (start Name) as = some s)
    (h : Delivery as r req) (hm : req.Moves s.net m req') :
    Delivery (as ++ [.thread r m]) r req' := by
  have hh := h.handler
  have hp := h.pc
  cases hm with
  | readReachable tgt hpc htgt =>
    rw [hpc] at hp
    rw [hp.1] at hh
    refine ⟨?_, ?_, hp⟩
    · intro tgt' htgt'
      cases htgt'
      exact TakenAt.now hs (target_eq_some htgt)
    · rw [hp.1]
      exact ⟨hh.1, fun rep => by simp [hh.2 rep]⟩
  | readUnreachable hpc htgt =>
    rw [hpc] at hp
    rw [hp.1] at hh
    refine ⟨?_, ?_, hp⟩
    · intro tgt' htgt'
      cases htgt'
    · rw [hp.1]
      exact ⟨hh.1, fun rep => by simp [hh.2 rep]⟩
  | dropRequest hpc =>
    rw [hpc] at hp
    exact h.advance (fun _ => by simp) ⟨hp.2, fun hok => nomatch hok⟩
  | spawn hpc =>
    rw [hpc] at hp
    rw [hp.1] at hh
    exact ⟨fun tgt htgt => (h.reached tgt htgt).append _,
      ⟨hh.1, fun rep => by simp [hh.2 rep]⟩, hp.2⟩
  | dispatch tgt hd htgt =>
    rw [hd] at hh
    exact h.handle (by simp [hd]) ⟨⟨tgt, htgt, by simp [hh.1]⟩, fun rep => by simp [hh.2 rep]⟩
  | handlerReturn rep hd =>
    rw [hd] at hh
    exact h.handle (by simp [hd]) ⟨hh.1, fun rep' => by simp [hh.2 rep']⟩
  | receive rep hpc hd =>
    rw [hpc] at hp
    rw [hd] at hh
    obtain ⟨hexec, hret⟩ := hh
    exact ⟨fun tgt htgt => (h.reached tgt htgt).append _,
      ⟨hexec, rep, fun rep' => by simp [hret rep']⟩,
      hp, fun rep' hrep' => by cases hrep'; simp [hret rep]⟩
  | pollDead hpc =>
    rw [hpc] at hp
    exact h.advance (fun _ => by simp) ⟨hp, fun rep hrep => nomatch hrep⟩
  | pollAlive hpc => exact h.advance (fun _ => by simp) (hp.extend rfl rfl rfl id _)
  | drain rep hd =>
    rw [hd] at hh
    obtain ⟨hexec, hret⟩ := hh
    exact h.handle (by simp [hd]) ⟨hexec, rep, fun rep' => by simp [hret rep']⟩
  | recheck tgt reply hpc htgt =>
    rw [hpc] at hp
    refine h.advance (fun _ => by simp) ⟨hp.1, ?_⟩
    intro rep hrep hdead _
    obtain ⟨henabled, hserver⟩ := isServerDead_eq_false.mp hdead
    exact ⟨tgt, htgt, (Moment.now hs ⟨hp.2 rep hrep, henabled, hserver⟩).append _⟩
  | answerDead reply serverDead hpc =>
    rw [hpc] at hp
    exact h.advance (fun _ => by simp) ⟨hp.1, fun hok => nomatch hok⟩
  | dropReply rep hpc =>
    rw [hpc] at hp
    exact h.advance (fun _ => by simp) ⟨hp.1, fun hok => nomatch hok⟩
  | delayReply ms rep hpc =>
    rw [hpc] at hp
    refine h.advance (fun _ => by simp) ⟨hp.1, ?_⟩
    intro rep' hrep'
    exact (hp.2 rep' hrep' rfl).extend rfl rfl _
  | release rep hpc =>
    rw [hpc] at hp
    exact h.advance (fun _ => by simp) ⟨hp.1, (hp.2 rep rfl rfl).extend rfl rfl _⟩
  | simulateTimeout ms hpc =>
    rw [hpc] at hp
    exact h.advance (fun _ => by simp) ⟨hp.2, fun rep hrep => nomatch hrep⟩
  | fire ms reply hpc =>
    rw [hpc] at hp
    refine h.advance (fun _ => by simp) ⟨hp.1, ?_⟩
    cases reply with
    | none => exact fun hok => nomatch hok
    | some rep => exact (hp.2 rep rfl).extend rfl rfl _
  | send rep hpc =>
    rw [hpc] at hp
    exact h.advance (fun _ => by simp) ⟨rep, by simp [hp.1], hp.2.extend rfl rfl _⟩

theorem Delivery.of_run {as : List (Action Name)} {s : State Name}
    (h : run step (start Name) as = some s) {r : Nat} {req : Request Name}
    (hr : s.reqs[r]? = some req) : Delivery as r req :=
  request_induction
    (fun _ _ endname svcMeth args _ hnew => Delivery.taken hnew endname svcMeth args)
    (fun _ _ _ _ ha hd => hd.frame ha)
    (fun _ _ _ _ _ _ hs _ hd hm => hd.move hs hm) h hr

theorem Delivery.executed_cases {as : List (Action Name)} {r : Nat} {req : Request Name}
    (h : Delivery as r req) : req.executed = [] ∨ Executed req := by
  have hh := h.handler
  cases hd : req.handler with
  | idle | spawned =>
    rw [hd] at hh
    exact Or.inl hh.1
  | running | returned _ | ended =>
    rw [hd] at hh
    exact Or.inr hh.1

/-- A handler that returned had been dispatched, and returned only once. -/
theorem Delivery.returned {as : List (Action Name)} {r : Nat} {req : Request Name}
    (h : Delivery as r req) {rep : ReplyMsg} (hret : .thread r (.handlerReturn rep) ∈ as) :
    Executed req ∧ Returned as r rep := by
  have hh := h.handler
  cases hd : req.handler with
  | idle | spawned | running =>
    rw [hd] at hh
    exact absurd hret (hh.2 rep)
  | returned rep' =>
    rw [hd] at hh
    obtain rfl := (hh.2 rep).mp hret
    exact hh
  | ended =>
    rw [hd] at hh
    obtain ⟨hexec, rep', hrep'⟩ := hh
    obtain rfl := (hrep' rep).mp hret
    exact ⟨hexec, hrep'⟩

theorem Delivery.answers_cases {as : List (Action Name)} {r : Nat} {req : Request Name}
    (h : Delivery as r req) : (req.answers = [] ∧ req.pc ≠ .finished) ∨
      ∃ rep, req.answers = [rep] ∧ req.pc = .finished ∧ Justified as r req rep := by
  have hp := h.pc
  cases hpc : req.pc with
  | finished =>
    rw [hpc] at hp
    obtain ⟨rep, hrep, hj⟩ := hp
    exact Or.inr ⟨rep, hrep, rfl, hj⟩
  | start | chosen | unreachable =>
    rw [hpc] at hp
    exact Or.inl ⟨hp.2, by simp⟩
  | loop =>
    rw [hpc] at hp
    exact Or.inl ⟨hp, by simp⟩
  | left _ | checked _ _ | timer _ _ | sending _ =>
    rw [hpc] at hp
    exact Or.inl ⟨hp.1, by simp⟩

/-- The reply that `processReq` has decided to send, or has sent. -/
def Request.carried (req : Request Name) : Option ReplyMsg :=
  match req.pc with
  | .checked reply false => reply
  | .timer _ reply => reply
  | .sending rep => some rep
  | .finished => req.answers.getLast?
  | _ => none

omit [DecidableEq Name] in
/-- Only the last look at the network decides on a positive reply. -/
theorem Request.Moves.carried_cases {rn : Network Name} {req req' : Request Name} {m : Move}
    (h : req.Moves rn m req') :
    req'.carried = req.carried ∨ (∀ rep, req'.carried = some rep → rep.ok = false) ∨
      ∃ tgt, req.target = some tgt ∧ rn.servers tgt.servername = some tgt.server := by
  cases h with
  | readReachable tgt hpc htgt => exact Or.inr (Or.inl (by simp [Request.carried]))
  | readUnreachable hpc htgt => exact Or.inr (Or.inl (by simp [Request.carried]))
  | dropRequest hpc => exact Or.inr (Or.inl (by simp [Request.carried, noReply]))
  | spawn hpc => exact Or.inr (Or.inl (by simp [Request.carried]))
  | dispatch tgt hh htgt => exact Or.inl rfl
  | handlerReturn rep hh => exact Or.inl rfl
  | receive rep hpc hh => exact Or.inr (Or.inl (by simp [Request.carried]))
  | pollDead hpc => exact Or.inr (Or.inl (by simp [Request.carried]))
  | pollAlive hpc => exact Or.inl rfl
  | drain rep hh => exact Or.inl rfl
  | recheck tgt reply hpc htgt =>
    cases hdead : isServerDead rn req.endname tgt.servername tgt.server with
    | true => exact Or.inr (Or.inl (by simp [Request.carried]))
    | false => exact Or.inr (Or.inr ⟨tgt, htgt, (isServerDead_eq_false.mp hdead).2⟩)
  | answerDead reply serverDead hpc => exact Or.inr (Or.inl (by simp [Request.carried, noReply]))
  | dropReply rep hpc => exact Or.inr (Or.inl (by simp [Request.carried, noReply]))
  | delayReply ms rep hpc => exact Or.inl (by simp [Request.carried, hpc])
  | release rep hpc => exact Or.inl (by simp [Request.carried, hpc])
  | simulateTimeout ms hpc => exact Or.inr (Or.inl (by simp [Request.carried]))
  | fire ms reply hpc =>
    cases reply with
    | none => exact Or.inr (Or.inl (by simp [Request.carried, noReply]))
    | some rep => exact Or.inl (by simp [Request.carried, hpc])
  | send rep hpc => exact Or.inl (by simp [Request.carried, hpc])

/-- A positive reply on its way is the handler's, and the handler has returned. -/
theorem Delivery.not_running {as : List (Action Name)} {r : Nat} {req : Request Name}
    (h : Delivery as r req) {rep : ReplyMsg} (hrep : req.carried = some rep)
    (hok : rep.ok = true) : req.handler ≠ .running := by
  have hj : Justified as r req rep := by
    have hp := h.pc
    cases hpc : req.pc with
    | checked reply serverDead =>
      rw [hpc] at hp
      cases serverDead with
      | true => simp [Request.carried, hpc] at hrep
      | false => exact hp.2 rep (by simpa [Request.carried, hpc] using hrep) rfl
    | timer ms reply =>
      rw [hpc] at hp
      exact hp.2 rep (by simpa [Request.carried, hpc] using hrep)
    | sending rep' =>
      rw [hpc] at hp
      obtain rfl : rep' = rep := by simpa [Request.carried, hpc] using hrep
      exact hp.2
    | finished =>
      rw [hpc] at hp
      obtain ⟨rep', hans, hj⟩ := hp
      obtain rfl : rep' = rep := by simpa [Request.carried, hpc, hans] using hrep
      exact hj
    | _ => simp [Request.carried, hpc] at hrep
  obtain ⟨tgt, -, pre, post, s, rfl, -, hmem, -⟩ := hj hok
  intro hrun
  have hh := h.handler
  rw [hrun] at hh
  exact hh.2 rep (List.mem_append_left post hmem)

theorem Delivery.carried_answer {as : List (Action Name)} {r : Nat} {req : Request Name}
    (h : Delivery as r req) {rep : ReplyMsg} (hrep : rep ∈ req.answers) :
    req.carried = some rep := by
  rcases h.answers_cases with ⟨hnil, -⟩ | ⟨rep', hrep', hpc, -⟩
  · simp [hnil] at hrep
  · obtain rfl : rep = rep' := by simpa [hrep'] using hrep
    simp [Request.carried, hpc, hrep']

/-- Once the handler was started, the target is settled. -/
theorem Delivery.target_settled {as : List (Action Name)} {rn : Network Name} {r : Nat}
    {req req' : Request Name} {m : Move} (h : Delivery as r req) (hm : req.Moves rn m req')
    (hidle : req.handler ≠ .idle) : req'.target = req.target ∧ req'.handler ≠ .idle := by
  have hp := h.pc
  cases hm with
  | readReachable tgt hpc htgt =>
    rw [hpc] at hp
    exact absurd hp.1 hidle
  | readUnreachable hpc htgt =>
    rw [hpc] at hp
    exact absurd hp.1 hidle
  | spawn hpc => exact ⟨rfl, by simp⟩
  | dispatch tgt hh htgt => exact ⟨rfl, by simp⟩
  | handlerReturn rep hh => exact ⟨rfl, by simp⟩
  | receive rep hpc hh => exact ⟨rfl, by simp⟩
  | drain rep hh => exact ⟨rfl, by simp⟩
  | _ => exact ⟨rfl, hidle⟩

/-- At-most-once delivery, for each request of each run: at most one dispatch, by the
server found registered when the request was looked up; at most one answer, and one
once `processReq` and its timer have finished; and a positive answer only with the
reply of that dispatch, if the server was found registered again after it. -/
theorem delivered_at_most_once (as : List (Action Name)) (s : State Name)
    (h : run step (start Name) as = some s) (r : Nat) (req : Request Name)
    (hr : s.reqs[r]? = some req) :
    (req.executed.length ≤ 1 ∧ ∀ server ∈ req.executed, ∃ tgt : Target Name,
      tgt.server = server ∧ Reached as r req.endname tgt) ∧
    (req.answers.length ≤ 1 ∧ (req.pc = .finished → req.answers.length = 1)) ∧
    (∀ rep ∈ req.answers, rep.ok = true → ∃ tgt, req.executed = [tgt.server] ∧
      Reached as r req.endname tgt ∧ Returned as r rep ∧ AliveAfter as r req.endname tgt rep) := by
  have hd := Delivery.of_run h hr
  refine ⟨?_, ?_, ?_⟩
  · rcases hd.executed_cases with hnil | ⟨tgt, htgt, hexec⟩
    · simp [hnil]
    · rw [hexec]
      refine ⟨by simp, ?_⟩
      intro server hserver
      exact ⟨tgt, (List.mem_singleton.mp hserver).symm, hd.reached tgt htgt⟩
  · rcases hd.answers_cases with ⟨hnil, hpc⟩ | ⟨rep, hrep, -⟩
    · simp [hnil, hpc]
    · simp [hrep]
  · intro rep hrep hok
    rcases hd.answers_cases with ⟨hnil, -⟩ | ⟨rep', hrep', -, hj⟩
    · simp [hnil] at hrep
    · obtain rfl : rep = rep' := by simpa [hrep'] using hrep
      obtain ⟨tgt, htgt, halive⟩ := hj hok
      obtain ⟨pre, post, s', rfl, -, hmem, -⟩ := id halive
      obtain ⟨⟨tgt', htgt', hexec⟩, hret⟩ := hd.returned (List.mem_append_left post hmem)
      obtain rfl : tgt = tgt' := by simpa [htgt] using htgt'
      exact ⟨tgt, hexec, hd.reached tgt htgt, hret, halive⟩

/-- A call of server 5 through end 0, answered after a timer had delayed the reply. -/
def delayedCall : List (Action Nat) :=
  [.control (.makeEnd 0), .control (.connect 0 (some 1)), .control (.addServer 1 5),
   .control (.enable 0 true), .control (.longReordering true), .take 0 "KV.Get" [1, 2],
   .thread 0 .readEndnameInfo, .thread 0 .spawn, .thread 0 .dispatch,
   .thread 0 (.handlerReturn ⟨true, [7]⟩), .thread 0 .receive, .thread 0 .recheck,
   .thread 0 (.delayReply 300), .control (.deleteServer 1), .thread 0 .fire, .thread 0 .send]

theorem delayedCall_delivered : ∃ s req tgt, run step (start Nat) delayedCall = some s ∧
    s.reqs[0]? = some req ∧ req.answers = [⟨true, [7]⟩] ∧ req.executed = [tgt.server] ∧
      AliveAfter delayedCall 0 req.endname tgt ⟨true, [7]⟩ := by
  obtain ⟨s, hs⟩ : ∃ s, run step (start Nat) delayedCall = some s := ⟨_, rfl⟩
  obtain ⟨req, hreq⟩ : ∃ req, s.reqs[0]? = some req := by
    cases hs
    exact ⟨_, rfl⟩
  have hans : req.answers = [⟨true, [7]⟩] := by
    cases hs
    cases hreq
    rfl
  obtain ⟨-, -, hpositive⟩ := delivered_at_most_once delayedCall s hs 0 req hreq
  obtain ⟨tgt, hexec, -, -, halive⟩ := hpositive ⟨true, [7]⟩ (by simp [hans]) rfl
  exact ⟨s, req, tgt, hs, hreq, hans, hexec, halive⟩

end Labrpc
