import DistLabs.LabrpcCalls

/-!
# A reliable network loses nothing

Every loss that labrpc simulates has a reason in the network: it is unreliable, the
end is disabled or not connected, or the server is gone. While none of these holds,
a call returns what its handler returned, after exactly one execution, also when
replies are reordered and while everything else in the network changes.
-/
namespace Labrpc

open Runs

variable {Name : Type}

/-- The network is reliable and leads from the end to the server. -/
structure LinkUp (endname servername : Name) (server : ServerId) (rn : Network Name) : Prop where
  reliable : rn.reliable = true
  enabled : rn.enabled endname = true
  connected : rn.connections endname = some servername
  registered : rn.servers servername = some server
  running : rn.done = false

/-- Where `processReq` is when it has the handler's reply. -/
def Pc.Holds (rep : ReplyMsg) : Pc → Prop
  | .left reply => reply = some rep
  | .checked reply serverDead => reply = some rep ∧ serverDead = false
  | .timer _ reply => reply = some rep
  | .sending rep' => rep' = rep
  | _ => False

/-- How far a request over a link that is up has got; `gave` holds of the replies that its
handler returned. -/
inductive Request.Stage (servername : Name) (server : ServerId) (gave : ReplyMsg → Prop)
    (req : Request Name) : Prop where
  | taken (hpc : req.pc = .start) (hdrain : req.draining = false) (hh : req.handler = .idle)
      (hexec : req.executed = []) (hans : req.answers = [])
  | chosen (longreordering : Bool) (hpc : req.pc = .chosen)
      (htgt : req.target = some ⟨servername, server, true, longreordering⟩)
      (hdrain : req.draining = false) (hh : req.handler = .idle) (hexec : req.executed = [])
      (hans : req.answers = [])
  | spawned (longreordering : Bool) (hpc : req.pc = .loop)
      (htgt : req.target = some ⟨servername, server, true, longreordering⟩)
      (hdrain : req.draining = false) (hh : req.handler = .spawned) (hexec : req.executed = [])
      (hans : req.answers = [])
  | running (longreordering : Bool) (hpc : req.pc = .loop)
      (htgt : req.target = some ⟨servername, server, true, longreordering⟩)
      (hdrain : req.draining = false)
      (hh : req.handler = .running ∨ ∃ rep, req.handler = .returned rep ∧ gave rep)
      (hexec : req.executed = [server]) (hans : req.answers = [])
  | answered (rep : ReplyMsg) (longreordering : Bool) (hpc : req.pc.Holds rep)
      (htgt : req.target = some ⟨servername, server, true, longreordering⟩)
      (hh : req.handler = .ended) (hexec : req.executed = [server]) (hans : req.answers = [])
      (hgave : gave rep)
  | sent (rep : ReplyMsg) (hpc : req.pc = .finished) (hh : req.handler = .ended)
      (hexec : req.executed = [server]) (hans : req.answers = [rep]) (hgave : gave rep)

theorem Request.Stage.mono {servername : Name} {server : ServerId} {gave gave' : ReplyMsg → Prop}
    {req : Request Name} (h : req.Stage servername server gave)
    (himp : ∀ rep, gave rep → gave' rep) : req.Stage servername server gave' := by
  cases h with
  | taken hpc hdrain hh hexec hans => exact .taken hpc hdrain hh hexec hans
  | chosen l hpc htgt hdrain hh hexec hans => exact .chosen l hpc htgt hdrain hh hexec hans
  | spawned l hpc htgt hdrain hh hexec hans => exact .spawned l hpc htgt hdrain hh hexec hans
  | running l hpc htgt hdrain hh hexec hans =>
    refine .running l hpc htgt hdrain ?_ hexec hans
    rcases hh with hh | ⟨rep, hh, hgave⟩
    · exact Or.inl hh
    · exact Or.inr ⟨rep, hh, himp rep hgave⟩
  | answered rep l hpc htgt hh hexec hans hgave =>
    exact .answered rep l hpc htgt hh hexec hans (himp rep hgave)
  | sent rep hpc hh hexec hans hgave => exact .sent rep hpc hh hexec hans (himp rep hgave)

/-- While the link is up, no move loses the request or its reply. -/
theorem Request.Stage.move {servername : Name} {server : ServerId} {gave : ReplyMsg → Prop}
    {rn : Network Name} {req req' : Request Name} {m : Move}
    (h : req.Stage servername server gave) (hup : LinkUp req.endname servername server rn)
    (hgives : ∀ rep, m = .handlerReturn rep → gave rep) (hmove : req.move rn m = some req') :
    req'.Stage servername server gave := by
  have halive : isServerDead rn req.endname servername server = false :=
    isServerDead_eq_false.mpr ⟨hup.enabled, hup.registered⟩
  have hinfo : (readEndnameInfo rn req.endname).target =
      some ⟨servername, server, true, rn.longReordering⟩ := by
    simp [EndInfo.target, readEndnameInfo, hup.enabled, hup.connected, hup.registered, hup.reliable]
  have hpoll : ∀ l, req.pc = .loop → req.target = some ⟨servername, server, true, l⟩ →
      ∀ {req'}, req.move rn .poll = some req' → req' = req := by
    intro l hpc htgt req' hmove
    simp only [Request.move, hpc, htgt, halive, Bool.false_eq_true, if_false] at hmove
    exact (Option.some.inj hmove).symm
  cases h with
  | taken hpc hdrain hh hexec hans =>
    cases Request.moves_of_move hmove with
    | readReachable tgt _ htgt =>
      cases hinfo.symm.trans htgt
      exact .chosen _ rfl rfl hdrain hh hexec hans
    | readUnreachable _ htgt => simp [hinfo] at htgt
    | _ => simp_all
  | chosen l hpc htgt hdrain hh hexec hans =>
    cases Request.moves_of_move hmove with
    | dropRequest => simp [Request.move, hpc, htgt] at hmove
    | spawn => exact .spawned l rfl htgt hdrain rfl hexec hans
    | _ => simp_all
  | spawned l hpc htgt hdrain hh hexec hans =>
    cases Request.moves_of_move hmove with
    | dispatch tgt _ htgt' =>
      cases htgt.symm.trans htgt'
      exact .running l hpc htgt hdrain (Or.inl rfl) (by simp [hexec]) hans
    | pollDead => exact absurd (congrArg Request.pc (hpoll l hpc htgt hmove)) (by simp [hpc])
    | pollAlive => exact .spawned l hpc htgt hdrain hh hexec hans
    | _ => simp_all
  | running l hpc htgt hdrain hh hexec hans =>
    cases Request.moves_of_move hmove with
    | handlerReturn rep =>
      exact .running l hpc htgt hdrain (Or.inr ⟨rep, rfl, hgives rep rfl⟩) hexec hans
    | receive rep _ hrep =>
      rcases hh with hh | ⟨rep', hh, hgave⟩
      · simp [hh] at hrep
      · cases hh.symm.trans hrep
        exact .answered rep l rfl htgt rfl hexec hans hgave
    | pollDead => exact absurd (congrArg Request.pc (hpoll l hpc htgt hmove)) (by simp [hpc])
    | pollAlive => exact .running l hpc htgt hdrain hh hexec hans
    | drain rep hrep => simp [Request.move, hdrain] at hmove
    | dispatch => rcases hh with hh | ⟨rep, hh, -⟩ <;> simp_all
    | _ => simp_all
  | answered rep l hpc htgt hh hexec hans hgave =>
    cases Request.moves_of_move hmove with
    | recheck tgt reply hleft htgt' =>
      cases htgt.symm.trans htgt'
      rw [hleft] at hpc
      exact .answered rep l ⟨hpc, halive⟩ htgt hh hexec hans hgave
    | answerDead reply serverDead hchecked =>
      rw [hchecked] at hpc
      obtain ⟨rfl, rfl⟩ := hpc
      simp [Request.move, hchecked] at hmove
    | dropReply rep' hchecked => simp [Request.move, hchecked, htgt] at hmove
    | delayReply ms rep' hchecked =>
      rw [hchecked] at hpc
      exact .answered rep l hpc.1 htgt hh hexec hans hgave
    | release rep' hchecked =>
      rw [hchecked] at hpc
      exact .answered rep l (Option.some.inj hpc.1) htgt hh hexec hans hgave
    | fire ms reply htimer =>
      rw [htimer] at hpc
      obtain rfl : reply = some rep := hpc
      exact .answered rep l rfl htgt hh hexec hans hgave
    | send rep' hsending =>
      rw [hsending] at hpc
      obtain rfl : rep' = rep := hpc
      exact .sent rep' rfl hh hexec (by simp [hans]) hgave
    | _ => simp_all [Pc.Holds]
  | sent rep hpc hh hexec hans hgave =>
    cases Request.moves_of_move hmove <;> simp_all

/-- A request that has sent its reply makes no further move. -/
theorem Request.no_move_of_sent {rn : Network Name} {req req' : Request Name} {m : Move}
    (hpc : req.pc = .finished) (hh : req.handler = .ended) : req.move rn m ≠ some req' := by
  intro hmove
  cases Request.moves_of_move hmove <;> simp_all

/-! ## The caller's view -/

/-- The request is the one the caller built. -/
def Caller.Built (caller : Caller Name) (req : Request Name) : Prop :=
  req.endname = caller.endname ∧ req.svcMeth = caller.svcMeth ∧ req.args = caller.args

theorem Caller.Built.move {caller : Caller Name} {rn : Network Name} {req req' : Request Name}
    {m : Move} (h : caller.Built req) (hmove : req.move rn m = some req') : caller.Built req' := by
  cases Request.moves_of_move hmove <;> exact h

/-- The handler of request `r` returned this reply during the run. -/
def Gave (as : List (CallAction Name)) (r : Nat) (rep : ReplyMsg) : Prop :=
  .thread r (.handlerReturn rep) ∈ as

variable [DecidableEq Name]

/-- Request `r` is the one that the call made when it got into the channel. -/
def Made (s₀ : Calls Name) (as : List (CallAction Name)) (c r : Nat) : Prop :=
  TakenAt Calls.step s₀ as (.enter c) fun t => t.rpc.reqs.length = r

/-- How far a call over a link that is up has got since `s₀`. -/
inductive Calls.Progress (s₀ : Calls Name) (servername : Name) (server : ServerId) (c : Nat)
    (caller : Caller Name) (as : List (CallAction Name)) (s : Calls Name) : Prop where
  | calling (hc : s.callers[c]? = some { caller with phase := .calling })
  | waiting (r : Nat) (req : Request Name)
      (hc : s.callers[c]? = some { caller with phase := .waiting r })
      (hmade : Made s₀ as c r) (hreq : s.rpc.reqs[r]? = some req) (hbuilt : caller.Built req)
      (hstage : req.Stage servername server (Gave as r))
  | returned (r : Nat) (rep : ReplyMsg) (req : Request Name)
      (hc : s.callers[c]? = some { caller with phase := .returned rep })
      (hmade : Made s₀ as c r) (hreq : s.rpc.reqs[r]? = some req) (hbuilt : caller.Built req)
      (hpc : req.pc = .finished) (hh : req.handler = .ended) (hexec : req.executed = [server])
      (hans : req.answers = [rep]) (hgave : Gave as r rep)

/-- Nothing happens to the caller and its request. -/
theorem Calls.Progress.frame {servername : Name} {server : ServerId} {c : Nat}
    {caller : Caller Name} {as : List (CallAction Name)} {a : CallAction Name}
    {s₀ s t : Calls Name}
    (h : Calls.Progress s₀ servername server c caller as s) (hc : t.callers[c]? = s.callers[c]?)
    (hreqs : ∀ (r : Nat) req,
      (s.phase c = some (.waiting r) ∨ req.pc = .finished ∧ req.handler = .ended) →
      s.rpc.reqs[r]? = some req → t.rpc.reqs[r]? = some req) :
    Calls.Progress s₀ servername server c caller (as ++ [a]) t := by
  have hmore : ∀ r rep, Gave as r rep → Gave (as ++ [a]) r rep :=
    fun r rep hgave => List.mem_append_left _ hgave
  cases h with
  | calling hcaller => exact .calling (hc.trans hcaller)
  | waiting r req hcaller hmade hreq hbuilt hstage =>
    have hwaits : s.phase c = some (.waiting r) := Calls.phase_eq_some.mpr ⟨_, hcaller, rfl⟩
    exact .waiting r req (hc.trans hcaller) (hmade.append [a]) (hreqs r req (Or.inl hwaits) hreq)
      hbuilt (hstage.mono (hmore r))
  | returned r rep req hcaller hmade hreq hbuilt hpc hh hexec hans hgave =>
    exact .returned r rep req (hc.trans hcaller) (hmade.append [a])
      (hreqs r req (Or.inr ⟨hpc, hh⟩) hreq) hbuilt hpc hh hexec hans (hmore r rep hgave)

theorem Calls.Progress.lt {servername : Name} {server : ServerId} {c : Nat} {caller : Caller Name}
    {as : List (CallAction Name)} {s₀ s : Calls Name}
    (h : Calls.Progress s₀ servername server c caller as s) :
    c < s.callers.length := by
  cases h with
  | calling hc => exact (List.getElem?_eq_some_iff.mp hc).1
  | waiting r req hc => exact (List.getElem?_eq_some_iff.mp hc).1
  | returned r rep req hc => exact (List.getElem?_eq_some_iff.mp hc).1

theorem Calls.Progress.enter {servername : Name} {server : ServerId} {c d : Nat}
    {caller caller' : Caller Name} {as : List (CallAction Name)} {s₀ s : Calls Name}
    {rpc : State Name} (h : Calls.Progress s₀ servername server c caller as s)
    (hrun : run Calls.step s₀ as = some s) (hd : s.callers[d]? = some caller')
    (hphase : caller'.phase = .calling)
    (hrpc : Labrpc.step s.rpc (.take caller'.endname caller'.svcMeth caller'.args) = some rpc) :
    Calls.Progress s₀ servername server c caller (as ++ [.enter d]) { s with
      rpc := rpc
      callers := s.callers.set d { caller' with phase := .waiting s.rpc.reqs.length } } := by
  cases hrpc
  by_cases hdc : d = c
  · subst hdc
    cases h with
    | calling hc =>
      cases hd.symm.trans hc
      exact .waiting s.rpc.reqs.length _ (getElem?_set_of_some hc _) (TakenAt.now hrun rfl)
        List.getElem?_concat_length ⟨rfl, rfl, rfl⟩ (.taken rfl rfl rfl rfl rfl)
    | waiting r req hc =>
      cases hd.symm.trans hc
      cases hphase
    | returned r rep req hc =>
      cases hd.symm.trans hc
      cases hphase
  · refine h.frame (List.getElem?_set_ne hdc) ?_
    intro r req _ hreq
    exact getElem?_concat_of_some hreq _

/-- A move of a request other than its send. -/
theorem Calls.Progress.thread {servername : Name} {server : ServerId} {c q : Nat} {m : Move}
    {caller : Caller Name} {as : List (CallAction Name)} {s₀ s : Calls Name} {rpc : State Name}
    (h : Calls.Progress s₀ servername server c caller as s)
    (hup : LinkUp caller.endname servername server s.rpc.net)
    (hrpc : Labrpc.step s.rpc (.thread q m) = some rpc) :
    Calls.Progress s₀ servername server c caller (as ++ [.thread q m]) { s with rpc := rpc } := by
  simp only [Labrpc.step] at hrpc
  split at hrpc
  · cases hrpc
  · rename_i old hold
    obtain ⟨new, hmove, rfl⟩ := Option.map_eq_some_iff.mp hrpc
    by_cases hmine : s.phase c = some (.waiting q)
    · cases h with
      | waiting r req hc hmade hreq hbuilt hstage =>
        have hr : s.phase c = some (.waiting r) := Calls.phase_eq_some.mpr ⟨_, hc, rfl⟩
        cases hmine.symm.trans hr
        cases hold.symm.trans hreq
        have hstage' : old.Stage servername server (Gave (as ++ [.thread q m]) q) :=
          hstage.mono fun rep hgave => List.mem_append_left _ hgave
        refine .waiting q new hc (hmade.append _) (getElem?_set_of_some hold new)
          (hbuilt.move hmove) (hstage'.move (hbuilt.1.symm ▸ hup) ?_ hmove)
        rintro rep rfl
        simp [Gave]
      | calling hc => simp [Calls.phase, hc] at hmine
      | returned r rep req hc => simp [Calls.phase, hc] at hmine
    · refine h.frame rfl ?_
      intro r req hkind hreq
      have hne : q ≠ r := by
        rintro rfl
        rcases hkind with hwaits | ⟨hpc, hh⟩
        · exact hmine hwaits
        · cases hold.symm.trans hreq
          exact Request.no_move_of_sent hpc hh hmove
      exact (List.getElem?_set_ne hne).trans hreq

/-- Another caller receives its reply, or this one does. -/
theorem Calls.Progress.receive {servername : Name} {server : ServerId} {c d q : Nat}
    {caller caller' : Caller Name} {as : List (CallAction Name)} {a : CallAction Name}
    {s₀ s : Calls Name} {rep : ReplyMsg} {rpc : State Name}
    (h : Calls.Progress s₀ servername server c caller as s) (hs : s.Inv)
    (hd : s.callers[d]? = some caller') (hphase : caller'.phase = .waiting q)
    (hoffer : s.rpc.offer q = some rep)
    (hrpc : Labrpc.step s.rpc (.thread q .send) = some rpc) :
    Calls.Progress s₀ servername server c caller (as ++ [a]) { s with
      rpc := rpc
      callers := s.callers.set d { caller' with phase := .returned rep } } := by
  have hwaits : s.phase d = some (.waiting q) := Calls.phase_eq_some.mpr ⟨caller', hd, hphase⟩
  obtain ⟨old, hold, hunfinished⟩ := hs.pending d q hwaits
  have hsending : old.pc = .sending rep := by
    simp only [State.offer, hold] at hoffer
    split at hoffer
    · rename_i rep' hpc
      rw [hpc, Option.some.inj hoffer]
    · cases hoffer
  simp only [Labrpc.step, hold, Request.move, hsending, Option.map_some, Option.some.injEq] at hrpc
  subst hrpc
  by_cases hdc : d = c
  · subst hdc
    cases h with
    | waiting r req hc hmade hreq hbuilt hstage =>
      cases hd.symm.trans hc
      cases hphase
      cases hold.symm.trans hreq
      have hnew := getElem?_set_of_some hold
        { old with pc := .finished, answers := old.answers ++ [rep] }
      cases hstage with
      | answered rep' l hpc htgt hh hexec hans hgave =>
        rw [hsending] at hpc
        obtain rfl : rep = rep' := hpc
        exact .returned q rep _ (getElem?_set_of_some hc _) (hmade.append [a]) hnew hbuilt rfl hh
          hexec (by simp [hans]) (List.mem_append_left _ hgave)
      | _ => simp_all
    | calling hc =>
      cases hd.symm.trans hc
      cases hphase
    | returned r rep' req hc =>
      cases hd.symm.trans hc
      cases hphase
  · refine h.frame (List.getElem?_set_ne hdc) ?_
    intro r req hkind hreq
    have hne : q ≠ r := by
      rintro rfl
      rcases hkind with hmine | ⟨hpc, -⟩
      · exact hdc (hs.own d c q hwaits hmine)
      · cases hold.symm.trans hreq
        exact hunfinished hpc
    exact (List.getElem?_set_ne hne).trans hreq

theorem Calls.Progress.step {servername : Name} {server : ServerId} {c : Nat}
    {caller : Caller Name} {as : List (CallAction Name)} {a : CallAction Name}
    {s₀ s t : Calls Name} (h : Calls.Progress s₀ servername server c caller as s)
    (hrun : run Calls.step s₀ as = some s) (hs : s.Inv)
    (hup : LinkUp caller.endname servername server s.rpc.net) (hstep : s.step a = some t) :
    Calls.Progress s₀ servername server c caller (as ++ [a]) t := by
  cases Calls.steps_of_step hstep with
  | call endname svcMeth args =>
    exact h.frame (List.getElem?_append_left h.lt) (fun _ _ _ hreq => hreq)
  | enter d caller' rpc hloop hd hphase hrpc => exact h.enter hrun hd hphase hrpc
  | giveUp d caller' hdone hd hphase =>
    rw [hup.running] at hdone
    cases hdone
  | exit hdone =>
    rw [hup.running] at hdone
    cases hdone
  | control op rpc hrpc =>
    obtain ⟨net, -, rfl⟩ := Option.map_eq_some_iff.mp hrpc
    exact h.frame rfl (fun _ _ _ hreq => hreq)
  | thread q m rpc hm hrpc => exact h.thread hup hrpc
  | receive d caller' q rep rpc hd hphase hoffer hrpc => exact h.receive hs hd hphase hoffer hrpc

/-- A call that is made when the network is reliable and leads to a server, and during which
this stays so, returns what the handler of that server returned for the very request that the
call made when it got into the channel, after the server executed that request once. -/
theorem reliable_call_served {pre post : List (CallAction Name)} {s₀ s : Calls Name}
    (hpre : run Calls.step (Calls.start Name) pre = some s₀)
    (hpost : run Calls.step s₀ post = some s) {c : Nat} {caller : Caller Name}
    (hc : s₀.callers[c]? = some caller) (hcalling : caller.phase = .calling)
    {servername : Name} {server : ServerId}
    (hup : Obeys Calls.step s₀ (fun t _ => LinkUp caller.endname servername server t.rpc.net) post)
    {rep : ReplyMsg} (hreturned : s.phase c = some (.returned rep)) :
    ∃ r req, Made s₀ post c r ∧ s.rpc.reqs[r]? = some req ∧ caller.Built req ∧
      req.executed = [server] ∧ req.answers = [rep] ∧
      .thread r (.handlerReturn rep) ∈ post := by
  have hinv : Calls.Progress s₀ servername server c caller post s ∧ s.Inv := by
    refine run_induction_of_obeys
      (P := fun as t => Calls.Progress s₀ servername server c caller as t ∧ t.Inv)
      ⟨?_, .of_run hpre⟩ ?_ hpost hup
    · exact .calling (by rw [hc, ← hcalling])
    · intro as t a t' hrun ht hlink hstep
      exact ⟨ht.1.step hrun ht.2 hlink hstep, ht.2.step hstep⟩
  obtain ⟨caller', hc', hphase⟩ := Calls.phase_eq_some.mp hreturned
  cases hinv.1 with
  | calling hcaller =>
    cases hc'.symm.trans hcaller
    cases hphase
  | waiting r req hcaller =>
    cases hc'.symm.trans hcaller
    cases hphase
  | returned r rep' req hcaller hmade hreq hbuilt _ _ hexec hans hgave =>
    cases hc'.symm.trans hcaller
    cases hphase
    exact ⟨r, req, hmade, hreq, hbuilt, hexec, hans, hgave⟩

/-! ## When nobody touches the network -/

def CallAction.isControl : CallAction Name → Bool
  | .control _ => true
  | _ => false

theorem LinkUp.step {endname servername : Name} {server : ServerId} {s t : Calls Name}
    {a : CallAction Name} (h : LinkUp endname servername server s.rpc.net)
    (ha : a.isControl = false) (hstep : s.step a = some t) :
    LinkUp endname servername server t.rpc.net := by
  obtain ⟨hreliable, henabled, hconnected, hregistered, hrunning⟩ := h
  cases Calls.steps_of_step hstep with
  | control op rpc hrpc => cases ha
  | enter d caller rpc _ _ _ hrpc =>
    cases hrpc
    exact ⟨hreliable, henabled, hconnected, hregistered, hrunning⟩
  | thread q m rpc _ hrpc =>
    obtain ⟨old, new, -, -, rfl⟩ := step_thread hrpc
    exact ⟨hreliable, henabled, hconnected, hregistered, hrunning⟩
  | receive d caller q rep rpc _ _ _ hrpc =>
    obtain ⟨old, new, -, -, rfl⟩ := step_thread hrpc
    exact ⟨hreliable, henabled, hconnected, hregistered, hrunning⟩
  | call | giveUp | exit => exact ⟨hreliable, henabled, hconnected, hregistered, hrunning⟩

theorem LinkUp.obeys {endname servername : Name} {server : ServerId} {s : Calls Name}
    (h : LinkUp endname servername server s.rpc.net) {as : List (CallAction Name)}
    (has : ∀ a ∈ as, a.isControl = false) :
    Obeys Calls.step s (fun t _ => LinkUp endname servername server t.rpc.net) as := by
  intro pre a post t he hrun
  have hquiet : Obeys Calls.step s (fun _ b => b.isControl = false) pre :=
    Obeys.of_forall fun b hb _ => has b (by simp [he, hb])
  refine run_induction_of_obeys (P := fun _ t => LinkUp endname servername server t.rpc.net) h ?_
    hrun hquiet
  intro as u b u' _ hu hb hstep
  exact hu.step hb hstep

/-- The end `true` is connected to the server 7, registered as `false`, and a call is made. -/
def quietSetup : List (CallAction Bool) :=
  [.control (.makeEnd true), .control (.connect true (some false)), .control (.enable true true),
   .control (.addServer false 7), .call true "KVServer.Get" [1]]

def quietCall : List (CallAction Bool) :=
  [.enter 0, .thread 0 .readEndnameInfo, .thread 0 .spawn, .thread 0 .dispatch,
   .thread 0 (.handlerReturn ⟨true, [9]⟩), .thread 0 .receive, .thread 0 .recheck,
   .thread 0 .release, .receive 0]

theorem quietCall_served : ∃ s₀ s : Calls Bool,
    run Calls.step (Calls.start Bool) quietSetup = some s₀ ∧ run Calls.step s₀ quietCall = some s ∧
      ∃ (r : Nat) (req : Request Bool), Made s₀ quietCall 0 r ∧ s.rpc.reqs[r]? = some req ∧
        req.executed = [7] ∧ req.answers = [⟨true, [9]⟩] := by
  have hrun : ∃ s₀ s : Calls Bool,
      run Calls.step (Calls.start Bool) quietSetup = some s₀ ∧
      run Calls.step s₀ quietCall = some s ∧
      s₀.callers[0]? = some ⟨true, "KVServer.Get", [1], .calling⟩ ∧ LinkUp true false 7 s₀.rpc.net ∧
      s.phase 0 = some (.returned ⟨true, [9]⟩) :=
    ⟨_, _, rfl, rfl, rfl, ⟨rfl, rfl, rfl, rfl, rfl⟩, rfl⟩
  obtain ⟨s₀, s, hpre, hpost, hc, hup, hreturned⟩ := hrun
  obtain ⟨r, req, hmade, hreq, -, hexec, hans, -⟩ :=
    reliable_call_served hpre hpost hc rfl (hup.obeys (by decide)) hreturned
  exact ⟨s₀, s, hpre, hpost, r, req, hmade, hreq, hexec, hans⟩

end Labrpc
