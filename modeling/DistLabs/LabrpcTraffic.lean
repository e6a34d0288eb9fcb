import DistLabs.LabrpcDelivery

/-!
# Traffic accounting

The counters of the network against what happened in a run: the requests taken
from `endCh`, the replies of handlers that `processReq` or its timer released to
the callers, and the requests dispatched to each `Server` object. The counters
are fixed-width; the sums are taken in their arithmetic.
-/
namespace Labrpc

open Runs

variable {Name : Type}

def getTotalCount (rn : Network Name) : Int := rn.count.toInt

def getTotalBytes (rn : Network Name) : Int := rn.bytes.toInt

/-- The count of incoming RPCs of a `Server`. -/
def getCount (s : State Name) (server : ServerId) : Nat := s.counts server

/-! ## What happened in a run -/

/-- The arguments of the requests taken from `endCh`, in order. -/
def taken (as : List (Action Name)) : List Bytes :=
  as.filterMap fun a =>
    match a with
    | .take _ _ args => some args
    | _ => none

/-- The handler's reply that a move hands to the caller. -/
def Request.releasedReply (req : Request Name) : Move → Option ReplyMsg
  | .release =>
    match req.pc with
    | .checked (some rep) _ => some rep
    | _ => none
  | .fire =>
    match req.pc with
    | .timer _ reply => reply
    | _ => none
  | _ => none

variable [DecidableEq Name]

/-- In the run the handler's reply to the request was released to the caller. -/
def Released (as : List (Action Name)) (r : Nat) (rep : ReplyMsg) : Prop :=
  ∃ m, TakenAt step (start Name) as (.thread r m) fun s =>
    ∃ req, s.reqs[r]? = some req ∧ req.releasedReply m = some rep

omit [DecidableEq Name] in
theorem Request.released_eq (req : Request Name) (m : Move) :
    req.released m = ((req.releasedReply m).map fun rep => rep.reply.length).getD 0 := by
  cases m with
  | release =>
    cases hpc : req.pc with
    | checked reply dead => cases reply <;> simp [Request.released, Request.releasedReply, hpc]
    | _ => simp [Request.released, Request.releasedReply, hpc]
  | fire =>
    cases hpc : req.pc with
    | timer ms reply => cases reply <;> simp [Request.released, Request.releasedReply, hpc]
    | _ => simp [Request.released, Request.releasedReply, hpc]
  | _ => rfl

theorem not_released_of_forall_not_mem {as : List (Action Name)} {r : Nat}
    (h : ∀ m, .thread r m ∉ as) (rep : ReplyMsg) : ¬ Released as r rep := by
  rintro ⟨m, pre, post, s, rfl, -⟩
  exact h m (by simp)

theorem released_frame {as : List (Action Name)} {r : Nat} {a : Action Name}
    (ha : ∀ m, a ≠ .thread r m) (rep : ReplyMsg) :
    Released (as ++ [a]) r rep ↔ Released as r rep := by
  constructor
  · rintro ⟨m, pre, post, s, heq, hs, hp⟩
    rcases concat_eq_append_cons_iff.mp heq with ⟨-, rfl, -⟩ | ⟨rest, -, rfl⟩
    · exact absurd rfl (ha m)
    · exact ⟨m, pre, rest, s, rfl, hs, hp⟩
  · rintro ⟨m, h⟩
    exact ⟨m, h.append [a]⟩

theorem released_move {as : List (Action Name)} {s : State Name} {r : Nat} {req : Request Name}
    (hs : run step (start Name) as = some s) (hreq : s.reqs[r]? = some req) (m : Move)
    (rep : ReplyMsg) : Released (as ++ [.thread r m]) r rep ↔
      Released as r rep ∨ req.releasedReply m = some rep := by
  constructor
  · rintro ⟨m', pre, post, s', heq, hs', req', hreq', hrep⟩
    rcases concat_eq_append_cons_iff.mp heq with ⟨rfl, hm, -⟩ | ⟨rest, -, rfl⟩
    · cases hm
      rw [hs] at hs'
      cases hs'
      rw [hreq] at hreq'
      cases hreq'
      exact Or.inr hrep
    · exact Or.inl ⟨m', pre, rest, s', rfl, hs', req', hreq', hrep⟩
  · rintro (⟨m', h⟩ | hrep)
    · exact ⟨m', h.append _⟩
    · exact ⟨m, TakenAt.now hs ⟨req, hreq, hrep⟩⟩

/-! ## The reply of one request -/

/-- The message for the caller is the handler's reply and nothing else was released, or it is
the failure reply and nothing was. -/
def Settled (as : List (Action Name)) (r : Nat) (rep : ReplyMsg) : Prop :=
  ((∀ rep', Released as r rep' ↔ rep' = rep) ∧ .thread r (.handlerReturn rep) ∈ as) ∨
    (rep = noReply ∧ ∀ rep', ¬ Released as r rep')

/-- What has been released for a request, at each place of `processReq`. -/
def ReleaseFacts (as : List (Action Name)) (r : Nat) (req : Request Name) : Pc → Prop
  | .start | .chosen | .loop | .unreachable => ∀ rep, ¬ Released as r rep
  | .left reply | .checked reply _ | .timer _ reply =>
    (∀ rep, ¬ Released as r rep) ∧ ∀ rep, reply = some rep → .thread r (.handlerReturn rep) ∈ as
  | .sending rep => Settled as r rep
  | .finished => ∃ rep, req.answers = [rep] ∧ Settled as r rep

theorem Settled.extend {as : List (Action Name)} {r : Nat} {rep : ReplyMsg} {a : Action Name}
    (hsame : ∀ rep, Released (as ++ [a]) r rep ↔ Released as r rep) (h : Settled as r rep) :
    Settled (as ++ [a]) r rep := by
  rcases h with ⟨hiff, hmem⟩ | ⟨hno, hnone⟩
  · exact Or.inl ⟨fun rep' => (hsame rep').trans (hiff rep'), List.mem_append_left _ hmem⟩
  · exact Or.inr ⟨hno, fun rep' => mt (hsame rep').mp (hnone rep')⟩

/-- The facts outlive a step that releases nothing and leaves `processReq` where it is. -/
theorem ReleaseFacts.extend {as : List (Action Name)} {r : Nat} {req req' : Request Name} {pc : Pc}
    {a : Action Name} (hsame : ∀ rep, Released (as ++ [a]) r rep ↔ Released as r rep)
    (hans : req'.answers = req.answers) (h : ReleaseFacts as r req pc) :
    ReleaseFacts (as ++ [a]) r req' pc := by
  have hnone : (∀ rep, ¬ Released as r rep) → ∀ rep, ¬ Released (as ++ [a]) r rep :=
    fun h rep => mt (hsame rep).mp (h rep)
  cases pc with
  | start | chosen | loop | unreachable => exact hnone h
  | left reply | checked reply _ | timer _ reply =>
    exact ⟨hnone h.1, fun rep hrep => List.mem_append_left _ (h.2 rep hrep)⟩
  | sending rep => exact Settled.extend hsame h
  | finished =>
    obtain ⟨rep, hrep, hset⟩ := h
    exact ⟨rep, hans.trans hrep, hset.extend hsame⟩

theorem settled_noReply {as : List (Action Name)} {r : Nat} (h : ∀ rep, ¬ Released as r rep) :
    Settled as r noReply := Or.inr ⟨rfl, h⟩

/-- The one move that releases the handler's reply. -/
theorem settled_of_release {as : List (Action Name)} {s : State Name} {r : Nat} {req : Request Name}
    (hs : run step (start Name) as = some s) (hreq : s.reqs[r]? = some req) {m : Move}
    {rep : ReplyMsg} (hrep : req.releasedReply m = some rep) (hnone : ∀ rep, ¬ Released as r rep)
    (hreturned : .thread r (.handlerReturn rep) ∈ as) : Settled (as ++ [.thread r m]) r rep := by
  refine Or.inl ⟨?_, List.mem_append_left _ hreturned⟩
  intro rep'
  rw [released_move hs hreq, hrep]
  simp [hnone rep', eq_comm]

theorem ReleaseFacts.move {as : List (Action Name)} {s : State Name} {r : Nat}
    {req req' : Request Name} {m : Move} (hs : run step (start Name) as = some s)
    (hreq : s.reqs[r]? = some req) (h : ReleaseFacts as r req req.pc)
    (hm : req.Moves s.net m req') : ReleaseFacts (as ++ [.thread r m]) r req' req'.pc := by
  have hsame : req.releasedReply m = none → ∀ rep,
      Released (as ++ [.thread r m]) r rep ↔ Released as r rep := by
    intro hnone rep
    rw [released_move hs hreq, hnone]
    simp
  have hstill : req.releasedReply m = none → (∀ rep, ¬ Released as r rep) →
      ∀ rep, ¬ Released (as ++ [.thread r m]) r rep :=
    fun hnone h rep => mt (hsame hnone rep).mp (h rep)
  have hd := Delivery.of_run hs hreq
  cases hm with
  | readReachable tgt hpc htgt =>
    rw [hpc] at h
    exact hstill rfl h
  | readUnreachable hpc htgt =>
    rw [hpc] at h
    exact hstill rfl h
  | dropRequest hpc =>
    rw [hpc] at h
    exact settled_noReply (hstill rfl h)
  | spawn hpc =>
    rw [hpc] at h
    exact hstill rfl h
  | dispatch tgt hh htgt => exact h.extend (hsame rfl) rfl
  | handlerReturn rep hh => exact h.extend (hsame rfl) rfl
  | receive rep hpc hh =>
    rw [hpc] at h
    have hret := hd.handler
    rw [hh] at hret
    refine ⟨hstill rfl h, ?_⟩
    intro rep' hrep'
    cases hrep'
    exact List.mem_append_left _ ((hret.2 rep).mpr rfl)
  | pollDead hpc =>
    rw [hpc] at h
    refine ⟨hstill rfl h, ?_⟩
    intro rep hrep
    cases hrep
  | pollAlive hpc => exact h.extend (hsame rfl) rfl
  | drain rep hh => exact h.extend (hsame rfl) rfl
  | recheck tgt reply hpc htgt =>
    rw [hpc] at h
    exact ⟨hstill rfl h.1, fun rep hrep => List.mem_append_left _ (h.2 rep hrep)⟩
  | answerDead reply serverDead hpc =>
    rw [hpc] at h
    exact settled_noReply (hstill rfl h.1)
  | dropReply rep hpc =>
    rw [hpc] at h
    exact settled_noReply (hstill rfl h.1)
  | delayReply ms rep hpc =>
    rw [hpc] at h
    exact ⟨hstill rfl h.1, fun rep' hrep' => List.mem_append_left _ (h.2 rep' hrep')⟩
  | release rep hpc =>
    rw [hpc] at h
    exact settled_of_release hs hreq (by simp [Request.releasedReply, hpc]) h.1 (h.2 rep rfl)
  | simulateTimeout ms hpc =>
    rw [hpc] at h
    refine ⟨hstill rfl h, ?_⟩
    intro rep hrep
    cases hrep
  | fire ms reply hpc =>
    rw [hpc] at h
    have hreply : req.releasedReply .fire = reply := by simp [Request.releasedReply, hpc]
    cases reply with
    | none => exact settled_noReply (hstill hreply h.1)
    | some rep => exact settled_of_release hs hreq hreply h.1 (h.2 rep rfl)
  | send rep hpc =>
    rw [hpc] at h
    have hp := hd.pc
    rw [hpc] at hp
    exact ⟨rep, by simp [hp.1], Settled.extend (hsame rfl) h⟩

theorem ReleaseFacts.of_run {as : List (Action Name)} {s : State Name}
    (h : run step (start Name) as = some s) {r : Nat} {req : Request Name}
    (hr : s.reqs[r]? = some req) : ReleaseFacts as r req req.pc :=
  request_induction (P := fun as r req => ReleaseFacts as r req req.pc)
    (fun _ _ _ _ _ _ hnew => not_released_of_forall_not_mem (by simpa using hnew))
    (fun _ _ _ _ ha hfacts => hfacts.extend (released_frame ha) rfl)
    (fun _ _ _ _ _ _ hs hreq hfacts hm => hfacts.move hs hreq hm) h hr

theorem Settled.handlerReturn {as : List (Action Name)} {r : Nat} {rep rep' : ReplyMsg}
    (h : Settled as r rep) (hrel : Released as r rep') : .thread r (.handlerReturn rep') ∈ as := by
  rcases h with ⟨hiff, hmem⟩ | ⟨-, hnone⟩
  · rw [(hiff rep').mp hrel]
    exact hmem
  · exact absurd hrel (hnone rep')

/-- What was released is what the handler returned. -/
theorem ReleaseFacts.handlerReturn {as : List (Action Name)} {r : Nat} {req : Request Name}
    {pc : Pc} (h : ReleaseFacts as r req pc) {rep : ReplyMsg} (hrel : Released as r rep) :
    .thread r (.handlerReturn rep) ∈ as := by
  cases pc with
  | start | chosen | loop | unreachable => exact absurd hrel (h rep)
  | left reply | checked reply _ | timer _ reply => exact absurd hrel (h.1 rep)
  | sending rep' => exact Settled.handlerReturn h hrel
  | finished =>
    obtain ⟨rep', -, hset⟩ := h
    exact hset.handlerReturn hrel

/-- A reply is released only where none was before. -/
theorem not_released_before {as : List (Action Name)} {s : State Name} {r : Nat}
    {req req' : Request Name} {m : Move} (hs : run step (start Name) as = some s)
    (hreq : s.reqs[r]? = some req) (hm : req.Moves s.net m req') {rep : ReplyMsg}
    (hrep : req.releasedReply m = some rep) (rep' : ReplyMsg) : ¬ Released as r rep' := by
  have hfacts := ReleaseFacts.of_run hs hreq
  cases hm with
  | release rep hpc =>
    rw [hpc] at hfacts
    exact hfacts.1 rep'
  | fire ms reply hpc =>
    rw [hpc] at hfacts
    exact hfacts.1 rep'
  | _ => cases hrep

/-! ## The counters -/

theorem Control.exec_counters {rn rn' : Network Name} {c : Control Name}
    (h : c.exec rn = some rn') : rn'.count = rn.count ∧ rn'.bytes = rn.bytes := by
  cases c with
  | makeEnd endname =>
    obtain ⟨-, h⟩ := Option.ite_none_left_eq_some.mp h
    cases h
    exact ⟨rfl, rfl⟩
  | deleteEnd endname =>
    obtain ⟨-, h⟩ := Option.ite_none_right_eq_some.mp h
    cases h
    exact ⟨rfl, rfl⟩
  | cleanup =>
    obtain ⟨-, h⟩ := Option.ite_none_left_eq_some.mp h
    cases h
    exact ⟨rfl, rfl⟩
  | _ =>
    cases h
    exact ⟨rfl, rfl⟩

omit [DecidableEq Name] in
theorem Request.Moves.args_eq {rn : Network Name} {req req' : Request Name} {m : Move}
    (h : req.Moves rn m req') : req'.args = req.args := by
  cases h <;> rfl

/-- The bytes counted for a request beside its arguments. -/
def replyBytes (released : Option ReplyMsg) : Nat :=
  (released.map fun rep => rep.reply.length).getD 0

/-- The books of a run: for each request taken, the reply that was released, if any. -/
structure Account (as : List (Action Name)) (s : State Name) (released : List (Option ReplyMsg)) :
    Prop where
  args : s.reqs.map Request.args = taken as
  length : released.length = s.reqs.length
  replies : ∀ r rep, released[r]? = some (some rep) ↔ Released as r rep
  count : s.net.count = Int32.ofNat (taken as).length
  bytes : s.net.bytes =
    Int64.ofNat (((taken as).map List.length).sum + (released.map replyBytes).sum)

omit [DecidableEq Name] in
theorem taken_append (as bs : List (Action Name)) : taken (as ++ bs) = taken as ++ taken bs :=
  List.filterMap_append

theorem Account.control {as : List (Action Name)} {s : State Name}
    {released : List (Option ReplyMsg)} {c : Control Name} {net : Network Name}
    (h : Account as s released) (hexec : c.exec s.net = some net) :
    Account (as ++ [.control c]) { s with net := net } released := by
  obtain ⟨hcount, hbytes⟩ := Control.exec_counters hexec
  have htaken : taken (as ++ [.control c]) = taken as := by
    rw [taken_append]
    exact List.append_nil _
  refine ⟨htaken ▸ h.args, h.length, ?_, ?_, ?_⟩
  · intro r rep
    rw [h.replies, released_frame (by simp)]
  · rw [hcount, htaken, h.count]
  · rw [hbytes, htaken, h.bytes]

theorem Account.take {as : List (Action Name)} {s : State Name}
    {released : List (Option ReplyMsg)} {endname : Name} {svcMeth : String} {args : Bytes}
    (h : Account as s released) :
    Account (as ++ [.take endname svcMeth args])
      { s with
        net := { s.net with
          count := s.net.count + 1
          bytes := s.net.bytes + Int64.ofNat args.length }
        reqs := s.reqs ++ [.taken endname svcMeth args] } (released ++ [none]) := by
  have htaken : taken (as ++ [.take endname svcMeth args]) = taken as ++ [args] := taken_append _ _
  constructor
  · rw [htaken, ← h.args, List.map_append]
    rfl
  · simp [h.length]
  · intro r rep
    rw [released_frame (by simp), ← h.replies]
    constructor
    · intro hr
      rcases getElem?_concat_cases hr with hr | ⟨-, hr⟩
      · exact hr
      · cases hr
    · intro hr
      exact getElem?_concat_of_some hr none
  · rw [htaken, List.length_append, List.length_singleton, Int32.ofNat_add, ← h.count]
    rfl
  · rw [htaken, h.bytes, ← Int64.ofNat_add]
    refine congrArg Int64.ofNat ?_
    simp only [List.map_append, List.sum_append, List.map_cons, List.map_nil, List.sum_cons,
      List.sum_nil, replyBytes, Option.map_none, Option.getD_none]
    omega

/-- The place of a request without a released reply is empty. -/
theorem Account.empty {as : List (Action Name)} {s : State Name}
    {released : List (Option ReplyMsg)} {r : Nat} {req : Request Name} (h : Account as s released)
    (hreq : s.reqs[r]? = some req) (hnone : ∀ rep, ¬ Released as r rep) :
    released[r]? = some none := by
  have hlt : r < released.length := by
    rw [h.length]
    exact (List.getElem?_eq_some_iff.mp hreq).1
  obtain ⟨o, ho⟩ : ∃ o, released[r]? = some o := ⟨_, List.getElem?_eq_getElem hlt⟩
  cases o with
  | none => exact ho
  | some rep => exact absurd ((h.replies r rep).mp ho) (hnone rep)

theorem Account.thread {as : List (Action Name)} {s : State Name}
    {released : List (Option ReplyMsg)} {r : Nat} {m : Move} {req req' : Request Name}
    (hs : run step (start Name) as = some s) (h : Account as s released)
    (hreq : s.reqs[r]? = some req) (hm : req.Moves s.net m req') :
    ∃ released', Account (as ++ [.thread r m])
      { net := { s.net with bytes := s.net.bytes + Int64.ofNat (req.released m) }
        counts := countDispatch s.counts req m
        reqs := s.reqs.set r req' } released' := by
  have htaken : taken (as ++ [.thread r m]) = taken as := by
    rw [taken_append]
    exact List.append_nil _
  have hargs : (s.reqs.set r req').map Request.args = taken as := by
    rw [map_set_of_eq hreq hm.args_eq, h.args]
  have hothers : ∀ r', r' ≠ r → ∀ rep,
      Released (as ++ [.thread r m]) r' rep ↔ Released as r' rep :=
    fun r' hr' rep => released_frame (by simp [Ne.symm hr']) rep
  cases hrep : req.releasedReply m with
  | none =>
    refine ⟨released, htaken ▸ hargs, by simp [h.length], ?_, ?_, ?_⟩
    · intro r' rep
      rw [h.replies]
      by_cases hr : r' = r
      · subst hr
        rw [released_move hs hreq, hrep]
        simp
      · rw [hothers r' hr]
    · rw [htaken, h.count]
    · rw [htaken, h.bytes, Request.released_eq, hrep, ← Int64.ofNat_add]
      rfl
  | some rep =>
    have hempty := h.empty hreq (not_released_before hs hreq hm hrep)
    refine ⟨released.set r (some rep), htaken ▸ hargs, by simp [h.length], ?_, ?_, ?_⟩
    · intro r' rep'
      by_cases hr : r' = r
      · subst hr
        rw [getElem?_set_of_some hempty, released_move hs hreq, hrep]
        simp [not_released_before hs hreq hm hrep rep']
      · rw [List.getElem?_set_ne (Ne.symm hr), h.replies, hothers r' hr]
    · rw [htaken, h.count]
    · have hsum := sum_map_set (f := replyBytes) (b := some rep) hempty
      rw [htaken, h.bytes, Request.released_eq, hrep, ← Int64.ofNat_add]
      refine congrArg Int64.ofNat ?_
      simp only [replyBytes, Option.map_none, Option.map_some, Option.getD_none,
        Option.getD_some] at hsum ⊢
      omega

theorem Account.of_run {as : List (Action Name)} {s : State Name}
    (h : run step (start Name) as = some s) : ∃ released, Account as s released := by
  refine run_induction (P := fun as s => ∃ released, Account as s released) ?_ ?_ h
  · refine ⟨[], rfl, rfl, ?_, rfl, rfl⟩
    intro r rep
    simp [not_released_of_forall_not_mem]
  · rintro as s a t hs ⟨released, ih⟩ hstep
    cases a with
    | control c =>
      obtain ⟨net, hexec, rfl⟩ := Option.map_eq_some_iff.mp hstep
      exact ⟨released, ih.control hexec⟩
    | take endname svcMeth args =>
      cases hstep
      exact ⟨_, ih.take⟩
    | thread r m =>
      obtain ⟨req, req', hreq, hm, rfl⟩ := step_thread hstep
      exact ih.thread hs hreq hm

/-! ## The servers -/

/-- A server's count is the number of its dispatches, over all requests. -/
theorem counts_eq {as : List (Action Name)} {s : State Name}
    (h : run step (start Name) as = some s) (server : ServerId) :
    s.counts server = (s.reqs.map fun req => req.executed.count server).sum := by
  refine run_induction (P := fun _ s =>
    s.counts server = (s.reqs.map fun req => req.executed.count server).sum) rfl ?_ h
  intro as s a t _ ih hstep
  cases a with
  | control c =>
    obtain ⟨net, -, rfl⟩ := Option.map_eq_some_iff.mp hstep
    exact ih
  | take endname svcMeth args =>
    cases hstep
    simpa [Request.taken] using ih
  | thread r m =>
    obtain ⟨req, req', hreq, hm, rfl⟩ := step_thread hstep
    have hsum := sum_map_set (f := fun req => req.executed.count server) (b := req') hreq
    cases hm with
    | dispatch tgt hh htgt =>
      simp only [countDispatch, htgt, List.count_append, List.count_singleton] at hsum ⊢
      by_cases hserver : tgt.server = server
      · subst hserver
        simp only [Function.update_self, beq_self_eq_true, if_true] at hsum ⊢
        omega
      · rw [Function.update_of_ne (Ne.symm hserver), ih]
        simp only [beq_iff_eq, hserver, if_false] at hsum
        omega
    | _ =>
      simp only [countDispatch] at hsum ⊢
      rw [ih]
      omega

/-- A request is dispatched at most once, so the dispatches are the requests dispatched. -/
theorem counts_eq_length {as : List (Action Name)} {s : State Name}
    (h : run step (start Name) as = some s) (server : ServerId) :
    s.counts server = (s.reqs.filter fun req => server ∈ req.executed).length := by
  rw [counts_eq h, ← List.countP_eq_length_filter]
  have honce : ∀ req ∈ s.reqs,
      req.executed.count server = if server ∈ req.executed then 1 else 0 := by
    intro req hreq
    obtain ⟨r, hr⟩ := List.getElem?_of_mem hreq
    rcases (Delivery.of_run h hr).executed_cases with hnil | ⟨tgt, -, hexec⟩
    · simp [hnil]
    · by_cases hserver : server = tgt.server
      · simp [hexec, hserver]
      · simp [hexec, hserver, Ne.symm hserver]
  generalize s.reqs = reqs at honce
  induction reqs with
  | nil => rfl
  | cons req reqs ih =>
    have hrest := ih fun req' hreq' => honce req' (List.mem_cons_of_mem _ hreq')
    have hfirst := honce req List.mem_cons_self
    simp only [List.map_cons, List.sum_cons, List.countP_cons, hrest, hfirst, decide_eq_true_eq]
    omega

/-- Traffic accounting is exact, in every state of every run. The total count is the number of
requests taken and the total of bytes that of their arguments and of the released replies, in
the arithmetic of the counters. A released reply is the one that the handler returned, and a
caller that got no released reply got the failure reply. The count of a server is the number of
requests dispatched to it. -/
theorem traffic_exact (as : List (Action Name)) (s : State Name)
    (h : run step (start Name) as = some s) :
    getTotalCount s.net = ((taken as).length : Int).bmod Int32.size ∧
    (∃ released : List (Option ReplyMsg), released.length = (taken as).length ∧
      (∀ r rep, released[r]? = some (some rep) ↔ Released as r rep) ∧
      getTotalBytes s.net = ((((taken as).map List.length).sum +
        (released.map replyBytes).sum : Nat) : Int).bmod Int64.size) ∧
    (∀ r req, s.reqs[r]? = some req →
      (∀ rep, Released as r rep → Returned as r rep) ∧
      (req.pc = .finished → ∃ rep, req.answers = [rep] ∧
        ((∀ rep', Released as r rep' ↔ rep' = rep) ∨
          (rep = noReply ∧ ∀ rep', ¬ Released as r rep')))) ∧
    ∀ server, getCount s server = (s.reqs.filter fun req => server ∈ req.executed).length := by
  obtain ⟨released, hacc⟩ := Account.of_run h
  refine ⟨?_, ⟨released, ?_, hacc.replies, ?_⟩, ?_, counts_eq_length h⟩
  · rw [getTotalCount, hacc.count, Int32.toInt_ofNat']
  · rw [hacc.length, ← hacc.args, List.length_map]
  · rw [getTotalBytes, hacc.bytes, Int64.toInt_ofNat']
  · intro r req hreq
    have hfacts := ReleaseFacts.of_run h hreq
    constructor
    · intro rep hrep
      exact ((Delivery.of_run h hreq).returned (hfacts.handlerReturn hrep)).2
    · intro hpc
      rw [hpc] at hfacts
      obtain ⟨rep, hans, hset⟩ := hfacts
      exact ⟨rep, hans, hset.imp And.left id⟩

/-- The delayed reply of `delayedCall`, a call through a disabled end and a dropped request. -/
def busyNetwork : List (Action Nat) :=
  delayedCall ++ [.take 3 "KV.Get" [1], .thread 1 .readEndnameInfo, .thread 1 (.simulateTimeout 5),
    .thread 1 .fire, .control (.addServer 1 6), .control (.reliable false),
    .take 0 "KV.Put" [4, 5, 6], .thread 2 .readEndnameInfo, .thread 2 .dropRequest]

theorem busyNetwork_exact : ∃ s, run step (start Nat) busyNetwork = some s ∧
    getTotalCount s.net = 3 ∧ getTotalBytes s.net = 7 ∧
      getCount s 5 = (s.reqs.filter fun req => 5 ∈ req.executed).length := by
  obtain ⟨s, hs⟩ : ∃ s, run step (start Nat) busyNetwork = some s := ⟨_, rfl⟩
  obtain ⟨hcount, -, -, hserver⟩ := traffic_exact busyNetwork s hs
  refine ⟨s, hs, hcount, ?_, hserver 5⟩
  cases hs
  rfl

end Labrpc
