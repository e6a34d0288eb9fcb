import DistLabs.Fairness
import DistLabs.LabrpcCalls

/-!
# Calls return

If every goroutine that can go on does so, every call returns, unless its handler
runs forever on a server that is found alive again and again; and the goroutine of
a handler that has returned ends, whether or not `processReq` still waits for it.
-/
namespace Labrpc

open Runs Fairness

variable {Name : Type}

/-! ## The goroutines -/

/-- Who acts: a caller in its `select`, the goroutine that calls `dispatch`, `processReq` with
the timer it leaves behind, the tick that lets `processReq` look at the server again, and
the goroutine that drains `ech`. A handler that runs is none of them. -/
inductive Goroutine where
  | caller (c : Nat)
  | dispatcher (r : Nat)
  | processReq (r : Nat)
  | tick (r : Nat)
  | drainer (r : Nat)
  deriving DecidableEq

def Move.goroutine (r : Nat) : Move → Option Goroutine
  | .dispatch => some (.dispatcher r)
  | .poll => some (.tick r)
  | .drain => some (.drainer r)
  | .handlerReturn _ => none
  | _ => some (.processReq r)

/-- The actions of a goroutine; the last one of `processReq` is its send, which the caller
receives. -/
def Acts (g : Goroutine) (s : Calls Name) (a : CallAction Name) : Prop :=
  (∃ c, g = .caller c ∧ (a = .enter c ∨ a = .giveUp c)) ∨
  (∃ c r, g = .processReq r ∧ s.phase c = some (.waiting r) ∧ a = .receive c) ∨
  ∃ r m, a = .thread r m ∧ m.goroutine r = some g

/-- Every goroutine that can always go on does go on. -/
def Fair [DecidableEq Name] (b : Behavior Calls.step (Calls.start Name)) : Prop :=
  ∀ g, b.WeakFair (Acts g)

/-! ## How far a request is -/

/-- A request comes closer to its reply with every move that counts. -/
def Request.distance (req : Request Name) : Nat :=
  match req.pc with
  | .start => 9
  | .chosen => 8
  | .loop =>
    match req.handler with
    | .spawned => 7
    | .running => 6
    | _ => 5
  | .left _ => 4
  | .checked _ _ => 3
  | .unreachable => 3
  | .timer _ _ => 2
  | .sending _ => 1
  | .finished => 0

theorem Request.Moves.distance_le {rn : Network Name} {req req' : Request Name} {m : Move}
    (h : req.Moves rn m req') : req'.distance ≤ req.distance := by
  cases h with
  | dispatch tgt hh htgt => simp only [Request.distance, hh]; split <;> simp
  | handlerReturn rep hh => simp only [Request.distance, hh]; split <;> simp
  | drain rep hh => simp only [Request.distance, hh]; split <;> simp
  | pollDead hpc => simp only [Request.distance, hpc]; split <;> simp
  | pollAlive hpc => exact Nat.le_refl _
  | receive rep hpc hh => simp [Request.distance, hpc, hh]
  | _ => simp [Request.distance, *]

/-- `processReq` never moves in vain. -/
theorem Request.Moves.distance_lt {rn : Network Name} {req req' : Request Name} {m : Move}
    (h : req.Moves rn m req') {r : Nat} (hm : m.goroutine r = some (.processReq r)) :
    req'.distance < req.distance := by
  cases h with
  | receive rep hpc hh => simp [Request.distance, hpc, hh]
  | dispatch tgt hh htgt => cases hm
  | handlerReturn rep hh => cases hm
  | drain rep hh => cases hm
  | pollDead hpc => cases hm
  | pollAlive hpc => cases hm
  | _ => simp [Request.distance, *]

theorem Request.distance_eq_zero {req : Request Name} : req.distance = 0 ↔ req.pc = .finished := by
  cases hpc : req.pc with
  | loop => cases hh : req.handler <;> simp [Request.distance, hpc, hh]
  | _ => simp [Request.distance, hpc]

theorem Request.distance_eq_six {req : Request Name} :
    req.distance = 6 ↔ req.pc = .loop ∧ req.handler = .running := by
  cases hpc : req.pc with
  | loop => cases hh : req.handler <;> simp [Request.distance, hpc, hh]
  | _ => simp [Request.distance, hpc]

theorem Request.distance_eq_seven {req : Request Name} :
    req.distance = 7 ↔ req.pc = .loop ∧ req.handler = .spawned := by
  cases hpc : req.pc with
  | loop => cases hh : req.handler <;> simp [Request.distance, hpc, hh]
  | _ => simp [Request.distance, hpc]

/-- `processReq` waits only for the handler and for its caller. -/
theorem Request.Formed.exists_move (rn : Network Name) {req : Request Name} (hf : req.Formed)
    (hfinished : req.pc ≠ .finished) (hoffer : ∀ rep, req.pc ≠ .sending rep)
    (hruns : req.distance ≠ 6) (hspawned : req.distance ≠ 7) :
    ∃ m, (∀ r, m.goroutine r = some (.processReq r)) ∧ m ≠ .send ∧ (req.move rn m).isSome := by
  rw [Ne, Request.distance_eq_six] at hruns
  rw [Ne, Request.distance_eq_seven] at hspawned
  cases hpc : req.pc with
  | start => exact ⟨.readEndnameInfo, fun _ => rfl, by simp, by simp [Request.move, hpc]⟩
  | chosen => exact ⟨.spawn, fun _ => rfl, by simp, by simp [Request.move, hpc]⟩
  | loop =>
    obtain ⟨-, hidle, hended⟩ := hf.waited hpc
    cases hh : req.handler with
    | idle => exact absurd hh hidle
    | spawned => exact absurd ⟨hpc, hh⟩ hspawned
    | running => exact absurd ⟨hpc, hh⟩ hruns
    | returned rep => exact ⟨.receive, fun _ => rfl, by simp, by simp [Request.move, hpc, hh]⟩
    | ended => exact absurd hh hended
  | left reply =>
    obtain ⟨tgt, htgt⟩ := Option.isSome_iff_exists.mp (hf.target (Or.inr (Or.inr ⟨reply, hpc⟩)))
    exact ⟨.recheck, fun _ => rfl, by simp, by simp [Request.move, hpc, htgt]⟩
  | checked reply serverDead =>
    cases reply with
    | none => exact ⟨.answerDead, fun _ => rfl, by simp, by simp [Request.move, hpc]⟩
    | some rep =>
      cases serverDead with
      | false => exact ⟨.release, fun _ => rfl, by simp, by simp [Request.move, hpc]⟩
      | true => exact ⟨.answerDead, fun _ => rfl, by simp, by simp [Request.move, hpc]⟩
  | unreachable =>
    have hlate : 0 < if rn.longDelays then LongDelay else 100 := by
      split <;> simp [LongDelay]
    exact ⟨.simulateTimeout 0, fun _ => rfl, by simp, by simp [Request.move, hpc, hlate]⟩
  | timer ms reply => exact ⟨.fire, fun _ => rfl, by simp, by simp [Request.move, hpc]⟩
  | sending rep => exact absurd hpc (hoffer rep)
  | finished => exact absurd hpc hfinished

variable [DecidableEq Name]

/-! ## How far a call is -/

def State.distance (s : State Name) (r : Nat) : Nat := (s.reqs[r]?).elim 0 Request.distance

def Phase.distance (rpc : State Name) : Phase → Nat
  | .calling => 10
  | .waiting r => rpc.distance r
  | .returned _ => 0

def Calls.distance (s : Calls Name) (c : Nat) : Nat :=
  (s.phase c).elim 0 (Phase.distance s.rpc)

section Distances

omit [DecidableEq Name]

theorem State.distance_of_some {s : State Name} {r : Nat} {req : Request Name}
    (h : s.reqs[r]? = some req) : s.distance r = req.distance := by
  simp [State.distance, h]

theorem Calls.distance_of_phase {s : Calls Name} {c : Nat} {p : Phase} (h : s.phase c = some p) :
    s.distance c = p.distance s.rpc := by
  simp [Calls.distance, h]

theorem Calls.distance_rpc {s : Calls Name} {c r : Nat} {rpc : State Name} {req : Request Name}
    (hc : s.phase c = some (.waiting r)) (hreq : rpc.reqs[r]? = some req) :
    Calls.distance { s with rpc := rpc } c = req.distance := by
  have hphase : Calls.phase { s with rpc := rpc } c = some (.waiting r) := hc
  exact (Calls.distance_of_phase hphase).trans (State.distance_of_some hreq)

theorem Calls.lt_of_phase {s : Calls Name} {c : Nat} {p : Phase} (h : s.phase c = some p) :
    c < s.callers.length := by
  obtain ⟨caller, hcaller, -⟩ := Calls.phase_eq_some.mp h
  exact (List.getElem?_eq_some_iff.mp hcaller).1

theorem Calls.exists_phase {s : Calls Name} {c : Nat} (h : c < s.callers.length) :
    ∃ p, s.phase c = some p :=
  ⟨_, Calls.phase_eq_some.mpr ⟨_, List.getElem?_eq_getElem h, rfl⟩⟩

end Distances

theorem State.distance_le {s t : State Name} {a : Action Name} (h : step s a = some t) {r : Nat}
    (hr : r < s.reqs.length) : t.distance r ≤ s.distance r := by
  obtain ⟨req, hreq⟩ : ∃ req, s.reqs[r]? = some req := ⟨_, List.getElem?_eq_getElem hr⟩
  obtain ⟨req', hreq'⟩ : ∃ req', t.reqs[r]? = some req' :=
    ⟨_, List.getElem?_eq_getElem (Nat.lt_of_lt_of_le hr (step_reqs_length h).1)⟩
  rw [State.distance_of_some hreq, State.distance_of_some hreq']
  rcases step_request h hreq' with ⟨hsame, -⟩ | ⟨_, _, _, -, rfl, -⟩ | ⟨m, old, -, hold, hmoves⟩
  · cases hsame.symm.trans hreq
    exact Nat.le_refl _
  · exact absurd hr (Nat.lt_irrefl _)
  · cases hold.symm.trans hreq
    exact hmoves.distance_le

/-- What the network does for others takes no call further away. -/
theorem Calls.Inv.distance_frame {s t : Calls Name} (hs : s.Inv) {c : Nat}
    (hphase : t.phase c = s.phase c)
    (hrpc : t.rpc = s.rpc ∨ ∃ a, Labrpc.step s.rpc a = some t.rpc) :
    t.distance c ≤ s.distance c := by
  rw [Calls.distance, Calls.distance, hphase]
  rcases hrpc with hrpc | ⟨a, hstep⟩
  · rw [hrpc]
  · cases hc : s.phase c with
    | none => exact Nat.le_refl _
    | some p =>
      cases p with
      | calling => exact Nat.le_refl _
      | returned rep => exact Nat.le_refl _
      | waiting r =>
        obtain ⟨req, hreq, -⟩ := hs.pending c r hc
        exact State.distance_le hstep (List.getElem?_eq_some_iff.mp hreq).1

theorem Calls.Inv.distance_le {s t : Calls Name} {a : CallAction Name} (hs : s.Inv)
    (h : s.step a = some t) {c : Nat} (hc : c < s.callers.length) :
    t.distance c ≤ s.distance c := by
  cases Calls.steps_of_step h with
  | call endname svcMeth args =>
    have hphase : Calls.phase { s with
        callers := s.callers ++ [⟨endname, svcMeth, args, .calling⟩] } c = s.phase c := by
      simp [Calls.phase, List.getElem?_append_left hc]
    exact hs.distance_frame hphase (Or.inl rfl)
  | enter d caller rpc hloop hd hphase hstep =>
    by_cases hcd : c = d
    · subst hcd
      rw [Calls.distance_of_phase (Calls.phase_eq_some.mpr ⟨caller, hd, hphase⟩),
        Calls.distance_of_phase (p := .waiting s.rpc.reqs.length) (by simp [Calls.phase_set hd])]
      cases hstep
      simp [Phase.distance, State.distance, Request.distance, Request.taken]
    · exact hs.distance_frame (by simp [Calls.phase_set hd, hcd]) (Or.inr ⟨_, hstep⟩)
  | giveUp d caller hdone hd hphase =>
    by_cases hcd : c = d
    · simp [Calls.distance, Calls.phase_set hd, hcd, Phase.distance]
    · exact hs.distance_frame (by simp [Calls.phase_set hd, hcd]) (Or.inl rfl)
  | exit hdone => exact hs.distance_frame rfl (Or.inl rfl)
  | control op rpc hstep => exact hs.distance_frame rfl (Or.inr ⟨_, hstep⟩)
  | thread r m rpc hm hstep => exact hs.distance_frame rfl (Or.inr ⟨_, hstep⟩)
  | receive d caller r rep rpc hd hphase hoffer hstep =>
    by_cases hcd : c = d
    · simp [Calls.distance, Calls.phase_set hd, hcd, Phase.distance]
    · exact hs.distance_frame (by simp [Calls.phase_set hd, hcd]) (Or.inr ⟨_, hstep⟩)

theorem Calls.length_le {s t : Calls Name} {a : CallAction Name} (h : s.step a = some t) :
    s.callers.length ≤ t.callers.length := by
  cases Calls.steps_of_step h <;> simp

/-! ## Who can go on -/

/-- The goroutine that a call in this phase waits for, if its handler does not run. -/
def awaited (c d : Nat) : Phase → Goroutine
  | .waiting r => if d = 7 then .dispatcher r else .processReq r
  | _ => .caller c

theorem Calls.isSome_thread {s : Calls Name} {r : Nat} {req : Request Name} {m : Move}
    (hreq : s.rpc.reqs[r]? = some req) (hm : m ≠ .send) (hmove : (req.move s.rpc.net m).isSome) :
    (s.step (.thread r m)).isSome := by
  obtain ⟨req', hmove⟩ := Option.isSome_iff_exists.mp hmove
  simp [Calls.step, Labrpc.step, hm, hreq, hmove]

theorem Calls.isSome_receive {s : Calls Name} {c r : Nat} {req : Request Name} {rep : ReplyMsg}
    (hc : s.phase c = some (.waiting r)) (hreq : s.rpc.reqs[r]? = some req)
    (hpc : req.pc = .sending rep) : (s.step (.receive c)).isSome := by
  obtain ⟨caller, hcaller, hphase⟩ := Calls.phase_eq_some.mp hc
  simp [Calls.step, hcaller, hphase, State.offer, hreq, hpc, Labrpc.step, Request.move]

/-- The awaited goroutine can go on. -/
theorem Calls.Inv.enabled {s : Calls Name} (hs : s.Inv) {c : Nat} {p : Phase}
    (hc : s.phase c = some p) (hzero : s.distance c ≠ 0) (hruns : s.distance c ≠ 6) :
    Enabled Calls.step (Acts (awaited c (s.distance c) p)) s := by
  rw [Calls.distance_of_phase hc] at hzero hruns ⊢
  cases p with
  | calling =>
    obtain ⟨caller, hcaller, hphase⟩ := Calls.phase_eq_some.mp hc
    cases hloop : s.looping with
    | true =>
      refine ⟨.enter c, Or.inl ⟨c, rfl, Or.inl rfl⟩, ?_⟩
      simp [Calls.step, hcaller, hphase, hloop, Labrpc.step]
    | false =>
      refine ⟨.giveUp c, Or.inl ⟨c, rfl, Or.inr rfl⟩, ?_⟩
      simp [Calls.step, hcaller, hphase, hs.taking hloop]
  | returned rep => exact absurd rfl hzero
  | waiting r =>
    obtain ⟨req, hreq, hpc⟩ := hs.pending c r hc
    have hf := hs.formed r req hreq
    simp only [Phase.distance, State.distance_of_some hreq, awaited] at hruns ⊢
    split
    · -- the goroutine of the handler has not yet called `dispatch`
      obtain ⟨hloop, hspawned⟩ := Request.distance_eq_seven.mp ‹_›
      obtain ⟨tgt, htgt⟩ := Option.isSome_iff_exists.mp (hf.target (Or.inr (Or.inl hloop)))
      refine ⟨.thread r .dispatch, Or.inr (Or.inr ⟨r, .dispatch, rfl, rfl⟩), ?_⟩
      exact Calls.isSome_thread hreq (by simp) (by simp [Request.move, hspawned, htgt])
    · rename_i hseven
      by_cases hoffer : ∃ rep, req.pc = .sending rep
      · obtain ⟨rep, hsending⟩ := hoffer
        exact ⟨.receive c, Or.inr (Or.inl ⟨c, r, rfl, hc, rfl⟩),
          Calls.isSome_receive hc hreq hsending⟩
      · obtain ⟨m, hm, hsend, hmove⟩ := hf.exists_move s.rpc.net hpc
          (fun rep h => hoffer ⟨rep, h⟩) hruns hseven
        exact ⟨.thread r m, Or.inr (Or.inr ⟨r, m, rfl, hm r⟩),
          Calls.isSome_thread hreq hsend hmove⟩

/-! ## Who comes closer -/

theorem Calls.distance_enter {s t : Calls Name} {c : Nat} (h : s.step (.enter c) = some t) :
    s.distance c = 10 ∧ t.distance c = 9 := by
  cases Calls.steps_of_step h with
  | enter c caller rpc hloop hc hphase hstep =>
    cases hstep
    refine ⟨Calls.distance_of_phase (Calls.phase_eq_some.mpr ⟨caller, hc, hphase⟩), ?_⟩
    simp [Calls.distance, Calls.phase_set hc, Phase.distance, State.distance, Request.distance,
      Request.taken]

theorem Calls.distance_giveUp {s t : Calls Name} {c : Nat} (h : s.step (.giveUp c) = some t) :
    s.distance c = 10 ∧ t.distance c = 0 := by
  cases Calls.steps_of_step h with
  | giveUp c caller hdone hc hphase =>
    refine ⟨Calls.distance_of_phase (Calls.phase_eq_some.mpr ⟨caller, hc, hphase⟩), ?_⟩
    simp [Calls.distance, Calls.phase_set hc, Phase.distance]

theorem Calls.distance_receive {s t : Calls Name} {c : Nat} (h : s.step (.receive c) = some t) :
    t.distance c = 0 := by
  cases Calls.steps_of_step h with
  | receive c caller r rep rpc hc hphase hoffer hstep =>
    simp [Calls.distance, Calls.phase_set hc, Phase.distance]

/-- When the awaited goroutine goes on, the call comes closer to its return. -/
theorem Calls.Inv.distance_lt {s t : Calls Name} {a : CallAction Name} (hs : s.Inv) {c : Nat}
    {p : Phase} (hc : s.phase c = some p) (hzero : s.distance c ≠ 0)
    (hacts : Acts (awaited c (s.distance c) p) s a) (h : s.step a = some t) :
    t.distance c < s.distance c := by
  rcases hacts with ⟨d, hg, ha⟩ | ⟨d, r, hg, hd, rfl⟩ | ⟨r, m, rfl, hg⟩
  · have hcd : c = d := by
      cases p with
      | waiting r =>
        simp only [awaited] at hg
        split at hg <;> cases hg
      | calling => exact Goroutine.caller.inj hg
      | returned rep => exact Goroutine.caller.inj hg
    subst hcd
    rcases ha with rfl | rfl
    · obtain ⟨hold, hnew⟩ := Calls.distance_enter h
      omega
    · obtain ⟨hold, hnew⟩ := Calls.distance_giveUp h
      omega
  · cases p with
    | waiting q =>
      simp only [awaited] at hg
      split at hg
      · cases hg
      · cases hg
        cases hs.own c d r hc hd
        rw [Calls.distance_receive h]
        omega
    | calling => cases hg
    | returned rep => cases hg
  · cases p with
    | waiting q =>
      obtain ⟨req, hreq, -⟩ := hs.pending c q hc
      have hold : s.distance c = req.distance := Calls.distance_rpc hc hreq
      cases Calls.steps_of_step h with
      | thread r m rpc hsend hstep =>
        obtain ⟨old, new, hr, hmoves, rfl⟩ := step_thread hstep
        simp only [awaited, hold] at hg
        split at hg
        · have hdispatch : m = .dispatch ∧ r = q := by
            cases m <;> simp [Move.goroutine] at hg ⊢
            exact hg
          obtain ⟨rfl, rfl⟩ := hdispatch
          cases hr.symm.trans hreq
          obtain ⟨hloop, -⟩ := Request.distance_eq_seven.mp ‹_›
          rw [hold, Calls.distance_rpc hc (getElem?_set_of_some hreq new)]
          cases hmoves with
          | dispatch tgt hh htgt => simp [Request.distance, hloop, hh]
        · have hrq : r = q := by
            cases m <;> simp [Move.goroutine] at hg <;> exact hg
          subst hrq
          cases hr.symm.trans hreq
          rw [hold, Calls.distance_rpc hc (getElem?_set_of_some hreq new)]
          exact hmoves.distance_lt hg
    | calling => cases m <;> simp [awaited, Move.goroutine] at hg
    | returned rep => cases m <;> simp [awaited, Move.goroutine] at hg

/-- A call stays in its phase or comes closer to its return. -/
theorem Calls.Inv.phase_step {s t : Calls Name} {a : CallAction Name} (hs : s.Inv) {c : Nat}
    {p : Phase} (hc : s.phase c = some p) (h : s.step a = some t) :
    t.phase c = some p ∨ t.distance c < s.distance c := by
  have hmine := h
  cases Calls.steps_of_step h with
  | call endname svcMeth args =>
    obtain ⟨caller, hcaller, hphase⟩ := Calls.phase_eq_some.mp hc
    exact Or.inl (Calls.phase_eq_some.mpr ⟨caller, getElem?_concat_of_some hcaller _, hphase⟩)
  | enter d caller rpc hloop hd hphase hstep =>
    by_cases hcd : c = d
    · subst hcd
      obtain ⟨hold, hnew⟩ := Calls.distance_enter hmine
      exact Or.inr (by omega)
    · exact Or.inl (by rw [Calls.phase_set hd, if_neg hcd, hc])
  | giveUp d caller hdone hd hphase =>
    by_cases hcd : c = d
    · subst hcd
      obtain ⟨hold, hnew⟩ := Calls.distance_giveUp hmine
      exact Or.inr (by omega)
    · exact Or.inl (by rw [Calls.phase_set hd, if_neg hcd, hc])
  | exit hdone => exact Or.inl hc
  | control op rpc hstep => exact Or.inl hc
  | thread r m rpc hm hstep => exact Or.inl hc
  | receive d caller r rep rpc hd hphase hoffer hstep =>
    by_cases hcd : c = d
    · subst hcd
      have hwait : s.phase c = some (.waiting r) := Calls.phase_eq_some.mpr ⟨caller, hd, hphase⟩
      obtain ⟨req, hreq, hpc⟩ := hs.pending c r hwait
      right
      rw [Calls.distance_receive hmine, show s.distance c = req.distance from
        Calls.distance_rpc hwait hreq]
      exact Nat.pos_of_ne_zero fun hzero => hpc (Request.distance_eq_zero.mp hzero)
    · exact Or.inl (by rw [Calls.phase_set hd, if_neg hcd, hc])

/-! ## Calls return -/

/-- `processReq` waits for the handler of call `c`, which runs. -/
def Calls.HandlerRuns (s : Calls Name) (c : Nat) : Prop :=
  ∃ r req, s.phase c = some (.waiting r) ∧ s.rpc.reqs[r]? = some req ∧ req.pc = .loop ∧
    req.handler = .running

/-- `isServerDead` would find the server of call `c` alive. -/
def Calls.FindsAlive (s : Calls Name) (c : Nat) : Prop :=
  ∃ r req tgt, s.phase c = some (.waiting r) ∧ s.rpc.reqs[r]? = some req ∧
    req.target = some tgt ∧ isServerDead s.rpc.net req.endname tgt.servername tgt.server = false

omit [DecidableEq Name] in
theorem Calls.Inv.runs_of_distance {s : Calls Name} (hs : s.Inv) {c : Nat}
    (h : s.distance c = 6) : s.HandlerRuns c := by
  cases hc : s.phase c with
  | none => simp [Calls.distance, hc] at h
  | some p =>
    rw [Calls.distance_of_phase hc] at h
    cases p with
    | calling => cases h
    | returned rep => cases h
    | waiting r =>
      obtain ⟨req, hreq, -⟩ := hs.pending c r hc
      rw [Phase.distance, State.distance_of_some hreq] at h
      exact ⟨r, req, hc, hreq, Request.distance_eq_six.mp h⟩

theorem Calls.Inv.enabled_tick {s : Calls Name} (hs : s.Inv) {r : Nat} {req : Request Name}
    (hreq : s.rpc.reqs[r]? = some req) (hpc : req.pc = .loop) :
    Enabled Calls.step (Acts (.tick r)) s := by
  obtain ⟨tgt, htgt⟩ :=
    Option.isSome_iff_exists.mp ((hs.formed r req hreq).target (Or.inr (Or.inl hpc)))
  refine ⟨.thread r .poll, Or.inr (Or.inr ⟨r, .poll, rfl, rfl⟩), ?_⟩
  apply Calls.isSome_thread hreq (by simp)
  simp only [Request.move, hpc, htgt]
  split <;> rfl

/-- The tick of a waiting `processReq` ends the wait, unless it finds the server alive. -/
theorem Calls.distance_tick {s t : Calls Name} {a : CallAction Name} {c r : Nat}
    {req : Request Name} (hc : s.phase c = some (.waiting r)) (hreq : s.rpc.reqs[r]? = some req)
    (hpc : req.pc = .loop) (hacts : Acts (.tick r) s a) (h : s.step a = some t) :
    t.distance c < 5 ∨ s.FindsAlive c := by
  rcases hacts with ⟨d, hg, -⟩ | ⟨d, q, hg, -⟩ | ⟨q, m, rfl, hg⟩
  · cases hg
  · cases hg
  · have hpoll : m = .poll ∧ q = r := by
      cases m <;> simp [Move.goroutine] at hg ⊢
      exact hg
    obtain ⟨rfl, rfl⟩ := hpoll
    cases Calls.steps_of_step h with
    | thread r m rpc hsend hstep =>
      simp only [Labrpc.step, hreq, Request.move, hpc] at hstep
      cases htgt : req.target with
      | none => simp [htgt] at hstep
      | some tgt =>
        cases hdead : isServerDead s.rpc.net req.endname tgt.servername tgt.server with
        | false => exact Or.inr ⟨q, req, tgt, hc, hreq, htgt, hdead⟩
        | true =>
          simp only [htgt, hdead, if_true, Option.map_some, Option.some.injEq] at hstep
          subst hstep
          left
          rw [Calls.distance_rpc hc (getElem?_set_of_some hreq _)]
          simp [Request.distance]

section Behaviors

variable {b : Behavior Calls.step (Calls.start Name)}

theorem inv_state (b : Behavior Calls.step (Calls.start Name)) (t : Nat) : (b.state t).Inv := by
  obtain ⟨as, has⟩ := b.reached t
  exact .of_run has

/-- How a call goes on from one moment of a behavior. -/
theorem distance_antitone {c t u : Nat} {p : Phase} (hc : (b.state t).phase c = some p)
    (htu : t ≤ u) : (b.state u).distance c ≤ (b.state t).distance c ∧
      ((b.state u).phase c = some p ∨ (b.state u).distance c < (b.state t).distance c) := by
  have hkeep := b.always (P := fun s => s.Inv ∧ c < s.callers.length ∧
    s.distance c ≤ (b.state t).distance c ∧
    (s.phase c = some p ∨ s.distance c < (b.state t).distance c)) ?_ htu
    ⟨inv_state b t, Calls.lt_of_phase hc, Nat.le_refl _, Or.inl hc⟩
  · exact hkeep.2.2
  · rintro s a s' ⟨hs, hlt, hle, hphase⟩ hstep
    have hdown := hs.distance_le hstep hlt
    refine ⟨hs.step hstep, Nat.lt_of_lt_of_le hlt (Calls.length_le hstep), by omega, ?_⟩
    rcases hphase with hphase | hless
    · rcases hs.phase_step hphase hstep with hphase | hless
      · exact Or.inl hphase
      · exact Or.inr (by omega)
    · exact Or.inr (by omega)

/-- While its handler does not run, a call comes closer to its return. -/
theorem Fair.comes_closer (fair : Fair b) {c u : Nat} {p : Phase}
    (hc : (b.state u).phase c = some p) (hzero : (b.state u).distance c ≠ 0)
    (hruns : (b.state u).distance c ≠ 6) :
    ∃ v, u ≤ v ∧ (b.state v).distance c < (b.state u).distance c := by
  -- as long as the distance stays, so does the phase, and with it the awaited goroutine
  have hsame : ∀ v, u ≤ v → (b.state v).distance c = (b.state u).distance c →
      (b.state v).phase c = some p := by
    intro v hv hd
    rcases (distance_antitone hc hv).2 with hphase | hless
    · exact hphase
    · omega
  refine (fair (awaited c ((b.state u).distance c) p)).lowers (f := fun s => s.distance c)
    (fun v hv => (distance_antitone hc hv).1) ?_ ?_
  · intro v hv hd
    have hphase := hsame v hv hd
    rw [← hd] at hzero hruns ⊢
    exact (inv_state b v).enabled hphase hzero hruns
  · intro v a hv hd hacts hstep
    have hphase := hsame v hv hd
    rw [← hd] at hzero hacts ⊢
    exact (inv_state b v).distance_lt hphase hzero hacts hstep

end Behaviors

/-- A wait for the handler that never ends is renewed by ticks that find the server alive. -/
theorem Fair.finds_alive {b : Behavior Calls.step (Calls.start Name)} (fair : Fair b) {c u : Nat}
    (hsix : ∀ v, u ≤ v → (b.state v).distance c = 6) :
    ∃ w, u ≤ w ∧ (b.state w).FindsAlive c := by
  obtain ⟨r, -, hwait, -⟩ := (inv_state b u).runs_of_distance (hsix u (Nat.le_refl u))
  have hloop : ∀ v, u ≤ v → (b.state v).phase c = some (.waiting r) ∧
      ∃ req, (b.state v).rpc.reqs[r]? = some req ∧ req.pc = .loop := by
    intro v hv
    have hphase : (b.state v).phase c = some (.waiting r) := by
      rcases (distance_antitone hwait hv).2 with hphase | hless
      · exact hphase
      · rw [hsix v hv, hsix u (Nat.le_refl u)] at hless
        exact absurd hless (Nat.lt_irrefl _)
    obtain ⟨q, req, hq, hreq, hpc, -⟩ := (inv_state b v).runs_of_distance (hsix v hv)
    cases hphase.symm.trans hq
    exact ⟨hphase, req, hreq, hpc⟩
  obtain ⟨w, hw, a, hacts, hact⟩ := fair (.tick r) u fun v hv => by
    obtain ⟨-, req, hreq, hpc⟩ := hloop v hv
    exact (inv_state b v).enabled_tick hreq hpc
  obtain ⟨hphase, req, hreq, hpc⟩ := hloop w hw
  have hnext := b.next w
  rw [hact] at hnext
  rcases Calls.distance_tick hphase hreq hpc hacts hnext with hless | halive
  · rw [hsix (w + 1) (by omega)] at hless
    omega
  · exact ⟨w, hw, halive⟩

omit [DecidableEq Name] in
theorem Request.Moves.not_quiet {rn : Network Name} {req req' : Request Name} {m : Move}
    (h : req.Moves rn m req') (hpc : req.pc = .finished)
    (hh : req.handler = .idle ∨ req.handler = .ended) : False := by
  cases h <;> simp_all

/-- When all calls have returned and their handlers have ended, nobody can go on. -/
theorem Calls.not_enabled {s : Calls Name}
    (hcallers : ∀ c p, s.phase c = some p → ∃ rep, p = .returned rep)
    (hreqs : ∀ (r : Nat) req, s.rpc.reqs[r]? = some req → req.pc = .finished ∧
      (req.handler = .idle ∨ req.handler = .ended)) (g : Goroutine) :
    ¬ Enabled Calls.step (Acts g) s := by
  rintro ⟨a, hacts, hsome⟩
  obtain ⟨t, hstep⟩ := Option.isSome_iff_exists.mp hsome
  have hphase : ∀ (c : Nat) caller, s.callers[c]? = some caller →
      ∃ rep, caller.phase = .returned rep :=
    fun c caller hc => hcallers c _ (Calls.phase_eq_some.mpr ⟨caller, hc, rfl⟩)
  rcases hacts with ⟨c, -, rfl | rfl⟩ | ⟨c, r, -, hc, -⟩ | ⟨r, m, rfl, -⟩
  · cases Calls.steps_of_step hstep with
    | enter c caller rpc hloop hc hcalling hstep =>
      obtain ⟨rep, hrep⟩ := hphase c caller hc
      cases hcalling.symm.trans hrep
  · cases Calls.steps_of_step hstep with
    | giveUp c caller hdone hc hcalling =>
      obtain ⟨rep, hrep⟩ := hphase c caller hc
      cases hcalling.symm.trans hrep
  · obtain ⟨rep, hrep⟩ := hcallers c _ hc
    cases hrep
  · cases Calls.steps_of_step hstep with
    | thread r m rpc hsend hrpc =>
      obtain ⟨req, req', hreq, hmoves, -⟩ := step_thread hrpc
      exact hmoves.not_quiet (hreqs r req hreq).1 (hreqs r req hreq).2

theorem fair_ofRun {s : Calls Name} {as : List (CallAction Name)}
    (h : run Calls.step (Calls.start Name) as = some s)
    (hcallers : ∀ caller ∈ s.callers, ∃ rep, caller.phase = .returned rep)
    (hreqs : ∀ req ∈ s.rpc.reqs, req.pc = .finished ∧
      (req.handler = .idle ∨ req.handler = .ended)) : Fair (Behavior.ofRun s as h) := by
  intro g
  apply Behavior.ofRun_weakFair h (Calls.not_enabled _ _ g)
  · intro c p hc
    obtain ⟨caller, hcaller, rfl⟩ := Calls.phase_eq_some.mp hc
    exact hcallers caller (List.mem_of_getElem? hcaller)
  · intro r req hreq
    exact hreqs req (List.mem_of_getElem? hreq)

/-- A call whose server is deleted while its handler runs. -/
def killedCall : List (CallAction Bool) :=
  [.control (.makeEnd true), .control (.connect true (some false)),
    .control (.enable true true), .control (.addServer false 7),
    .call true "Raft.RequestVote" [1], .enter 0, .thread 0 .readEndnameInfo, .thread 0 .spawn,
    .thread 0 .dispatch, .thread 0 .poll, .control (.deleteServer false), .thread 0 .poll,
    .thread 0 .recheck, .thread 0 .answerDead, .thread 0 (.handlerReturn ⟨true, [2]⟩),
    .receive 0, .thread 0 .drain]

theorem killedCall_runs : ∃ s, run Calls.step (Calls.start Bool) killedCall = some s ∧
    s.callers = [⟨true, "Raft.RequestVote", [1], .returned noReply⟩] ∧
    s.rpc.reqs = [⟨true, "Raft.RequestVote", [1], some ⟨false, 7, true, false⟩, .finished, .ended,
      true, [7], [noReply]⟩] :=
  ⟨_, rfl, rfl, rfl⟩

/-- Every call returns, unless from some moment on its handler runs and its server is found
alive again and again. -/
theorem call_returns (b : Behavior Calls.step (Calls.start Name)) (fair : Fair b) {c t : Nat}
    (hc : c < (b.state t).callers.length) :
    (∃ u rep, t ≤ u ∧ (b.state u).phase c = some (.returned rep)) ∨
    ∃ u, t ≤ u ∧ ∀ v, u ≤ v → (b.state v).HandlerRuns c ∧
      ∃ w, v ≤ w ∧ (b.state w).FindsAlive c := by
  obtain ⟨p, hp⟩ := Calls.exists_phase hc
  have hphases : ∀ u, t ≤ u → ∃ q, (b.state u).phase c = some q := by
    intro u hu
    exact Calls.exists_phase (b.always (P := fun s => c < s.callers.length)
      (fun _ _ _ hlt hstep => Nat.lt_of_lt_of_le hlt (Calls.length_le hstep)) hu hc)
  by_cases hstuck : ∃ u, t ≤ u ∧ ∀ v, u ≤ v → (b.state v).distance c = 6
  · obtain ⟨u, hu, hsix⟩ := hstuck
    refine Or.inr ⟨u, hu, fun v hv => ⟨(inv_state b v).runs_of_distance (hsix v hv), ?_⟩⟩
    exact fair.finds_alive fun w hw => hsix w (by omega)
  · have hleaves : ∀ u, t ≤ u → (b.state u).distance c ≠ 0 →
        ∃ v, u ≤ v ∧ (b.state v).distance c < (b.state u).distance c := by
      intro u hu hzero
      obtain ⟨q, hq⟩ := hphases u hu
      by_cases hsix : (b.state u).distance c = 6
      · obtain ⟨v, hv, hne⟩ : ∃ v, u ≤ v ∧ (b.state v).distance c ≠ 6 := by
          by_contra hnever
          exact hstuck ⟨u, hu, fun v hv => by_contra fun hne => hnever ⟨v, hv, hne⟩⟩
        have hle := (distance_antitone hq hv).1
        exact ⟨v, hv, by omega⟩
      · exact fair.comes_closer hq hzero hsix
    obtain ⟨u, hu, hzero⟩ := b.eventually_zero (f := fun s => s.distance c) hleaves
    obtain ⟨q, hq⟩ := hphases u hu
    rw [Calls.distance_of_phase hq] at hzero
    cases q with
    | calling => cases hzero
    | waiting r =>
      obtain ⟨req, hreq, hpc⟩ := (inv_state b u).pending c r hq
      rw [Phase.distance, State.distance_of_some hreq, Request.distance_eq_zero] at hzero
      exact absurd hzero hpc
    | returned rep => exact Or.inl ⟨u, rep, hu, hq⟩

theorem call_returns_killed : ∃ (b : Behavior Calls.step (Calls.start Bool)) (t : Nat), Fair b ∧
    0 < (b.state t).callers.length ∧
    ((∃ u rep, t ≤ u ∧ (b.state u).phase 0 = some (.returned rep)) ∨
    ∃ u, t ≤ u ∧ ∀ v, u ≤ v → (b.state v).HandlerRuns 0 ∧
      ∃ w, v ≤ w ∧ (b.state w).FindsAlive 0) := by
  obtain ⟨s, hrun, hcallers, hreqs⟩ := killedCall_runs
  have hfair : Fair (Behavior.ofRun s killedCall hrun) := by
    apply fair_ofRun hrun <;> simp [hcallers, hreqs]
  have hlen : 0 < ((Behavior.ofRun s killedCall hrun).state 5).callers.length := Nat.zero_lt_one
  exact ⟨_, 5, hfair, hlen, call_returns _ hfair hlen⟩

/-! ## Handlers end -/

/-- What a handler that has returned still waits for: `processReq` or the goroutine that
drains `ech`, then nothing. -/
def Request.backlog (req : Request Name) : Nat :=
  match req.handler with
  | .returned _ => if req.pc = .loop then 2 else 1
  | .ended => 0
  | _ => 3

section Requests

omit [DecidableEq Name]

theorem Request.Formed.backlog_le {rn : Network Name} {req req' : Request Name} {m : Move}
    (hf : req.Formed) (h : req.Moves rn m req') : req'.backlog ≤ req.backlog := by
  cases h with
  | dispatch tgt hh htgt => simp [Request.backlog, hh]
  | handlerReturn rep hh => simp only [Request.backlog, hh]; split <;> simp
  | drain rep hh => simp [Request.backlog]
  | receive rep hpc hh => simp [Request.backlog]
  | pollAlive hpc => exact Nat.le_refl _
  | spawn hpc =>
    simp [Request.backlog, (hf.fresh (Or.inr hpc)).2]
  | _ =>
    simp only [Request.backlog]
    split <;> simp_all

theorem Request.backlog_eq_one {req : Request Name} :
    req.backlog = 1 ↔ (∃ rep, req.handler = .returned rep) ∧ req.pc ≠ .loop := by
  cases hh : req.handler with
  | returned rep => by_cases hpc : req.pc = .loop <;> simp [Request.backlog, hh, hpc]
  | _ => simp [Request.backlog, hh]

theorem Request.backlog_eq_two {req : Request Name} :
    req.backlog = 2 ↔ (∃ rep, req.handler = .returned rep) ∧ req.pc = .loop := by
  cases hh : req.handler with
  | returned rep => by_cases hpc : req.pc = .loop <;> simp [Request.backlog, hh, hpc]
  | _ => simp [Request.backlog, hh]

/-- In its loop `processReq` can only receive. -/
theorem Request.Moves.receives {rn : Network Name} {req req' : Request Name} {m : Move} {r : Nat}
    (h : req.Moves rn m req') (hpc : req.pc = .loop) (hm : m.goroutine r = some (.processReq r)) :
    req'.handler = .ended := by
  cases h with
  | receive rep hpc hh => rfl
  | dispatch tgt hh htgt => cases hm
  | handlerReturn rep hh => cases hm
  | drain rep hh => cases hm
  | pollDead hpc => cases hm
  | pollAlive hpc => cases hm
  | _ => simp_all

end Requests

/-- A step of the callers is at most one step of the network. -/
theorem Calls.rpc_cases {s t : Calls Name} {a : CallAction Name} (h : s.step a = some t) :
    t.rpc = s.rpc ∨ ∃ a', Labrpc.step s.rpc a' = some t.rpc := by
  cases Calls.steps_of_step h with
  | call endname svcMeth args => exact Or.inl rfl
  | enter c caller rpc hloop hc hphase hstep => exact Or.inr ⟨_, hstep⟩
  | giveUp c caller hdone hc hphase => exact Or.inl rfl
  | exit hdone => exact Or.inl rfl
  | control op rpc hstep => exact Or.inr ⟨_, hstep⟩
  | thread r m rpc hm hstep => exact Or.inr ⟨_, hstep⟩
  | receive c caller r rep rpc hc hphase hoffer hstep => exact Or.inr ⟨_, hstep⟩

def Calls.backlog (s : Calls Name) (r : Nat) : Nat := (s.rpc.reqs[r]?).elim 3 Request.backlog

omit [DecidableEq Name] in
theorem Calls.backlog_of_some {s : Calls Name} {r : Nat} {req : Request Name}
    (h : s.rpc.reqs[r]? = some req) : s.backlog r = req.backlog := by
  simp [Calls.backlog, h]

omit [DecidableEq Name] in
theorem Calls.exists_request {s : Calls Name} {r : Nat} (h : s.backlog r ≠ 3) :
    ∃ req, s.rpc.reqs[r]? = some req ∧ s.backlog r = req.backlog := by
  cases hreq : s.rpc.reqs[r]? with
  | none => simp [Calls.backlog, hreq] at h
  | some req => exact ⟨req, rfl, Calls.backlog_of_some hreq⟩

omit [DecidableEq Name] in
theorem Calls.backlog_le_three (s : Calls Name) (r : Nat) : s.backlog r ≤ 3 := by
  cases hreq : s.rpc.reqs[r]? with
  | none => simp [Calls.backlog, hreq]
  | some req =>
    rw [Calls.backlog_of_some hreq, Request.backlog]
    split <;> try split
    all_goals simp

theorem Calls.Inv.backlog_le {s t : Calls Name} {a : CallAction Name} (hs : s.Inv)
    (h : s.step a = some t) (r : Nat) : t.backlog r ≤ s.backlog r := by
  rcases Calls.rpc_cases h with hrpc | ⟨a', hstep⟩
  · rw [Calls.backlog, hrpc, Calls.backlog]
  · cases hreq : s.rpc.reqs[r]? with
    | none =>
      rw [show s.backlog r = 3 by simp [Calls.backlog, hreq]]
      exact t.backlog_le_three r
    | some req =>
      obtain ⟨req', hreq'⟩ : ∃ req', t.rpc.reqs[r]? = some req' := by
        have hlt := (List.getElem?_eq_some_iff.mp hreq).1
        exact ⟨_, List.getElem?_eq_getElem (Nat.lt_of_lt_of_le hlt (step_reqs_length hstep).1)⟩
      rw [Calls.backlog_of_some hreq, Calls.backlog_of_some hreq']
      rcases step_request hstep hreq' with ⟨hsame, -⟩ | ⟨_, _, _, -, rfl, -⟩ |
        ⟨m, old, -, hold, hmoves⟩
      · cases hsame.symm.trans hreq
        exact Nat.le_refl _
      · exact absurd (List.getElem?_eq_some_iff.mp hreq).1 (Nat.lt_irrefl _)
      · cases hold.symm.trans hreq
        exact (hs.formed r req hreq).backlog_le hmoves

/-- Who receives the message of a handler that has returned. -/
def receiver (r d : Nat) : Goroutine := if d = 2 then .processReq r else .drainer r

theorem Calls.Inv.enabled_receiver {s : Calls Name} (hs : s.Inv) {r : Nat}
    (hzero : s.backlog r ≠ 0) (hthree : s.backlog r ≠ 3) :
    Enabled Calls.step (Acts (receiver r (s.backlog r))) s := by
  obtain ⟨req, hreq, hback⟩ := Calls.exists_request hthree
  have hle := s.backlog_le_three r
  by_cases htwo : s.backlog r = 2
  · obtain ⟨⟨rep, hh⟩, hpc⟩ := Request.backlog_eq_two.mp (hback.symm.trans htwo)
    rw [receiver, if_pos htwo]
    exact ⟨.thread r .receive, Or.inr (Or.inr ⟨r, .receive, rfl, rfl⟩),
      Calls.isSome_thread hreq (by simp) (by simp [Request.move, hpc, hh])⟩
  · obtain ⟨⟨rep, hh⟩, hpc⟩ :=
      Request.backlog_eq_one.mp (hback.symm.trans (show s.backlog r = 1 by omega))
    have hdraining : req.draining = true :=
      ((hs.formed r req hreq).received (by simp [hh]) (by simp [hh])).resolve_left hpc
    rw [receiver, if_neg htwo]
    exact ⟨.thread r .drain, Or.inr (Or.inr ⟨r, .drain, rfl, rfl⟩),
      Calls.isSome_thread hreq (by simp) (by simp [Request.move, hdraining, hh])⟩

theorem Calls.backlog_receiver {s t : Calls Name} {a : CallAction Name} {r : Nat}
    (hthree : s.backlog r ≠ 3) (hacts : Acts (receiver r (s.backlog r)) s a)
    (h : s.step a = some t) : t.backlog r = 0 := by
  obtain ⟨req, hreq, hback⟩ := Calls.exists_request hthree
  rw [receiver] at hacts
  rcases hacts with ⟨c, hg, -⟩ | ⟨c, q, hg, hc, rfl⟩ | ⟨q, m, rfl, hg⟩
  · split at hg <;> cases hg
  · split at hg
    · -- `processReq` is in its loop and has nothing to send yet
      cases hg
      obtain ⟨-, hpc⟩ := Request.backlog_eq_two.mp (hback.symm.trans ‹_›)
      obtain ⟨caller, hcaller, hphase⟩ := Calls.phase_eq_some.mp hc
      simp [Calls.step, hcaller, hphase, State.offer, hreq, hpc] at h
    · cases hg
  · cases Calls.steps_of_step h with
    | thread q m rpc hsend hstep =>
      obtain ⟨old, new, hq, hmoves, rfl⟩ := step_thread hstep
      have hended : q = r ∧ new.handler = .ended := by
        split at hg
        · have hqr : q = r := by
            cases m <;> simp [Move.goroutine] at hg <;> exact hg
          subst hqr
          cases hq.symm.trans hreq
          obtain ⟨-, hpc⟩ := Request.backlog_eq_two.mp (hback.symm.trans ‹_›)
          exact ⟨rfl, hmoves.receives hpc hg⟩
        · have hdrain : m = .drain ∧ q = r := by
            cases m <;> simp [Move.goroutine] at hg ⊢
            exact hg
          obtain ⟨rfl, rfl⟩ := hdrain
          cases hmoves with
          | drain rep hh => exact ⟨rfl, rfl⟩
      obtain ⟨rfl, hended⟩ := hended
      rw [Calls.backlog_of_some (getElem?_set_of_some hreq new)]
      simp [Request.backlog, hended]

/-- The goroutine of a handler that has returned ends, whoever still waits for it. -/
theorem handler_goroutine_ends (b : Behavior Calls.step (Calls.start Name)) (fair : Fair b)
    {t r : Nat} {req : Request Name} {rep : ReplyMsg}
    (hreq : (b.state t).rpc.reqs[r]? = some req) (hreturned : req.handler = .returned rep) :
    ∃ u req', t ≤ u ∧ (b.state u).rpc.reqs[r]? = some req' ∧ req'.handler = .ended := by
  have hdown : ∀ u v, u ≤ v → (b.state v).backlog r ≤ (b.state u).backlog r := by
    intro u v huv
    exact (b.always (P := fun s => s.Inv ∧ s.backlog r ≤ (b.state u).backlog r)
      (fun _ _ _ hs hstep => ⟨hs.1.step hstep, Nat.le_trans (hs.1.backlog_le hstep r) hs.2⟩)
      huv ⟨inv_state b u, Nat.le_refl _⟩).2
  have hthree : ∀ u, t ≤ u → (b.state u).backlog r ≠ 3 := by
    intro u hu
    have hle := hdown t u hu
    have hnow : (b.state t).backlog r ≠ 3 := by
      rw [Calls.backlog_of_some hreq, Request.backlog, hreturned]
      dsimp only
      split <;> simp
    have hmax := (b.state t).backlog_le_three r
    omega
  have hleaves : ∀ u, t ≤ u → (b.state u).backlog r ≠ 0 →
      ∃ v, u ≤ v ∧ (b.state v).backlog r < (b.state u).backlog r := by
    intro u hu hzero
    refine (fair (receiver r ((b.state u).backlog r))).lowers (f := fun s => s.backlog r)
      (hdown u) ?_ ?_
    · intro v hv hd
      rw [← hd] at hzero ⊢
      exact (inv_state b v).enabled_receiver hzero (hthree v (by omega))
    · intro v a hv hd hacts hstep
      rw [← hd] at hacts hzero ⊢
      rw [Calls.backlog_receiver (hthree v (by omega)) hacts hstep]
      exact Nat.pos_of_ne_zero hzero
  obtain ⟨u, hu, hzero⟩ := b.eventually_zero (f := fun s => s.backlog r) hleaves
  obtain ⟨req', hreq', hback⟩ := Calls.exists_request (hthree u hu)
  refine ⟨u, req', hu, hreq', ?_⟩
  rw [hback, Request.backlog] at hzero
  cases hh : req'.handler with
  | ended => rfl
  | returned rep' =>
    rw [hh] at hzero
    dsimp only at hzero
    split at hzero <;> cases hzero
  | _ => simp [hh] at hzero

theorem handler_goroutine_ends_killed : ∃ (b : Behavior Calls.step (Calls.start Bool)) (t : Nat)
    (req : Request Bool), Fair b ∧ (b.state t).rpc.reqs[0]? = some req ∧
    req.handler = .returned ⟨true, [2]⟩ ∧
    ∃ u req', t ≤ u ∧ (b.state u).rpc.reqs[0]? = some req' ∧ req'.handler = .ended := by
  obtain ⟨s, hrun, hcallers, hreqs⟩ := killedCall_runs
  have hfair : Fair (Behavior.ofRun s killedCall hrun) := by
    apply fair_ofRun hrun <;> simp [hcallers, hreqs]
  exact ⟨_, 15, _, hfair, rfl, rfl, handler_goroutine_ends _ hfair rfl rfl⟩

end Labrpc
