import DistLabs.DemuxCalls

/-!
# Matching of requests and replies

Both directions are queues. The requests that got through, from the oldest
goroutine of the server to the last frame in transit, are a list that a step
leaves alone or extends at its end, and so are the replies, from the first frame
that the client's reader looked up to the last one in transit. The two lists
name each call and each goroutine at most once.
-/
namespace Demux

open Runs GoMaps

/-! ## What stays -/

/-- The call has written its request. -/
def CallerPc.sent : CallerPc → Bool
  | .waiting | .returned _ _ _ => true
  | _ => false

theorem Steps.caller {s t : State} {a : Action} (h : Steps s a t) {j : Nat} {c : Caller}
    (hc : s.callers[j]? = some c) (hsent : c.pc.sent = true) :
    ∃ c', t.callers[j]? = some c' ∧ c'.tag = c.tag ∧ c'.req = c.req ∧ c'.enqueued = c.enqueued ∧
      c'.pc.sent = true := by
  have hset : ∀ i c₀ c₀', s.callers[i]? = some c₀ → (c₀.pc.sent = true → c₀'.tag = c₀.tag ∧
      c₀'.req = c₀.req ∧ c₀'.enqueued = c₀.enqueued ∧ c₀'.pc.sent = true) →
      ∃ c', (s.callers.set i c₀')[j]? = some c' ∧ c'.tag = c.tag ∧ c'.req = c.req ∧
        c'.enqueued = c.enqueued ∧ c'.pc.sent = true := by
    intro i c₀ c₀' hi hc₀
    refine exists_getElem?_set hi hc ?_ ⟨rfl, rfl, rfl, hsent⟩
    rintro rfl
    exact hc₀ hsent
  cases h with
  | sendReceive b => exact ⟨c, getElem?_concat_of_some hc _, rfl, rfl, rfl, hsent⟩
  | tag i c₀ hi hpc => exact hset i c₀ _ hi (by simp [hpc, CallerPc.sent])
  | putClosed i c₀ tag hi hpc htag hclosed => exact hset i c₀ _ hi (by simp [hpc, CallerPc.sent])
  | putOpen i c₀ tag hi hpc htag hopen => exact hset i c₀ _ hi (by simp [hpc, CallerPc.sent])
  | writeCall i delivered c₀ tag hi hpc htag => exact hset i c₀ _ hi (by simp [hpc, CallerPc.sent])
  | handReply ch r c₀ hr hi hpc => exact hset ch c₀ _ hi fun _ => ⟨rfl, rfl, rfl, rfl⟩
  | handFlush ch r tags c₀ hr hi hpc => exact hset ch c₀ _ hi fun _ => ⟨rfl, rfl, rfl, rfl⟩
  | _ => exact ⟨c, hc, rfl, rfl, rfl, hsent⟩

/-- The request that a goroutine serves. -/
def Go.request (go : Go) : Option Nat × Ttag × Bytes := (go.origin, go.tag, go.req)

def Frame.request (f : Frame) : Option Nat × Ttag × Bytes := (f.origin, f.tag, f.data)

theorem Steps.go {s t : State} {a : Action} (h : Steps s a t) {g : Nat} {go : Go}
    (hg : s.gos[g]? = some go) :
    ∃ go', t.gos[g]? = some go' ∧ go'.request = go.request ∧
      (∀ res, go.result = some res → go'.result = some res) ∧
      (go.written = true → go'.written = true) := by
  have hset : ∀ i go₀ go₀', s.gos[i]? = some go₀ → go₀'.request = go₀.request →
      (∀ res, go₀.result = some res → go₀'.result = some res) →
      (go₀.written = true → go₀'.written = true) →
      ∃ go', (s.gos.set i go₀')[g]? = some go' ∧ go'.request = go.request ∧
        (∀ res, go.result = some res → go'.result = some res) ∧
        (go.written = true → go'.written = true) := by
    intro i go₀ go₀' hi hreq hres hw
    refine exists_getElem?_set hi hg ?_ ⟨rfl, fun _ h => h, id⟩
    rintro rfl
    exact ⟨hreq, hres, hw⟩
  cases h with
  | srvReadCall f rest hr hs => exact ⟨go, getElem?_concat_of_some hg _, rfl, fun _ h => h, id⟩
  | serveRequest i rep ok go₀ hi hres => exact hset i go₀ _ hi rfl (by simp [hres]) id
  | srvWriteCall i delivered go₀ rep ok hi hres hw =>
    exact hset i go₀ _ hi rfl (fun _ h => h) (fun _ => rfl)
  | _ => exact ⟨go, hg, rfl, fun _ h => h, id⟩

theorem Steps.replied {s t : State} {a : Action} (h : Steps s a t) {f : Frame}
    (hf : f ∈ s.replied) : f ∈ t.replied := by
  cases h with
  | removeReply f' ch hr hl => exact List.mem_append_left _ hf
  | fatalReply f' hr hl => exact List.mem_append_left _ hf
  | _ => exact hf

/-! ## Requests -/

/-- The requests that the server has yet to read, not counting the initial message. -/
def State.inTransit (s : State) : List Frame :=
  match s.srvReader with
  | .init => s.c2s.tail
  | _ => s.c2s

/-- The requests that got through, oldest first. -/
def State.requests (s : State) : List (Option Nat × Ttag × Bytes) :=
  s.gos.map Go.request ++ s.inTransit.map Frame.request

/-- A request is one that a call has written. -/
def SentBy (s : State) (q : Option Nat × Ttag × Bytes) : Prop :=
  ∃ j c, q.1 = some j ∧ s.callers[j]? = some c ∧ c.tag = some q.2.1 ∧ c.req = q.2.2 ∧
    c.enqueued = true ∧ c.pc.sent = true

structure Requests (s : State) : Prop where
  init : s.srvReader = .init → s.c2s ≠ []
  nodup : (s.requests.map Prod.fst).Nodup
  sent : ∀ q ∈ s.requests, SentBy s q

theorem SentBy.keep {s t : State} {a : Action} {q : Option Nat × Ttag × Bytes}
    (h : SentBy s q) (hs : Steps s a t) : SentBy t q := by
  obtain ⟨j, c, hj, hc, htag, hreq, hput, hsent⟩ := h
  obtain ⟨c', hc', htag', hreq', hput', hsent'⟩ := hs.caller hc hsent
  exact ⟨j, c', hj, hc', htag'.trans htag, hreq'.trans hreq, hput'.trans hput, hsent'⟩

/-- Only a `WriteCall` of a call adds a request, at the end of the queue. -/
theorem Steps.requests {s t : State} {a : Action} (h : Steps s a t)
    (hinit : s.srvReader = .init → s.c2s ≠ []) :
    (t.srvReader = .init → t.c2s ≠ []) ∧ (t.requests = s.requests ∨
      ∃ (j : Nat) (c : Caller) (tag : Ttag), s.callers[j]? = some c ∧ c.pc = .queued ∧
        c.tag = some tag ∧
        t.callers = s.callers.set j { c with pc := .waiting } ∧
        t.requests = s.requests ++ [(some j, tag, c.req)]) := by
  cases h with
  | writeCall j delivered c tag hc hpc htag =>
    cases delivered with
    | false => exact ⟨hinit, Or.inl rfl⟩
    | true =>
      refine ⟨by simp, Or.inr ⟨j, c, tag, hc, hpc, htag, rfl, ?_⟩⟩
      cases hr : s.srvReader with
      | init =>
        simp [State.requests, State.inTransit, State.setCaller, hr,
          List.tail_append_of_ne_nil (hinit hr), Frame.request]
      | reading => simp [State.requests, State.inTransit, State.setCaller, hr, Frame.request]
      | stopped => simp [State.requests, State.inTransit, State.setCaller, hr, Frame.request]
  | srvInit f rest hr hs =>
    exact ⟨by simp, Or.inl (by simp [State.requests, State.inTransit, hr, hs])⟩
  | srvReadCall f rest hr hs =>
    refine ⟨by simp [hr], Or.inl ?_⟩
    simp [State.requests, State.inTransit, hr, hs, Go.request, Frame.request]
  | srvReadFail eof hr =>
    exact ⟨by simp, Or.inl (by simp [State.requests, State.inTransit, hr])⟩
  | serveRequest g rep ok go hg hres =>
    refine ⟨hinit, Or.inl ?_⟩
    simp only [State.requests, State.inTransit]
    rw [map_set_of_eq hg (by rfl)]
  | srvWriteCall g delivered go rep ok hg hres hw =>
    refine ⟨hinit, Or.inl ?_⟩
    simp only [State.requests, State.inTransit]
    rw [map_set_of_eq hg (by rfl)]
  | _ => exact ⟨hinit, Or.inl rfl⟩

theorem Requests.keep {s t : State} {a : Action} (hcalls : Calls s) (h : Requests s)
    (hs : Steps s a t) : Requests t := by
  obtain ⟨hinit, hsame | ⟨j, c, tag, hc, hpc, htag, hcallers, hnew⟩⟩ := hs.requests h.init
  · refine ⟨hinit, by rw [hsame]; exact h.nodup, ?_⟩
    rw [hsame]
    exact fun q hq => (h.sent q hq).keep hs
  · refine ⟨hinit, ?_, ?_⟩
    · -- the call had not written before, so it is new to the queue
      rw [hnew]
      refine nodup_map_concat h.nodup ?_
      intro q hq heq
      obtain ⟨j', c', hj', hc', -, -, -, hsent⟩ := h.sent q hq
      obtain rfl : j' = j := Option.some.inj (hj'.symm.trans heq)
      rw [hc] at hc'
      cases hc'
      simp [hpc, CallerPc.sent] at hsent
    · intro q hq
      rw [hnew] at hq
      rcases List.mem_append.mp hq with hq | hq
      · exact (h.sent q hq).keep hs
      · obtain rfl := List.mem_singleton.mp hq
        have hcf := hcalls.facts j c hc
        rw [CallerFacts, hpc] at hcf
        refine ⟨j, { c with pc := .waiting }, rfl, ?_, htag, rfl, hcf.2.1, rfl⟩
        rw [hcallers]
        exact getElem?_set_of_some hc _

/-! ## Replies -/

def Reader.holds : Reader → List Frame
  | .replying f => [f]
  | _ => []

/-- The replies that got through, oldest first. -/
def State.replies (s : State) : List Frame := s.replied ++ s.reader.holds ++ s.s2c

/-- A reply is one that a goroutine has written, with the result of its request. -/
def ServedBy (s : State) (f : Frame) : Prop :=
  ∃ g go, f.origin = some g ∧ s.gos[g]? = some go ∧ go.tag = f.tag ∧
    go.result = some (f.data, f.ok) ∧ go.written = true

structure Replies (s : State) : Prop where
  nodup : (s.replies.map Frame.origin).Nodup
  served : ∀ f ∈ s.replies, ServedBy s f

theorem ServedBy.keep {s t : State} {a : Action} {f : Frame} (h : ServedBy s f)
    (hs : Steps s a t) : ServedBy t f := by
  obtain ⟨g, go, hg, hgo, htag, hres, hw⟩ := h
  obtain ⟨go', hgo', hreq, hres', hw'⟩ := hs.go hgo
  exact ⟨g, go', hg, hgo', (congrArg (·.2.1) hreq).trans htag, hres' _ hres, hw' hw⟩

/-- Only a `WriteCall` of a goroutine adds a reply, at the end of the queue. -/
theorem Steps.replies {s t : State} {a : Action} (h : Steps s a t) :
    t.replies = s.replies ∨ ∃ (g : Nat) (go : Go) (rep : Bytes) (ok : Bool),
      s.gos[g]? = some go ∧ go.result = some (rep, ok) ∧ go.written = false ∧
      t.gos = s.gos.set g { go with written := true } ∧
      t.replies = s.replies ++ [⟨go.tag, rep, ok, some g⟩] := by
  cases h with
  | srvWriteCall g delivered go rep ok hg hres hw =>
    cases delivered with
    | false => exact Or.inl rfl
    | true =>
      exact Or.inr ⟨g, go, rep, ok, hg, hres, hw, rfl, by simp [State.replies]⟩
  | readCall f rest hr hs => exact Or.inl (by simp [State.replies, Reader.holds, hr, hs])
  | readFail hr => exact Or.inl (by simp [State.replies, Reader.holds, hr])
  | closeCalls hr => exact Or.inl (by simp [State.replies, Reader.holds, hr])
  | outstanding ω hr => exact Or.inl (by simp [State.replies, Reader.holds, hr])
  | removeReply f ch hr hl => exact Or.inl (by simp [State.replies, Reader.holds, hr])
  | removeFlush tag tags ch hr hl => exact Or.inl (by simp [State.replies, Reader.holds, hr])
  | fatalReply f hr hl => exact Or.inl (by simp [State.replies, Reader.holds, hr])
  | fatalFlush tag tags hr hl => exact Or.inl (by simp [State.replies, Reader.holds, hr])
  | handReply ch r c hr hc hpc =>
    exact Or.inl (by simp [State.replies, Reader.holds, hr, State.setCaller])
  | handFlush ch r tags c hr hc hpc =>
    exact Or.inl (by simp [State.replies, Reader.holds, hr, State.setCaller])
  | finish hr => exact Or.inl (by simp [State.replies, Reader.holds, hr])
  | _ => exact Or.inl rfl

theorem Replies.keep {s t : State} {a : Action} (h : Replies s) (hs : Steps s a t) :
    Replies t := by
  rcases hs.replies with hsame | ⟨g, go, rep, ok, hg, hres, hw, hgos, hnew⟩
  · refine ⟨by rw [hsame]; exact h.nodup, ?_⟩
    rw [hsame]
    exact fun f hf => (h.served f hf).keep hs
  · refine ⟨?_, ?_⟩
    · -- the goroutine had not written before, so it is new to the queue
      rw [hnew]
      refine nodup_map_concat h.nodup ?_
      intro f hf heq
      obtain ⟨g', go', hg', hgo', -, -, hw'⟩ := h.served f hf
      obtain rfl : g' = g := Option.some.inj (hg'.symm.trans heq)
      rw [hg] at hgo'
      cases hgo'
      simp [hw] at hw'
    · intro f hf
      rw [hnew] at hf
      rcases List.mem_append.mp hf with hf | hf
      · exact (h.served f hf).keep hs
      · obtain rfl := List.mem_singleton.mp hf
        refine ⟨g, { go with written := true }, rfl, ?_, rfl, hres, rfl⟩
        rw [hgos]
        exact getElem?_set_of_some hg _

/-! ## Answers -/

/-- The reply of a call is that of a goroutine that served a request of this call. -/
def Answer (s : State) (j : Nat) (r : Reply) : Prop :=
  ∃ f ∈ s.replied, f.origin = r.origin ∧ f.data = r.rep ∧ f.ok = r.ok ∧
    ∃ g go, f.origin = some g ∧ s.gos[g]? = some go ∧ go.origin = some j

theorem Answer.keep {s t : State} {a : Action} {j : Nat} {r : Reply} (h : Answer s j r)
    (hs : Steps s a t) : Answer t j r := by
  obtain ⟨f, hf, horigin, hdata, hok, g, go, hg, hgo, hj⟩ := h
  obtain ⟨go', hgo', hreq, -, -⟩ := hs.go hgo
  exact ⟨f, hs.replied hf, horigin, hdata, hok, g, go', hg, hgo', (congrArg (·.1) hreq).trans hj⟩

/-- The connection has not failed the reader yet. -/
def Reader.normal : Reader → Bool
  | .reading | .replying _ | .handing _ _ none => true
  | _ => false

structure Answered (s : State) : Prop where
  handing : ∀ j r rest, s.reader = .handing j r rest → r.err = none → Answer s j r
  received : ∀ (j : Nat) c r, s.callers[j]? = some c → r ∈ c.received → r.err = none →
    Answer s j r
  normal : s.reader.normal = true → ∀ (j : Nat) c r, s.callers[j]? = some c → r ∈ c.received →
    r.err = none
  fatal : ∀ b tag, s.reader ≠ .fatal b tag

/-- The invariant of the connection. -/
structure Inv (s : State) : Prop where
  calls : Calls s
  requests : Requests s
  replies : Replies s
  answered : Answered s

/-- A goroutine is known by the call it serves. -/
theorem Requests.go_inj {s : State} (h : Requests s) {g g' j : Nat} {go go' : Go}
    (hg : s.gos[g]? = some go) (hg' : s.gos[g']? = some go') (hj : go.origin = some j)
    (hj' : go'.origin = some j) : g = g' := by
  have hnodup : (s.gos.map Go.origin).Nodup := by
    have hall := h.nodup
    rw [State.requests, List.map_append, List.nodup_append] at hall
    simpa [Function.comp_def, Go.request] using hall.1
  have hlt : g < (s.gos.map Go.origin).length := by
    simpa using (List.getElem?_eq_some_iff.mp hg).1
  exact (List.getElem?_inj hlt hnodup).mp (by simp [hg, hg', hj, hj'])

/-- The call of the reply that the reader holds is waiting for it. -/
theorem Inv.held {s : State} (h : Inv s) {f : Frame} (hr : s.reader = .replying f) :
    ∃ j g go, s.pendingTag j = some f.tag ∧ f.origin = some g ∧ s.gos[g]? = some go ∧
      go.origin = some j := by
  have hheld : f ∈ s.replies := by simp [State.replies, Reader.holds, hr]
  obtain ⟨g, go, hg, hgo, htag, -, -⟩ := h.replies.served f hheld
  have hreq : go.request ∈ s.requests :=
    List.mem_append_left _ (List.mem_map.mpr ⟨go, List.mem_of_getElem? hgo, rfl⟩)
  obtain ⟨j, c, hj, hc, hctag, -, hput, hsent⟩ := h.requests.sent _ hreq
  refine ⟨j, g, go, ?_, hg, hgo, hj⟩
  have hcf := h.calls.facts j c hc
  cases hpc : c.pc with
  | waiting =>
    have hct : c.tag = some f.tag := hctag.trans (by rw [← htag]; rfl)
    simp [State.pendingTag, hc, Caller.pendingTag, hpc, CallerPc.pending, hct]
  | returned rep ok err =>
    -- the call would have returned with this very reply
    exfalso
    rw [CallerFacts, hpc] at hcf
    rcases hcf with ⟨hfalse, -⟩ | ⟨-, -, r, hrec, -⟩
    · simp [hfalse] at hput
    · have hnone := h.answered.normal (by rw [hr]; rfl) j c r hc (by simp [hrec])
      obtain ⟨f', hf', -, -, -, g', go', hg', hgo', hj'⟩ :=
        h.answered.received j c r hc (by simp [hrec]) hnone
      obtain rfl := h.requests.go_inj hgo hgo' hj hj'
      have hnodup := h.replies.nodup
      rw [State.replies, hr, Reader.holds, List.append_assoc, List.map_append,
        List.nodup_append] at hnodup
      exact hnodup.2.2 f'.origin (List.mem_map.mpr ⟨f', hf', rfl⟩) f.origin (by simp)
        (hg'.trans hg.symm)
  | _ => simp [hpc, CallerPc.sent] at hsent

/-- Where a reply that a call has received comes from. -/
theorem Steps.received {s t : State} {a : Action} (h : Steps s a t) {j : Nat} {c' : Caller}
    {r : Reply} (hc' : t.callers[j]? = some c') (hr : r ∈ c'.received) :
    (∃ c, s.callers[j]? = some c ∧ r ∈ c.received) ∨
      ∃ rest, s.reader = .handing j r rest ∧ (t.reader.normal = true → rest = none) := by
  have hset : ∀ i c₀ c₀', s.callers[i]? = some c₀ → (s.callers.set i c₀')[j]? = some c' →
      c₀'.received = c₀.received → ∃ c, s.callers[j]? = some c ∧ r ∈ c.received := by
    intro i c₀ c₀' hi hset hrec
    rcases getElem?_set_cases hset with ⟨rfl, rfl⟩ | ⟨-, hc⟩
    · exact ⟨c₀, hi, hrec ▸ hr⟩
    · exact ⟨c', hc, hr⟩
  cases h with
  | sendReceive b =>
    rcases getElem?_concat_cases hc' with hc | ⟨-, rfl⟩
    · exact Or.inl ⟨c', hc, hr⟩
    · simp at hr
  | tag i c₀ hi hpc => exact Or.inl (hset i c₀ _ hi hc' rfl)
  | putClosed i c₀ tag hi hpc htag hclosed => exact Or.inl (hset i c₀ _ hi hc' rfl)
  | putOpen i c₀ tag hi hpc htag hopen => exact Or.inl (hset i c₀ _ hi hc' rfl)
  | writeCall i delivered c₀ tag hi hpc htag => exact Or.inl (hset i c₀ _ hi hc' rfl)
  | handReply ch r₀ c₀ hreader hi hpc =>
    rcases getElem?_set_cases hc' with ⟨rfl, rfl⟩ | ⟨-, hc⟩
    · rcases List.mem_append.mp hr with hr | hr
      · exact Or.inl ⟨c₀, hi, hr⟩
      · obtain rfl := List.mem_singleton.mp hr
        exact Or.inr ⟨none, hreader, fun _ => rfl⟩
    · exact Or.inl ⟨c', hc, hr⟩
  | handFlush ch r₀ tags c₀ hreader hi hpc =>
    rcases getElem?_set_cases hc' with ⟨rfl, rfl⟩ | ⟨-, hc⟩
    · rcases List.mem_append.mp hr with hr | hr
      · exact Or.inl ⟨c₀, hi, hr⟩
      · obtain rfl := List.mem_singleton.mp hr
        exact Or.inr ⟨some tags, hreader, fun hn => nomatch hn⟩
    · exact Or.inl ⟨c', hc, hr⟩
  | _ => exact Or.inl ⟨c', hc', hr⟩

/-- Where a reply that the reader hands over comes from. -/
theorem Steps.handing {s t : State} {a : Action} (h : Steps s a t) {j : Nat} {r : Reply}
    {rest : Option (List Ttag)} (hr : t.reader = .handing j r rest) :
    s.reader = .handing j r rest ∨ r.err ≠ none ∨ ∃ f, s.reader = .replying f ∧
      s.callmap.calls.lookup f.tag = some j ∧ r = ⟨f.data, f.ok, none, f.origin⟩ ∧
      f ∈ t.replied := by
  cases h with
  | removeReply f ch hreader hl =>
    cases hr
    exact Or.inr (Or.inr ⟨f, hreader, hl, rfl, by simp⟩)
  | removeFlush tag tags ch hreader hl =>
    cases hr
    exact Or.inr (Or.inl (by simp))
  | readCall | readFail | closeCalls | outstanding | fatalReply | fatalFlush | handReply
  | handFlush | finish => cases hr
  | _ => exact Or.inl hr

theorem Steps.normal {s t : State} {a : Action} (h : Steps s a t)
    (ht : t.reader.normal = true) : s.reader.normal = true := by
  cases h with
  | readCall f rest hr hs => simp [hr, Reader.normal]
  | removeReply f ch hr hl => simp [hr, Reader.normal]
  | handReply ch r c hr hc hpc => simp [hr, Reader.normal]
  | readFail | closeCalls | outstanding | removeFlush | fatalReply | fatalFlush | handFlush
  | finish => cases ht
  | _ => exact ht

/-- A tag that the reader looks up is found. -/
theorem Inv.not_fatal {s t : State} {a : Action} (h : Inv s) (hs : Steps s a t) :
    ∀ b tag, t.reader ≠ .fatal b tag := by
  intro b tag hfatal
  cases hs with
  | fatalReply f hr hl =>
    obtain ⟨j, -, -, hj, -⟩ := h.held hr
    have hfound := (h.calls.exact f.tag j).mpr ⟨hj, by simp [hr, Reader.handsTo]⟩
    rw [hl] at hfound
    cases hfound
  | fatalFlush tag' tags hr hl =>
    have hrf := h.calls.reader
    rw [hr] at hrf
    have hmem := AList.lookup_isSome.mpr ((hrf.2.2 tag').mp (by simp))
    simp [hl] at hmem
  | readCall | readFail | closeCalls | outstanding | removeReply | removeFlush | handReply
  | handFlush | finish => cases hfatal
  | _ => exact h.answered.fatal b tag hfatal

theorem Inv.keep {s t : State} {a : Action} (h : Inv s) (hok : Unissued s a)
    (hs : Steps s a t) : Inv t := by
  refine ⟨h.calls.keep hok hs, h.requests.keep h.calls hs, h.replies.keep hs, ?_, ?_, ?_,
    h.not_fatal hs⟩
  · intro j r rest hr herr
    rcases hs.handing hr with hold | hne | ⟨f, hreader, hl, rfl, hf⟩
    · exact (h.answered.handing j r rest hold herr).keep hs
    · exact absurd herr hne
    · -- the call found under the tag is the one whose request was served
      obtain ⟨j', g, go, hj', hg, hgo, horigin⟩ := h.held hreader
      have hl' := (h.calls.exact f.tag j').mpr ⟨hj', by simp [hreader, Reader.handsTo]⟩
      obtain rfl : j = j' := Option.some.inj (hl.symm.trans hl')
      obtain ⟨go', hgo', hreq, -, -⟩ := hs.go hgo
      exact ⟨f, hf, rfl, rfl, rfl, g, go', hg, hgo', (congrArg (·.1) hreq).trans horigin⟩
  · intro j c r hc hr herr
    rcases hs.received hc hr with ⟨c₀, hc₀, hr₀⟩ | ⟨rest, hreader, -⟩
    · exact (h.answered.received j c₀ r hc₀ hr₀ herr).keep hs
    · exact (h.answered.handing j r rest hreader herr).keep hs
  · intro hn j c r hc hr
    rcases hs.received hc hr with ⟨c₀, hc₀, hr₀⟩ | ⟨rest, hreader, hrest⟩
    · exact h.answered.normal (hs.normal hn) j c₀ r hc₀ hr₀
    · have hrf := h.calls.reader
      rw [hreader, hrest hn] at hrf
      exact hrf

theorem Inv.init (b : Bytes) : Inv (start b) where
  calls := Calls.init b
  requests := by
    constructor <;> simp [start, State.requests, State.inTransit]
  replies := by
    constructor <;> simp [start, State.replies, Reader.holds]
  answered := by
    constructor <;> simp [start]

theorem Inv.of_run {b : Bytes} {as : List Action} {s : State}
    (h : run step (start b) as = some s) (hok : Obeys step (start b) Unissued as) : Inv s :=
  run_induction_of_obeys (P := fun _ s => Inv s) (Inv.init b)
    (fun _ _ _ _ _ hi hok hs => hi.keep hok (steps_of_step hs)) h hok

/-- A real reply that a call was handed is the result that the goroutine which sent it
produced for the request of this call. -/
theorem Inv.answer_result {s : State} (h : Inv s) {j : Nat} {c : Caller} {r : Reply}
    (hc : s.callers[j]? = some c) (hr : r ∈ c.received) (herr : r.err = none) :
    ∃ (g : Nat) (go : Go), r.origin = some g ∧ s.gos[g]? = some go ∧ go.origin = some j ∧
      go.req = c.req ∧ go.result = some (r.rep, r.ok) := by
  obtain ⟨f, hf, horigin, hdata, hok, g, go, hg, hgo, hj⟩ := h.answered.received j c r hc hr herr
  have hreply : f ∈ s.replies := List.mem_append_left _ (List.mem_append_left _ hf)
  obtain ⟨g', go', hg', hgo', -, hres, -⟩ := h.replies.served f hreply
  obtain rfl : g = g' := Option.some.inj (hg.symm.trans hg')
  obtain rfl : go = go' := Option.some.inj (hgo.symm.trans hgo')
  have hreq : go.request ∈ s.requests :=
    List.mem_append_left _ (List.mem_map.mpr ⟨go, List.mem_of_getElem? hgo, rfl⟩)
  obtain ⟨j', c', hj', hc', -, hcreq, -⟩ := h.requests.sent _ hreq
  obtain rfl : j = j' := Option.some.inj (hj.symm.trans hj')
  obtain rfl : c = c' := Option.some.inj (hc.symm.trans hc')
  exact ⟨g, go, horigin.symm.trans hg, hgo, hj, hcreq.symm, by rw [hres, hdata, hok]⟩

theorem CallerFacts.received_le {c : Caller} (h : CallerFacts c) : c.received.length ≤ 1 := by
  cases hpc : c.pc with
  | returned rep ok err =>
    rw [CallerFacts, hpc] at h
    rcases h with ⟨-, hnil, -⟩ | ⟨-, -, r, hr, -⟩
    · simp [hnil]
    · simp [hr]
  | start =>
    rw [CallerFacts, hpc] at h
    simp [h.2]
  | tagged | queued | waiting =>
    rw [CallerFacts, hpc] at h
    simp [h.2.2]

/-- A call that returns without error returns what the one goroutine that served its request
produced for it. -/
theorem Inv.own_reply {s : State} (h : Inv s) {j : Nat} {c : Caller} {rep : Bytes} {ok : Bool}
    (hc : s.callers[j]? = some c) (hpc : c.pc = .returned rep ok none) :
    ∃ (g : Nat) (go : Go), s.gos[g]? = some go ∧ go.origin = some j ∧ go.req = c.req ∧
      go.result = some (rep, ok) ∧
      ∀ (g' : Nat) (go' : Go), s.gos[g']? = some go' → go'.origin = some j → g' = g := by
  have hcf := h.calls.facts j c hc
  rw [CallerFacts, hpc] at hcf
  rcases hcf with ⟨-, -, herr⟩ | ⟨-, -, r, hrec, rfl, rfl, herr⟩
  · cases herr
  · obtain ⟨g, go, -, hgo, hj, hreq, hres⟩ := h.answer_result hc (by simp [hrec]) herr
    refine ⟨g, go, hgo, hj, hreq, hres, ?_⟩
    intro g' go' hgo' hj'
    exact h.requests.go_inj hgo' hgo hj' hj

/-- Requests and replies match: a call that returns without error returns what the one
goroutine that served its request produced for it, a goroutine's reply is handed to one
call only, a call is handed one reply only, and the reader always finds the call. -/
theorem replies_match (b : Bytes) (as : List Action) (s : State)
    (h : run step (start b) as = some s) (hok : Obeys step (start b) Unissued as) :
    (∀ (j : Nat) c rep ok, s.callers[j]? = some c → c.pc = .returned rep ok none →
      ∃ (g : Nat) (go : Go), s.gos[g]? = some go ∧ go.origin = some j ∧ go.req = c.req ∧
        go.result = some (rep, ok) ∧
        ∀ (g' : Nat) (go' : Go), s.gos[g']? = some go' → go'.origin = some j → g' = g) ∧
    (∀ (i j g : Nat) c c' r r', s.callers[i]? = some c → s.callers[j]? = some c' →
      r ∈ c.received → r' ∈ c'.received → r.err = none → r'.err = none →
      r.origin = some g → r'.origin = some g → i = j) ∧
    (∀ (j : Nat) c, s.callers[j]? = some c → c.received.length ≤ 1) ∧
    ∀ data tag, s.reader ≠ .fatal data tag := by
  have hinv := Inv.of_run h hok
  refine ⟨?_, ?_, ?_, hinv.answered.fatal⟩
  · intro j c rep ok hc hpc
    exact hinv.own_reply hc hpc
  · intro i j g c c' r r' hi hj hr hr' herr herr' hg hg'
    obtain ⟨g₁, go₁, hg₁, hgo₁, hi₁, -⟩ := hinv.answer_result hi hr herr
    obtain ⟨g₂, go₂, hg₂, hgo₂, hj₂, -⟩ := hinv.answer_result hj hr' herr'
    obtain rfl : g₁ = g := Option.some.inj (hg₁.symm.trans hg)
    obtain rfl : g₂ = g₁ := Option.some.inj (hg₂.symm.trans hg')
    obtain rfl : go₁ = go₂ := Option.some.inj (hgo₁.symm.trans hgo₂)
    exact Option.some.inj (hi₁.symm.trans hj₂)
  · intro j c hc
    exact (hinv.calls.facts j c hc).received_le

/-- Two calls whose replies come back in the other order. -/
def crossed : List Action :=
  [.srvInit, .sendReceive [1], .sendReceive [2], .tag 0, .tag 1, .put 0, .put 1,
   .writeCall 0 true, .writeCall 1 true, .srvReadCall, .srvReadCall, .serveRequest 1 [20] true,
   .srvWriteCall 1 true, .serveRequest 0 [10] true, .srvWriteCall 0 true, .readCall, .remove,
   .hand, .readCall, .remove, .hand]

theorem crossed_unissued : Obeys step (start []) Unissued crossed := by
  refine .cons trivial fun s hs => .cons trivial fun s' hs' => .cons trivial fun t ht =>
    .cons (fun j => ?_) fun t' ht' => .cons (fun j => ?_) fun u _ => .of_forall fun a ha v => ?_
  · cases hs
    cases hs'
    cases ht
    match j with
    | 0 | 1 | j + 2 => simp [State.activeTag, Caller.activeTag, start, CallerPc.active]
  · cases hs
    cases hs'
    cases ht
    cases ht'
    match j with
    | 0 | 1 | j + 2 =>
      simp [State.activeTag, Caller.activeTag, start, CallerPc.active, State.setCaller]
  · cases a with
    | tag j => simp at ha
    | _ => trivial

theorem crossed_match : ∃ s c, run step (start []) crossed = some s ∧ s.callers[0]? = some c ∧
    c.pc = .returned [10] true none ∧ ∃ (g : Nat) (go : Go), s.gos[g]? = some go ∧
      go.origin = some 0 ∧ go.req = c.req ∧ go.result = some ([10], true) := by
  obtain ⟨s, hs⟩ : ∃ s, run step (start []) crossed = some s := ⟨_, rfl⟩
  obtain ⟨c, hc, hpc⟩ : ∃ c, s.callers[0]? = some c ∧ c.pc = .returned [10] true none := by
    cases hs
    exact ⟨_, rfl, rfl⟩
  obtain ⟨hresult, -⟩ := replies_match [] crossed s hs crossed_unissued
  obtain ⟨g, go, hgo, hj, hreq, hres, -⟩ := hresult 0 c [10] true hc hpc
  exact ⟨s, c, hs, hc, hpc, g, go, hgo, hj, hreq, hres⟩

end Demux
