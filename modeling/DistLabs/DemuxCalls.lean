import DistLabs.Demux

/-!
# The outstanding calls of a connection

What a step can do is said once, by `Steps`. From it follows that the map of
outstanding calls is exact: it holds the channels of the calls that have been
put and not been handed a reply. A reader that has finished has handed one to
each of them.
-/
namespace Demux

open Runs GoMaps

/-- The steps of the connection, one constructor for each branch. -/
inductive Steps (s : State) : Action → State → Prop
  | sendReceive (b : Bytes) : Steps s (.sendReceive b)
      { s with callers := s.callers ++ [⟨b, none, .start, false, []⟩] }
  | tag (j : Nat) (c : Caller) (hc : s.callers[j]? = some c) (hpc : c.pc = .start) :
      Steps s (.tag j) { s.setCaller j { c with tag := some s.nextTag, pc := .tagged } with
        nextTag := s.nextTag + 1 }
  | putClosed (j : Nat) (c : Caller) (t : Ttag) (hc : s.callers[j]? = some c)
      (hpc : c.pc = .tagged) (ht : c.tag = some t) (hclosed : s.callmap.closed = true) :
      Steps s (.put j) (s.setCaller j { c with pc := .returned [] false (some "conn closed") })
  | putOpen (j : Nat) (c : Caller) (t : Ttag) (hc : s.callers[j]? = some c)
      (hpc : c.pc = .tagged) (ht : c.tag = some t) (hopen : s.callmap.closed = false) :
      Steps s (.put j) { s.setCaller j { c with pc := .queued, enqueued := true } with
        callmap := { s.callmap with calls := s.callmap.calls.insert t j } }
  | writeCall (j : Nat) (delivered : Bool) (c : Caller) (t : Ttag) (hc : s.callers[j]? = some c)
      (hpc : c.pc = .queued) (ht : c.tag = some t) :
      Steps s (.writeCall j delivered) { s.setCaller j { c with pc := .waiting } with
        c2s := if delivered then s.c2s ++ [⟨t, c.req, true, some j⟩] else s.c2s }
  | readCall (f : Frame) (rest : List Frame) (hr : s.reader = .reading) (hs : s.s2c = f :: rest) :
      Steps s .readCall { s with reader := .replying f, s2c := rest }
  | readFail (hr : s.reader = .reading) : Steps s .readFail { s with reader := .failed }
  | closeCalls (hr : s.reader = .failed) :
      Steps s .closeCalls { s with reader := .closed, callmap := s.callmap.close }
  | outstanding (ω : RangeOrder Ttag) (hr : s.reader = .closed) :
      Steps s (.outstanding ω) { s with reader := .flushing (s.callmap.outstanding ω) }
  | removeReply (f : Frame) (ch : Nat) (hr : s.reader = .replying f)
      (hl : s.callmap.calls.lookup f.tag = some ch) :
      Steps s .remove { s with
        callmap := { s.callmap with calls := s.callmap.calls.erase f.tag }
        reader := .handing ch ⟨f.data, f.ok, none, f.origin⟩ none
        replied := s.replied ++ [f] }
  | removeFlush (t : Ttag) (tags : List Ttag) (ch : Nat) (hr : s.reader = .flushing (t :: tags))
      (hl : s.callmap.calls.lookup t = some ch) :
      Steps s .remove { s with
        callmap := { s.callmap with calls := s.callmap.calls.erase t }
        reader := .handing ch ⟨[], false, some "reader reply fail", none⟩ (some tags) }
  | fatalReply (f : Frame) (hr : s.reader = .replying f)
      (hl : s.callmap.calls.lookup f.tag = none) :
      Steps s .remove { s with reader := .fatal f.data f.tag, replied := s.replied ++ [f] }
  | fatalFlush (t : Ttag) (tags : List Ttag) (hr : s.reader = .flushing (t :: tags))
      (hl : s.callmap.calls.lookup t = none) : Steps s .remove { s with reader := .fatal [] t }
  | handReply (ch : Nat) (r : Reply) (c : Caller) (hr : s.reader = .handing ch r none)
      (hc : s.callers[ch]? = some c) (hpc : c.pc = .waiting) :
      Steps s .hand { s.setCaller ch
        { c with pc := .returned r.rep r.ok r.err, received := c.received ++ [r] } with
          reader := .reading }
  | handFlush (ch : Nat) (r : Reply) (tags : List Ttag) (c : Caller)
      (hr : s.reader = .handing ch r (some tags)) (hc : s.callers[ch]? = some c)
      (hpc : c.pc = .waiting) :
      Steps s .hand { s.setCaller ch
        { c with pc := .returned r.rep r.ok r.err, received := c.received ++ [r] } with
          reader := .flushing tags }
  | finish (hr : s.reader = .flushing []) : Steps s .finish { s with reader := .finished }
  | closers (a : Action) (closers : List CloserPc)
      (ha : a = .close ∨ ∃ c, a = .isClosed c ∨ a = .transClose c) :
      Steps s a { s with closers := closers }
  | closeMap (c : Nat) (closers : List CloserPc) :
      Steps s (.closeMap c) { s with closers := closers, callmap := s.callmap.close }
  | srvInit (f : Frame) (rest : List Frame) (hr : s.srvReader = .init) (hs : s.c2s = f :: rest) :
      Steps s .srvInit { s with srvReader := .reading, c2s := rest }
  | srvReadCall (f : Frame) (rest : List Frame) (hr : s.srvReader = .reading)
      (hs : s.c2s = f :: rest) :
      Steps s .srvReadCall { s with
        c2s := rest, gos := s.gos ++ [⟨f.tag, f.data, none, false, f.origin⟩] }
  | srvReadFail (eof : Bool) (hr : s.srvReader = .reading) :
      Steps s (.srvReadFail eof) { s with srvReader := .stopped, srvClosed := s.srvClosed || eof }
  | serveRequest (g : Nat) (rep : Bytes) (ok : Bool) (go : Go) (hg : s.gos[g]? = some go)
      (hres : go.result = none) :
      Steps s (.serveRequest g rep ok)
        { s with gos := s.gos.set g { go with result := some (rep, ok) } }
  | srvWriteCall (g : Nat) (delivered : Bool) (go : Go) (rep : Bytes) (ok : Bool)
      (hg : s.gos[g]? = some go) (hres : go.result = some (rep, ok)) (hw : go.written = false) :
      Steps s (.srvWriteCall g delivered) { s with
        gos := s.gos.set g { go with written := true }
        s2c := if delivered then s.s2c ++ [⟨go.tag, rep, ok, some g⟩] else s.s2c }
  | srvClose : Steps s .srvClose { s with srvClosed := true }

theorem steps_caller {s t : State} {a : Action} {j : Nat} {c : Caller}
    (hc : s.callers[j]? = some c) (ha : a = .tag j ∨ a = .put j ∨ ∃ d, a = .writeCall j d)
    (h : s.caller j c a = some t) : Steps s a t := by
  rcases ha with rfl | rfl | ⟨delivered, rfl⟩
  · simp only [State.caller] at h
    obtain ⟨hpc, h⟩ := Option.ite_none_right_eq_some.mp h
    cases h
    exact .tag j c hc hpc
  · simp only [State.caller] at h
    split at h
    · rename_i t' hpc ht
      cases hclosed : s.callmap.closed with
      | true =>
        rw [CallMap.put_closed hclosed] at h
        cases h
        exact .putClosed j c t' hc hpc ht hclosed
      | false =>
        rw [CallMap.put_open hclosed] at h
        cases h
        exact .putOpen j c t' hc hpc ht hclosed
    · cases h
  · simp only [State.caller] at h
    split at h
    · rename_i t' hpc ht
      cases h
      exact .writeCall j delivered c t' hc hpc ht
    · cases h

theorem steps_clntReader {s t : State} {a : Action} (h : s.clntReader a = some t) :
    Steps s a t := by
  cases a with
  | readCall =>
    simp only [State.clntReader] at h
    split at h
    · rename_i f rest hr hs
      cases h
      exact .readCall f rest hr hs
    · cases h
  | readFail =>
    simp only [State.clntReader] at h
    split at h
    · cases h
      exact .readFail ‹_›
    · cases h
  | closeCalls =>
    simp only [State.clntReader] at h
    split at h
    · cases h
      exact .closeCalls ‹_›
    · cases h
  | outstanding ω =>
    simp only [State.clntReader] at h
    split at h
    · cases h
      exact .outstanding ω ‹_›
    · cases h
  | remove =>
    simp only [State.clntReader] at h
    split at h
    · rename_i f hr
      cases h
      rw [State.reply]
      cases hl : s.callmap.calls.lookup f.tag with
      | some ch =>
        rw [CallMap.remove_some hl]
        exact .removeReply f ch hr hl
      | none =>
        rw [CallMap.remove_none hl]
        exact .fatalReply f hr hl
    · rename_i t' tags hr
      cases h
      rw [State.reply]
      cases hl : s.callmap.calls.lookup t' with
      | some ch =>
        rw [CallMap.remove_some hl]
        exact .removeFlush t' tags ch hr hl
      | none =>
        rw [CallMap.remove_none hl]
        exact .fatalFlush t' tags hr hl
    · cases h
  | hand =>
    simp only [State.clntReader] at h
    split at h
    · rename_i ch r rest hr
      split at h
      · cases h
      · rename_i c hc
        obtain ⟨hpc, h⟩ := Option.ite_none_right_eq_some.mp h
        cases h
        cases rest with
        | none => exact .handReply ch r c hr hc hpc
        | some tags => exact .handFlush ch r tags c hr hc hpc
    · cases h
  | finish =>
    simp only [State.clntReader] at h
    split at h
    · cases h
      exact .finish ‹_›
    · cases h
  | _ => cases h

theorem steps_closer {s t : State} {a : Action} {c : Nat} {pc : CloserPc}
    (ha : a = .isClosed c ∨ a = .transClose c ∨ a = .closeMap c)
    (h : s.closer c pc a = some t) : Steps s a t := by
  rcases ha with rfl | rfl | rfl
  · simp only [State.closer] at h
    obtain ⟨-, h⟩ := Option.ite_none_right_eq_some.mp h
    cases h
    exact .closers _ _ (by simp)
  · simp only [State.closer] at h
    obtain ⟨-, h⟩ := Option.ite_none_right_eq_some.mp h
    cases h
    exact .closers _ _ (by simp)
  · simp only [State.closer] at h
    obtain ⟨-, h⟩ := Option.ite_none_right_eq_some.mp h
    cases h
    exact .closeMap c _

theorem steps_server {s t : State} {a : Action} (h : s.server a = some t) : Steps s a t := by
  cases a with
  | srvInit =>
    simp only [State.server] at h
    split at h
    · rename_i f rest hr hs
      cases h
      exact .srvInit f rest hr hs
    · cases h
  | srvReadCall =>
    simp only [State.server] at h
    split at h
    · rename_i f rest hr hs
      cases h
      exact .srvReadCall f rest hr hs
    · cases h
  | srvReadFail eof =>
    simp only [State.server] at h
    split at h
    · cases h
      exact .srvReadFail eof ‹_›
    · cases h
  | serveRequest g rep ok =>
    simp only [State.server] at h
    split at h
    · cases h
    · rename_i go hg
      obtain ⟨hres, h⟩ := Option.ite_none_right_eq_some.mp h
      cases h
      exact .serveRequest g rep ok go hg hres
  | srvWriteCall g delivered =>
    simp only [State.server] at h
    split at h
    · cases h
    · rename_i go hg
      split at h
      · rename_i rep ok hres hw
        cases h
        exact .srvWriteCall g delivered go rep ok hg hres hw
      · cases h
  | srvClose =>
    cases h
    exact .srvClose
  | _ => cases h

theorem steps_of_step {s t : State} {a : Action} (h : step s a = some t) : Steps s a t := by
  cases a with
  | sendReceive b =>
    cases h
    exact .sendReceive b
  | close =>
    cases h
    exact .closers _ _ (by simp)
  | tag j =>
    simp only [step] at h
    split at h
    · cases h
    · exact steps_caller ‹_› (Or.inl rfl) h
  | put j =>
    simp only [step] at h
    split at h
    · cases h
    · exact steps_caller ‹_› (Or.inr (Or.inl rfl)) h
  | writeCall j delivered =>
    simp only [step] at h
    split at h
    · cases h
    · exact steps_caller ‹_› (Or.inr (Or.inr ⟨delivered, rfl⟩)) h
  | isClosed c =>
    simp only [step] at h
    split at h
    · cases h
    · exact steps_closer (Or.inl rfl) h
  | transClose c =>
    simp only [step] at h
    split at h
    · cases h
    · exact steps_closer (Or.inr (Or.inl rfl)) h
  | closeMap c =>
    simp only [step] at h
    split at h
    · cases h
    · exact steps_closer (Or.inr (Or.inr rfl)) h
  | readCall | readFail | closeCalls | outstanding ω | remove | hand | finish =>
    exact steps_clntReader h
  | srvInit | srvReadCall | srvReadFail eof | serveRequest g rep ok | srvWriteCall g delivered
  | srvClose => exact steps_server h

/-! ## Outstanding calls -/

/-- The call has been put into the map and has not returned. -/
def CallerPc.pending : CallerPc → Bool
  | .queued | .waiting => true
  | _ => false

/-- The call has a tag and has not returned. -/
def CallerPc.active : CallerPc → Bool
  | .tagged | .queued | .waiting => true
  | _ => false

def Caller.pendingTag (c : Caller) : Option Ttag := if c.pc.pending then c.tag else none
def Caller.activeTag (c : Caller) : Option Ttag := if c.pc.active then c.tag else none

def State.pendingTag (s : State) (j : Nat) : Option Ttag := s.callers[j]?.bind Caller.pendingTag
def State.activeTag (s : State) (j : Nat) : Option Ttag := s.callers[j]?.bind Caller.activeTag

/-- No call is outstanding when its tag is issued again. -/
def Unissued (s : State) : Action → Prop
  | .tag _ => ∀ j, s.activeTag j ≠ some s.nextTag
  | _ => True

theorem activeTag_of_pendingTag {s : State} {j : Nat} {t : Ttag} (h : s.pendingTag j = some t) :
    s.activeTag j = some t := by
  obtain ⟨c, hc, ht⟩ := Option.bind_eq_some_iff.mp h
  refine Option.bind_eq_some_iff.mpr ⟨c, hc, ?_⟩
  cases hpc : c.pc <;> simp_all [Caller.pendingTag, Caller.activeTag, CallerPc.pending,
    CallerPc.active]

theorem pendingTag_congr {s t : State} (h : t.callers = s.callers) :
    t.pendingTag = s.pendingTag := by
  funext j
  rw [State.pendingTag, h, State.pendingTag]

theorem activeTag_congr {s t : State} (h : t.callers = s.callers) :
    t.activeTag = s.activeTag := by
  funext j
  rw [State.activeTag, h, State.activeTag]

theorem bind_set {callers : List Caller} {j : Nat} {c : Caller} (hc : callers[j]? = some c)
    (c' : Caller) (f : Caller → Option Ttag) :
    (fun i : Nat => (callers.set j c')[i]?.bind f) =
      Function.update (fun i : Nat => callers[i]?.bind f) j (f c') := by
  funext i
  by_cases hi : i = j
  · subst hi
    simp [getElem?_set_of_some hc]
  · simp [List.getElem?_set_ne (Ne.symm hi), hi]

theorem pendingTag_set {s t : State} {j : Nat} {c c' : Caller} (hc : s.callers[j]? = some c)
    (h : t.callers = s.callers.set j c') :
    t.pendingTag = Function.update s.pendingTag j c'.pendingTag := by
  show (fun i : Nat => t.callers[i]?.bind Caller.pendingTag) = _
  rw [h, bind_set hc]
  rfl

theorem activeTag_set {s t : State} {j : Nat} {c c' : Caller} (hc : s.callers[j]? = some c)
    (h : t.callers = s.callers.set j c') :
    t.activeTag = Function.update s.activeTag j c'.activeTag := by
  show (fun i : Nat => t.callers[i]?.bind Caller.activeTag) = _
  rw [h, bind_set hc]
  rfl

/-- A new call has no tag yet. -/
theorem bind_concat (callers : List Caller) (c : Caller) (f : Caller → Option Ttag)
    (hf : f c = none) :
    (fun i : Nat => (callers ++ [c])[i]?.bind f) = fun i : Nat => callers[i]?.bind f := by
  funext i
  rcases Nat.lt_trichotomy i callers.length with hlt | rfl | hgt
  · rw [List.getElem?_append_left hlt]
  · simp [hf]
  · rw [List.getElem?_eq_none (by simp; omega), List.getElem?_eq_none (Nat.le_of_lt hgt)]

/-- What is known of a call at each point: in particular, a call that was put and has
returned was sent exactly one reply, the one it returned. -/
def CallerFacts (c : Caller) : Prop :=
  match c.pc with
  | .start => c.enqueued = false ∧ c.received = []
  | .tagged => c.tag ≠ none ∧ c.enqueued = false ∧ c.received = []
  | .queued | .waiting => c.tag ≠ none ∧ c.enqueued = true ∧ c.received = []
  | .returned rep ok err =>
    (c.enqueued = false ∧ c.received = [] ∧ err = some "conn closed") ∨
      (c.enqueued = true ∧ (err = none ∨ err = some "reader reply fail") ∧
        ∃ r, c.received = [r] ∧ r.rep = rep ∧ r.ok = ok ∧ r.err = err)

/-- The call whose channel the reader has taken out of the map. -/
def Reader.handsTo : Reader → Option Nat
  | .handing ch _ _ => some ch
  | _ => none

/-- What is known of the map at each point of the reader. -/
def ReaderFacts (cm : CallMap) : Reader → Prop
  | .reading | .replying _ | .failed | .fatal _ _ => True
  | .handing _ r none => r.err = none
  | .closed => cm.closed = true
  | .flushing tags => cm.closed = true ∧ tags.Nodup ∧ ∀ t, t ∈ tags ↔ t ∈ cm.calls
  | .handing _ r (some tags) =>
    r.err = some "reader reply fail" ∧
      cm.closed = true ∧ tags.Nodup ∧ ∀ t, t ∈ tags ↔ t ∈ cm.calls
  | .finished => cm.closed = true ∧ ∀ t, t ∉ cm.calls

structure Calls (s : State) : Prop where
  facts : ∀ (j : Nat) c, s.callers[j]? = some c → CallerFacts c
  distinct : ∀ i j t, s.activeTag i = some t → s.activeTag j = some t → i = j
  exact : ∀ t j, s.callmap.calls.lookup t = some j ↔
    s.pendingTag j = some t ∧ s.reader.handsTo ≠ some j
  handing : ∀ j, s.reader.handsTo = some j → s.pendingTag j ≠ none
  reader : ReaderFacts s.callmap s.reader

theorem Calls.init (b : Bytes) : Calls (start b) where
  facts := by simp [start]
  distinct := by simp [start, State.activeTag]
  exact := by simp [start, State.pendingTag, newCallMap]
  handing := by simp [start, Reader.handsTo]
  reader := trivial

theorem facts_set {s : State} {j : Nat} {c' : Caller} (h : Calls s) (hc' : CallerFacts c') :
    ∀ (i : Nat) c, (s.callers.set j c')[i]? = some c → CallerFacts c := by
  intro i c hi
  rcases getElem?_set_cases hi with ⟨-, rfl⟩ | ⟨-, hi⟩
  · exact hc'
  · exact h.facts i c hi

/-- A step of one call that leaves alone what the map holds and the reader does. -/
theorem Calls.of_caller {s t : State} (h : Calls s) {j : Nat} {c c' : Caller}
    (hc : s.callers[j]? = some c) (hcallers : t.callers = s.callers.set j c')
    (hmap : t.callmap = s.callmap) (hreader : t.reader = s.reader) (hfacts : CallerFacts c')
    (hpending : c'.pendingTag = c.pendingTag)
    (hactive : ∀ tag, c'.activeTag = some tag → ∀ i, s.activeTag i = some tag → i = j) :
    Calls t := by
  have hp : t.pendingTag = s.pendingTag := by
    have hj : s.pendingTag j = c'.pendingTag := by simp [State.pendingTag, hc, hpending]
    rw [pendingTag_set hc hcallers, ← hj]
    exact Function.update_eq_self j s.pendingTag
  have ha := activeTag_set hc hcallers
  constructor
  · rw [hcallers]
    exact facts_set h hfacts
  · rw [ha]
    intro i i' tag hi hi'
    by_cases hij : i = j
    · subst hij
      by_cases hij' : i' = i
      · exact hij'.symm
      · simp only [Function.update_self, ne_eq, hij', not_false_eq_true, Function.update_of_ne]
          at hi hi'
        exact (hactive tag hi i' hi').symm
    · by_cases hij' : i' = j
      · subst hij'
        simp only [Function.update_self, ne_eq, hij, not_false_eq_true, Function.update_of_ne]
          at hi hi'
        exact hactive tag hi' i hi
      · simp only [ne_eq, hij, hij', not_false_eq_true, Function.update_of_ne] at hi hi'
        exact h.distinct i i' tag hi hi'
  · rw [hmap, hreader, hp]
    exact h.exact
  · rw [hreader, hp]
    exact h.handing
  · rw [hmap, hreader]
    exact h.reader

/-- A step of the reader, or of a `Close`, that moves no channel. -/
theorem Calls.of_reader {s t : State} (h : Calls s) (hcallers : t.callers = s.callers)
    (hcalls : t.callmap.calls = s.callmap.calls) (hhands : t.reader.handsTo = s.reader.handsTo)
    (hreader : ReaderFacts t.callmap t.reader) : Calls t := by
  have hp := pendingTag_congr hcallers
  have ha := activeTag_congr hcallers
  constructor
  · rw [hcallers]
    exact h.facts
  · rw [ha]
    exact h.distinct
  · rw [hcalls, hhands, hp]
    exact h.exact
  · rw [hhands, hp]
    exact h.handing
  · exact hreader

theorem ReaderFacts.close {cm : CallMap} {r : Reader} (h : ReaderFacts cm r) :
    ReaderFacts cm.close r := by
  cases r with
  | flushing tags => exact ⟨rfl, h.2⟩
  | finished => exact ⟨rfl, h.2⟩
  | closed => rfl
  | handing ch rep rest =>
    cases rest with
    | none => exact h
    | some tags => exact ⟨h.1, rfl, h.2.2⟩
  | _ => trivial

/-- The reader takes the channel of a tag out of the map. -/
theorem Calls.of_remove {s t : State} (h : Calls s) {tag : Ttag} {ch : Nat} {r : Reply}
    {rest : Option (List Ttag)} (hhands : s.reader.handsTo = none)
    (hl : s.callmap.calls.lookup tag = some ch) (hcallers : t.callers = s.callers)
    (hcalls : t.callmap.calls = s.callmap.calls.erase tag)
    (hreader : t.reader = .handing ch r rest) (hfacts : ReaderFacts t.callmap t.reader) :
    Calls t := by
  have hp := pendingTag_congr hcallers
  have ha := activeTag_congr hcallers
  have hexact : ∀ t j, s.callmap.calls.lookup t = some j ↔ s.pendingTag j = some t := by
    intro t j
    simp [h.exact t j, hhands]
  constructor
  · rw [hcallers]
    exact h.facts
  · rw [ha]
    exact h.distinct
  · intro t' j
    rw [hcalls, lookup_erase_apply, hreader, hp, Reader.handsTo]
    by_cases ht : t' = tag
    · subst ht
      have hj : s.pendingTag j = some t' → ch = j := by
        intro hj
        rw [← hexact, hl] at hj
        exact Option.some.inj hj
      simpa using hj
    · rw [if_neg ht, hexact]
      have hne : s.pendingTag j = some t' → ch ≠ j := by
        rintro hj rfl
        rw [(hexact tag ch).mp hl] at hj
        exact ht (Option.some.inj hj).symm
      simpa using hne
  · intro j hj
    rw [hreader] at hj
    obtain rfl : ch = j := Option.some.inj hj
    rw [hp, (hexact tag ch).mp hl]
    simp
  · exact hfacts

/-- The reader has handed a reply to the call whose channel it held. -/
theorem Calls.of_hand {s t : State} (h : Calls s) {ch : Nat} {r : Reply} {c : Caller}
    (hhands : s.reader.handsTo = some ch) (hc : s.callers[ch]? = some c) (hpc : c.pc = .waiting)
    (herr : r.err = none ∨ r.err = some "reader reply fail")
    (hcallers : t.callers = s.callers.set ch
      { c with pc := .returned r.rep r.ok r.err, received := c.received ++ [r] })
    (hmap : t.callmap = s.callmap) (hhands' : t.reader.handsTo = none)
    (hfacts : ReaderFacts t.callmap t.reader) : Calls t := by
  have hp : t.pendingTag = Function.update s.pendingTag ch none := pendingTag_set hc hcallers
  have ha : t.activeTag = Function.update s.activeTag ch none := activeTag_set hc hcallers
  constructor
  · rw [hcallers]
    apply facts_set h
    have hcf := h.facts ch c hc
    rw [CallerFacts, hpc] at hcf
    exact Or.inr ⟨hcf.2.1, herr, r, by simp [hcf.2.2], rfl, rfl, rfl⟩
  · rw [ha]
    intro i j tag hi hj
    by_cases hich : i = ch
    · simp [hich] at hi
    · by_cases hjch : j = ch
      · simp [hjch] at hj
      · exact h.distinct i j tag (by simpa [hich] using hi) (by simpa [hjch] using hj)
  · intro tag j
    rw [hmap, h.exact, hhands, hhands', hp]
    by_cases hj : j = ch
    · subst hj
      simp
    · simp [hj, Ne.symm hj]
  · intro j hj
    rw [hhands'] at hj
    cases hj
  · exact hfacts

/-- No put succeeds once the reader has closed the map. -/
theorem ReaderFacts.put {cm : CallMap} {r : Reader} (h : ReaderFacts cm r)
    (hopen : cm.closed = false) {tag : Ttag} {ch : Nat} :
    ReaderFacts { cm with calls := cm.calls.insert tag ch } r := by
  cases r with
  | flushing tags => simp [ReaderFacts, hopen] at h
  | finished => simp [ReaderFacts, hopen] at h
  | closed => simp [ReaderFacts, hopen] at h
  | handing ch rep rest =>
    cases rest with
    | none => exact h
    | some tags => simp [ReaderFacts, hopen] at h
  | _ => trivial

theorem Calls.of_put {s : State} (h : Calls s) {j : Nat} {c : Caller} {tag : Ttag}
    (hc : s.callers[j]? = some c) (hpc : c.pc = .tagged) (ht : c.tag = some tag)
    (hopen : s.callmap.closed = false) :
    Calls { s.setCaller j { c with pc := .queued, enqueued := true } with
      callmap := { s.callmap with calls := s.callmap.calls.insert tag j } } := by
  have hactive : s.activeTag j = some tag := by
    simp [State.activeTag, hc, Caller.activeTag, hpc, ht, CallerPc.active]
  have hpending : s.pendingTag j = none := by
    simp [State.pendingTag, hc, Caller.pendingTag, hpc, CallerPc.pending]
  have hhands : s.reader.handsTo ≠ some j := fun hj => h.handing j hj hpending
  have hcf := h.facts j c hc
  rw [CallerFacts, hpc] at hcf
  have hp : State.pendingTag { s.setCaller j { c with pc := .queued, enqueued := true } with
      callmap := { s.callmap with calls := s.callmap.calls.insert tag j } } =
      Function.update s.pendingTag j (some tag) := by
    rw [pendingTag_set hc rfl]
    simp [Caller.pendingTag, CallerPc.pending, ht]
  have ha : State.activeTag { s.setCaller j { c with pc := .queued, enqueued := true } with
      callmap := { s.callmap with calls := s.callmap.calls.insert tag j } } = s.activeTag := by
    rw [activeTag_set hc rfl]
    simp [Caller.activeTag, CallerPc.active, ht, ← hactive]
  constructor
  · exact facts_set h ⟨hcf.1, rfl, hcf.2.2⟩
  · rw [ha]
    exact h.distinct
  · intro t i
    rw [hp, lookup_insert_apply]
    by_cases hi : i = j
    · subst hi
      have hnone : s.callmap.calls.lookup t ≠ some i := by
        simp [h.exact, hpending]
      by_cases htt : t = tag
      · simpa [htt] using hhands
      · simpa [htt, Ne.symm htt] using hnone
    · by_cases htt : t = tag
      · subst htt
        have hnot : s.pendingTag i ≠ some t := fun hpi =>
          hi (h.distinct i j t (activeTag_of_pendingTag hpi) hactive)
        simp [hi, Ne.symm hi, hnot]
      · simpa [hi, htt] using h.exact t i
  · intro i hi
    rw [hp]
    by_cases hij : i = j
    · simp [hij]
    · simpa [hij] using h.handing i hi
  · exact h.reader.put hopen

theorem Calls.keep {s t : State} {a : Action} (h : Calls s) (hok : Unissued s a)
    (hs : Steps s a t) : Calls t := by
  cases hs with
  | sendReceive b =>
    have hp : State.pendingTag { s with callers := s.callers ++ [⟨b, none, .start, false, []⟩] } =
      s.pendingTag := bind_concat s.callers _ _ rfl
    have ha : State.activeTag { s with callers := s.callers ++ [⟨b, none, .start, false, []⟩] } =
      s.activeTag := bind_concat s.callers _ _ rfl
    constructor
    · intro j c hj
      rcases getElem?_concat_cases hj with hj | ⟨-, rfl⟩
      · exact h.facts j c hj
      · exact ⟨rfl, rfl⟩
    · rw [ha]
      exact h.distinct
    · rw [hp]
      exact h.exact
    · rw [hp]
      exact h.handing
    · exact h.reader
  | tag j c hc hpc =>
    have hcf := h.facts j c hc
    rw [CallerFacts, hpc] at hcf
    refine h.of_caller hc rfl rfl rfl ⟨by simp, hcf.1, hcf.2⟩ ?_ ?_
    · simp [Caller.pendingTag, hpc, CallerPc.pending]
    · intro tag htag i hi
      obtain rfl : s.nextTag = tag := by simpa [Caller.activeTag, CallerPc.active] using htag
      exact absurd hi (hok i)
  | putClosed j c t hc hpc ht hclosed =>
    have hcf := h.facts j c hc
    rw [CallerFacts, hpc] at hcf
    refine h.of_caller hc rfl rfl rfl (Or.inl ⟨hcf.2.1, hcf.2.2, rfl⟩) ?_ ?_
    · simp [Caller.pendingTag, hpc, CallerPc.pending]
    · simp [Caller.activeTag, CallerPc.active]
  | putOpen j c t hc hpc ht hopen => exact h.of_put hc hpc ht hopen
  | writeCall j delivered c t hc hpc ht =>
    have hcf := h.facts j c hc
    rw [CallerFacts, hpc] at hcf
    refine h.of_caller hc rfl rfl rfl hcf ?_ ?_
    · simp [Caller.pendingTag, hpc, CallerPc.pending]
    · intro tag htag i hi
      refine h.distinct i j tag hi ?_
      simpa [State.activeTag, hc, Caller.activeTag, hpc, CallerPc.active] using htag
  | readCall f rest hr hs =>
    exact h.of_reader rfl rfl (by rw [hr]; rfl) trivial
  | readFail hr => exact h.of_reader rfl rfl (by rw [hr]; rfl) trivial
  | closeCalls hr => exact h.of_reader rfl rfl (by rw [hr]; rfl) rfl
  | outstanding ω hr =>
    have hrf := h.reader
    rw [hr] at hrf
    refine h.of_reader rfl rfl (by rw [hr]; rfl) ⟨hrf, ?_, ?_⟩
    · exact (ω.perm _).nodup_iff.mpr s.callmap.calls.keys_nodup
    · intro t
      rw [CallMap.outstanding, ω.mem_order]
      exact AList.mem_keys
  | removeReply f ch hr hl =>
    exact h.of_remove (by rw [hr]; rfl) hl rfl rfl rfl rfl
  | removeFlush t tags ch hr hl =>
    have hrf := h.reader
    rw [hr] at hrf
    obtain ⟨hclosed, hnodup, hmem⟩ := hrf
    obtain ⟨hnot, hnodup⟩ := List.nodup_cons.mp hnodup
    refine h.of_remove (by rw [hr]; rfl) hl rfl rfl rfl ⟨rfl, hclosed, hnodup, ?_⟩
    intro t'
    rw [AList.mem_erase, ← hmem, List.mem_cons]
    constructor
    · intro ht'
      exact ⟨fun he => hnot (he ▸ ht'), Or.inr ht'⟩
    · rintro ⟨hne, ht' | ht'⟩
      · exact absurd ht' hne
      · exact ht'
  | fatalReply f hr hl => exact h.of_reader rfl rfl (by rw [hr]; rfl) trivial
  | fatalFlush t tags hr hl => exact h.of_reader rfl rfl (by rw [hr]; rfl) trivial
  | handReply ch r c hr hc hpc =>
    have hrf := h.reader
    rw [hr] at hrf
    exact h.of_hand (by rw [hr]; rfl) hc hpc (Or.inl hrf) rfl rfl rfl trivial
  | handFlush ch r tags c hr hc hpc =>
    have hrf := h.reader
    rw [hr] at hrf
    exact h.of_hand (by rw [hr]; rfl) hc hpc (Or.inr hrf.1) rfl rfl rfl hrf.2
  | finish hr =>
    have hrf := h.reader
    rw [hr] at hrf
    refine h.of_reader rfl rfl (by rw [hr]; rfl) ⟨hrf.1, ?_⟩
    intro t ht
    exact List.not_mem_nil ((hrf.2.2 t).mpr ht)
  | closeMap c closers => exact h.of_reader rfl rfl rfl h.reader.close
  | closers a closers ha => exact h.of_reader rfl rfl rfl h.reader
  | srvInit f rest hr hs => exact h.of_reader rfl rfl rfl h.reader
  | srvReadCall f rest hr hs => exact h.of_reader rfl rfl rfl h.reader
  | srvReadFail eof hr => exact h.of_reader rfl rfl rfl h.reader
  | serveRequest g rep ok go hg hres => exact h.of_reader rfl rfl rfl h.reader
  | srvWriteCall g delivered go rep ok hg hres hw => exact h.of_reader rfl rfl rfl h.reader
  | srvClose => exact h.of_reader rfl rfl rfl h.reader

theorem Calls.of_run {b : Bytes} {as : List Action} {s : State}
    (h : run step (start b) as = some s) (hok : Obeys step (start b) Unissued as) : Calls s :=
  run_induction_of_obeys (P := fun _ s => Calls s) (Calls.init b)
    (fun _ _ _ _ _ hc hok hs => hc.keep hok (steps_of_step hs)) h hok

/-- A reader that has finished has left no call in the map, so none is pending. -/
theorem Calls.none_pending {s : State} (h : Calls s) (hr : s.reader = .finished) (j : Nat) :
    s.pendingTag j = none := by
  have hrf := h.reader
  rw [hr] at hrf
  cases htag : s.pendingTag j with
  | none => rfl
  | some tag =>
    have hl := (h.exact tag j).mpr ⟨htag, by simp [hr, Reader.handsTo]⟩
    exact absurd (AList.lookup_isSome.mp (by simp [hl])) (hrf.2 tag)

/-- A call that was put and is not pending has returned, with the one reply it was sent. -/
theorem CallerFacts.answered {c : Caller} (h : CallerFacts c) (hput : c.enqueued = true)
    (hnone : c.pendingTag = none) : ∃ r, c.received = [r] ∧
      (r.err = none ∨ r.err = some "reader reply fail") := by
  cases hpc : c.pc with
  | start =>
    rw [CallerFacts, hpc] at h
    simp [h.1] at hput
  | tagged =>
    rw [CallerFacts, hpc] at h
    simp [h.2.1] at hput
  | queued | waiting =>
    rw [CallerFacts, hpc] at h
    have htag : c.tag = none := by simpa [Caller.pendingTag, hpc, CallerPc.pending] using hnone
    exact absurd htag h.1
  | returned rep ok err =>
    rw [CallerFacts, hpc] at h
    rcases h with ⟨hfalse, -⟩ | ⟨-, herr, r, hr, -, -, rfl⟩
    · simp [hfalse] at hput
    · exact ⟨r, hr, herr⟩

/-- Nothing opens the map again. -/
theorem Steps.closed {s t : State} {a : Action} (h : Steps s a t)
    (hclosed : s.callmap.closed = true) : t.callmap.closed = true := by
  cases h with
  | closeCalls hr => rfl
  | closeMap c closers => rfl
  | _ => exact hclosed

/-- No caller is abandoned: once the reader has finished, the map is closed and empty and
each call that was put has been sent exactly one reply, a real one or the reader's error;
the map stays closed, and a put into it fails, so that its call returns the error at once. -/
theorem no_caller_abandoned (b : Bytes) (as : List Action) (s : State)
    (h : run step (start b) as = some s) (hok : Obeys step (start b) Unissued as) :
    (s.reader = .finished → s.callmap.closed = true ∧ s.callmap.calls.keys = [] ∧
      ∀ (j : Nat) c, s.callers[j]? = some c → c.enqueued = true → ∃ r, c.received = [r] ∧
        (r.err = none ∨ r.err = some "reader reply fail")) ∧
    (s.callmap.closed = true → (∀ a t, step s a = some t → t.callmap.closed = true) ∧
      ∀ (j : Nat) t, step s (.put j) = some t → t.callmap = s.callmap ∧
        ∃ c, t.callers[j]? = some c ∧ c.enqueued = false ∧ c.received = [] ∧
          c.pc = .returned [] false (some "conn closed")) := by
  have hcalls := Calls.of_run h hok
  constructor
  · intro hr
    have hrf := hcalls.reader
    rw [hr] at hrf
    obtain ⟨hclosed, hempty⟩ := hrf
    refine ⟨hclosed, List.eq_nil_iff_forall_not_mem.mpr hempty, ?_⟩
    intro j c hc hput
    have hnone : c.pendingTag = none := by
      simpa [State.pendingTag, hc] using hcalls.none_pending hr j
    exact (hcalls.facts j c hc).answered hput hnone
  · intro hclosed
    refine ⟨fun a t ht => (steps_of_step ht).closed hclosed, ?_⟩
    intro j t ht
    have hs := steps_of_step ht
    cases hs with
    | putClosed _ c tag hc hpc htag _ =>
      have hcf := hcalls.facts j c hc
      rw [CallerFacts, hpc] at hcf
      exact ⟨rfl, _, getElem?_set_of_some hc _, hcf.2.1, hcf.2.2, rfl⟩
    | putOpen _ c tag hc hpc htag hopen =>
      rw [hclosed] at hopen
      cases hopen
    | closers _ closers ha => simp at ha

/-- A call whose request gets through, and a connection that fails before its reply. -/
def cutOff : List Action :=
  [.sendReceive [7], .tag 0, .put 0, .writeCall 0 true, .readFail, .closeCalls,
   .outstanding (RangeOrder.stored Ttag), .remove, .hand, .finish]

theorem cutOff_unissued : Obeys step (start []) Unissued cutOff := by
  refine .cons trivial fun s hs => .cons (fun j => ?_) fun t ht => .of_forall fun a ha u => ?_
  · cases hs
    cases j <;> simp [State.activeTag, Caller.activeTag, start, CallerPc.active]
  · cases a with
    | tag j => simp at ha
    | _ => trivial

theorem cutOff_answered : ∃ s c, run step (start []) cutOff = some s ∧ s.reader = .finished ∧
    s.callers[0]? = some c ∧ ∃ r, c.received = [r] ∧
      (r.err = none ∨ r.err = some "reader reply fail") := by
  obtain ⟨s, hs⟩ : ∃ s, run step (start []) cutOff = some s := ⟨_, rfl⟩
  obtain ⟨hr, c, hc, hput⟩ : s.reader = .finished ∧ ∃ c, s.callers[0]? = some c ∧
      c.enqueued = true := by
    cases hs
    exact ⟨rfl, _, rfl, rfl⟩
  obtain ⟨hfinished, -⟩ := no_caller_abandoned [] cutOff s hs cutOff_unissued
  exact ⟨s, c, hs, hr, hc, (hfinished hr).2.2 0 c hc hput⟩

end Demux
