import DistLabs.DemuxMatching
import DistLabs.Fairness

/-!
# Every call over a connection returns

The goroutines of a connection wait for each other: a call for the reader, the
reader for the call it hands a reply to, the server's goroutines for their
handlers. A call returns unless its handler runs forever. A connection that
breaks is noticed by the reader, which then fails all calls.
-/
namespace Demux

open Runs GoMaps Fairness

/-! ## Goroutines -/

inductive Goroutine where
  | caller (j : Nat)
  | reader
  | srvReader
  | handler (g : Nat)

/-- Whose step it is. New calls, `Close`, failing reads and the time that `ServeRequest` takes
are not up to the goroutines. -/
def Action.goroutine : Action → Option Goroutine
  | .tag j | .put j | .writeCall j _ => some (.caller j)
  | .readCall | .closeCalls | .outstanding _ | .remove | .hand | .finish => some .reader
  | .srvInit | .srvReadCall => some .srvReader
  | .srvWriteCall g _ => some (.handler g)
  | _ => none

def Acts (g : Goroutine) (_ : State) (a : Action) : Prop := a.goroutine = some g

/-- What happens only on a broken connection. -/
def Action.breaks : Action → Bool
  | .writeCall _ delivered | .srvWriteCall _ delivered => !delivered
  | .srvReadFail _ => true
  | _ => false

/-- A connection whose goroutines go on when they can, and whose reader notices if it
breaks. -/
structure Live {init : Bytes} (b : Behavior step (start init)) : Prop where
  fair : ∀ g, b.WeakFair (Acts g)
  unissued : ∀ t a, b.act t = some a → Unissued (b.state t) a
  noticed : ∀ t a, b.act t = some a → a.breaks = true → ∃ u, (b.state u).reader.normal = false

/-! ## Calls -/

/-- How far a call is from its return. -/
def CallerPc.rank : CallerPc → Nat
  | .start => 4
  | .tagged => 3
  | .queued => 2
  | .waiting => 1
  | .returned _ _ _ => 0

def State.rank (s : State) (j : Nat) : Nat := (s.callers[j]?.map fun c => c.pc.rank).getD 0

theorem State.rank_of_some {s : State} {j : Nat} {c : Caller} (hc : s.callers[j]? = some c) :
    s.rank j = c.pc.rank := by
  rw [State.rank, hc]
  rfl

def State.Returned (s : State) (j : Nat) : Prop :=
  ∃ c rep ok err, s.callers[j]? = some c ∧ c.pc = .returned rep ok err

theorem State.returned_of_rank {s : State} {j : Nat} (hj : j < s.callers.length)
    (hrank : s.rank j = 0) : s.Returned j := by
  have hc : s.callers[j]? = some s.callers[j] := List.getElem?_eq_getElem hj
  rw [State.rank_of_some hc] at hrank
  cases hpc : s.callers[j].pc with
  | returned rep ok err => exact ⟨_, rep, ok, err, hc, hpc⟩
  | _ => simp [hpc, CallerPc.rank] at hrank

theorem State.rank_setCaller {s : State} {i : Nat} {c : Caller} (hi : s.callers[i]? = some c)
    (c' : Caller) (j : Nat) :
    (s.setCaller i c').rank j = if j = i then c'.pc.rank else s.rank j := by
  by_cases hij : j = i
  · subst hij
    rw [if_pos rfl]
    exact State.rank_of_some (getElem?_set_of_some hi c')
  · rw [if_neg hij, State.rank, State.setCaller, List.getElem?_set_ne (Ne.symm hij), State.rank]

/-- No step takes a call back, and each step of a call takes it forward. -/
theorem Steps.rank {s t : State} {a : Action} (h : Steps s a t) {j : Nat}
    (hj : j < s.callers.length) :
    t.rank j ≤ s.rank j ∧ (a.goroutine = some (.caller j) → t.rank j < s.rank j) := by
  have hset : ∀ i c c', s.callers[i]? = some c → c'.pc.rank < c.pc.rank →
      (s.setCaller i c').rank j ≤ s.rank j ∧
        (some (Goroutine.caller i) = some (.caller j) → (s.setCaller i c').rank j < s.rank j) := by
    intro i c c' hi hlt
    rw [State.rank_setCaller hi]
    by_cases hij : j = i
    · subst hij
      rw [if_pos rfl, State.rank_of_some hi]
      exact ⟨Nat.le_of_lt hlt, fun _ => hlt⟩
    · rw [if_neg hij]
      exact ⟨Nat.le_refl _, fun h => absurd (Goroutine.caller.inj (Option.some.inj h)).symm hij⟩
  cases h with
  | sendReceive b =>
    have hsame : (s.callers ++ [⟨b, none, .start, false, []⟩])[j]? = s.callers[j]? :=
      List.getElem?_append_left hj
    exact ⟨Nat.le_of_eq (by simp only [State.rank, hsame]), fun h => nomatch h⟩
  | tag i c hi hpc => exact hset i c _ hi (by simp [hpc, CallerPc.rank])
  | putClosed i c tag hi hpc htag hclosed => exact hset i c _ hi (by simp [hpc, CallerPc.rank])
  | putOpen i c tag hi hpc htag hopen => exact hset i c _ hi (by simp [hpc, CallerPc.rank])
  | writeCall i delivered c tag hi hpc htag => exact hset i c _ hi (by simp [hpc, CallerPc.rank])
  | handReply ch r c hr hc hpc =>
    exact ⟨(hset ch c _ hc (by simp [hpc, CallerPc.rank])).1, fun h => nomatch h⟩
  | handFlush ch r tags c hr hc hpc =>
    exact ⟨(hset ch c _ hc (by simp [hpc, CallerPc.rank])).1, fun h => nomatch h⟩
  | closers a closers ha =>
    rcases ha with rfl | ⟨c, rfl | rfl⟩ <;> exact ⟨Nat.le_refl _, fun h => nomatch h⟩
  | _ => exact ⟨Nat.le_refl _, fun h => nomatch h⟩

theorem Steps.length_le {s t : State} {a : Action} (h : Steps s a t) :
    s.callers.length ≤ t.callers.length := by
  cases h <;> simp [State.setCaller]

/-- A call that does not wait yet can go on. -/
theorem Calls.enabled_caller {s : State} (h : Calls s) {j : Nat} (hrank : 1 < s.rank j) :
    Enabled step (Acts (.caller j)) s := by
  cases hc : s.callers[j]? with
  | none => simp [State.rank, hc] at hrank
  | some c =>
    rw [State.rank_of_some hc] at hrank
    have hcf := h.facts j c hc
    cases hpc : c.pc with
    | start => exact ⟨.tag j, rfl, by simp [step, hc, State.caller, hpc]⟩
    | tagged =>
      rw [CallerFacts, hpc] at hcf
      obtain ⟨tag, htag⟩ := Option.ne_none_iff_exists'.mp hcf.1
      refine ⟨.put j, rfl, ?_⟩
      cases hclosed : s.callmap.closed with
      | true => simp [step, hc, State.caller, hpc, htag, CallMap.put_closed hclosed]
      | false => simp [step, hc, State.caller, hpc, htag, CallMap.put_open hclosed]
    | queued =>
      rw [CallerFacts, hpc] at hcf
      obtain ⟨tag, htag⟩ := Option.ne_none_iff_exists'.mp hcf.1
      exact ⟨.writeCall j true, rfl, by simp [step, hc, State.caller, hpc, htag]⟩
    | waiting => simp [hpc, CallerPc.rank] at hrank
    | returned rep ok err => simp [hpc, CallerPc.rank] at hrank

/-! ## The reader -/

/-- The steps of the client's reader, but for a read that fails. -/
inductive Reader.Moves : Reader → Reader → Prop
  | read (f : Frame) : Moves .reading (.replying f)
  | reply (f : Frame) (ch : Nat) (r : Reply) : Moves (.replying f) (.handing ch r none)
  | handed (ch : Nat) (r : Reply) : Moves (.handing ch r none) .reading
  | close : Moves .failed .closed
  | collect (tags : List Ttag) : Moves .closed (.flushing tags)
  | fail (tag : Ttag) (tags : List Ttag) (ch : Nat) (r : Reply) :
      Moves (.flushing (tag :: tags)) (.handing ch r (some tags))
  | failed (ch : Nat) (r : Reply) (tags : List Ttag) :
      Moves (.handing ch r (some tags)) (.flushing tags)
  | finish : Moves (.flushing []) .finished

theorem Inv.reader_step {s t : State} {a : Action} (hs : Inv s) (h : Steps s a t) :
    (a.goroutine ≠ some .reader ∧ t.replied = s.replied ∧
      (t.reader = s.reader ∨ s.reader = .reading ∧ t.reader = .failed)) ∨
    (a.goroutine = some .reader ∧ t.replied = s.replied ++ s.reader.holds ∧
      s.reader.Moves t.reader) := by
  have hfatal := hs.not_fatal h
  cases h with
  | readCall f rest hr hs => exact Or.inr ⟨rfl, by simp [hr, Reader.holds], hr ▸ .read f⟩
  | readFail hr => exact Or.inl ⟨by simp [Action.goroutine], rfl, Or.inr ⟨hr, rfl⟩⟩
  | closeCalls hr => exact Or.inr ⟨rfl, by simp [hr, Reader.holds], hr ▸ .close⟩
  | outstanding ω hr => exact Or.inr ⟨rfl, by simp [hr, Reader.holds], hr ▸ .collect _⟩
  | removeReply f ch hr hl => exact Or.inr ⟨rfl, by simp [hr, Reader.holds], hr ▸ .reply f ch _⟩
  | removeFlush tag tags ch hr hl =>
    exact Or.inr ⟨rfl, by simp [hr, Reader.holds], hr ▸ .fail tag tags ch _⟩
  | fatalReply f hr hl => exact absurd rfl (hfatal _ _)
  | fatalFlush tag tags hr hl => exact absurd rfl (hfatal _ _)
  | handReply ch r c hr hc hpc =>
    exact Or.inr ⟨rfl, by simp [hr, Reader.holds, State.setCaller], hr ▸ .handed ch r⟩
  | handFlush ch r tags c hr hc hpc =>
    exact Or.inr ⟨rfl, by simp [hr, Reader.holds, State.setCaller], hr ▸ .failed ch r tags⟩
  | finish hr => exact Or.inr ⟨rfl, by simp [hr, Reader.holds], hr ▸ .finish⟩
  | closers a closers ha =>
    rcases ha with rfl | ⟨c, rfl | rfl⟩ <;>
      exact Or.inl ⟨by simp [Action.goroutine], rfl, Or.inl rfl⟩
  | _ => exact Or.inl ⟨by simp [Action.goroutine], rfl, Or.inl rfl⟩

/-- Whom the reader waits for: the call it hands a reply to, until that call listens. -/
def State.awaits (s : State) : Goroutine :=
  match s.reader with
  | .handing ch _ _ => if s.rank ch = 1 then .reader else .caller ch
  | _ => .reader

/-- The call that the reader hands a reply to listens or is about to. -/
theorem Inv.handing_rank {s : State} (hs : Inv s) {ch : Nat} {r : Reply}
    {rest : Option (List Ttag)} (hr : s.reader = .handing ch r rest) :
    ∃ c, s.callers[ch]? = some c ∧ (c.pc = .waiting ∨ c.pc = .queued) := by
  have hpending := hs.calls.handing ch (by rw [hr]; rfl)
  cases hc : s.callers[ch]? with
  | none => simp [State.pendingTag, hc] at hpending
  | some c =>
    refine ⟨c, rfl, ?_⟩
    cases hpc : c.pc <;> simp_all [State.pendingTag, Caller.pendingTag, CallerPc.pending]

/-- The reader, or the call it waits for, can go on. -/
theorem Inv.enabled_awaits {s : State} (hs : Inv s) (hread : s.reader = .reading → s.s2c ≠ [])
    (hend : s.reader ≠ .finished) : Enabled step (Acts s.awaits) s := by
  cases hr : s.reader with
  | reading =>
    obtain ⟨f, rest, hs2c⟩ := List.exists_cons_of_ne_nil (hread hr)
    exact ⟨.readCall, by simp [Acts, State.awaits, hr, Action.goroutine],
      by simp [step, State.clntReader, hr, hs2c]⟩
  | replying f =>
    exact ⟨.remove, by simp [Acts, State.awaits, hr, Action.goroutine],
      by simp [step, State.clntReader, hr]⟩
  | handing ch r rest =>
    obtain ⟨c, hc, hpc | hpc⟩ := hs.handing_rank hr
    · refine ⟨.hand, ?_, by simp [step, State.clntReader, hr, hc, hpc]⟩
      simp [Acts, State.awaits, hr, State.rank_of_some hc, hpc, CallerPc.rank, Action.goroutine]
    · have hawaits : s.awaits = .caller ch := by
        simp [State.awaits, hr, State.rank_of_some hc, hpc, CallerPc.rank]
      rw [hawaits]
      exact hs.calls.enabled_caller (by simp [State.rank_of_some hc, hpc, CallerPc.rank])
  | failed =>
    exact ⟨.closeCalls, by simp [Acts, State.awaits, hr, Action.goroutine],
      by simp [step, State.clntReader, hr]⟩
  | closed =>
    exact ⟨.outstanding (.stored Ttag), by simp [Acts, State.awaits, hr, Action.goroutine],
      by simp [step, State.clntReader, hr]⟩
  | flushing tags =>
    cases tags with
    | nil =>
      exact ⟨.finish, by simp [Acts, State.awaits, hr, Action.goroutine],
        by simp [step, State.clntReader, hr]⟩
    | cons tag tags =>
      exact ⟨.remove, by simp [Acts, State.awaits, hr, Action.goroutine],
        by simp [step, State.clntReader, hr]⟩
  | finished => exact absurd hr hend
  | fatal b tag => exact absurd hr (hs.answered.fatal b tag)

/-- The reader is about to hand over a reply, and the call does not listen yet. -/
def State.handOver (s : State) : Nat :=
  match s.reader with
  | .handing ch _ _ => if s.rank ch = 1 then 0 else 1
  | _ => 0

theorem State.handOver_le (s : State) : s.handOver ≤ 1 := by
  rw [State.handOver]
  split
  · split <;> simp
  · simp

/-- A rank of the reader, and of the call it waits for; `w` is one of the reader alone. -/
def readerRank (w : Nat → Reader → Nat) (s : State) : Nat :=
  if w s.replied.length s.reader = 0 then 0
  else 2 * w s.replied.length s.reader + s.handOver

theorem readerRank_eq_zero {w : Nat → Reader → Nat} {s : State} :
    readerRank w s = 0 ↔ w s.replied.length s.reader = 0 := by
  rw [readerRank]
  split <;> omega

theorem readerRank_lt {w : Nat → Reader → Nat} {s t : State}
    (h : w t.replied.length t.reader < w s.replied.length s.reader) :
    readerRank w t < readerRank w s := by
  have hle := t.handOver_le
  rw [readerRank, readerRank]
  split <;> split <;> omega

/-- While the reader stays, the call it waits for may come to listen. -/
theorem Inv.handOver_step {s t : State} {a : Action} (hs : Inv s) (ht : Inv t) (h : Steps s a t)
    (hreader : t.reader = s.reader) :
    (t.handOver < s.handOver ∨ t.handOver = s.handOver ∧ t.awaits = s.awaits) ∧
      (s.awaits ≠ .reader → a.goroutine = some s.awaits → t.handOver < s.handOver) := by
  cases hr : s.reader with
  | handing ch r rest =>
    obtain ⟨c, hc, hpc⟩ := hs.handing_rank hr
    obtain ⟨c', hc', hpc'⟩ := ht.handing_rank (hreader.trans hr)
    obtain ⟨hle, hlt⟩ := h.rank (List.getElem?_eq_some_iff.mp hc).1
    rw [State.rank_of_some hc, State.rank_of_some hc'] at hle hlt
    simp only [State.handOver, State.awaits, hreader.trans hr, hr, State.rank_of_some hc,
      State.rank_of_some hc']
    rcases hpc with hpc | hpc <;> rcases hpc' with hpc' | hpc' <;>
      simp_all [CallerPc.rank]
  | _ => simp [State.handOver, State.awaits, hreader, hr]

section Behaviors

variable {init : Bytes} {b : Behavior step (start init)}

theorem Live.inv (hb : Live b) (t : Nat) : Inv (b.state t) := by
  refine b.always_of hb.unissued ?_ (Nat.zero_le t) ?_
  · intro s a s' h hok hstep
    exact h.keep hok (steps_of_step hstep)
  · rw [b.init]
    exact Inv.init init

/-- How the rank of the reader changes in a step, where the reader does not fail. -/
theorem Inv.readerRank_step {s t : State} {a : Action} {w : Nat → Reader → Nat} (hs : Inv s)
    (ht : Inv t) (hnormal : t.reader.normal = s.reader.normal)
    (hpos : w s.replied.length s.reader ≠ 0)
    (hw : ∀ r', s.reader.Moves r' → w (s.replied.length + s.reader.holds.length) r' <
      w s.replied.length s.reader)
    (h : Steps s a t) :
    (readerRank w t < readerRank w s ∨ readerRank w t = readerRank w s ∧ t.awaits = s.awaits) ∧
      (a.goroutine = some s.awaits → readerRank w t < readerRank w s) := by
  rcases hs.reader_step h with ⟨hother, hreplied, hreader | ⟨hr, hr'⟩⟩ | ⟨-, hreplied, hmoves⟩
  · obtain ⟨hover, hlt⟩ := hs.handOver_step ht h hreader
    rw [readerRank, readerRank, hreplied, hreader, if_neg hpos, if_neg hpos]
    constructor
    · rcases hover with hless | ⟨hsame, hawaits⟩
      · exact Or.inl (by omega)
      · exact Or.inr ⟨by omega, hawaits⟩
    · intro hacts
      have hless := hlt (fun hreads => hother (hreads ▸ hacts)) hacts
      omega
  · simp [hr, hr', Reader.normal] at hnormal
  · have hlt : readerRank w t < readerRank w s := by
      apply readerRank_lt
      rw [hreplied, List.length_append]
      exact hw _ hmoves
    exact ⟨Or.inl hlt, fun _ => hlt⟩

/-- The reader comes to the end of a piece of work that each of its steps takes forward. -/
theorem Live.reader_reaches (hb : Live b) {t : Nat} {n : Bool} {w : Nat → Reader → Nat}
    (hnormal : ∀ u, t ≤ u → (b.state u).reader.normal = n)
    (hw : ∀ k r r', r.normal = n → w k r ≠ 0 → r.Moves r' → w (k + r.holds.length) r' < w k r)
    (hread : ∀ u, t ≤ u → w (b.state u).replied.length (b.state u).reader ≠ 0 →
      (b.state u).reader = .reading → (b.state u).s2c ≠ [])
    (hend : ∀ k, w k .finished = 0) :
    ∃ u, t ≤ u ∧ w (b.state u).replied.length (b.state u).reader = 0 := by
  have hpos : ∀ s, readerRank w s ≠ 0 → w s.replied.length s.reader ≠ 0 :=
    fun s h h0 => h (readerRank_eq_zero.mpr h0)
  have hzero : ∃ u, t ≤ u ∧ readerRank w (b.state u) = 0 := by
    refine Behavior.comes_to_zero State.awaits (P := fun s => Inv s ∧ s.reader.normal = n ∧
      (w s.replied.length s.reader ≠ 0 → s.reader = .reading → s.s2c ≠ [])) hb.fair
      (fun u hu => ⟨hb.inv u, hnormal u hu, hread u hu⟩) ?_ ?_ ?_
    · rintro s a s' ⟨hs, hn, -⟩ ⟨hs', hn', -⟩ hrank hstep
      exact (hs.readerRank_step hs' (hn'.trans hn.symm) (hpos s hrank)
        (fun r' => hw _ _ r' hn (hpos s hrank)) (steps_of_step hstep)).1
    · rintro s ⟨hs, -, hread⟩ hrank
      refine hs.enabled_awaits (hread (hpos s hrank)) ?_
      intro hfinished
      exact hpos s hrank (by rw [hfinished, hend])
    · rintro s a s' ⟨hs, hn, -⟩ ⟨hs', hn', -⟩ hrank hacts hstep
      exact (hs.readerRank_step hs' (hn'.trans hn.symm) (hpos s hrank)
        (fun r' => hw _ _ r' hn (hpos s hrank)) (steps_of_step hstep)).2 hacts
  obtain ⟨u, hu, hrank⟩ := hzero
  exact ⟨u, hu, readerRank_eq_zero.mp hrank⟩

theorem length_stays {j t u : Nat} (htu : t ≤ u) (hj : j < (b.state t).callers.length) :
    j < (b.state u).callers.length :=
  b.always (P := fun s => j < s.callers.length)
    (fun _ _ _ h hstep => Nat.lt_of_lt_of_le h (steps_of_step hstep).length_le) htu hj

/-- A call comes to wait for its reply, or returns. -/
theorem Live.call_waits (hb : Live b) {j t : Nat} (hj : j < (b.state t).callers.length) :
    ∃ u, t ≤ u ∧ (b.state u).rank j ≤ 1 := by
  obtain ⟨u, hu, hzero⟩ : ∃ u, t ≤ u ∧ (b.state u).rank j - 1 = 0 := by
    refine Behavior.comes_to_zero (fun _ => Goroutine.caller j) (f := fun s => s.rank j - 1)
      (P := fun s => Inv s ∧ j < s.callers.length) hb.fair
      (fun u hu => ⟨hb.inv u, length_stays hu hj⟩) ?_ ?_ ?_
    · rintro s a s' ⟨-, hlt⟩ - - hstep
      have hle := ((steps_of_step hstep).rank hlt).1
      by_cases hsame : s'.rank j = s.rank j
      · exact Or.inr ⟨by rw [hsame], rfl⟩
      · by_cases hless : s'.rank j - 1 < s.rank j - 1
        · exact Or.inl hless
        · exact Or.inr ⟨by omega, rfl⟩
    · rintro s ⟨hs, -⟩ hrank
      exact hs.calls.enabled_caller (by omega)
    · rintro s a s' ⟨-, hlt⟩ - hrank hacts hstep
      have hless := ((steps_of_step hstep).rank hlt).2 hacts
      omega
  exact ⟨u, hu, by omega⟩

end Behaviors

/-! ## A connection that breaks -/

/-- The reader has yet to collect the outstanding tags. -/
def closingWork (_ : Nat) : Reader → Nat
  | .failed => 2
  | .closed => 1
  | _ => 0

/-- What is left of handing errors to the outstanding calls. -/
def flushingWork (_ : Nat) : Reader → Nat
  | .flushing tags => 2 * tags.length + 1
  | .handing _ _ (some tags) => 2 * tags.length + 2
  | _ => 0

/-- The reader hands errors to the outstanding calls, or has done so. -/
def Reader.flushes : Reader → Bool
  | .flushing _ | .handing _ _ (some _) | .finished => true
  | _ => false

theorem Reader.Moves.closingWork_lt {r r' : Reader} {k k' : Nat} (h : r.Moves r')
    (hpos : closingWork k r ≠ 0) : closingWork k' r' < closingWork k r := by
  cases h <;> simp [closingWork] at hpos ⊢

theorem Reader.Moves.flushingWork_lt {r r' : Reader} {k k' : Nat} (h : r.Moves r')
    (hpos : flushingWork k r ≠ 0) : flushingWork k' r' < flushingWork k r := by
  cases h with
  | fail tag tags ch rep =>
    simp only [flushingWork, List.length_cons]
    omega
  | _ => simp [flushingWork] at hpos ⊢

theorem Reader.Moves.flushes {r r' : Reader} (h : r.Moves r') (hflushes : r.flushes = true) :
    r'.flushes = true := by
  cases h <;> simp [Reader.flushes] at hflushes ⊢

theorem Reader.flushes_of_closingWork {r : Reader} {k : Nat} (hn : r.normal = false)
    (hfatal : ∀ b tag, r ≠ .fatal b tag) (hwork : closingWork k r = 0) : r.flushes = true := by
  cases r with
  | handing ch rep rest => cases rest <;> simp_all [Reader.normal, Reader.flushes]
  | _ => simp_all [Reader.normal, Reader.flushes, closingWork]

theorem Reader.eq_finished {r : Reader} {k : Nat} (hflushes : r.flushes = true)
    (hwork : flushingWork k r = 0) : r = .finished := by
  cases r with
  | handing ch rep rest => cases rest <;> simp_all [Reader.flushes, flushingWork]
  | _ => simp_all [Reader.flushes, flushingWork]

section Behaviors

variable {init : Bytes} {b : Behavior step (start init)}

theorem down_stays {t u : Nat} (htu : t ≤ u) (h : (b.state t).reader.normal = false) :
    (b.state u).reader.normal = false := by
  refine b.always (P := fun s => s.reader.normal = false) ?_ htu h
  intro s a s' h hstep
  by_contra hnormal
  have hold := (steps_of_step hstep).normal (by simpa using hnormal)
  simp [h] at hold

/-- What each step of the reader keeps, once the reader no longer reads. -/
theorem Live.reader_keeps (hb : Live b) {R : Reader → Prop} (hreading : ¬ R .reading)
    (hmoves : ∀ r r', R r → r.Moves r' → R r') {t u : Nat} (htu : t ≤ u)
    (h : R (b.state t).reader) : R (b.state u).reader := by
  refine (b.always_of hb.unissued (P := fun s => Inv s ∧ R s.reader) ?_ htu ⟨hb.inv t, h⟩).2
  rintro s a s' ⟨hs, hR⟩ hok hstep
  refine ⟨hs.keep hok (steps_of_step hstep), ?_⟩
  rcases hs.reader_step (steps_of_step hstep) with ⟨-, -, hr | ⟨hr, -⟩⟩ | ⟨-, -, hm⟩
  · exact hr ▸ hR
  · exact absurd (hr ▸ hR) hreading
  · exact hmoves _ _ hR hm

/-- A reader whose connection has failed answers all calls that are outstanding. -/
theorem Live.reader_finishes (hb : Live b) {t : Nat}
    (hdown : (b.state t).reader.normal = false) :
    ∃ u, t ≤ u ∧ (b.state u).reader = .finished := by
  have hclosing : ∃ u, t ≤ u ∧ closingWork (b.state u).replied.length (b.state u).reader = 0 := by
    refine hb.reader_reaches (n := false) (fun u hu => down_stays hu hdown)
      (fun k r r' _ hpos h => h.closingWork_lt hpos) ?_ fun _ => rfl
    intro u _ hpos hr
    simp [hr, closingWork] at hpos
  obtain ⟨u, hu, hwork⟩ := hclosing
  have hdown' := down_stays hu hdown
  have hflushes := Reader.flushes_of_closingWork hdown' (hb.inv u).answered.fatal hwork
  have hflushing : ∃ v, u ≤ v ∧
      flushingWork (b.state v).replied.length (b.state v).reader = 0 := by
    refine hb.reader_reaches (n := false) (fun v hv => down_stays hv hdown')
      (fun k r r' _ hpos h => h.flushingWork_lt hpos) ?_ fun _ => rfl
    intro v _ hpos hr
    simp [hr, flushingWork] at hpos
  obtain ⟨v, hv, hwork⟩ := hflushing
  have hkeeps := hb.reader_keeps (R := fun r => r.flushes = true) (by simp [Reader.flushes])
    (fun r r' hr hm => hm.flushes hr) hv hflushes
  exact ⟨v, Nat.le_trans hu hv, Reader.eq_finished hkeeps hwork⟩

/-- Once the connection has failed, every call returns. -/
theorem Live.returns_of_down (hb : Live b) {j t u : Nat} (hj : j < (b.state t).callers.length)
    (hdown : (b.state u).reader.normal = false) :
    ∃ v, t ≤ v ∧ (b.state v).Returned j := by
  obtain ⟨v, hv, hfinished⟩ := hb.reader_finishes (down_stays (Nat.le_max_right t u) hdown)
  have htv : t ≤ v := Nat.le_trans (Nat.le_max_left t u) hv
  obtain ⟨w, hw, hrank⟩ := hb.call_waits (length_stays htv hj)
  have hend : (b.state w).reader = .finished :=
    hb.reader_keeps (R := fun r => r = .finished) (by simp)
      (by rintro r r' rfl hm; cases hm) hw hfinished
  have hj' := length_stays (Nat.le_trans htv hw) hj
  refine ⟨w, Nat.le_trans htv hw, State.returned_of_rank hj' ?_⟩
  -- nobody waits for a reader that has finished
  have hnone := (hb.inv w).calls.none_pending hend j
  have hc : (b.state w).callers[j]? = some (b.state w).callers[j] := List.getElem?_eq_getElem hj'
  have hfacts := (hb.inv w).calls.facts j _ hc
  rw [State.rank_of_some hc] at hrank ⊢
  cases hpc : (b.state w).callers[j].pc with
  | waiting =>
    rw [CallerFacts, hpc] at hfacts
    simp [State.pendingTag, hc, Caller.pendingTag, hpc, CallerPc.pending, hfacts.1] at hnone
  | returned rep ok err => rfl
  | _ => simp [hpc, CallerPc.rank] at hrank

end Behaviors

/-! ## A connection that stays -/

/-- A call that has come to wait has just written its request, or waited before. -/
theorem Steps.waiting {s t : State} {a : Action} (h : Steps s a t) {j : Nat} {c' : Caller}
    (hc' : t.callers[j]? = some c') (hpc' : c'.pc = .waiting) :
    (∃ c, s.callers[j]? = some c ∧ c.pc = .waiting) ∨ ∃ delivered, a = .writeCall j delivered := by
  have hset : ∀ (i : Nat) c₀, (s.callers.set i c₀)[j]? = some c' → c₀.pc ≠ .waiting →
      ∃ c, s.callers[j]? = some c ∧ c.pc = .waiting := by
    intro i c₀ hset hne
    rcases getElem?_set_cases hset with ⟨-, rfl⟩ | ⟨-, hc⟩
    · exact absurd hpc' hne
    · exact ⟨c', hc, hpc'⟩
  cases h with
  | sendReceive b =>
    rcases getElem?_concat_cases hc' with hc | ⟨-, rfl⟩
    · exact Or.inl ⟨c', hc, hpc'⟩
    · cases hpc'
  | tag i c hi hpc => exact Or.inl (hset i _ hc' (by simp))
  | putClosed i c tag hi hpc htag hclosed => exact Or.inl (hset i _ hc' (by simp))
  | putOpen i c tag hi hpc htag hopen => exact Or.inl (hset i _ hc' (by simp))
  | writeCall i delivered c tag hi hpc htag =>
    rcases getElem?_set_cases hc' with ⟨rfl, -⟩ | ⟨-, hc⟩
    · exact Or.inr ⟨delivered, rfl⟩
    · exact Or.inl ⟨c', hc, hpc'⟩
  | handReply ch r c hr hc hpc => exact Or.inl (hset ch _ hc' (by simp))
  | handFlush ch r tags c hr hc hpc => exact Or.inl (hset ch _ hc' (by simp))
  | _ => exact Or.inl ⟨c', hc', hpc'⟩

theorem Steps.written {s t : State} {a : Action} (h : Steps s a t) {g : Nat} {go' : Go}
    (hgo' : t.gos[g]? = some go') (hw' : go'.written = true) :
    (∃ go, s.gos[g]? = some go ∧ go.written = true) ∨
      ∃ delivered, a = .srvWriteCall g delivered := by
  cases h with
  | srvReadCall f rest hr hs =>
    rcases getElem?_concat_cases hgo' with hgo | ⟨-, rfl⟩
    · exact Or.inl ⟨go', hgo, hw'⟩
    · cases hw'
  | serveRequest i rep ok go hi hres =>
    rcases getElem?_set_cases hgo' with ⟨rfl, rfl⟩ | ⟨-, hgo⟩
    · exact Or.inl ⟨go, hi, hw'⟩
    · exact Or.inl ⟨go', hgo, hw'⟩
  | srvWriteCall i delivered go rep ok hi hres hw =>
    rcases getElem?_set_cases hgo' with ⟨rfl, -⟩ | ⟨-, hgo⟩
    · exact Or.inr ⟨delivered, rfl⟩
    · exact Or.inl ⟨go', hgo, hw'⟩
  | _ => exact Or.inl ⟨go', hgo', hw'⟩

/-- Nothing has been lost on the way. -/
structure Transfers (s : State) : Prop where
  sent : ∀ (j : Nat) c, s.callers[j]? = some c → c.pc = .waiting → ∃ q ∈ s.requests, q.1 = some j
  written : ∀ (g : Nat) go, s.gos[g]? = some go → go.written = true →
    ∃ f ∈ s.replies, f.origin = some g
  serving : s.srvReader ≠ .stopped

theorem Steps.requests_mono {s t : State} {a : Action} (h : Steps s a t) (hs : Inv s) :
    s.requests <+: t.requests := by
  rcases (h.requests hs.requests.init).2 with hsame | ⟨_, _, _, _, _, _, _, hnew⟩
  · rw [hsame]
  · rw [hnew]
    exact List.prefix_append _ _

theorem Steps.replies_mono {s t : State} {a : Action} (h : Steps s a t) :
    s.replies <+: t.replies := by
  rcases h.replies with hsame | ⟨_, _, _, _, _, _, _, _, hnew⟩
  · rw [hsame]
  · rw [hnew]
    exact List.prefix_append _ _

theorem Transfers.keep {s t : State} {a : Action} (hs : Inv s) (h : Transfers s)
    (hstep : Steps s a t) (hbreaks : a.breaks = false) : Transfers t := by
  constructor
  · intro j c' hc' hpc'
    rcases hstep.waiting hc' hpc' with ⟨c, hc, hpc⟩ | ⟨delivered, rfl⟩
    · obtain ⟨q, hq, hqj⟩ := h.sent j c hc hpc
      exact ⟨q, (hstep.requests_mono hs).subset hq, hqj⟩
    · obtain rfl : delivered = true := by simpa [Action.breaks] using hbreaks
      cases hstep with
      | writeCall j delivered c tag hc hpc htag =>
        refine ⟨(some j, tag, c.req), ?_, rfl⟩
        refine List.mem_append_right _ (List.mem_map.mpr ⟨⟨tag, c.req, true, some j⟩, ?_, rfl⟩)
        cases hr : s.srvReader with
        | init =>
          simp [State.inTransit, State.setCaller, hr,
            List.tail_append_of_ne_nil (hs.requests.init hr)]
        | _ => simp [State.inTransit, State.setCaller, hr]
      | closers a closers ha => simp at ha
  · intro g go' hgo' hw'
    rcases hstep.written hgo' hw' with ⟨go, hgo, hw⟩ | ⟨delivered, rfl⟩
    · obtain ⟨f, hf, hfg⟩ := h.written g go hgo hw
      exact ⟨f, hstep.replies_mono.subset hf, hfg⟩
    · obtain rfl : delivered = true := by simpa [Action.breaks] using hbreaks
      cases hstep with
      | srvWriteCall g delivered go rep ok hg hres hw =>
        exact ⟨⟨go.tag, rep, ok, some g⟩, by simp [State.replies], rfl⟩
      | closers a closers ha => simp at ha
  · have hserving := h.serving
    cases hstep with
    | srvReadFail eof hr => cases hbreaks
    | srvReadCall f rest hr hs => exact hserving
    | srvInit f rest hr hs => simp
    | _ => exact hserving

/-- A reply that the reader has looked up has been handed over, or is being handed over. -/
def LookedUp (s : State) : Prop :=
  ∀ f ∈ s.replied, ∀ (g : Nat) go j, f.origin = some g → s.gos[g]? = some go →
    go.origin = some j → s.Returned j ∨ s.reader.handsTo = some j

theorem Steps.returned {s t : State} {a : Action} (h : Steps s a t) {j : Nat}
    (hj : s.Returned j) : t.Returned j := by
  obtain ⟨c, rep, ok, err, hc, hpc⟩ := hj
  have hlt := (List.getElem?_eq_some_iff.mp hc).1
  apply State.returned_of_rank (Nat.lt_of_lt_of_le hlt h.length_le)
  have hle := (h.rank hlt).1
  rw [State.rank_of_some hc, hpc] at hle
  exact Nat.le_zero.mp hle

theorem Steps.handsTo {s t : State} {a : Action} (h : Steps s a t) {j : Nat}
    (hj : s.reader.handsTo = some j) : t.Returned j ∨ t.reader.handsTo = some j := by
  cases h with
  | handReply ch r c hr hc hpc =>
    obtain rfl : ch = j := by simpa [hr, Reader.handsTo] using hj
    exact Or.inl ⟨_, r.rep, r.ok, r.err, getElem?_set_of_some hc _, rfl⟩
  | handFlush ch r tags c hr hc hpc =>
    obtain rfl : ch = j := by simpa [hr, Reader.handsTo] using hj
    exact Or.inl ⟨_, r.rep, r.ok, r.err, getElem?_set_of_some hc _, rfl⟩
  | readCall | readFail | closeCalls | outstanding | removeReply | removeFlush | fatalReply
  | fatalFlush | finish => simp_all [Reader.handsTo]
  | _ => exact Or.inr hj

/-- The reader has just looked up the call of the reply it held. -/
theorem Inv.handsTo_held {s t : State} {a : Action} (ht : Inv t) (h : Steps s a t) {f : Frame}
    (hf : f ∈ t.replied) (hnew : f ∉ s.replied) {g j : Nat} {go : Go} (hg : f.origin = some g)
    (hgo : t.gos[g]? = some go) (hj : go.origin = some j) : t.reader.handsTo = some j := by
  cases h with
  | removeReply f' ch hr hl =>
    obtain rfl : f = f' := by simpa [hnew] using hf
    obtain ⟨f'', -, horigin, -, -, g', go', hg', hgo', hj'⟩ :=
      ht.answered.handing ch _ none rfl rfl
    obtain rfl : g = g' := Option.some.inj ((horigin.trans hg).symm.trans hg')
    cases hgo.symm.trans hgo'
    exact hj'.symm.trans hj
  | fatalReply f' hr hl => exact absurd rfl (ht.answered.fatal _ _)
  | _ => exact absurd hf hnew

theorem LookedUp.keep {s t : State} {a : Action} (hs : Inv s) (ht : Inv t) (h : LookedUp s)
    (hstep : Steps s a t) : LookedUp t := by
  intro f hf g go j hg hgo hj
  by_cases hold : f ∈ s.replied
  · obtain ⟨g', go', hg', hgo', -⟩ :=
      hs.replies.served f (List.mem_append_left _ (List.mem_append_left _ hold))
    obtain rfl : g = g' := Option.some.inj (hg.symm.trans hg')
    obtain ⟨go'', hgo'', hreq, -⟩ := hstep.go hgo'
    cases hgo.symm.trans hgo''
    have hj' : go'.origin = some j := (congrArg Prod.fst hreq).symm.trans hj
    rcases h f hold g go' j hg hgo' hj' with hreturned | hhands
    · exact Or.inl (hstep.returned hreturned)
    · exact hstep.handsTo hhands
  · exact Or.inr (ht.handsTo_held hstep hf hold hg hgo hj)

section Behaviors

variable {init : Bytes} {b : Behavior step (start init)}

theorem Live.lookedUp (hb : Live b) (t : Nat) : LookedUp (b.state t) := by
  refine (b.always_of hb.unissued (P := fun s => Inv s ∧ LookedUp s) ?_ (Nat.zero_le t) ?_).2
  · rintro s a s' ⟨hs, h⟩ hok hstep
    have hs' := hs.keep hok (steps_of_step hstep)
    exact ⟨hs', h.keep hs hs' (steps_of_step hstep)⟩
  · rw [b.init]
    exact ⟨Inv.init init, by simp [LookedUp, start]⟩

/-- The reader is never failed, so nothing is ever lost. -/
theorem Live.transfers (hb : Live b) (hup : ∀ u, (b.state u).reader.normal = true) (t : Nat) :
    Transfers (b.state t) := by
  have hallowed : ∀ t a, b.act t = some a → Unissued (b.state t) a ∧ a.breaks = false := by
    intro t a hact
    refine ⟨hb.unissued t a hact, ?_⟩
    by_contra hbreaks
    obtain ⟨u, hdown⟩ := hb.noticed t a hact (by simpa using hbreaks)
    simp [hup u] at hdown
  refine (b.always_of (Q := fun s a => Unissued s a ∧ a.breaks = false) hallowed
    (P := fun s => Inv s ∧ Transfers s) ?_ (Nat.zero_le t) ?_).2
  · rintro s a s' ⟨hs, h⟩ ⟨hok, hbreaks⟩ hstep
    exact ⟨hs.keep hok (steps_of_step hstep), h.keep hs (steps_of_step hstep) hbreaks⟩
  · rw [b.init]
    exact ⟨Inv.init init, by constructor <;> simp [start]⟩

/-- The frames the server has yet to read up to request `p`, and the initial message. -/
def readingWork (p : Nat) (s : State) : Nat :=
  if p < s.gos.length then 0
  else 2 * (p + 1 - s.gos.length) + (if s.srvReader = .init then 1 else 0)

theorem readingWork_step {p : Nat} {s t : State} {a : Action} (h : Steps s a t)
    (ht : t.srvReader ≠ .stopped) (hpos : readingWork p s ≠ 0) :
    readingWork p t ≤ readingWork p s ∧
      (a.goroutine = some .srvReader → readingWork p t < readingWork p s) := by
  have hp : ¬ p < s.gos.length := fun hlt => hpos (if_pos hlt)
  cases h with
  | srvInit f rest hr hs =>
    have hlt : readingWork p { s with srvReader := .reading, c2s := rest } < readingWork p s := by
      simp [readingWork, hp, hr]
    exact ⟨Nat.le_of_lt hlt, fun _ => hlt⟩
  | srvReadCall f rest hr hs =>
    have hlt : readingWork p { s with
        c2s := rest, gos := s.gos ++ [⟨f.tag, f.data, none, false, f.origin⟩] } <
          readingWork p s := by
      simp only [readingWork, hp, hr, List.length_append, List.length_singleton]
      split <;> simp <;> omega
    exact ⟨Nat.le_of_lt hlt, fun _ => hlt⟩
  | srvReadFail eof hr => exact absurd rfl ht
  | serveRequest g rep ok go hg hres =>
    exact ⟨by simp [readingWork], fun h => nomatch h⟩
  | srvWriteCall g delivered go rep ok hg hres hw =>
    exact ⟨by simp [readingWork], fun h => nomatch h⟩
  | closers a closers ha =>
    rcases ha with rfl | ⟨c, rfl | rfl⟩ <;> exact ⟨Nat.le_refl _, fun h => nomatch h⟩
  | _ => exact ⟨Nat.le_refl _, fun h => nomatch h⟩

/-- The server gets to read a request that has been sent. -/
theorem Live.request_read (hb : Live b) (hup : ∀ u, (b.state u).reader.normal = true) {p t : Nat}
    (hp : p < (b.state t).requests.length) : ∃ u, t ≤ u ∧ p < (b.state u).gos.length := by
  have hlength : ∀ u, t ≤ u → Inv (b.state u) ∧ p < (b.state u).requests.length := by
    intro u hu
    refine b.always_of hb.unissued (P := fun s => Inv s ∧ p < s.requests.length) ?_ hu
      ⟨hb.inv t, hp⟩
    rintro s a s' ⟨hs, hlt⟩ hok hstep
    exact ⟨hs.keep hok (steps_of_step hstep),
      Nat.lt_of_lt_of_le hlt ((steps_of_step hstep).requests_mono hs).length_le⟩
  obtain ⟨u, hu, hzero⟩ : ∃ u, t ≤ u ∧ readingWork p (b.state u) = 0 := by
    refine Behavior.comes_to_zero (fun _ => Goroutine.srvReader)
      (P := fun s => Inv s ∧ p < s.requests.length ∧ s.srvReader ≠ .stopped) hb.fair
      (fun u hu => ⟨(hlength u hu).1, (hlength u hu).2, (hb.transfers hup u).serving⟩) ?_ ?_ ?_
    · rintro s a s' - ⟨-, -, hserving⟩ hpos hstep
      have hle := (readingWork_step (steps_of_step hstep) hserving hpos).1
      rcases Nat.lt_or_eq_of_le hle with hlt | heq
      · exact Or.inl hlt
      · exact Or.inr ⟨heq, rfl⟩
    · rintro s ⟨hs, hlt, hserving⟩ hpos
      have hgos : ¬ p < s.gos.length := fun h => hpos (if_pos h)
      rw [State.requests, List.length_append, List.length_map, List.length_map] at hlt
      cases hr : s.srvReader with
      | init =>
        obtain ⟨f, rest, hc2s⟩ := List.exists_cons_of_ne_nil (hs.requests.init hr)
        exact ⟨.srvInit, rfl, by simp [step, State.server, hr, hc2s]⟩
      | reading =>
        have hne : s.c2s ≠ [] := by
          intro hnil
          simp only [State.inTransit, hr, hnil, List.length_nil] at hlt
          omega
        obtain ⟨f, rest, hc2s⟩ := List.exists_cons_of_ne_nil hne
        exact ⟨.srvReadCall, rfl, by simp [step, State.server, hr, hc2s]⟩
      | stopped => exact absurd hr hserving
    · rintro s a s' - ⟨-, -, hserving⟩ hpos hacts hstep
      exact (readingWork_step (steps_of_step hstep) hserving hpos).2 hacts
  refine ⟨u, hu, ?_⟩
  by_contra hlt
  rw [readingWork, if_neg hlt] at hzero
  omega

/-- Whether goroutine `g` has yet to write its reply. -/
def State.unwritten (s : State) (g : Nat) : Nat :=
  (s.gos[g]?.map fun go => if go.written then 0 else 1).getD 0

/-- A goroutine whose handler has returned writes the reply. -/
theorem Live.reply_written (hb : Live b) {g t : Nat} {go : Go}
    (hgo : (b.state t).gos[g]? = some go) (hres : go.result ≠ none) :
    ∃ u go', t ≤ u ∧ (b.state u).gos[g]? = some go' ∧ go'.written = true ∧
      go'.origin = go.origin := by
  have hserved : ∀ u, t ≤ u → ∃ go', (b.state u).gos[g]? = some go' ∧ go'.result ≠ none ∧
      go'.origin = go.origin := by
    intro u hu
    refine b.always (P := fun s => ∃ go', s.gos[g]? = some go' ∧ go'.result ≠ none ∧
      go'.origin = go.origin) ?_ hu ⟨go, hgo, hres, rfl⟩
    rintro s a s' ⟨go', hgo', hres', horigin⟩ hstep
    obtain ⟨go'', hgo'', hreq, hkept, -⟩ := (steps_of_step hstep).go hgo'
    obtain ⟨res, hsome⟩ := Option.ne_none_iff_exists'.mp hres'
    exact ⟨go'', hgo'', by simp [hkept res hsome], (congrArg Prod.fst hreq).trans horigin⟩
  have hbound : ∀ s : State, s.unwritten g ≤ 1 := by
    intro s
    rw [State.unwritten]
    cases s.gos[g]? with
    | none => simp
    | some go => simp only [Option.map_some, Option.getD_some]; split <;> simp
  obtain ⟨u, hu, hzero⟩ : ∃ u, t ≤ u ∧ (b.state u).unwritten g = 0 := by
    refine Behavior.comes_to_zero (fun _ => Goroutine.handler g) (f := fun s => s.unwritten g)
      (P := fun s => ∃ go', s.gos[g]? = some go' ∧ go'.result ≠ none ∧ go'.origin = go.origin)
      hb.fair hserved ?_ ?_ ?_
    · intro s a s' _ _ hpos _
      have hle := hbound s'
      rcases Nat.lt_or_eq_of_le (Nat.le_trans hle (Nat.one_le_iff_ne_zero.mpr hpos)) with hlt | heq
      · exact Or.inl hlt
      · exact Or.inr ⟨heq, rfl⟩
    · rintro s ⟨go', hgo', hres', -⟩ hpos
      obtain ⟨⟨rep, ok⟩, hsome⟩ := Option.ne_none_iff_exists'.mp hres'
      have hw : go'.written = false := by
        by_contra hw
        simp [State.unwritten, hgo', hw] at hpos
      exact ⟨.srvWriteCall g true, rfl, by simp [step, State.server, hgo', hsome, hw]⟩
    · rintro s a s' - - hpos hacts hstep
      have hless : s'.unwritten g = 0 := by
        cases steps_of_step hstep with
        | srvWriteCall g' delivered go' rep ok hg hres hw =>
          obtain rfl : g' = g := Goroutine.handler.inj (Option.some.inj hacts)
          simp [State.unwritten, getElem?_set_of_some hg]
        | closers a closers ha => rcases ha with rfl | ⟨c, rfl | rfl⟩ <;> cases hacts
        | _ => cases hacts
      rw [hless]
      exact Nat.pos_of_ne_zero hpos
  obtain ⟨go', hgo', -, horigin⟩ := hserved u hu
  refine ⟨u, go', hu, hgo', ?_, horigin⟩
  by_contra hw
  simp [State.unwritten, hgo', hw] at hzero

/-- The frames the reader has yet to look up, up to reply `p`. -/
def lookupWork (p k : Nat) : Reader → Nat
  | .handing _ _ none => if p < k then 0 else 3 * (p + 1 - k) + 2
  | .reading => if p < k then 0 else 3 * (p + 1 - k) + 1
  | .replying _ => if p < k then 0 else 3 * (p + 1 - k)
  | _ => 0

theorem lookupWork_of_lt {p k : Nat} (r : Reader) (h : p < k) : lookupWork p k r = 0 := by
  cases r with
  | handing ch rep rest => cases rest <;> simp [lookupWork, h]
  | _ => simp [lookupWork, h]

theorem lt_of_lookupWork {p k : Nat} {r : Reader} (hn : r.normal = true)
    (h : lookupWork p k r = 0) : p < k := by
  by_contra hlt
  cases r with
  | handing ch rep rest => cases rest <;> simp_all [lookupWork, Reader.normal]
  | replying f =>
    rw [lookupWork, if_neg hlt] at h
    omega
  | _ => simp_all [lookupWork, Reader.normal]

theorem Reader.Moves.lookupWork_lt {p k : Nat} {r r' : Reader} (h : r.Moves r')
    (hn : r.normal = true) (hpos : lookupWork p k r ≠ 0) :
    lookupWork p (k + r.holds.length) r' < lookupWork p k r := by
  have hp : ¬ p < k := fun hlt => hpos (lookupWork_of_lt r hlt)
  cases h with
  | read f => simp [lookupWork, Reader.holds, hp]
  | reply f ch rep =>
    by_cases hlt : p < k + 1
    · rw [Reader.holds, List.length_singleton, lookupWork_of_lt _ hlt]
      exact Nat.pos_of_ne_zero hpos
    · rw [Reader.holds, List.length_singleton, lookupWork, lookupWork, if_neg hlt, if_neg hp]
      omega
  | handed ch rep => simp [lookupWork, Reader.holds, hp]
  | close | collect | fail | failed | finish => cases hn

/-- The reader gets to look up a reply that has been sent. -/
theorem Live.reply_lookedUp (hb : Live b) (hup : ∀ u, (b.state u).reader.normal = true)
    {p t : Nat} (hp : p < (b.state t).replies.length) :
    ∃ u, t ≤ u ∧ p < (b.state u).replied.length := by
  have hlength : ∀ u, t ≤ u → p < (b.state u).replies.length := fun u hu =>
    b.always (P := fun s => p < s.replies.length)
      (fun _ _ _ h hstep => Nat.lt_of_lt_of_le h (steps_of_step hstep).replies_mono.length_le)
      hu hp
  obtain ⟨u, hu, hzero⟩ := hb.reader_reaches (w := lookupWork p) (fun u (_ : t ≤ u) => hup u)
    (fun k r r' hn hpos h => h.lookupWork_lt hn hpos) (fun u hu hpos hr hnil => by
      have hlt := hlength u hu
      simp only [State.replies, hr, Reader.holds, hnil, List.append_nil] at hlt
      exact hpos (lookupWork_of_lt _ hlt)) fun _ => rfl
  exact ⟨u, hu, lt_of_lookupWork (hup u) hzero⟩

theorem go_stays {g j t u : Nat} (htu : t ≤ u)
    (h : ∃ go, (b.state t).gos[g]? = some go ∧ go.origin = some j) :
    ∃ go, (b.state u).gos[g]? = some go ∧ go.origin = some j := by
  refine b.always (P := fun s => ∃ go, s.gos[g]? = some go ∧ go.origin = some j) ?_ htu h
  rintro s a s' ⟨go, hgo, hj⟩ hstep
  obtain ⟨go', hgo', hreq, -⟩ := (steps_of_step hstep).go hgo
  exact ⟨go', hgo', (congrArg Prod.fst hreq).trans hj⟩

/-- The reader hands over what it holds. -/
def handingWork (_ : Nat) : Reader → Nat
  | .handing _ _ _ => 1
  | _ => 0

/-- A call whose reply has been looked up returns. -/
theorem Live.returns_of_lookedUp (hb : Live b) (hup : ∀ u, (b.state u).reader.normal = true)
    {t g j : Nat} {f : Frame} {go : Go} (hf : f ∈ (b.state t).replied) (hg : f.origin = some g)
    (hgo : (b.state t).gos[g]? = some go) (hj : go.origin = some j) :
    ∃ u, t ≤ u ∧ (b.state u).Returned j := by
  obtain ⟨u, hu, hzero⟩ := hb.reader_reaches (w := handingWork) (fun u (_ : t ≤ u) => hup u)
    (fun k r r' _ hpos h => by cases h <;> simp [handingWork] at hpos ⊢)
    (fun u _ hpos hr => by simp [hr, handingWork] at hpos) fun _ => rfl
  have hf' : f ∈ (b.state u).replied :=
    b.always (P := fun s => f ∈ s.replied) (fun _ _ _ h hstep => (steps_of_step hstep).replied h)
      hu hf
  obtain ⟨go', hgo', hj'⟩ := go_stays hu ⟨go, hgo, hj⟩
  rcases hb.lookedUp u f hf' g go' j hg hgo' hj' with hreturned | hhands
  · exact ⟨u, hu, hreturned⟩
  · cases hr : (b.state u).reader with
    | handing ch r rest => simp [hr, handingWork] at hzero
    | _ => simp [hr, Reader.handsTo] at hhands

/-- The handler of call `j` runs. -/
def State.Serves (s : State) (j : Nat) : Prop :=
  ∃ (g : Nat) (go : Go), s.gos[g]? = some go ∧ go.origin = some j ∧ go.result = none

/-- A request that has been sent gets a goroutine of the server. -/
theorem Live.request_served (hb : Live b) (hup : ∀ u, (b.state u).reader.normal = true)
    {j t : Nat} (h : ∃ q ∈ (b.state t).requests, q.1 = some j) :
    ∃ (u g : Nat) (go : Go), t ≤ u ∧ (b.state u).gos[g]? = some go ∧ go.origin = some j := by
  obtain ⟨q, hq, hqj⟩ := h
  obtain ⟨p, hp⟩ := List.getElem?_of_mem hq
  obtain ⟨u, hu, hlt⟩ := hb.request_read hup (List.getElem?_eq_some_iff.mp hp).1
  have hkept : (b.state u).requests[p]? = some q := by
    refine (b.always_of hb.unissued (P := fun s => Inv s ∧ s.requests[p]? = some q) ?_ hu
      ⟨hb.inv t, hp⟩).2
    rintro s a s' ⟨hs, hp⟩ hok hstep
    exact ⟨hs.keep hok (steps_of_step hstep),
      getElem?_of_prefix ((steps_of_step hstep).requests_mono hs) hp⟩
  have hgo : (b.state u).gos[p]? = some (b.state u).gos[p] := List.getElem?_eq_getElem hlt
  refine ⟨u, p, _, hu, hgo, ?_⟩
  rw [State.requests, List.getElem?_append_left (by simpa using hlt), List.getElem?_map, hgo]
    at hkept
  cases hkept
  exact hqj

/-- A reply that has been written is looked up. -/
theorem Live.reply_reaches (hb : Live b) (hup : ∀ u, (b.state u).reader.normal = true)
    {f : Frame} {t : Nat} (hf : f ∈ (b.state t).replies) :
    ∃ u, t ≤ u ∧ f ∈ (b.state u).replied := by
  obtain ⟨p, hp⟩ := List.getElem?_of_mem hf
  obtain ⟨u, hu, hlt⟩ := hb.reply_lookedUp hup (List.getElem?_eq_some_iff.mp hp).1
  have hkept : (b.state u).replies[p]? = some f :=
    b.always (P := fun s => s.replies[p]? = some f)
      (fun _ _ _ h hstep => getElem?_of_prefix (steps_of_step hstep).replies_mono h) hu hp
  rw [State.replies, List.append_assoc, List.getElem?_append_left hlt] at hkept
  exact ⟨u, hu, List.mem_of_getElem? hkept⟩

/-- Where nothing is lost, a call whose handler does not run forever returns. -/
theorem Live.returns_of_up (hb : Live b) (hup : ∀ u, (b.state u).reader.normal = true) {j t : Nat}
    (hj : j < (b.state t).callers.length)
    (hends : ∀ u, t ≤ u → ∃ v, u ≤ v ∧ ¬ (b.state v).Serves j) :
    ∃ u, t ≤ u ∧ (b.state u).Returned j := by
  obtain ⟨u₁, hu₁, hrank⟩ := hb.call_waits hj
  have hj₁ := length_stays hu₁ hj
  by_cases hzero : (b.state u₁).rank j = 0
  · exact ⟨u₁, hu₁, State.returned_of_rank hj₁ hzero⟩
  · have hc : (b.state u₁).callers[j]? = some (b.state u₁).callers[j] :=
      List.getElem?_eq_getElem hj₁
    have hpc : (b.state u₁).callers[j].pc = .waiting := by
      rw [State.rank_of_some hc] at hrank hzero
      cases hpc : (b.state u₁).callers[j].pc <;> simp_all [CallerPc.rank]
    -- the request, then the handler, then the reply
    obtain ⟨u₂, g, go₂, hu₂, hgo₂, hj₂⟩ :=
      hb.request_served hup ((hb.transfers hup u₁).sent j _ hc hpc)
    obtain ⟨u₃, hu₃, hserves⟩ := hends u₂ (Nat.le_trans hu₁ hu₂)
    obtain ⟨go₃, hgo₃, hj₃⟩ := go_stays hu₃ ⟨go₂, hgo₂, hj₂⟩
    obtain ⟨u₄, go₄, hu₄, hgo₄, hwritten, horigin⟩ :=
      hb.reply_written hgo₃ fun hres => hserves ⟨g, go₃, hgo₃, hj₃, hres⟩
    obtain ⟨f, hf, hfg⟩ := (hb.transfers hup u₄).written g go₄ hgo₄ hwritten
    obtain ⟨u₅, hu₅, hf₅⟩ := hb.reply_reaches hup hf
    obtain ⟨go₅, hgo₅, hj₅⟩ := go_stays hu₅ ⟨go₄, hgo₄, horigin.trans hj₃⟩
    obtain ⟨u₆, hu₆, hreturned⟩ := hb.returns_of_lookedUp hup hf₅ hfg hgo₅ hj₅
    exact ⟨u₆, by omega, hreturned⟩

/-- The call has returned, with an error or with what the goroutine that served its own request
produced for it. -/
def State.ReturnedOwn (s : State) (j : Nat) : Prop :=
  ∃ c rep ok err, s.callers[j]? = some c ∧ c.pc = .returned rep ok err ∧
    (err = none → ∃ (g : Nat) (go : Go), s.gos[g]? = some go ∧ go.origin = some j ∧
      go.req = c.req ∧ go.result = some (rep, ok))

theorem Inv.returnedOwn {s : State} (h : Inv s) {j : Nat} (hj : s.Returned j) :
    s.ReturnedOwn j := by
  obtain ⟨c, rep, ok, err, hc, hpc⟩ := hj
  refine ⟨c, rep, ok, err, hc, hpc, ?_⟩
  rintro rfl
  obtain ⟨g, go, hgo, horigin, hreq, hres, -⟩ := h.own_reply hc hpc
  exact ⟨g, go, hgo, horigin, hreq, hres⟩

/-- Every `SendReceive` returns, with its own reply or an error, unless its handler runs forever
on a connection that stays. -/
theorem sendReceive_returns (b : Behavior step (start init)) (hb : Live b) {j t : Nat}
    (hj : j < (b.state t).callers.length) :
    (∃ u, t ≤ u ∧ (b.state u).ReturnedOwn j) ∨
      ∃ u, t ≤ u ∧ ∀ v, u ≤ v → (b.state v).Serves j ∧ (b.state v).reader.normal = true := by
  by_cases hup : ∀ u, (b.state u).reader.normal = true
  · by_cases hends : ∀ u, t ≤ u → ∃ v, u ≤ v ∧ ¬ (b.state v).Serves j
    · obtain ⟨u, hu, hreturned⟩ := hb.returns_of_up hup hj hends
      exact Or.inl ⟨u, hu, (hb.inv u).returnedOwn hreturned⟩
    · push Not at hends
      obtain ⟨u, hu, hserves⟩ := hends
      exact Or.inr ⟨u, hu, fun v hv => ⟨hserves v hv, hup v⟩⟩
  · push Not at hup
    obtain ⟨u, hdown⟩ := hup
    obtain ⟨v, hv, hreturned⟩ := hb.returns_of_down hj (by simpa using hdown)
    exact Or.inl ⟨v, hv, (hb.inv v).returnedOwn hreturned⟩

end Behaviors

/-- A call whose request is lost when the connection breaks. -/
def lostWrite : List Action :=
  [.srvInit, .sendReceive [7], .tag 0, .put 0, .writeCall 0 false, .readFail, .closeCalls,
   .outstanding (RangeOrder.stored Ttag), .remove, .hand, .finish]

theorem lostWrite_unissued : Obeys step (start []) Unissued lostWrite := by
  refine .cons trivial fun s hs => .cons trivial fun s' hs' => .cons (fun j => ?_) fun t ht =>
    .of_forall fun a ha u => ?_
  · cases hs
    cases hs'
    cases j <;> simp [State.activeTag, Caller.activeTag, start, CallerPc.active]
  · cases a with
    | tag j => simp at ha
    | _ => trivial

theorem lostWrite_runs : ∃ s c, run step (start []) lostWrite = some s ∧ s.reader = .finished ∧
    s.callers = [c] ∧ c.pc.rank = 0 ∧ s.srvReader = .reading ∧ s.c2s = [] ∧ s.gos = [] :=
  ⟨_, _, rfl, rfl, rfl, rfl, rfl, rfl, rfl⟩

/-- Where the calls have returned and the server has nothing to read, nobody can go on. -/
theorem not_enabled {s : State} {c : Caller} (hr : s.reader = .finished)
    (hcallers : s.callers = [c]) (hc : c.pc.rank = 0) (hsrv : s.srvReader = .reading)
    (hc2s : s.c2s = []) (hgos : s.gos = []) (g : Goroutine) : ¬ Enabled step (Acts g) s := by
  rintro ⟨a, hacts, hsome⟩
  obtain ⟨t, hstep⟩ := Option.isSome_iff_exists.mp hsome
  have hrank : ∀ (j : Nat) c', s.callers[j]? = some c' → c'.pc.rank = 0 := by
    intro j c' hj
    rw [hcallers] at hj
    obtain rfl := List.mem_singleton.mp (List.mem_of_getElem? hj)
    exact hc
  cases steps_of_step hstep with
  | tag j c' hj hpc => simpa [hpc, CallerPc.rank] using hrank j c' hj
  | putClosed j c' tag hj hpc => simpa [hpc, CallerPc.rank] using hrank j c' hj
  | putOpen j c' tag hj hpc => simpa [hpc, CallerPc.rank] using hrank j c' hj
  | writeCall j delivered c' tag hj hpc => simpa [hpc, CallerPc.rank] using hrank j c' hj
  | srvInit f rest hinit => simp [hsrv] at hinit
  | srvReadCall f rest hreading hread => simp [hc2s] at hread
  | srvWriteCall g delivered go rep ok hg => simp [hgos] at hg
  | closers a closers ha => rcases ha with rfl | ⟨c, rfl | rfl⟩ <;> cases hacts
  | sendReceive | closeMap | srvReadFail | serveRequest | srvClose => cases hacts
  | _ => simp_all

theorem lostWrite_returns : ∃ b : Behavior step (start []), Live b ∧
    0 < (b.state 2).callers.length ∧ ((∃ u, 2 ≤ u ∧ (b.state u).ReturnedOwn 0) ∨
      ∃ u, 2 ≤ u ∧ ∀ v, u ≤ v → (b.state v).Serves 0 ∧ (b.state v).reader.normal = true) := by
  obtain ⟨s, c, hrun, hr, hcallers, hc, hsrv, hc2s, hgos⟩ := lostWrite_runs
  have hlive : Live (Behavior.ofRun s lostWrite hrun) := by
    refine ⟨fun g => ?_, Behavior.ofRun_allowed hrun lostWrite_unissued, ?_⟩
    · exact Behavior.ofRun_weakFair hrun (not_enabled hr hcallers hc hsrv hc2s hgos g)
    · intro t a _ _
      refine ⟨lostWrite.length, ?_⟩
      rw [Behavior.ofRun_state hrun (Nat.le_refl _), hr]
      rfl
  have hlen : 0 < ((Behavior.ofRun s lostWrite hrun).state 2).callers.length := Nat.zero_lt_one
  exact ⟨_, hlive, hlen, sendReceive_returns _ hlive hlen⟩

end Demux
