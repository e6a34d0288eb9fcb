import DistLabs.KvTest

/-!
# Retry loops of the key/value tests

`PutAtLeastOnce` guesses the version of a key and increments its guess each time a
`Put` was refused or left open. It runs against any store whose version does not
go down: a step of the store writes the key, for this client or for another, and
the answer to a `Put` is bound only by what `Clerk.Put` documents of the moments
of the call.

`OnePut` is given, round by round, whatever `PutJson` and `GetJson` return. The store is
not trusted here, so versions are machine words: after the largest comes 0.
-/
namespace KvTest

open Runs Versioned

/-! ## PutAtLeastOnce -/

/-- A `Put` that has been called, and what happened to the key since: its version was
different, it was absent, the `Put` was applied. -/
structure PutCall where
  differed : Bool
  absent : Bool
  applied : Bool
  deriving DecidableEq

/-- The errors that `Clerk.Put` may return. -/
def PutCall.mayReturn (call : PutCall) : Err → Bool
  | .OK => call.applied
  | .ErrVersion => call.differed
  | .ErrMaybe => call.differed
  | _ => call.absent

inductive LoopPc where
  | loop
  | calling (call : PutCall)
  | returned (ver : Tversion) (desp details : String)
  | fatal (text : String)

/-- The key in the store, and the variables of `PutAtLeastOnce`. -/
structure PutLoop where
  cell : Cell (Option String)
  verPrev : Tversion
  ver : Tversion
  pc : LoopPc

def PutLoop.start (cell : Cell (Option String)) (ver : Tversion) : PutLoop :=
  ⟨cell, ver, ver, .loop⟩

/-- The rest of a pass through the loop once `Put` has returned. -/
def putAtLeastOnceErr (key value : String) (st : PutLoop) (err : Err) : PutLoop :=
  if err = .OK then
    let ver := st.ver + 1
    { st with
      ver := ver
      pc := .returned ver ("Put(" ++ key ++ ", " ++ value ++ ") completes")
        ("version: " ++ toString st.verPrev ++ " -> " ++ toString ver) }
  else if err = .ErrMaybe ∨ err = .ErrVersion then { st with ver := st.ver + 1, pc := .loop }
  else if st.ver ≠ 0 then
    { st with pc := .fatal ("Put " ++ key ++ " ver " ++ toString st.ver ++ " err " ++ err.text) }
  else { st with pc := .loop }

/-- A step of the client or of the store. A write is `own` if it applies the `Put` of this
client that is being called. -/
inductive LoopAct where
  | put
  | write (cell : Cell (Option String)) (own : Bool)
  | reply (err : Err)

def PutLoop.called (st : PutLoop) : PutCall :=
  ⟨st.cell.version ≠ st.ver, st.cell.version = 0, false⟩

/-- What the call sees of a write. -/
def PutLoop.seen (value : String) (st : PutLoop) (call : PutCall) (cell : Cell (Option String))
    (own : Bool) : PutCall where
  differed := call.differed || cell.version ≠ st.ver
  absent := call.absent || cell.version = 0
  applied := call.applied || (own && st.cell.version = st.ver && cell.version = st.ver + 1 &&
    cell.value = some value)

def PutLoop.step (key value : String) (st : PutLoop) : LoopAct → Option PutLoop
  | .put =>
    match st.pc with
    | .loop => some { st with pc := .calling st.called }
    | _ => none
  | .write cell own =>
    if st.cell.version ≤ cell.version then
      some { st with
        cell := cell
        pc := match st.pc with
          | .calling call => .calling (st.seen value call cell own)
          | pc => pc }
    else none
  | .reply err =>
    match st.pc with
    | .calling call =>
      if call.mayReturn err then some (putAtLeastOnceErr key value st err) else none
    | _ => none

section AtLeastOnce

variable {key value : String}

/-- The `Put` of version `r - 1` that this client was calling has taken effect, and left the
key with its value at version `r`. -/
def TookEffect (key value : String) (s : PutLoop) (acts : List LoopAct) (r : Tversion) : Prop :=
  TakenAt (PutLoop.step key value) s acts (.write ⟨some value, r⟩ true) fun t =>
    t.cell.version + 1 = r ∧ t.ver + 1 = r ∧ ∃ call, t.pc = .calling call

/-- What holds at each place of the loop. -/
def LoopFacts (effect : Tversion → Prop) (st : PutLoop) : LoopPc → Prop
  | .loop => st.ver ≤ st.cell.version
  | .calling call =>
    st.ver ≤ st.cell.version ∧ (call.differed = true → st.ver < st.cell.version) ∧
      (call.absent = true → st.ver = 0) ∧
      (call.applied = true → st.ver < st.cell.version ∧ effect (st.ver + 1))
  | .returned r _ _ => r = st.ver ∧ r ≤ st.cell.version ∧ effect r
  | .fatal _ => False

theorem LoopFacts.ver_le {effect : Tversion → Prop} {st : PutLoop} {pc : LoopPc}
    (h : LoopFacts effect st pc) : st.ver ≤ st.cell.version := by
  cases pc with
  | loop => exact h
  | calling call => exact h.1
  | returned r desp details =>
    obtain ⟨rfl, hle, -⟩ := h
    exact hle
  | fatal text => exact h.elim

theorem LoopFacts.mono {effect effect' : Tversion → Prop} (heffect : ∀ r, effect r → effect' r)
    {st : PutLoop} {pc : LoopPc} (h : LoopFacts effect st pc) : LoopFacts effect' st pc := by
  cases pc with
  | loop => exact h
  | calling call =>
    exact ⟨h.1, h.2.1, h.2.2.1, fun ha => ⟨(h.2.2.2 ha).1, heffect _ (h.2.2.2 ha).2⟩⟩
  | returned r desp details => exact ⟨h.1, h.2.1, heffect r h.2.2⟩
  | fatal text => exact h

theorem LoopFacts.called {effect : Tversion → Prop} (st : PutLoop)
    (h : st.ver ≤ st.cell.version) : LoopFacts effect st (.calling st.called) := by
  refine ⟨h, ?_, ?_, ?_⟩
  · intro hdiffered
    have hne : st.cell.version ≠ st.ver := by simpa [PutLoop.called] using hdiffered
    exact Nat.lt_of_le_of_ne h hne.symm
  · intro habsent
    have hzero : st.cell.version = 0 := by simpa [PutLoop.called] using habsent
    rw [hzero] at h
    exact Nat.le_zero.mp h
  · intro happlied
    cases happlied

/-- A write leaves the version where it was or raises it, so a guess that was not too high
stays so, and a version once different from the guess is above it. -/
theorem LoopFacts.seen {effect : Tversion → Prop} (st : PutLoop) {call : PutCall}
    {cell : Cell (Option String)} {own : Bool} (hle : st.cell.version ≤ cell.version)
    (heffect : own = true → st.cell.version = st.ver → cell = ⟨some value, st.ver + 1⟩ →
      effect (st.ver + 1))
    (h : LoopFacts effect st (.calling call)) :
    LoopFacts effect { st with cell := cell } (.calling (st.seen value call cell own)) := by
  obtain ⟨hver, hdiffered, habsent, happlied⟩ := h
  have hver' : st.ver ≤ cell.version := Nat.le_trans hver hle
  refine ⟨hver', ?_, ?_, ?_⟩
  · intro hseen
    have hcases : call.differed = true ∨ cell.version ≠ st.ver := by
      simpa [PutLoop.seen] using hseen
    rcases hcases with hbefore | hnow
    · exact Nat.lt_of_lt_of_le (hdiffered hbefore) hle
    · exact Nat.lt_of_le_of_ne hver' hnow.symm
  · intro hseen
    have hcases : call.absent = true ∨ cell.version = 0 := by simpa [PutLoop.seen] using hseen
    rcases hcases with hbefore | hnow
    · exact habsent hbefore
    · rw [hnow] at hver'
      exact Nat.le_zero.mp hver'
  · intro hseen
    have hcases : call.applied = true ∨ ((own = true ∧ st.cell.version = st.ver) ∧
        cell.version = st.ver + 1) ∧ cell.value = some value := by
      simpa [PutLoop.seen] using hseen
    rcases hcases with hbefore | ⟨⟨⟨hown, hold⟩, hnew⟩, hvalue⟩
    · exact ⟨Nat.lt_of_lt_of_le (happlied hbefore).1 hle, (happlied hbefore).2⟩
    · refine ⟨by simp [hnew], heffect hown hold ?_⟩
      cases cell
      cases hnew
      cases hvalue
      rfl

theorem LoopFacts.replied {effect : Tversion → Prop} {st : PutLoop} {call : PutCall} {err : Err}
    (hreturn : call.mayReturn err = true) (h : LoopFacts effect st (.calling call)) :
    LoopFacts effect (putAtLeastOnceErr key value st err)
      (putAtLeastOnceErr key value st err).pc := by
  obtain ⟨hver, hdiffered, habsent, happlied⟩ := h
  cases err with
  | OK => exact ⟨rfl, (happlied hreturn).1, (happlied hreturn).2⟩
  | ErrVersion => exact hdiffered hreturn
  | ErrMaybe => exact hdiffered hreturn
  -- the key was absent at version 0, and the guess was not higher
  | ErrNoKey | ErrWrongLeader | ErrWrongGroup =>
    simp [putAtLeastOnceErr, habsent hreturn, LoopFacts]

theorem LoopFacts.step {s st st' : PutLoop} {acts : List LoopAct} {a : LoopAct}
    (hrun : run (PutLoop.step key value) s acts = some st)
    (h : LoopFacts (TookEffect key value s acts) st st.pc)
    (hstep : st.step key value a = some st') :
    LoopFacts (TookEffect key value s (acts ++ [a])) st' st'.pc := by
  have hkept : ∀ r, TookEffect key value s acts r → TookEffect key value s (acts ++ [a]) r :=
    fun r hr => hr.append [a]
  replace h := h.mono hkept
  cases a with
  | put =>
    simp only [PutLoop.step] at hstep
    split at hstep
    · rename_i hpc
      cases hstep
      exact LoopFacts.called st h.ver_le
    · cases hstep
  | write cell own =>
    obtain ⟨hle, hstep⟩ := Option.ite_none_right_eq_some.mp hstep
    cases hstep
    cases hpc : st.pc with
    | calling call =>
      rw [hpc] at h
      refine LoopFacts.seen st hle ?_ h
      rintro rfl hold rfl
      exact TakenAt.now hrun ⟨by rw [hold], rfl, call, hpc⟩
    | loop => exact Nat.le_trans h.ver_le hle
    | returned r desp details =>
      rw [hpc] at h
      exact ⟨h.1, Nat.le_trans h.2.1 hle, h.2.2⟩
    | fatal text =>
      rw [hpc] at h
      exact h
  | reply err =>
    simp only [PutLoop.step] at hstep
    split at hstep
    · rename_i call hpc
      rw [hpc] at h
      obtain ⟨hreturn, hstep⟩ := Option.ite_none_right_eq_some.mp hstep
      cases hstep
      exact h.replied hreturn
    · cases hstep

/-- `PutAtLeastOnce` never overtakes the store: called with a version that the key has
reached, its guess stays at most the version of the key, it does not end in `Fatalf`, and
when it returns `r`, its own `Put` took effect and left the key with the value at `r`. -/
theorem putAtLeastOnce_never_overtakes (key value : String) (cell : Cell (Option String))
    (ver : Tversion) (hver : ver ≤ cell.version) (acts : List LoopAct) (st : PutLoop)
    (hrun : run (PutLoop.step key value) (.start cell ver) acts = some st) :
    st.ver ≤ st.cell.version ∧ (∀ text, st.pc ≠ .fatal text) ∧
      ∀ r desp details, st.pc = .returned r desp details →
        TookEffect key value (.start cell ver) acts r := by
  have h : LoopFacts (TookEffect key value (.start cell ver) acts) st st.pc := by
    refine run_induction (P := fun acts st =>
      LoopFacts (TookEffect key value (.start cell ver) acts) st st.pc) ?_ ?_ hrun
    · exact hver
    · intro acts st a st' hrun ih hstep
      exact ih.step hrun hstep
  refine ⟨h.ver_le, ?_, ?_⟩
  · intro text hpc
    rw [hpc] at h
    exact h
  · intro r desp details hpc
    rw [hpc] at h
    exact h.2.2

/-- An absent key: one `Put` is refused without a reason, one is overtaken by another
client, one takes effect unnoticed after a retry at its version, and the last returns. -/
def crowdedPut : List LoopAct :=
  [.put, .reply .ErrNoKey, .put, .write ⟨some "x", 1⟩ false, .reply .ErrVersion,
   .put, .write ⟨some "v", 2⟩ true, .reply .ErrMaybe, .put, .write ⟨some "v", 3⟩ true, .reply .OK]

theorem crowdedPut_never_overtakes : ∃ st,
    run (PutLoop.step "k" "v") (.start ⟨none, 0⟩ 0) crowdedPut = some st ∧
      st.pc = .returned 3 "Put(k, v) completes" "version: 0 -> 3" ∧
      TookEffect "k" "v" (.start ⟨none, 0⟩ 0) crowdedPut 3 := by
  obtain ⟨st, hst⟩ : ∃ st, run (PutLoop.step "k" "v") (.start ⟨none, 0⟩ 0) crowdedPut = some st :=
    ⟨_, rfl⟩
  have hpc : st.pc = .returned 3 "Put(k, v) completes" "version: 0 -> 3" := by
    cases hst
    rfl
  exact ⟨st, hst, hpc,
    (putAtLeastOnce_never_overtakes "k" "v" ⟨none, 0⟩ 0 (Nat.le_refl 0) crowdedPut st hst).2.2
      3 _ _ hpc⟩

end AtLeastOnce

/-! ## OnePut -/

/-- What one round of `OnePut` is given: the error of `PutJson`, and the entry and version
of `GetJson` or the text of its `Fatalf`. -/
structure Round where
  err : Err
  read : Except String (EntryV UInt64 × UInt64)

def onePutRound (me : Int) (st : PutClient UInt64) (r : Round) : PutClient UInt64 :=
  let st := onePutErr st r.err
  match st.pc, r.read with
  | .get err, .ok (e, ver0) => onePutRead me st err e ver0
  | .get _, .error text => { st with pc := .fatal text }
  | _, _ => st

/-- `OnePut` takes a further round as long as it has neither returned nor failed. -/
def onePutStep (me : Int) (st : PutClient UInt64) (r : Round) : Option (PutClient UInt64) :=
  if st.pc = .retry then some (onePutRound me st r) else none

/-- `OnePut` on the results of its rounds; it has returned if it is at the caller's `select`. -/
def onePut (me : Int) (ver : UInt64) (rs : List Round) : Option (PutClient UInt64) :=
  run (onePutStep me) ⟨.retry, ver, ⟨0, 0⟩⟩ rs

/-- In some round the `Put` at version `v` returned `OK`, and the `Get` read `e` at the
next version. -/
def Acknowledged (me : Int) (ver : UInt64) (rs : List Round) (v : UInt64) (e : EntryV UInt64) :
    Prop :=
  ∃ pre r post st, rs = pre ++ r :: post ∧ onePut me ver pre = some st ∧ st.ver = v ∧
    r.err = .OK ∧ r.read = .ok (e, v + 1)

theorem onePutRound_ok {me : Int} {st : PutClient UInt64} {r : Round} {e : EntryV UInt64}
    (herr : r.err = .OK) (hread : r.read = .ok (e, st.ver + 1)) :
    (onePutRound me st r).pc = .select ↔ e.id = me ∨ e.v = st.ver := by
  by_cases hid : e.id = me
  · simp [onePutRound, onePutErr, onePutRead, herr, hread, hid]
  · by_cases hv : e.v = st.ver <;>
      simp [onePutRound, onePutErr, onePutRead, herr, hread, hid, hv]

/-- A `Put` that returned `OK` makes its round the last one. -/
theorem onePutRound_pc_ne_retry {me : Int} {st : PutClient UInt64} {r : Round}
    (herr : r.err = .OK) : (onePutRound me st r).pc ≠ .retry := by
  cases hread : r.read with
  | error text => simp [onePutRound, onePutErr, herr, hread]
  | ok p =>
    by_cases hwrong : p.2 = st.ver + 1 ∧ p.1.id ≠ me ∧ p.1.v ≠ st.ver
    · simp [onePutRound, onePutErr, onePutRead, herr, hread, hwrong]
    · simp [onePutRound, onePutErr, onePutRead, herr, hread, hwrong]

/-- The acknowledged round is the last, and `OnePut` returns from it unless both fields of
the entry are wrong. -/
theorem Acknowledged.returned_iff {me : Int} {ver v : UInt64} {rs : List Round} {e : EntryV UInt64}
    {st : PutClient UInt64} (hack : Acknowledged me ver rs v e)
    (hrun : onePut me ver rs = some st) : st.pc = .select ↔ e.id = me ∨ e.v = v := by
  obtain ⟨pre, r, post, st₀, rfl, hpre, rfl, herr, hread⟩ := hack
  rw [onePut, run_append, ← onePut, hpre, Option.bind_some, run_cons] at hrun
  obtain ⟨st₁, hround, hpost⟩ := Option.bind_eq_some_iff.mp hrun
  obtain ⟨-, hround⟩ := Option.ite_none_right_eq_some.mp hround
  cases hround
  cases post with
  | nil =>
    cases hpost
    exact onePutRound_ok herr hread
  | cons r' post =>
    obtain ⟨st₂, hnext, -⟩ := Option.bind_eq_some_iff.mp hpost
    exact absurd (Option.ite_none_right_eq_some.mp hnext).1 (onePutRound_pc_ne_retry herr)

/-- `OnePut` lets an entry pass that has one of its fields wrong: whatever its rounds are
given, it returns only after reading the entry it put in every acknowledged round, exactly
if no acknowledged round reads an entry with one field right and the other wrong. -/
theorem onePut_catches_iff (me : Int) (ver : UInt64) (rs : List Round) (st : PutClient UInt64)
    (hrun : onePut me ver rs = some st) :
    (st.pc = .select → ∀ v e, Acknowledged me ver rs v e → e = ⟨me, v⟩) ↔
      ∀ v e, Acknowledged me ver rs v e → (e.id = me ↔ e.v = v) := by
  constructor
  · intro hcatches v e hack
    by_cases hreturned : st.pc = .select
    · rw [hcatches hreturned v e hack]
      simp
    · -- both fields were wrong, or it would have returned
      have hwrong := mt (hack.returned_iff hrun).mpr hreturned
      rw [not_or] at hwrong
      simp [hwrong]
  · intro hboth hreturned v e hack
    have hsame := hboth v e hack
    have hid : e.id = me := by
      rcases (hack.returned_iff hrun).mp hreturned with hid | hv
      · exact hid
      · exact hsame.mpr hv
    cases e
    simp only [EntryV.mk.injEq]
    exact ⟨hid, hsame.mp hid⟩

/-- After a refused `Put`, a `Put` at version 4 is acknowledged and read back. -/
def honestRounds : List Round :=
  [⟨.ErrVersion, .ok (⟨1, 3⟩, 4)⟩, ⟨.OK, .ok (⟨0, 4⟩, 5)⟩]

theorem honestRounds_caught : ∃ st, onePut 0 2 honestRounds = some st ∧ st.pc = .select ∧
    ∀ v e, Acknowledged 0 2 honestRounds v e → e = ⟨0, v⟩ := by
  obtain ⟨st, hst⟩ : ∃ st, onePut 0 2 honestRounds = some st := ⟨_, rfl⟩
  have hpc : st.pc = .select := by
    cases hst
    rfl
  refine ⟨st, hst, hpc, (onePut_catches_iff 0 2 honestRounds st hst).mpr ?_ hpc⟩
  rintro v e ⟨pre, r, post, st₀, hrs, hpre, hv, herr, hread⟩
  rcases pre with _ | ⟨r₁, _ | ⟨r₂, pre⟩⟩
  · obtain ⟨rfl, -⟩ := List.cons.inj hrs
    cases herr
  · obtain ⟨rfl, hrest⟩ := List.cons.inj hrs
    obtain ⟨rfl, -⟩ := List.cons.inj hrest
    cases hpre
    cases hv
    cases hread
    decide
  · simp [honestRounds] at hrs

/-- Client 0 puts at version 1 and is told `OK`; the key then holds an entry of client 1
at version 2, and `OnePut` returns. -/
theorem onePut_misses_overwritten : ∃ st, onePut 0 1 [⟨.OK, .ok (⟨1, 1⟩, 2)⟩] = some st ∧
    st.pc = .select ∧ Acknowledged 0 1 [⟨.OK, .ok (⟨1, 1⟩, 2)⟩] 1 ⟨1, 1⟩ ∧
      (⟨1, 1⟩ : EntryV UInt64) ≠ ⟨0, 1⟩ :=
  ⟨_, rfl, rfl, ⟨[], _, [], _, rfl, rfl, rfl, rfl, rfl⟩, by decide⟩

end KvTest
