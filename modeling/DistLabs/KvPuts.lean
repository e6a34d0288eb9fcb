import DistLabs.KvTest
import Mathlib.Algebra.Order.BigOperators.Group.Finset

/-!
# Racing puts are counted

Every `Put` that took effect is charged to one `OK` or `ErrMaybe` of the client
that called it. While a client is between the effect and the count, one charge is
due. Summed over the clients, the version of the key lies between the puts that
were acknowledged and those that may have been, which is what
`CheckPutConcurrent` asks for.
-/
namespace KvTest

open Versioned Runs

variable {n : Nat}

/-! ## The check -/

theorem addResults_eq (rs : List ClntRes) (res : ClntRes) :
    addResults rs res =
      ⟨res.nok + (rs.map (·.nok)).sum, res.nmaybe + (rs.map (·.nmaybe)).sum⟩ := by
  induction rs generalizing res with
  | nil => simp [addResults]
  | cons r rs ih =>
    change addResults rs ⟨res.nok + r.nok, res.nmaybe + r.nmaybe⟩ = _
    simp [ih, Int.add_assoc]

@[simp] theorem toTversion_natCast (v : Nat) : toTversion v = v := by simp [toTversion]

theorem le_toTversion {v : Nat} {x : Int} (h : v ≤ x) : v ≤ toTversion x := by
  have hpos : 0 ≤ x := (Int.natCast_nonneg v).trans h
  rw [toTversion, if_pos hpos]
  exact (Int.le_toNat hpos).mpr h

/-- When `CheckPutConcurrent` returns. -/
theorem checkPutConcurrent_ok_iff (key : String) (cell : Cell (Option (EntryV Tversion)))
    (rs : List ClntRes) (res : ClntRes) (reliable : Bool) :
    (∃ r, checkPutConcurrent key cell rs res reliable = .ok r) ↔
      cell.value ≠ none ∧
        if reliable then cell.version = toTversion (addResults rs res).nok
        else cell.version ≤ toTversion ((addResults rs res).nok + (addResults rs res).nmaybe) := by
  obtain ⟨value, version⟩ := cell
  cases value with
  | none => simp [checkPutConcurrent, getJson]
  | some e =>
    cases reliable with
    | true =>
      by_cases hv : version = toTversion (addResults rs res).nok <;>
        simp [checkPutConcurrent, getJson, hv]
    | false =>
      by_cases hv : version ≤ toTversion ((addResults rs res).nok + (addResults rs res).nmaybe)
      · simp [checkPutConcurrent, getJson, hv, Nat.not_lt.mpr hv]
      · simp [checkPutConcurrent, getJson, hv, Nat.not_le.mp hv]

/-! ## Charges -/

/-- How many effects of a client between its `Put` and its count are not counted yet, at
least and at most. -/
def PutPc.due : PutPc → Nat × Nat
  | .get .OK => (1, 1)
  | .get .ErrMaybe => (0, 1)
  | .fatal _ => (0, 1)
  | _ => (0, 0)

def due (pc : PutPc) : Option (Pending (Option (EntryV Tversion))) → Nat × Nat
  | some ⟨_, _, true⟩ => (1, 1)
  | _ => pc.due

/-- The effects of a client are those it has counted and the one that may be due. -/
structure Charged (st : PutClient Tversion) (p : Option (Pending (Option (EntryV Tversion))))
    (e : Nat) : Prop where
  present : ∀ q, p = some q → q.value ≠ none
  calling : p ≠ none → st.pc = .select ∨ st.pc = .retry
  atLeast : st.res.nok + (due st.pc p).1 ≤ e
  atMost : e ≤ st.res.nok + st.res.nmaybe + (due st.pc p).2

theorem Charged.idle {st : PutClient Tversion} {e : Nat} (hlow : st.res.nok + st.pc.due.1 ≤ e)
    (hhigh : e ≤ st.res.nok + st.res.nmaybe + st.pc.due.2) : Charged st none e :=
  ⟨by simp, by simp, hlow, hhigh⟩

/-- Where a client calls `Put`, nothing is due. -/
theorem due_of_calling {pc : PutPc} (h : pc = .select ∨ pc = .retry) : pc.due = (0, 0) := by
  rcases h with rfl | rfl <;> rfl

/-- The requests of a client. -/
theorem request_put {key : String} {me : Int} {st : PutClient Tversion}
    {v : Option (EntryV Tversion)} {version : Nat}
    (h : (oneClientPut key me).request st = some (.put v version)) :
    (st.pc = .select ∨ st.pc = .retry) ∧ v = some ⟨me, st.ver⟩ ∧ version = st.ver := by
  simp only [oneClientPut] at h
  split at h
  · rename_i hpc
    cases h
    exact ⟨Or.inl hpc, rfl, rfl⟩
  · rename_i hpc
    cases h
    exact ⟨Or.inr hpc, rfl, rfl⟩
  · cases h
  · cases h

theorem request_get {key : String} {me : Int} {st : PutClient Tversion}
    (h : (oneClientPut key me).request st = some .get) : ∃ err, st.pc = .get err := by
  simp only [oneClientPut] at h
  split at h <;> simp_all

/-- What a client becomes by its `GetJson`. -/
theorem afterGet_cases (key : String) (me : Int) {st : PutClient Tversion} {err : Err}
    (hpc : st.pc = .get err) (value : Option (EntryV Tversion)) (version : Nat) :
    let st' := (oneClientPut key me).afterGet st value version
    (∃ text, st'.pc = .fatal text ∧ st'.res = st.res) ∨
    (err = .OK ∧ st'.pc = .select ∧ st'.res = ⟨st.res.nok + 1, st.res.nmaybe⟩) ∨
    (err = .ErrMaybe ∧ st'.pc = .select ∧ st'.res = ⟨st.res.nok, st.res.nmaybe + 1⟩) ∨
    (err ≠ .OK ∧ err ≠ .ErrMaybe ∧ st'.pc = .retry ∧ st'.res = st.res) := by
  cases value with
  | none => exact Or.inl (by simp [oneClientPut, hpc, getJson])
  | some e =>
    simp only [oneClientPut, hpc, getJson, onePutRead]
    split
    · exact Or.inl ⟨_, rfl, rfl⟩
    · split
      · rename_i hok
        exact Or.inr (Or.inl ⟨hok, rfl, rfl⟩)
      · rename_i hok
        split
        · rename_i hmaybe
          exact Or.inr (Or.inr (Or.inl ⟨hmaybe, rfl, rfl⟩))
        · rename_i hmaybe
          exact Or.inr (Or.inr (Or.inr ⟨hok, hmaybe, rfl, rfl⟩))

theorem afterPut_eq (key : String) (me : Int) (st : PutClient Tversion) (a : Answer) :
    (oneClientPut key me).afterPut st a = { st with pc := .get (putErr a) } := by
  cases a <;> rfl

/-- Every step of a client keeps its effects charged, and the key is there once a put has
taken effect. -/
theorem keeps_charged (key : String) :
    Keeps (fun i : Fin n => oneClientPut key (i : Nat)) (fun _ => True)
      (fun cell => 0 < cell.version → cell.value ≠ none) (fun _ _ st p e => Charged st p e) where
  stop := by
    intro cell i st st' e _ h hst
    simp only [oneClientPut] at hst
    split at hst
    · rename_i hpc
      cases hst
      have hlow := h.atLeast
      have hhigh := h.atMost
      simp only [due, hpc] at hlow hhigh
      exact .idle hlow hhigh
    · cases hst
  put := by
    intro cell i st v version e _ h hreq
    obtain ⟨hpc, rfl, rfl⟩ := request_put hreq
    exact ⟨by rintro q ⟨⟩; simp, fun _ => hpc, h.atLeast, h.atMost⟩
  takeEffect := by
    intro cell i st v e _ h
    have hvalue := h.present ⟨v, cell.version, false⟩ rfl
    have hdue := due_of_calling (h.calling (by simp))
    have hlow := h.atLeast
    have hhigh := h.atMost
    simp only [due, hdue] at hlow hhigh
    refine ⟨fun _ => hvalue, ?_, fun _ => h.calling (by simp), ?_, ?_⟩
    · rintro q ⟨⟩
      exact hvalue
    · simp only [due]
      omega
    · simp only [due]
      omega
  others := fun _ _ _ _ _ _ _ _ _ _ _ _ h => h
  reply := by
    intro cell i st p a e _ h hfits _
    have hdue := due_of_calling (h.calling (by simp))
    have hlow := h.atLeast
    have hhigh := h.atMost
    obtain ⟨v, version, took⟩ := p
    rw [afterPut_eq]
    -- `OK` is answered to a put that took effect, `ErrVersion` to one that did not
    cases took with
    | true =>
      simp only [due] at hlow hhigh
      cases a with
      | ok => exact .idle hlow hhigh
      | version => cases hfits
      | maybe =>
        have hless : st.res.nok + (0 : Nat) ≤ e := by omega
        exact .idle hless hhigh
    | false =>
      simp only [due, hdue] at hlow hhigh
      cases a with
      | ok => cases hfits
      | version => exact .idle hlow hhigh
      | maybe =>
        have hmore : e ≤ st.res.nok + st.res.nmaybe + (1 : Nat) := by omega
        exact .idle hlow hmore
  get := by
    intro cell i st e _ h hreq
    obtain ⟨err, hpc⟩ := request_get hreq
    have hlow := h.atLeast
    have hhigh := h.atMost
    simp only [due, hpc] at hlow hhigh
    have hcases := afterGet_cases key (i : Nat) hpc cell.value cell.version
    have hbound : (PutPc.get err).due.2 ≤ 1 := by cases err <;> decide
    rcases hcases with ⟨text, hpc', hres⟩ | ⟨rfl, hpc', hres⟩ | ⟨rfl, hpc', hres⟩ |
      ⟨hok, hmaybe, hpc', hres⟩
    · refine .idle ?_ ?_ <;> simp only [hpc', hres, PutPc.due] <;> omega
    · refine .idle ?_ ?_ <;> simp only [hpc', hres, PutPc.due] at hlow hhigh ⊢ <;> omega
    · refine .idle ?_ ?_ <;> simp only [hpc', hres, PutPc.due] at hlow hhigh ⊢ <;> omega
    · have hnone : (PutPc.get err).due = (0, 0) := by cases err <;> simp_all [PutPc.due]
      rw [hnone] at hlow hhigh
      refine .idle ?_ ?_ <;> simp only [hpc', hres, PutPc.due] <;> omega

/-- Without `ErrMaybe` no client counts one. -/
theorem keeps_no_maybe (key : String) :
    Keeps (fun i : Fin n => oneClientPut key (i : Nat)) (fun a => a ≠ .maybe) (fun _ => True)
      (fun _ _ st _ _ => st.pc ≠ .get .ErrMaybe ∧ st.res.nmaybe = 0) where
  stop := by
    rintro cell i st st' e - ⟨hpc, hres⟩ hst
    simp only [oneClientPut] at hst
    split at hst
    · cases hst
      exact ⟨by simp, hres⟩
    · cases hst
  put := fun _ _ _ _ _ _ _ h _ => h
  takeEffect := fun _ _ _ _ _ _ h => ⟨trivial, h⟩
  others := fun _ _ _ _ _ _ _ _ _ _ _ _ h => h
  reply := by
    rintro cell i st p a e - ⟨hpc, hres⟩ - ha
    rw [afterPut_eq]
    cases a with
    | ok => exact ⟨by simp [putErr], hres⟩
    | version => exact ⟨by simp [putErr], hres⟩
    | maybe => exact absurd rfl ha
  get := by
    rintro cell i st e - ⟨hpc, hres⟩ hreq
    obtain ⟨err, herr⟩ := request_get hreq
    have hcases := afterGet_cases key (i : Nat) herr cell.value cell.version
    rcases hcases with ⟨text, hpc', hres'⟩ | ⟨rfl, hpc', hres'⟩ | ⟨rfl, -, -⟩ |
      ⟨-, -, hpc', hres'⟩
    · simp [hpc', hres', hres]
    · simp [hpc', hres', hres]
    · exact absurd herr hpc
    · simp [hpc', hres', hres]

/-- The results that `SpawnClientsAndWait` collects from the clients. -/
def putResults (s : System (Option (EntryV Tversion)) (PutClient Tversion) n) : List ClntRes :=
  List.ofFn fun i => (s.clients i).res

theorem addResults_putResults (s : System (Option (EntryV Tversion)) (PutClient Tversion) n) :
    addResults (putResults s) ⟨0, 0⟩ =
      ⟨∑ i, (s.clients i).res.nok, ∑ i, (s.clients i).res.nmaybe⟩ := by
  rw [addResults_eq]
  simp [putResults, List.map_ofFn, List.sum_ofFn]

/-- `CheckPutConcurrent` raises no false alarm: once all clients have returned, the version
lies between the acknowledged puts and those that may have taken effect, whatever the
interleaving. If some put took effect, the check passes, also as a reliable one if no put
returned `ErrMaybe`. -/
theorem checkPutConcurrent_no_false_alarm (key : String) (acts : List (Act n))
    (s : System (Option (EntryV Tversion)) (PutClient Tversion) n)
    (hrun : run (step fun i : Fin n => oneClientPut key (i : Nat))
      (start ⟨none, 0⟩ fun _ => .start) acts = some s)
    (hreturned : ∀ i, (s.clients i).pc = .returned) :
    (∑ i, (s.clients i).res.nok ≤ s.cell.version ∧
      s.cell.version ≤ ∑ i, ((s.clients i).res.nok + (s.clients i).res.nmaybe)) ∧
    ((∃ i, Act.takeEffect i ∈ acts) →
      (∃ r, checkPutConcurrent key s.cell (putResults s) ⟨0, 0⟩ false = .ok r) ∧
      ((∀ i, Act.reply i .maybe ∉ acts) →
        ∃ r, checkPutConcurrent key s.cell (putResults s) ⟨0, 0⟩ true = .ok r)) := by
  obtain ⟨hpresent, hclients⟩ := (keeps_charged key).run (by simp)
    (fun _ => .idle (by decide) (by decide)) hrun fun _ _ _ => trivial
  have hcharged : ∀ i, (s.clients i).res.nok ≤ s.effects i ∧
      s.effects i ≤ (s.clients i).res.nok + (s.clients i).res.nmaybe := by
    intro i
    have h := hclients i
    -- a client that has returned has no call pending, and nothing is due
    have hidle : s.pending i = none := by
      by_contra hp
      simpa [hreturned i] using h.calling hp
    have hlow := h.atLeast
    have hhigh := h.atMost
    rw [hidle, hreturned i] at hlow hhigh
    exact ⟨by simpa [due, PutPc.due] using hlow, by simpa [due, PutPc.due] using hhigh⟩
  have hversion : s.cell.version = ∑ i, s.effects i := by simpa using version_eq hrun
  have hlow : ∑ i, (s.clients i).res.nok ≤ s.cell.version := by
    rw [hversion, Nat.cast_sum]
    exact Finset.sum_le_sum fun i _ => (hcharged i).1
  have hhigh : s.cell.version ≤ ∑ i, ((s.clients i).res.nok + (s.clients i).res.nmaybe) := by
    rw [hversion, Nat.cast_sum]
    exact Finset.sum_le_sum fun i _ => (hcharged i).2
  refine ⟨⟨hlow, hhigh⟩, ?_⟩
  intro heffect
  have hvalue := hpresent (version_pos_of_effect hrun heffect)
  rw [Finset.sum_add_distrib] at hhigh
  constructor
  · rw [checkPutConcurrent_ok_iff, addResults_putResults]
    exact ⟨hvalue, le_toTversion hhigh⟩
  · intro hmaybe
    have hnone : ∀ i, (s.clients i).res.nmaybe = 0 := by
      intro i
      refine (((keeps_no_maybe key).run trivial (fun _ => ⟨by simp [PutClient.start], rfl⟩) hrun
        ?_).2 i).2
      rintro j a hj rfl
      exact hmaybe j hj
    rw [Finset.sum_eq_zero fun i _ => hnone i, add_zero] at hhigh
    rw [checkPutConcurrent_ok_iff, addResults_putResults, if_pos rfl, ← le_antisymm hhigh hlow,
      toTversion_natCast]
    exact ⟨hvalue, rfl⟩

def cli0 : Fin 2 := ⟨0, Nat.zero_lt_two⟩
def cli1 : Fin 2 := ⟨1, Nat.one_lt_two⟩

/-- Two clients race: the second puts at a stale version, tries again, and is told
`ErrMaybe` for a put that took effect. -/
def racingPuts : List (Act 2) :=
  [.put cli0, .put cli1, .takeEffect cli0, .reply cli1 .version, .get cli1, .put cli1,
   .takeEffect cli1, .reply cli0 .ok, .reply cli1 .maybe, .get cli1, .get cli0, .stop cli0,
   .stop cli1]

theorem racingPuts_no_false_alarm : ∃ s, run (step fun i : Fin 2 => oneClientPut "k" (i : Nat))
      (start ⟨none, 0⟩ fun _ => .start) racingPuts = some s ∧ s.cell.version = 2 ∧
    ∃ r, checkPutConcurrent "k" s.cell (putResults s) ⟨0, 0⟩ false = .ok r := by
  obtain ⟨s, hs⟩ : ∃ s, run (step fun i : Fin 2 => oneClientPut "k" (i : Nat))
    (start ⟨none, 0⟩ fun _ => .start) racingPuts = some s := ⟨_, rfl⟩
  have hreturned : ∀ i, (s.clients i).pc = .returned := by
    cases hs
    decide
  have hversion : s.cell.version = 2 := by
    cases hs
    rfl
  exact ⟨s, hs, hversion,
    ((checkPutConcurrent_no_false_alarm "k" racingPuts s hs hreturned).2 ⟨cli0, by decide⟩).1⟩

end KvTest
