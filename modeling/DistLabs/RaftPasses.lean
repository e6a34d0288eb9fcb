import DistLabs.RaftAgreement

/-!
# Passes of the applier with snapshots

A pass of `applierSnap` makes its calls to the tester one after the other, and the
server may be killed between them. Uncut passes are those of `applierSnap`. In every
run a comparison is exact with respect to the copies the tester holds at the moment,
and an error that a pass finds is reported unless the server is killed first.
-/
namespace RaftTest

open Runs

variable {n : Nat} {V Snap : Type}

/-! ## The calls that were served -/

def Served.server : Served n V → Fin n
  | .checkLogs i _ _ _ => i
  | .ingestLog i _ => i
  | .applyErr i _ => i
  | .kill i => i

/-- The copies as the served calls alone determine them. -/
def held (served : List (Served n V)) : Fin n → Int → Option (Option V) :=
  served.foldl (fun logs call =>
    match call with
    | .checkLogs i index v _ => Function.update logs i (Function.update (logs i) index (some v))
    | .ingestLog i log => Function.update logs i log
    | .applyErr _ _ => logs
    | .kill _ => logs) fun _ _ => none

theorem held_check (served : List (Served n V)) (i : Fin n) (index : Int) (v : Option V)
    (err : String) : held (served ++ [.checkLogs i index v err]) =
      Function.update (held served) i (Function.update (held served i) index (some v)) := by
  simp [held]

theorem held_ingest (served : List (Served n V)) (i : Fin n) (log : Int → Option (Option V)) :
    held (served ++ [.ingestLog i log]) = Function.update (held served) i log := by
  simp [held]

theorem held_applyErr (served : List (Served n V)) (i : Fin n) (err : String) :
    held (served ++ [.applyErr i err]) = held served := by
  simp [held]

theorem held_kill (served : List (Served n V)) (i : Fin n) :
    held (served ++ [.kill i]) = held served := by
  simp [held]

/-- What becomes of an error that a server has found: the next of its calls is the `ApplyErr`
with this error, or it is killed before; or neither has happened yet. -/
def Followed (b : Fin n) (err : String) (pc : SnapPc V Snap) (post : List (Served n V)) : Prop :=
  match post.find? fun call => call.server = b with
  | none => pc.err = err
  | some (.applyErr _ msg) => msg = err
  | some (.kill _) => True
  | some _ => False

theorem Followed.append {b : Fin n} {err : String} {pc pc' : SnapPc V Snap}
    {post xs : List (Served n V)} (h : Followed b err pc post)
    (hnext : pc.err = err → Followed b err pc' xs) : Followed b err pc' (post ++ xs) := by
  unfold Followed at h ⊢
  rw [List.find?_append]
  cases hp : post.find? fun call => call.server = b with
  | none =>
    rw [hp] at h
    exact hnext h
  | some call =>
    rw [hp] at h
    rw [Option.some_or]
    cases call <;> exact h

/-- Nothing of the server, and its pass keeps the error. -/
theorem Followed.of_others {b : Fin n} {err : String} {pc : SnapPc V Snap}
    {xs : List (Served n V)} (hxs : ∀ x ∈ xs, x.server ≠ b) (hpc : pc.err = err) :
    Followed b err pc xs := by
  have hnone : (xs.find? fun call => call.server = b) = none := by
    simpa [List.find?_eq_none] using hxs
  simp [Followed, hnone, hpc]

/-! ## What a step can do -/

@[simp] theorem note_toSys (i : Fin n) (index : Option Int) (err : String) (s : Passes n V Snap) :
    (s.note i index err).toSys = s.toSys := by
  unfold Passes.note
  split <;> rfl

@[simp] theorem note_pc (i : Fin n) (index : Option Int) (err : String) (s : Passes n V Snap) :
    (s.note i index err).pc = s.pc := by
  unfold Passes.note
  split <;> rfl

theorem note_found (i : Fin n) (index : Option Int) (err : String) (s : Passes n V Snap) :
    (s.note i index err).found =
      s.found ++ if err ≠ "" then [⟨i, err, index, s.ts.served.length⟩] else [] := by
  unfold Passes.note
  split <;> simp [*]

variable [DecidableEq V]

/-- The steps, one constructor for each branch. -/
inductive Passes.Steps (gob : Labgob V Snap) (fmtV : Option V → String) (s : Passes n V Snap) :
    PassEvent n V Snap → Passes n V Snap → Prop
  | ingest (i : Fin n) (m : ApplyMsg V Snap) (rs rs' : Rfsrv V) (err : String)
      (hrf : s.rf i = some rs) (hpc : s.pc i = .reading) (hv : m.snapshotValid = true)
      (hsnap : ingestSnap gob i m.snapshot m.snapshotIndex rs = (err, rs')) :
      Steps gob fmtV s (.read i m) (Passes.note i none err { s with
        rf := Function.update s.rf i (some rs')
        ts := ingestLog i rs'.log s.ts
        pc := Function.update s.pc i (.reporting err) })
  | refuse (i : Fin n) (m : ApplyMsg V Snap) (rs : Rfsrv V) (err : String)
      (hrf : s.rf i = some rs) (hpc : s.pc i = .reading)
      (horder : m.commandIndex ≠ rs.lastApplied + 1) (herr : err ≠ "") :
      Steps gob fmtV s (.read i m) (Passes.note i none err { s with
        pc := Function.update s.pc i (.compared m err) })
  | compare (i : Fin n) (m : ApplyMsg V Snap) (rs : Rfsrv V) (err : String)
      (hrf : s.rf i = some rs) (hpc : s.pc i = .reading)
      (horder : m.commandIndex = rs.lastApplied + 1)
      (herr : (checkLogs fmtV i m s.ts).1 ≠ "" → err ≠ "") :
      Steps gob fmtV s (.read i m) (Passes.note i (some m.commandIndex) err { s with
        ts := (checkLogs fmtV i m s.ts).2.2
        pc := Function.update s.pc i (.compared m err) })
  | ignore (i : Fin n) (m : ApplyMsg V Snap) : Steps gob fmtV s (.read i m) s
  | store (i : Fin n) (m : ApplyMsg V Snap) (rs : Rfsrv V) (err : String)
      (hrf : s.rf i = some rs) (hpc : s.pc i = .compared m err) :
      Steps gob fmtV s (.store i) { s with
        rf := Function.update s.rf i (some (storeCommand gob m rs).1)
        taken := Function.update s.taken i (s.taken i ++ (storeCommand gob m rs).2.toList)
        pc := Function.update s.pc i (.reporting err) }
  | report (i : Fin n) (err : String) (hpc : s.pc i = .reporting err) :
      Steps gob fmtV s (.report i) { s with
        ts := RaftTest.report i err s.ts
        pc := Function.update s.pc i .reading }
  | kill (i : Fin n) : Steps gob fmtV s (.kill i) { s with
      rf := Function.update s.rf i none
      ts := RaftTest.kill i s.ts
      pc := Function.update s.pc i .reading }
  | restartEmpty (i : Fin n) (sn : Snap) (hpc : s.pc i = .reading) :
      Steps gob fmtV s (.restart i sn) { s with
        rf := Function.update s.rf i (some ⟨0, fun _ => none⟩)
        ts := mksrv i s.ts }
  | restartFrom (i : Fin n) (sn : Snap) (rs : Rfsrv V) (hpc : s.pc i = .reading)
      (hlen : 0 < gob.len sn)
      (hsnap : ingestSnap gob i (some sn) (-1) ⟨0, fun _ => none⟩ = ("", rs)) :
      Steps gob fmtV s (.restart i sn) { s with
        rf := Function.update s.rf i (some rs)
        ts := mksrv i (ingestLog i rs.log s.ts) }
  | restartFail (i : Fin n) (sn : Snap) (err : String) (hpc : s.pc i = .reading) :
      Steps gob fmtV s (.restart i sn) { s with
        rf := Function.update s.rf i none
        ts := mksrv i (applyErr i err s.ts) }

theorem compareCommand_cases (fmtV : Option V → String) (i : Fin n) (m : ApplyMsg V Snap)
    (rs : Rfsrv V) (ts : Test n V) :
    (m.commandIndex ≠ rs.lastApplied + 1 ∧
      ∃ err, err ≠ "" ∧ compareCommand fmtV i m rs ts = (err, ts)) ∨
    (m.commandIndex = rs.lastApplied + 1 ∧
      ∃ err, ((checkLogs fmtV i m ts).1 ≠ "" → err ≠ "") ∧
        compareCommand fmtV i m rs ts = (err, (checkLogs fmtV i m ts).2.2)) := by
  by_cases horder : m.commandIndex = rs.lastApplied + 1
  · refine Or.inr ⟨horder, _, ?_, by
      simp only [compareCommand, ne_eq, ← horder, not_true_eq_false, if_false]; rfl⟩
    intro herr
    split
    · repeat apply append_ne_empty
      decide
    · exact herr
  · refine Or.inl ⟨horder, _, ?_, by
      simp only [compareCommand, ne_eq, horder, not_false_eq_true, if_true]; rfl⟩
    repeat apply append_ne_empty
    decide

theorem Passes.steps_read (gob : Labgob V Snap) (fmtV : Option V → String) {s : Passes n V Snap}
    {i : Fin n} (m : ApplyMsg V Snap) {rs : Rfsrv V} (hrf : s.rf i = some rs)
    (hpc : s.pc i = .reading) : s.Steps gob fmtV (.read i m) (s.read gob fmtV i m rs) := by
  unfold Passes.read
  split
  · exact .ingest i m rs _ _ hrf hpc ‹_› rfl
  · split
    · rcases compareCommand_cases fmtV i m rs s.ts with
        ⟨horder, err, herr, hcompare⟩ | ⟨horder, err, herr, hcompare⟩
      · rw [hcompare, if_neg horder]
        exact .refuse i m rs err hrf hpc horder herr
      · rw [hcompare, if_pos horder]
        exact .compare i m rs err hrf hpc horder herr
    · exact .ignore i m

theorem Passes.steps_of_step {gob : Labgob V Snap} {fmtV : Option V → String}
    {s t : Passes n V Snap} {e : PassEvent n V Snap} (h : s.step gob fmtV e = some t) :
    s.Steps gob fmtV e t := by
  cases e with
  | read i m =>
    simp only [Passes.step] at h
    split at h
    · rename_i rs hrf hpc
      cases h
      exact Passes.steps_read gob fmtV m hrf hpc
    · cases h
  | store i =>
    simp only [Passes.step] at h
    split at h
    · rename_i rs m err hrf hpc
      cases h
      exact .store i m rs err hrf hpc
    · cases h
  | report i =>
    simp only [Passes.step] at h
    split at h
    · rename_i err hpc
      cases h
      exact .report i err hpc
    · cases h
  | kill i =>
    cases h
    exact .kill i
  | restart i sn =>
    simp only [Passes.step] at h
    split at h
    · rename_i hpc
      cases h
      unfold newRfsrv
      by_cases hlen : 0 < gob.len sn
      · rw [if_pos hlen]
        obtain ⟨err, rs, hsnap⟩ : ∃ err rs,
          ingestSnap gob i (some sn) (-1) ⟨0, fun _ => none⟩ = (err, rs) := ⟨_, _, rfl⟩
        by_cases herr : err = ""
        · subst herr
          simpa [hsnap] using Steps.restartFrom i sn rs hpc hlen hsnap
        · simpa [hsnap, herr] using Steps.restartFail i sn err hpc
      · rw [if_neg hlen]
        exact .restartEmpty i sn hpc
    · cases h

/-! ## Passes that are not cut off -/

/-- The pieces of an event that leaves no pass unfinished. -/
def SnapEvent.passes : SnapEvent n V Snap → List (PassEvent n V Snap)
  | .read i m =>
    if m.snapshotValid then [.read i m, .report i]
    else if m.commandValid then [.read i m, .store i, .report i]
    else [.read i m]
  | .kill i => [.kill i]
  | .restart i sn => [.restart i sn]

/-- A pass that is not cut off does what `applierSnap` does. -/
theorem Passes.whole_read (gob : Labgob V Snap) (fmtV : Option V → String) {s : Passes n V Snap}
    {i : Fin n} (m : ApplyMsg V Snap) {rs : Rfsrv V} (hrf : s.rf i = some rs)
    (hpc : s.pc i = .reading) :
    ∃ t, run (Passes.step gob fmtV) s (SnapEvent.passes (.read i m)) = some t ∧
      t.toSys = applierSnap gob fmtV i m rs s.toSys ∧ t.pc = s.pc := by
  have hread : Passes.step gob fmtV s (.read i m) = some (s.read gob fmtV i m rs) := by
    simp [Passes.step, hrf, hpc]
  by_cases hv : m.snapshotValid = true
  · have hpasses : SnapEvent.passes (.read i m) = [.read i m, .report i] := by
      simp [SnapEvent.passes, hv]
    refine ⟨_, by rw [hpasses, run_cons, hread]; simp [Passes.step, Passes.read, hv]; rfl, ?_, ?_⟩
    · simp [applierSnap, hv]
    · rw [← hpc, Function.update_eq_self]
  · by_cases hc : m.commandValid = true
    · have hpasses : SnapEvent.passes (.read i m) = [.read i m, .store i, .report i] := by
        simp [SnapEvent.passes, hv, hc]
      refine ⟨_, by
        rw [hpasses, run_cons, hread]; simp [Passes.step, Passes.read, hv, hc, hrf]; rfl, ?_, ?_⟩
      · simp [applierSnap, applyCommand, hv, hc]
      · rw [← hpc, Function.update_eq_self]
    · have hpasses : SnapEvent.passes (.read i m) = [.read i m] := by
        simp [SnapEvent.passes, hv, hc]
      refine ⟨_, by rw [hpasses, run_cons, hread]; simp [Passes.read, hv, hc], ?_, rfl⟩
      simp [applierSnap, hv, hc]

/-- A run of whole passes is a run of their pieces. -/
theorem passes_of_run {gob : Labgob V Snap} {fmtV : Option V → String}
    {events : List (SnapEvent n V Snap)} {s : Sys n V Snap}
    (h : run (SnapEvent.step gob fmtV) (Sys.start n V Snap) events = some s) :
    ∃ t, run (Passes.step gob fmtV) (Passes.start n V Snap) (events.flatMap SnapEvent.passes) =
      some t ∧ t.toSys = s ∧ ∀ i, t.pc i = .reading := by
  refine run_induction (P := fun events s => ∃ t, run (Passes.step gob fmtV)
    (Passes.start n V Snap) (events.flatMap SnapEvent.passes) = some t ∧ t.toSys = s ∧
      ∀ i, t.pc i = .reading) ⟨_, rfl, rfl, fun _ => rfl⟩ ?_ h
  rintro events s e s' _ ⟨t, ht, rfl, hidle⟩ hstep
  have hgo : ∀ t', run (Passes.step gob fmtV) t e.passes = some t' →
      run (Passes.step gob fmtV) (Passes.start n V Snap)
        ((events ++ [e]).flatMap SnapEvent.passes) = some t' := by
    intro t' ht'
    simp [List.flatMap_append, run_append, ht, ht']
  cases e with
  | read i m =>
    obtain ⟨rs, hrf, rfl⟩ := Option.map_eq_some_iff.mp hstep
    obtain ⟨t', ht', hsys, hpc⟩ := Passes.whole_read gob fmtV m hrf (hidle i)
    exact ⟨t', hgo t' ht', hsys, fun j => by rw [hpc]; exact hidle j⟩
  | kill i =>
    cases hstep
    refine ⟨_, hgo _ rfl, rfl, ?_⟩
    intro j
    by_cases hj : j = i
    · simp [hj]
    · simp [hj, hidle]
  | restart i sn =>
    cases hstep
    obtain ⟨t', ht'⟩ : ∃ t', t' = { t with
      toSys := { newRfsrv gob i sn t.toSys with ts := mksrv i (newRfsrv gob i sn t.toSys).ts } } :=
      ⟨_, rfl⟩
    refine ⟨t', hgo t' (by simp [SnapEvent.passes, Passes.step, hidle i, ht']), ?_, ?_⟩
    · rw [ht']
    · rw [ht']
      exact hidle

/-! ## Comparisons and reports -/

/-- The call that a step adds, if any, the errors it finds, and what it does about those found
before. -/
theorem Passes.Steps.calls {gob : Labgob V Snap} {fmtV : Option V → String}
    {s t : Passes n V Snap} {e : PassEvent n V Snap} (h : s.Steps gob fmtV e t) :
    ∃ (call : Option (Served n V)) (new : List (Found n)),
      t.ts.served = s.ts.served ++ call.toList ∧ t.found = s.found ++ new ∧
      (∀ f ∈ new, f.err ≠ "" ∧ f.calls = t.ts.served.length ∧ (t.pc f.server).err = f.err) ∧
      ∀ b, (s.pc b).err ≠ "" → Followed b (s.pc b).err (t.pc b) call.toList := by
  -- whoever has an error to report is in the middle of a pass, so it is another server
  have hother : ∀ i, s.pc i = .reading → ∀ b, (s.pc b).err ≠ "" → i ≠ b := by
    rintro i hpc b herr rfl
    exact herr (by rw [hpc]; rfl)
  have hnew : ∀ (i : Fin n) index (u : Passes n V Snap) err, (u.pc i).err = err →
      ∀ f ∈ (if err ≠ "" then [(⟨i, err, index, u.ts.served.length⟩ : Found n)] else []),
        f.err ≠ "" ∧ f.calls = (u.note i index err).ts.served.length ∧
          ((u.note i index err).pc f.server).err = f.err := by
    intro i index u err hu f hmem
    split at hmem
    · cases List.mem_singleton.mp hmem
      exact ⟨by assumption, by simp, by simpa using hu⟩
    · cases hmem
  cases h with
  | ingest i m rs rs' err hrf hpc hv hsnap =>
    refine ⟨some (.ingestLog i rs'.log), _, by simp [ingestLog], note_found _ _ _ _,
      hnew i _ _ err (by simp [SnapPc.err]), ?_⟩
    intro b hb
    have hne := hother i hpc b hb
    exact .of_others (by simpa [Served.server] using hne) (by simp [Ne.symm hne])
  | refuse i m rs err hrf hpc horder herr =>
    refine ⟨none, _, by simp, note_found _ _ _ _, hnew i _ _ err (by simp [SnapPc.err]), ?_⟩
    intro b hb
    exact .of_others (by simp) (by simp [Ne.symm (hother i hpc b hb)])
  | compare i m rs err hrf hpc horder herr =>
    refine ⟨some (.checkLogs i m.commandIndex m.command (checkLogs fmtV i m s.ts).1), _,
      by simp [checkLogs], note_found _ _ _ _, hnew i _ _ err (by simp [SnapPc.err]), ?_⟩
    intro b hb
    have hne := hother i hpc b hb
    exact .of_others (by simpa [Served.server] using hne) (by simp [Ne.symm hne])
  | ignore i m => exact ⟨none, [], by simp, by simp, by simp, fun b _ => .of_others (by simp) rfl⟩
  | store i m rs err hrf hpc =>
    refine ⟨none, [], by simp, by simp, by simp, fun b _ => .of_others (by simp) ?_⟩
    by_cases hb : b = i
    · subst hb
      simp [hpc, SnapPc.err]
    · simp [hb]
  | report i err hpc =>
    by_cases herr : err = ""
    · refine ⟨none, [], by simp [RaftTest.report, herr], by simp, by simp,
        fun b hb => .of_others (by simp) ?_⟩
      by_cases hbi : b = i
      · subst hbi
        simp [hpc, SnapPc.err, herr] at hb
      · simp [hbi]
    · refine ⟨some (.applyErr i err), [], by simp [RaftTest.report, herr, applyErr], by simp,
        by simp, ?_⟩
      intro b hb
      by_cases hbi : b = i
      · subst hbi
        simp [Followed, Served.server, hpc, SnapPc.err]
      · exact .of_others (by simpa [Served.server] using Ne.symm hbi) (by simp [hbi])
  | kill i =>
    refine ⟨some (.kill i), [], by simp [RaftTest.kill], by simp, by simp, ?_⟩
    intro b hb
    by_cases hbi : b = i
    · subst hbi
      simp [Followed, Served.server]
    · exact .of_others (by simpa [Served.server] using Ne.symm hbi) (by simp [hbi])
  | restartEmpty i sn hpc =>
    exact ⟨none, [], by simp [mksrv], by simp, by simp, fun b _ => .of_others (by simp) rfl⟩
  | restartFrom i sn rs hpc hlen hsnap =>
    refine ⟨some (.ingestLog i rs.log), [], by simp [mksrv, ingestLog], by simp, by simp, ?_⟩
    intro b hb
    exact .of_others (by simpa [Served.server] using hother i hpc b hb) rfl
  | restartFail i sn err hpc =>
    refine ⟨some (.applyErr i err), [], by simp [mksrv, applyErr], by simp, by simp, ?_⟩
    intro b hb
    exact .of_others (by simpa [Served.server] using hother i hpc b hb) rfl

section Mirror

omit [DecidableEq V]

/-- The copies are those that the served calls determine. -/
def Mirrored (ts : Test n V) : Prop := ∀ j, (ts.srvs j).logs = held ts.served j

theorem Mirrored.applyErr {ts : Test n V} (h : Mirrored ts) (i : Fin n) (err : String) :
    Mirrored (applyErr i err ts) := by
  intro j
  rw [applyErr_logs, h j]
  exact (congrFun (held_applyErr ts.served i err) j).symm

theorem Mirrored.report {ts : Test n V} (h : Mirrored ts) (i : Fin n) (err : String) :
    Mirrored (report i err ts) := by
  rw [RaftTest.report]
  split
  · exact h.applyErr i err
  · exact h

theorem Mirrored.ingestLog {ts : Test n V} (h : Mirrored ts) (i : Fin n)
    (log : Int → Option (Option V)) : Mirrored (ingestLog i log ts) := by
  intro j
  show _ = held (ts.served ++ [.ingestLog i log]) j
  rw [held_ingest]
  by_cases hj : j = i
  · subst hj
    simp [RaftTest.ingestLog]
  · simpa [RaftTest.ingestLog, hj] using h j

theorem Mirrored.mksrv {ts : Test n V} (h : Mirrored ts) (i : Fin n) : Mirrored (mksrv i ts) :=
  fun j => (mksrv_logs i j ts).trans (h j)

theorem Mirrored.kill {ts : Test n V} (h : Mirrored ts) (i : Fin n) : Mirrored (kill i ts) := by
  intro j
  rw [kill_logs, h j]
  exact (congrFun (held_kill ts.served i) j).symm

/-- Every comparison reported exactly the conflicts with the copies of its time, and a conflict
is among the errors that were found. -/
def Exact (served : List (Served n V)) (found : List (Found n)) : Prop :=
  ∀ pre b index w err post, served = pre ++ .checkLogs b index w err :: post →
    (err ≠ "" ↔ ∃ j old, held pre j index = some old ∧ old ≠ w) ∧
      (err ≠ "" →
        ∃ f ∈ found, f.server = b ∧ f.index = some index ∧ f.calls = pre.length + 1)

theorem Exact.more {served : List (Served n V)} {found : List (Found n)}
    (h : Exact served found) (new : List (Found n)) :
    Exact served (found ++ new) := by
  intro pre b index w err post he
  obtain ⟨hiff, hfound⟩ := h pre b index w err post he
  refine ⟨hiff, ?_⟩
  intro herr
  obtain ⟨f, hmem, hf⟩ := hfound herr
  exact ⟨f, List.mem_append_left _ hmem, hf⟩

/-- A call that is no comparison. -/
theorem Exact.concat {served : List (Served n V)} {found : List (Found n)}
    (h : Exact served found) {x : Served n V}
    (hx : ∀ b index w err, x ≠ .checkLogs b index w err) : Exact (served ++ [x]) found := by
  intro pre b index w err post he
  rcases concat_eq_append_cons_iff.mp he with ⟨-, rfl, -⟩ | ⟨rest, rfl, hserved⟩
  · exact absurd rfl (hx b index w err)
  · exact h pre b index w err rest hserved

theorem Exact.report {ts : Test n V} {found : List (Found n)}
    (h : Exact ts.served found) (i : Fin n) (err : String) :
    Exact (report i err ts).served found := by
  rw [RaftTest.report]
  split
  · exact h.concat (by simp)
  · exact h

end Mirror

theorem Mirrored.checkLogs {ts : Test n V} (h : Mirrored ts) (fmtV : Option V → String) (i : Fin n)
    (m : ApplyMsg V Snap) : Mirrored (checkLogs fmtV i m ts).2.2 := by
  intro j
  show _ = held (ts.served ++ [.checkLogs i _ _ _]) j
  rw [held_check, checkLogs_logs]
  by_cases hj : j = i
  · subst hj
    simp [h j]
  · simp [hj, h j]

theorem Exact.checkLogs {ts : Test n V} {found : List (Found n)}
    (h : Exact ts.served found) (hm : Mirrored ts) (fmtV : Option V → String) (i : Fin n)
    (m : ApplyMsg V Snap) {err : String} (herr : (checkLogs fmtV i m ts).1 ≠ "" → err ≠ "") :
    Exact (checkLogs fmtV i m ts).2.2.served
      (found ++
        if err ≠ "" then [⟨i, err, some m.commandIndex, ts.served.length + 1⟩] else []) := by
  intro pre b index w err' post he
  rcases concat_eq_append_cons_iff.mp he with ⟨rfl, hcall, rfl⟩ | ⟨rest, rfl, hserved⟩
  · obtain ⟨rfl, rfl, rfl, rfl⟩ := Served.checkLogs.inj hcall
    constructor
    · simp only [← hm _]
      exact compareAll_ne_iff fmtV ts i m.commandIndex m.command
    · intro hne
      exact ⟨⟨i, err, some m.commandIndex, ts.served.length + 1⟩, by simp [herr hne], rfl, rfl, rfl⟩
  · exact (h.more _) pre b index w err' rest hserved

/-- The invariant of what the tester is told. -/
structure Watched (s : Passes n V Snap) : Prop where
  copies : Mirrored s.ts
  exact : Exact s.ts.served s.found
  followed : ∀ f ∈ s.found, f.err ≠ "" ∧ f.calls ≤ s.ts.served.length ∧
    Followed f.server f.err (s.pc f.server) (s.ts.served.drop f.calls)

omit [DecidableEq V] in
theorem Watched.start : Watched (Passes.start n V Snap) where
  copies := fun _ => rfl
  exact := by
    intro pre b index w err post he
    simp [Passes.start, Sys.start, makeTest] at he
  followed := by simp [Passes.start]

theorem Watched.step {gob : Labgob V Snap} {fmtV : Option V → String} {s t : Passes n V Snap}
    {e : PassEvent n V Snap} (h : Watched s) (hs : s.Steps gob fmtV e t) : Watched t := by
  have hfollowed : ∀ f ∈ t.found, f.err ≠ "" ∧ f.calls ≤ t.ts.served.length ∧
      Followed f.server f.err (t.pc f.server) (t.ts.served.drop f.calls) := by
    obtain ⟨call, new, hserved, hfound, hnew, hnext⟩ := hs.calls
    intro f hmem
    rw [hfound] at hmem
    rcases List.mem_append.mp hmem with hold | hmem
    · obtain ⟨herr, hk, hpost⟩ := h.followed f hold
      refine ⟨herr, by rw [hserved, List.length_append]; omega, ?_⟩
      rw [hserved, List.drop_append_of_le_length hk]
      refine hpost.append ?_
      intro hpc
      rw [← hpc] at herr ⊢
      exact hnext f.server herr
    · obtain ⟨herr, hk, hpc⟩ := hnew f hmem
      refine ⟨herr, Nat.le_of_eq hk, ?_⟩
      rw [hk, List.drop_length]
      exact .of_others (by simp) hpc
  have hboth : Mirrored t.ts ∧ Exact t.ts.served t.found := by
    cases hs with
    | ingest i m rs rs' err hrf hpc hv hsnap =>
      rw [note_found, note_toSys]
      exact ⟨h.copies.ingestLog i rs'.log, (h.exact.concat (by simp)).more _⟩
    | refuse i m rs err hrf hpc horder herr =>
      rw [note_found, note_toSys]
      exact ⟨h.copies, h.exact.more _⟩
    | compare i m rs err hrf hpc horder herr =>
      rw [note_found, note_toSys]
      refine ⟨h.copies.checkLogs fmtV i m, ?_⟩
      have hexact := h.exact.checkLogs h.copies fmtV i m herr
      simpa [checkLogs] using hexact
    | ignore i m => exact ⟨h.copies, h.exact⟩
    | store i m rs err hrf hpc => exact ⟨h.copies, h.exact⟩
    | report i err hpc => exact ⟨h.copies.report i err, h.exact.report i err⟩
    | kill i => exact ⟨h.copies.kill i, h.exact.concat (by simp)⟩
    | restartEmpty i sn hpc => exact ⟨h.copies.mksrv i, h.exact⟩
    | restartFrom i sn rs hpc hlen hsnap =>
      exact ⟨(h.copies.ingestLog i rs.log).mksrv i, h.exact.concat (by simp)⟩
    | restartFail i sn err hpc =>
      exact ⟨(h.copies.applyErr i err).mksrv i, h.exact.concat (by simp)⟩
  exact ⟨hboth.1, hboth.2, hfollowed⟩

theorem Watched.of_run {gob : Labgob V Snap} {fmtV : Option V → String}
    {events : List (PassEvent n V Snap)} {s : Passes n V Snap}
    (h : run (Passes.step gob fmtV) (Passes.start n V Snap) events = some s) : Watched s :=
  run_induction (P := fun _ s => Watched s) Watched.start
    (fun _ _ _ _ _ hw hs => hw.step (Passes.steps_of_step hs)) h

/-- When a call is served, it is the last one, and what was found then stays found. -/
theorem Passes.served_moment {gob : Labgob V Snap} {fmtV : Option V → String}
    {events : List (PassEvent n V Snap)} {s : Passes n V Snap}
    (h : run (Passes.step gob fmtV) (Passes.start n V Snap) events = some s) :
    ∀ pre call post, s.ts.served = pre ++ call :: post →
      Moment (Passes.step gob fmtV) (Passes.start n V Snap) events
        fun _ t => t.ts.served = pre ++ [call] ∧ t.found ⊆ s.found := by
  refine run_induction (P := fun events s => ∀ pre call post, s.ts.served = pre ++ call :: post →
    Moment (Passes.step gob fmtV) (Passes.start n V Snap) events
      fun _ t => t.ts.served = pre ++ [call] ∧ t.found ⊆ s.found) ?_ ?_ h
  · intro pre call post hserved
    simp [Passes.start, Sys.start, makeTest] at hserved
  · intro events s e s' hs ih hstep pre call post hserved
    have hrun := run_concat_eq_some.mpr ⟨s, hs, hstep⟩
    obtain ⟨new, found, hnew, hfound, -⟩ := (Passes.steps_of_step hstep).calls
    have hbefore : ∀ rest, s.ts.served = pre ++ call :: rest →
        Moment (Passes.step gob fmtV) (Passes.start n V Snap) (events ++ [e])
          fun _ t => t.ts.served = pre ++ [call] ∧ t.found ⊆ s'.found := by
      intro rest hrest
      obtain ⟨as, bs, t, he, ht, hlast, hsub⟩ := (ih pre call rest hrest).append [e]
      refine ⟨as, bs, t, he, ht, hlast, ?_⟩
      rw [hfound]
      exact fun x hx => List.mem_append_left _ (hsub hx)
    cases new with
    | none => exact hbefore post (by rw [← hserved, hnew]; simp)
    | some x =>
      rcases concat_eq_append_cons_iff.mp (hnew.symm.trans hserved) with
        ⟨-, -, rfl⟩ | ⟨rest, -, hrest⟩
      · exact .now hrun ⟨hserved, fun _ hx => hx⟩
      · exact hbefore rest hrest

end RaftTest
