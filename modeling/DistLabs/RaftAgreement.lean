import DistLabs.RaftTest

/-!
# What the Raft tester notices

Without snapshots the tester's incremental comparison is exact: it raises an alarm
in a run exactly if two messages of the run disagree or a server skips an index.
-/
namespace RaftTest

open Runs

variable {n : Nat} {V Snap : Type} [DecidableEq V]

theorem append_ne_empty {a b : String} (h : a ≠ "") : a ++ b ≠ "" := by
  intro he
  exact h (String.append_eq_empty_iff.mp he).1

omit [DecidableEq V] in
theorem commitMsg_ne (fmtV : Option V → String) (index : Int) (i : Fin n) (v : Option V) (j : Fin n)
    (old : Option V) : commitMsg fmtV index i v j old ≠ "" := by
  unfold commitMsg
  repeat apply append_ne_empty
  decide

/-- The comparison reports exactly the copies that hold another command. -/
theorem compareAll_ne (fmtV : Option V → String) (ts : Test n V) (i : Fin n) (index : Int)
    (v : Option V) (js : List (Fin n)) :
    compareAll fmtV ts i index v js ≠ "" ↔
      ∃ j ∈ js, ∃ old, (ts.srvs j).logs index = some old ∧ old ≠ v := by
  induction js using List.reverseRecOn with
  | nil => simp [compareAll]
  | append_singleton js j ih =>
    rw [compareAll, List.foldl_append, ← compareAll, List.foldl_cons, List.foldl_nil]
    cases hj : (ts.srvs j).logs index with
    | none => simp [ih, hj]
    | some old =>
      by_cases ho : old = v
      · simp [ih, hj, ho]
      · simp only [ne_eq, ho, not_false_eq_true, if_true]
        exact ⟨fun _ => ⟨j, by simp, old, hj, ho⟩, fun _ => commitMsg_ne _ _ _ _ _ _⟩

/-- Some copy holds another command at the index. -/
def Conflict (ts : Test n V) (index : Int) (v : Option V) : Prop :=
  ∃ j old, (ts.srvs j).logs index = some old ∧ old ≠ v

theorem compareAll_ne_iff (fmtV : Option V → String) (ts : Test n V) (i : Fin n) (index : Int)
    (v : Option V) :
    compareAll fmtV ts i index v (List.finRange n) ≠ "" ↔ Conflict ts index v := by
  rw [compareAll_ne]
  simp [Conflict, List.mem_finRange]

/-- `applyErr` has been called. -/
def Alarmed (ts : Test n V) : Prop := ∃ i err, Served.applyErr i err ∈ ts.served

omit [DecidableEq V] in
theorem report_alarmed (i : Fin n) (err : String) (ts : Test n V) :
    Alarmed (report i err ts) ↔ Alarmed ts ∨ err ≠ "" := by
  by_cases h : err = ""
  · simp [report, h]
  · simp only [report, ne_eq, h, not_false_eq_true, if_true, or_true, iff_true]
    exact ⟨i, err, by simp [applyErr]⟩

omit [DecidableEq V] in
theorem applyErr_logs (i j : Fin n) (err : String) (ts : Test n V) :
    ((applyErr i err ts).srvs j).logs = (ts.srvs j).logs := by
  by_cases hj : j = i
  · subst hj; simp [applyErr]
  · simp [applyErr, hj]

omit [DecidableEq V] in
theorem report_logs (i j : Fin n) (err : String) (ts : Test n V) :
    ((report i err ts).srvs j).logs = (ts.srvs j).logs := by
  rw [report]
  split
  · exact applyErr_logs i j err ts
  · rfl

omit [DecidableEq V] in
theorem kill_logs (i j : Fin n) (ts : Test n V) :
    ((kill i ts).srvs j).logs = (ts.srvs j).logs := by
  by_cases hj : j = i
  · subst hj; simp [kill]
  · simp [kill, hj]

omit [DecidableEq V] in
theorem kill_alarmed (i : Fin n) (ts : Test n V) : Alarmed (kill i ts) ↔ Alarmed ts := by
  simp [Alarmed, kill]

omit [DecidableEq V] in
theorem mksrv_logs (i j : Fin n) (ts : Test n V) :
    ((mksrv i ts).srvs j).logs = (ts.srvs j).logs := by
  by_cases hj : j = i
  · subst hj; simp [mksrv]
  · simp [mksrv, hj]

theorem checkLogs_logs (fmtV : Option V → String) (i j : Fin n) (m : ApplyMsg V Snap)
    (ts : Test n V) :
    ((checkLogs fmtV i m ts).2.2.srvs j).logs =
      if j = i then Function.update (ts.srvs i).logs m.commandIndex (some m.command)
      else (ts.srvs j).logs := by
  by_cases hj : j = i
  · subst hj; simp [checkLogs]
  · simp [checkLogs, hj]

/-- What `applier` does to the copies. -/
theorem applier_logs (fmtV : Option V → String) (i j : Fin n) (m : ApplyMsg V Snap)
    (hv : m.commandValid = true) (ts : Test n V) :
    ((applier fmtV i m ts).srvs j).logs =
      if j = i then Function.update (ts.srvs i).logs m.commandIndex (some m.command)
      else (ts.srvs j).logs := by
  simp only [applier, hv, Bool.true_eq_false, if_false]
  rw [report_logs, checkLogs_logs]

/-- When `applier` raises an alarm. -/
theorem applier_alarmed (fmtV : Option V → String) (i : Fin n) (m : ApplyMsg V Snap)
    (hv : m.commandValid = true) (ts : Test n V) :
    Alarmed (applier fmtV i m ts) ↔ Alarmed ts ∨ Conflict ts m.commandIndex m.command ∨
      (1 < m.commandIndex ∧ (ts.srvs i).logs (m.commandIndex - 1) = none) := by
  have hserved : Alarmed (checkLogs fmtV i m ts).2.2 ↔ Alarmed ts := by
    simp [Alarmed, checkLogs]
  simp only [applier, hv, Bool.true_eq_false, if_false]
  rw [report_alarmed, hserved]
  refine or_congr_right ?_
  by_cases hgap : m.commandIndex > 1 ∧ (checkLogs fmtV i m ts).2.1 = false
  · have hprev : (ts.srvs i).logs (m.commandIndex - 1) = none := by
      simpa [checkLogs] using hgap.2
    have hmsg : s!"server {i} apply out of order {m.commandIndex}" ≠ "" := by
      repeat apply append_ne_empty
      decide
    rw [if_pos hgap]
    exact iff_of_true hmsg (Or.inr ⟨hgap.1, hprev⟩)
  · have hprev : ¬ (1 < m.commandIndex ∧ (ts.srvs i).logs (m.commandIndex - 1) = none) := by
      simpa [checkLogs] using hgap
    rw [if_neg hgap]
    simp only [hprev, or_false]
    exact compareAll_ne_iff fmtV ts i m.commandIndex m.command

/-- The server has read this command message in the run. -/
def Reads (events : List (Event n V Snap)) (i : Fin n) (m : ApplyMsg V Snap) : Prop :=
  Event.read i m ∈ events ∧ m.commandValid = true

/-- Two messages of the run carry different commands at one index. -/
def Disagree (events : List (Event n V Snap)) : Prop :=
  ∃ i m j m', Reads events i m ∧ Reads events j m' ∧ m.commandIndex = m'.commandIndex ∧
    m.command ≠ m'.command

/-- A server reads an index above one without having read the index before it earlier. -/
def Skip (events : List (Event n V Snap)) : Prop :=
  ∃ pre i m post, events = pre ++ .read i m :: post ∧ m.commandValid = true ∧
    1 < m.commandIndex ∧ ∀ m', Reads pre i m' → m'.commandIndex ≠ m.commandIndex - 1

/-- The copies hold what was read, and something for each index that was read. -/
structure Copied (events : List (Event n V Snap)) (ts : Test n V) : Prop where
  source : ∀ j k v, (ts.srvs j).logs k = some v →
    ∃ m, Reads events j m ∧ m.commandIndex = k ∧ m.command = v
  present : ∀ j m, Reads events j m → ∃ v, (ts.srvs j).logs m.commandIndex = some v

omit [DecidableEq V] in
theorem reads_concat {events : List (Event n V Snap)} {e : Event n V Snap} {i : Fin n}
    {m : ApplyMsg V Snap} :
    Reads (events ++ [e]) i m ↔ Reads events i m ∨ (e = .read i m ∧ m.commandValid = true) := by
  simp only [Reads, List.mem_append, List.mem_singleton, eq_comm (a := e)]
  tauto

omit [DecidableEq V] in
theorem skip_concat {events : List (Event n V Snap)} {e : Event n V Snap} :
    Skip (events ++ [e]) ↔ Skip events ∨ ∃ i m, e = .read i m ∧ m.commandValid = true ∧
      1 < m.commandIndex ∧ ∀ m', Reads events i m' → m'.commandIndex ≠ m.commandIndex - 1 := by
  constructor
  · rintro ⟨pre, i, m, post, he, h⟩
    rcases concat_eq_append_cons_iff.mp he with ⟨rfl, rfl, -⟩ | ⟨rest, rfl, rfl⟩
    · exact Or.inr ⟨i, m, rfl, h⟩
    · exact Or.inl ⟨pre, i, m, rest, rfl, h⟩
  · rintro (⟨pre, i, m, post, rfl, h⟩ | ⟨i, m, rfl, h⟩)
    · exact ⟨pre, i, m, post ++ [e], by simp, h⟩
    · exact ⟨events, i, m, [], rfl, h⟩

/-- As long as nothing disagreed, a new command conflicts with a copy exactly if it
disagrees with an earlier message. -/
theorem disagree_concat_read {events : List (Event n V Snap)} {ts : Test n V}
    (hc : Copied events ts) {i : Fin n} {m : ApplyMsg V Snap} (hv : m.commandValid = true) :
    Disagree (events ++ [.read i m]) ↔
      Disagree events ∨ Conflict ts m.commandIndex m.command := by
  constructor
  · rintro ⟨j, a, k, b, ha, hb, hidx, hne⟩
    by_cases hd : Disagree events
    · exact Or.inl hd
    · right
      -- one of the two messages is the new one; the other left its command in a copy
      have hold : ∀ k b, Reads events k b → b.commandIndex = m.commandIndex →
          b.command ≠ m.command → Conflict ts m.commandIndex m.command := by
        intro k b hb hbi hbc
        obtain ⟨old, hlog⟩ := hc.present k b hb
        obtain ⟨b', hb', hi', hc'⟩ := hc.source k _ old hlog
        have hsame : b'.command = b.command := by
          by_contra hdiff
          exact hd ⟨k, b', k, b, hb', hb, hi', hdiff⟩
        exact ⟨k, old, hbi ▸ hlog, by rw [← hc', hsame]; exact hbc⟩
      rcases reads_concat.mp ha with ha | ⟨ha, -⟩ <;> rcases reads_concat.mp hb with hb | ⟨hb, -⟩
      · exact absurd ⟨j, a, k, b, ha, hb, hidx, hne⟩ hd
      · cases hb
        exact hold j a ha hidx hne
      · cases ha
        exact hold k b hb hidx.symm (Ne.symm hne)
      · cases ha
        cases hb
        exact absurd rfl hne
  · rintro (⟨j, a, k, b, ha, hb, h⟩ | ⟨j, old, hlog, hne⟩)
    · exact ⟨j, a, k, b, reads_concat.mpr (Or.inl ha), reads_concat.mpr (Or.inl hb), h⟩
    · obtain ⟨a, ha, hi, hcmd⟩ := hc.source j _ old hlog
      exact ⟨j, a, i, m, reads_concat.mpr (Or.inl ha), reads_concat.mpr (Or.inr ⟨rfl, hv⟩), hi,
        by rwa [hcmd]⟩

omit [DecidableEq V] in
theorem skip_concat_read {events : List (Event n V Snap)} {ts : Test n V}
    (hc : Copied events ts) {i : Fin n} {m : ApplyMsg V Snap} (hv : m.commandValid = true) :
    Skip (events ++ [.read i m]) ↔ Skip events ∨
      (1 < m.commandIndex ∧ (ts.srvs i).logs (m.commandIndex - 1) = none) := by
  rw [skip_concat]
  refine or_congr_right ?_
  constructor
  · rintro ⟨i', m', he, -, hidx, hno⟩
    cases he
    refine ⟨hidx, ?_⟩
    cases hl : (ts.srvs i).logs (m.commandIndex - 1) with
    | none => rfl
    | some v =>
      obtain ⟨a, ha, hi, -⟩ := hc.source i _ v hl
      exact absurd hi (hno a ha)
  · rintro ⟨hidx, hl⟩
    refine ⟨i, m, rfl, hv, hidx, ?_⟩
    intro a ha hi
    obtain ⟨v, hlog⟩ := hc.present i a ha
    rw [hi, hl] at hlog
    cases hlog

theorem Copied.read {events : List (Event n V Snap)} {ts : Test n V} (hc : Copied events ts)
    (fmtV : Option V → String) (i : Fin n) (m : ApplyMsg V Snap) (hv : m.commandValid = true) :
    Copied (events ++ [.read i m]) (applier fmtV i m ts) := by
  constructor
  · intro j k v h
    rw [applier_logs fmtV i j m hv ts] at h
    by_cases hnew : j = i ∧ k = m.commandIndex
    · obtain ⟨rfl, rfl⟩ := hnew
      simp only [if_true, Function.update_self, Option.some.injEq] at h
      exact ⟨m, reads_concat.mpr (Or.inr ⟨rfl, hv⟩), rfl, h⟩
    · have hold : (ts.srvs j).logs k = some v := by
        by_cases hj : j = i
        · subst hj
          have hk : k ≠ m.commandIndex := fun hk => hnew ⟨rfl, hk⟩
          simpa [hk] using h
        · simpa [hj] using h
      obtain ⟨a, ha, hak⟩ := hc.source j k v hold
      exact ⟨a, reads_concat.mpr (Or.inl ha), hak⟩
  · intro j a ha
    rw [applier_logs fmtV i j m hv ts]
    rcases reads_concat.mp ha with ha | ⟨ha, -⟩
    · obtain ⟨v, hlog⟩ := hc.present j a ha
      by_cases hj : j = i
      · subst hj
        by_cases hk : a.commandIndex = m.commandIndex
        · exact ⟨m.command, by simp [hk]⟩
        · exact ⟨v, by simpa [hk] using hlog⟩
      · exact ⟨v, by simpa [hj] using hlog⟩
    · cases ha
      exact ⟨m.command, by simp⟩

omit [DecidableEq V] in
/-- An event that is no command message changes neither the copies nor what was read. -/
theorem quiet_event {events : List (Event n V Snap)} (ts : Test n V) {ts' : Test n V}
    {e : Event n V Snap} (hquiet : ∀ i m, e = .read i m → m.commandValid = false)
    (hlogs : ∀ j, (ts'.srvs j).logs = (ts.srvs j).logs) (halarm : Alarmed ts' ↔ Alarmed ts)
    (hc : Copied events ts) (ha : Alarmed ts ↔ Disagree events ∨ Skip events) :
    Copied (events ++ [e]) ts' ∧
      (Alarmed ts' ↔ Disagree (events ++ [e]) ∨ Skip (events ++ [e])) := by
  have hreads : ∀ i m, Reads (events ++ [e]) i m ↔ Reads events i m := by
    intro i m
    rw [reads_concat]
    constructor
    · rintro (h | ⟨he, hv⟩)
      · exact h
      · simp [hquiet i m he] at hv
    · exact Or.inl
  have hskip : Skip (events ++ [e]) ↔ Skip events := by
    rw [skip_concat]
    constructor
    · rintro (h | ⟨i, m, he, hv, -⟩)
      · exact h
      · simp [hquiet i m he] at hv
    · exact Or.inl
  constructor
  · constructor
    · intro j k v h
      rw [hlogs j] at h
      simpa only [hreads] using hc.source j k v h
    · intro j m h
      rw [hlogs j]
      exact hc.present j m ((hreads j m).mp h)
  · rw [halarm, ha, hskip]
    simp only [Disagree, hreads]

/-- Whatever happens next, the copies hold what was read and the alarm is exact. -/
theorem exact_event (fmtV : Option V → String) {events : List (Event n V Snap)} {ts : Test n V}
    (e : Event n V Snap) (hc : Copied events ts) (ha : Alarmed ts ↔ Disagree events ∨ Skip events) :
    Copied (events ++ [e]) (Event.exec fmtV ts e) ∧
      (Alarmed (Event.exec fmtV ts e) ↔ Disagree (events ++ [e]) ∨ Skip (events ++ [e])) := by
  cases e with
  | read i m =>
    cases hv : m.commandValid with
    | true =>
      refine ⟨hc.read fmtV i m hv, ?_⟩
      rw [Event.exec, applier_alarmed fmtV i m hv, disagree_concat_read hc hv,
        skip_concat_read hc hv, ha]
      tauto
    | false =>
      have hsame : Event.exec fmtV ts (.read i m) = ts := by simp [Event.exec, applier, hv]
      rw [hsame]
      refine quiet_event ts ?_ (fun _ => rfl) Iff.rfl hc ha
      intro i' m' he
      cases he
      exact hv
  | kill i =>
    refine quiet_event ts ?_ (fun j => kill_logs i j ts) (kill_alarmed i ts) hc ha
    intro i' m' he
    cases he
  | restart i =>
    refine quiet_event ts ?_ (fun j => mksrv_logs i j ts) Iff.rfl hc ha
    intro i' m' he
    cases he

/-- Without snapshots the agreement check is exact. -/
theorem alarm_iff_disagree_or_skip (fmtV : Option V → String) (events : List (Event n V Snap)) :
    Alarmed (runAppliers fmtV events) ↔ Disagree events ∨ Skip events := by
  have hboth : Copied events (runAppliers fmtV events) ∧
      (Alarmed (runAppliers fmtV events) ↔ Disagree events ∨ Skip events) := by
    induction events using List.reverseRecOn with
    | nil =>
      refine ⟨⟨?_, ?_⟩, ?_⟩
      · intro j k v h
        simp [runAppliers, makeTest, newRaftServer] at h
      · intro j m h
        simp [Reads] at h
      · simp [runAppliers, makeTest, Alarmed, Disagree, Skip, Reads]
    | append_singleton events e ih =>
      have hstep : runAppliers fmtV (events ++ [e]) =
          Event.exec fmtV (runAppliers fmtV events) e := by
        simp [runAppliers]
      rw [hstep]
      exact exact_event fmtV e ih.1 ih.2
  exact hboth.2

end RaftTest
