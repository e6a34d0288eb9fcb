import Mathlib.Data.List.Perm.Subperm
import Mathlib.Data.Nat.ModEq
import DistLabs.RaftOne

/-!
# The Raft tests report one log

Unless an applier has found an error, everything that `one` and `wait` have ever
reported, to whichever goroutine, is part of one log: the reported entry and all
entries before it are on as many servers as were asked for, and no server's copy
holds anything else there.
-/
namespace RaftTest

open Runs

variable {n : Nat} {V Snap : Type} [DecidableEq V]

/-- An applier has found an error: it is recorded, or about to be reported, or the
server was killed before it could report it. -/
def Tests.Alarm (s : Tests n V) : Prop :=
  ∃ i, (s.ts.srvs i).applyErr ≠ "" ∨ (s.pending i).getD "" ≠ "" ∨ i ∈ s.lost

instance (s : Tests n V) : Decidable s.Alarm :=
  inferInstanceAs (Decidable (∃ _, _ ∨ _ ∨ _))

omit [DecidableEq V] in
theorem applierErr_eq_empty {i : Fin n} {index : Int} {err : String} {prevok : Bool}
    (h : applierErr i index err prevok = "") : (1 < index → prevok = true) ∧ err = "" := by
  unfold applierErr at h
  split at h
  · have hmsg : s!"server {i} apply out of order {index}" ≠ "" := by
      repeat apply append_ne_empty
      decide
    exact absurd h hmsg
  · rename_i hgap
    refine ⟨?_, h⟩
    intro hindex
    by_contra hprev
    exact hgap ⟨hindex, by simpa using hprev⟩

/-- The copies agree and have no gap, and what was reported is there. -/
structure Tests.Agreed (s : Tests n V) : Prop where
  same : ∀ i j index v w, (s.ts.srvs i).logs index = some v → (s.ts.srvs j).logs index = some w →
    v = w
  gapless : ∀ j index, 1 < index → ((s.ts.srvs j).logs index).isSome →
    ((s.ts.srvs j).logs (index - 1)).isSome
  reported : ∀ r ∈ s.reports, AgreedAt s.ts r.index r.cmd r.servers

theorem Tests.Agreed.start : (Tests.start n V).Agreed := by
  constructor
  · intro i j index v w h
    cases h
  · intro j index hindex h
    cases h
  · intro r hr
    cases hr

/-- The copies are kept, and a new report is true. -/
theorem Tests.Agreed.frame {s s' : Tests n V} (h : s.Agreed)
    (hlogs : ∀ j, (s'.ts.srvs j).logs = (s.ts.srvs j).logs)
    (hreports : ∀ r ∈ s'.reports, r ∈ s.reports ∨ AgreedAt s.ts r.index r.cmd r.servers) :
    s'.Agreed := by
  have hholders : ∀ index v, holders s'.ts index v = holders s.ts index v := by
    intro index v
    simp only [holders, hlogs]
  constructor
  · intro i j index v w hv hw
    rw [hlogs] at hv hw
    exact h.same i j index v w hv hw
  · intro j index hindex hsome
    rw [hlogs] at hsome ⊢
    exact h.gapless j index hindex hsome
  · intro r hr
    have hagreed : AgreedAt s.ts r.index r.cmd r.servers := by
      rcases hreports r hr with hold | hnew
      · exact h.reported r hold
      · exact hnew
    refine ⟨?_, ?_, ?_⟩
    · rw [hholders]
      exact hagreed.held
    · rw [hholders]
      exact hagreed.enough
    · intro j w hw
      rw [hlogs] at hw
      exact hagreed.only j w hw

/-- A message that gives no error extends the copies: it agrees with them, and leaves no gap. -/
theorem Tests.Agreed.check {s : Tests n V} (h : s.Agreed) (fmtV : Option V → String) (i : Fin n)
    (m : ApplyMsg V Snap)
    (hquiet : applierErr i m.commandIndex (checkLogs fmtV i m s.ts).1 (checkLogs fmtV i m s.ts).2.1
      = "") :
    (s.check fmtV i m).Agreed := by
  have hlog : ∀ j index, ((s.check fmtV i m).ts.srvs j).logs index =
      if j = i ∧ index = m.commandIndex then some m.command else (s.ts.srvs j).logs index := by
    intro j index
    simp only [Tests.check, checkLogs_logs]
    by_cases hj : j = i
    · subst hj
      by_cases hk : index = m.commandIndex
      · subst hk
        simp
      · simp [hk]
    · simp [hj]
  obtain ⟨hprev, herr⟩ := applierErr_eq_empty hquiet
  have hagree : ∀ j w, (s.ts.srvs j).logs m.commandIndex = some w → w = m.command := by
    intro j w hw
    by_contra hne
    have hconflict : Conflict s.ts m.commandIndex m.command := ⟨j, w, hw, hne⟩
    exact (compareAll_ne_iff fmtV s.ts i m.commandIndex m.command).mpr hconflict herr
  have hkeep : ∀ j index v, (s.ts.srvs j).logs index = some v →
      ((s.check fmtV i m).ts.srvs j).logs index = some v := by
    intro j index v hv
    rw [hlog]
    split
    · rename_i hnew
      obtain ⟨rfl, rfl⟩ := hnew
      rw [hagree j v hv]
    · exact hv
  have horigin : ∀ j index v, ((s.check fmtV i m).ts.srvs j).logs index = some v →
      (index = m.commandIndex ∧ v = m.command) ∨ (s.ts.srvs j).logs index = some v := by
    intro j index v hv
    rw [hlog] at hv
    split at hv
    · rename_i hnew
      exact Or.inl ⟨hnew.2, (Option.some.inj hv).symm⟩
    · exact Or.inr hv
  constructor
  · intro j k index v w hv hw
    rcases horigin j index v hv with ⟨rfl, rfl⟩ | hv <;>
      rcases horigin k _ w hw with ⟨hk, hw⟩ | hw
    · exact hw.symm
    · exact (hagree k w hw).symm
    · rw [hk] at hv
      exact (hagree j v hv).trans hw.symm
    · exact h.same j k index v w hv hw
  · intro j index hindex hsome
    have hstays : ∀ k, ((s.ts.srvs j).logs k).isSome →
        (((s.check fmtV i m).ts.srvs j).logs k).isSome := by
      intro k hk
      obtain ⟨v, hv⟩ := Option.isSome_iff_exists.mp hk
      rw [hkeep j k v hv]
      rfl
    apply hstays
    by_cases hnew : j = i ∧ index = m.commandIndex
    · obtain ⟨rfl, rfl⟩ := hnew
      exact hprev hindex
    · rw [hlog, if_neg hnew] at hsome
      exact h.gapless j index hindex hsome
  · intro r hr
    have hagreed := h.reported r hr
    have hmore : (holders s.ts r.index r.cmd).length ≤
        (holders (s.check fmtV i m).ts r.index r.cmd).length := by
      apply holders_subset
      intro j hj
      exact hkeep j r.index r.cmd hj
    have hheld := hagreed.held
    have henough := hagreed.enough
    refine ⟨by omega, by omega, ?_⟩
    intro j w hw
    rcases horigin j r.index w hw with ⟨hindex, rfl⟩ | hw
    · -- some copy held the reported entry, and the new one agrees with it
      obtain ⟨k, hk⟩ := List.exists_mem_of_length_pos hheld
      have hk : (s.ts.srvs k).logs r.index = some r.cmd :=
        of_decide_eq_true (List.mem_filter.mp hk).2
      rw [hindex] at hk
      exact (hagree k r.cmd hk).symm
    · exact hagreed.only j w hw

theorem mem_filterMap_set {α β : Type} {f : α → Option β} {xs : List α} {i : Nat} {a : α} {b : β}
    (h : b ∈ (xs.set i a).filterMap f) : b ∈ xs.filterMap f ∨ f a = some b := by
  obtain ⟨x, hx, hb⟩ := List.mem_filterMap.mp h
  rcases List.mem_or_eq_of_mem_set hx with hx | rfl
  · exact Or.inl (List.mem_filterMap.mpr ⟨x, hx, hb⟩)
  · exact Or.inr hb

omit [DecidableEq V] in
theorem report_applyErr (i j : Fin n) (err : String) (ts : Test n V) :
    ((report i err ts).srvs j).applyErr =
      if j = i ∧ err ≠ "" then err else (ts.srvs j).applyErr := by
  by_cases herr : err = ""
  · simp [report, herr]
  · by_cases hj : j = i
    · subst hj
      simp [report, applyErr, herr]
    · simp [report, applyErr, herr, hj]

omit [DecidableEq V] in
theorem kill_applyErr (i j : Fin n) (ts : Test n V) :
    ((kill i ts).srvs j).applyErr = (ts.srvs j).applyErr := by
  by_cases hj : j = i
  · subst hj
    simp [kill]
  · simp [kill, hj]

omit [DecidableEq V] in
theorem mksrv_applyErr (i j : Fin n) (ts : Test n V) :
    ((mksrv i ts).srvs j).applyErr = (ts.srvs j).applyErr := by
  by_cases hj : j = i
  · subst hj
    simp [mksrv]
  · simp [mksrv, hj]

theorem checkLogs_applyErr (fmtV : Option V → String) (i j : Fin n) (m : ApplyMsg V Snap)
    (ts : Test n V) : ((checkLogs fmtV i m ts).2.2.srvs j).applyErr = (ts.srvs j).applyErr := by
  by_cases hj : j = i
  · subst hj
    simp [checkLogs]
  · simp [checkLogs, hj]

omit [DecidableEq V] in
/-- An error stays where it is, is recorded, or is lost. -/
theorem Tests.Alarm.frame {s s' : Tests n V} (h : s.Alarm)
    (hkept : ∀ i, (s.ts.srvs i).applyErr ≠ "" → (s'.ts.srvs i).applyErr ≠ "")
    (hpending : ∀ i, (s.pending i).getD "" ≠ "" →
      (s'.ts.srvs i).applyErr ≠ "" ∨ (s'.pending i).getD "" ≠ "" ∨ i ∈ s'.lost)
    (hlost : ∀ i ∈ s.lost, i ∈ s'.lost) : s'.Alarm := by
  obtain ⟨i, h | h | h⟩ := h
  · exact ⟨i, Or.inl (hkept i h)⟩
  · exact ⟨i, hpending i h⟩
  · exact ⟨i, Or.inr (Or.inr (hlost i h))⟩

/-- An error that was found is not forgotten. -/
theorem Tests.Alarm.step {fmtV : Option V → String} {s s' : Tests n V} {a : Act n V Snap}
    (h : s.Alarm) (hstep : s.step fmtV a = some s') : s'.Alarm := by
  cases a with
  | check i m =>
    obtain ⟨hidle, hstep⟩ := Option.ite_none_right_eq_some.mp hstep
    cases hstep
    split
    · exact h
    · refine h.frame ?_ ?_ (fun _ hj => hj)
      · intro j hj
        simpa [Tests.check, checkLogs_applyErr] using hj
      · intro j hj
        have hne : j ≠ i := by
          rintro rfl
          simp [hidle] at hj
        exact Or.inr (Or.inl (by simpa [Tests.check, hne] using hj))
  | report i =>
    obtain ⟨err, hpending, rfl⟩ := Option.map_eq_some_iff.mp hstep
    refine h.frame ?_ ?_ (fun _ hj => hj)
    · intro j hj
      dsimp only
      rw [report_applyErr]
      split
      · rename_i herr
        exact herr.2
      · exact hj
    · intro j hj
      by_cases hji : j = i
      · subst hji
        rw [hpending, Option.getD_some] at hj
        refine Or.inl ?_
        dsimp only
        rwa [report_applyErr, if_pos ⟨rfl, hj⟩]
      · exact Or.inr (Or.inl (by simpa [hji] using hj))
  | kill i =>
    cases hstep
    refine h.frame ?_ ?_ ?_
    · intro j hj
      simpa [kill_applyErr] using hj
    · intro j hj
      by_cases hji : j = i
      · subst hji
        exact Or.inr (Or.inr (by simp [hj]))
      · exact Or.inr (Or.inl (by simpa [hji] using hj))
    · intro j hj
      dsimp only
      split
      · exact List.mem_append_left _ hj
      · exact hj
  | restart i =>
    cases hstep
    refine h.frame ?_ (fun _ hj => Or.inr (Or.inl hj)) (fun _ hj => hj)
    intro j hj
    simpa [mksrv_applyErr] using hj
  | connect i up =>
    cases hstep
    exact h
  | cleanup =>
    cases hstep
    exact h
  | one cmd expectedServers retry =>
    cases hstep
    exact h
  | oneGoes c inTime index1 ok =>
    obtain ⟨c', -, rfl⟩ := Option.map_eq_some_iff.mp hstep
    exact h
  | wait index n startTerm =>
    cases hstep
    exact h
  | waitGoes w terms =>
    obtain ⟨w', -, rfl⟩ := Option.map_eq_some_iff.mp hstep
    exact h

theorem Tests.Agreed.step {fmtV : Option V → String} {s s' : Tests n V} {a : Act n V Snap}
    (h : s.Agreed) (hstep : s.step fmtV a = some s') : s'.Alarm ∨ s'.Agreed := by
  cases a with
  | check i m =>
    obtain ⟨hidle, hstep⟩ := Option.ite_none_right_eq_some.mp hstep
    cases hstep
    split
    · exact Or.inr h
    · by_cases hquiet : applierErr i m.commandIndex (checkLogs fmtV i m s.ts).1
          (checkLogs fmtV i m s.ts).2.1 = ""
      · exact Or.inr (h.check fmtV i m hquiet)
      · exact Or.inl ⟨i, Or.inr (Or.inl (by simpa [Tests.check] using hquiet))⟩
  | report i =>
    obtain ⟨err, -, rfl⟩ := Option.map_eq_some_iff.mp hstep
    exact Or.inr (h.frame (fun j => report_logs i j err s.ts) (fun _ hr => Or.inl hr))
  | kill i =>
    cases hstep
    exact Or.inr (h.frame (fun j => kill_logs i j s.ts) (fun _ hr => Or.inl hr))
  | restart i =>
    cases hstep
    exact Or.inr (h.frame (fun j => mksrv_logs i j s.ts) (fun _ hr => Or.inl hr))
  | connect i up =>
    cases hstep
    exact Or.inr (h.frame (fun _ => rfl) (fun _ hr => Or.inl hr))
  | cleanup =>
    cases hstep
    exact Or.inr (h.frame (fun _ => rfl) (fun _ hr => Or.inl hr))
  | one cmd expectedServers retry =>
    cases hstep
    refine Or.inr (h.frame (fun _ => rfl) ?_)
    intro r hr
    exact Or.inl (by simpa [Tests.reports, One.report] using hr)
  | oneGoes c inTime index1 ok =>
    obtain ⟨c', hc', rfl⟩ := Option.map_eq_some_iff.mp hstep
    obtain ⟨c, -, hgoes⟩ := Option.bind_eq_some_iff.mp hc'
    refine Or.inr (h.frame (fun _ => rfl) ?_)
    intro r hr
    rcases List.mem_append.mp hr with hr | hr
    · rcases mem_filterMap_set hr with hold | hnew
      · exact Or.inl (List.mem_append_left _ hold)
      · exact Or.inr ((One.steps_of_step hgoes).report hnew)
    · exact Or.inl (List.mem_append_right _ hr)
  | wait index n startTerm =>
    cases hstep
    refine Or.inr (h.frame (fun _ => rfl) ?_)
    intro r hr
    exact Or.inl (by simpa [Tests.reports, Wait.report] using hr)
  | waitGoes w terms =>
    obtain ⟨w', hw', rfl⟩ := Option.map_eq_some_iff.mp hstep
    obtain ⟨w, -, hgoes⟩ := Option.bind_eq_some_iff.mp hw'
    refine Or.inr (h.frame (fun _ => rfl) ?_)
    intro r hr
    rcases List.mem_append.mp hr with hr | hr
    · exact Or.inl (List.mem_append_left _ hr)
    · rcases mem_filterMap_set hr with hold | hnew
      · exact Or.inl (List.mem_append_right _ hold)
      · exact Or.inr (Wait.step_report hgoes hnew)

theorem Tests.Agreed.below {s : Tests n V} (h : s.Agreed) {j : Fin n}
    {index k : Int} (hsome : ((s.ts.srvs j).logs index).isSome) (hk : 1 ≤ k) (hle : k ≤ index) :
    ((s.ts.srvs j).logs k).isSome := by
  induction hd : (index - k).toNat generalizing index with
  | zero =>
    obtain rfl : k = index := by omega
    exact hsome
  | succ d ih => exact ih (h.gapless j index (by omega) hsome) (by omega) (by omega)

/-- The servers that are looked at in turn, from the one after `first` on. -/
def sweep (n first count : Nat) : List Nat := (List.range count).map fun k => (first + 1 + k) % n

theorem sweep_succ (n first count : Nat) :
    sweep n first (count + 1) = sweep n first count ++ [(first + 1 + count) % n] := by
  simp [sweep, List.range_succ]

/-- What comes after the first `done` servers of a sweep is a sweep again. -/
theorem sweep_drop (n first done count : Nat) :
    (sweep n first (done + count)).drop done = sweep n (first + done) count := by
  apply List.ext_getElem
  · simp [sweep]
  · intro k hk hk'
    simp only [sweep, List.getElem_drop, List.getElem_map, List.getElem_range]
    congr 1
    omega

/-- A round that goes through has tried every server once. -/
theorem sweep_perm (n first : Nat) : (sweep n first n).Perm (List.range n) := by
  have hnodup : (sweep n first n).Nodup := by
    refine List.Nodup.map_on ?_ List.nodup_range
    intro k hk k' hk' hmod
    have hsame : Nat.ModEq n k k' := Nat.ModEq.add_left_cancel' (first + 1) hmod
    rw [Nat.ModEq, Nat.mod_eq_of_lt (List.mem_range.mp hk),
      Nat.mod_eq_of_lt (List.mem_range.mp hk')] at hsame
    exact hsame
  have hsubset : sweep n first n ⊆ List.range n := by
    intro j hj
    obtain ⟨k, hk, rfl⟩ := List.mem_map.mp hj
    have hpos : 0 < n := by
      have hk := List.mem_range.mp hk
      omega
    exact List.mem_range.mpr (Nat.mod_lt _ hpos)
  exact (List.subperm_of_subset hnodup hsubset).perm_of_length_le (by simp [sweep])

/-- What holds of a call of `one` at each place. -/
structure One.Orderly (n : Nat) (c : One V) : Prop where
  fresh : c.retry = false → (c.pc = .round ∨ ∃ left, c.pc = .trying left) → c.submitted = []
  once : c.retry = false → c.submitted.length ≤ 1
  last : ∀ index, (c.pc = .polling index ∨ (c.pc = .returned index ∧ index ≠ -1)) →
    c.submitted.getLast? = some index
  turn : c.before ++ c.tried = sweep n 0 (c.before ++ c.tried).length
  stop : c.starts % n = (c.before ++ c.tried).length % n
  tries : ∀ left, c.pc = .trying left → c.tried.length + left = n

omit [DecidableEq V] in
/-- The call looks at the next server and goes elsewhere. -/
theorem One.Orderly.next {c : One V} (h : c.Orderly n) :
    c.before ++ (c.tried ++ [(c.starts + 1) % n]) =
        sweep n 0 (c.before ++ (c.tried ++ [(c.starts + 1) % n])).length ∧
      (c.starts + 1) % n % n = (c.before ++ (c.tried ++ [(c.starts + 1) % n])).length % n := by
  have hlen : (c.before ++ (c.tried ++ [(c.starts + 1) % n])).length =
      (c.before ++ c.tried).length + 1 := by simp; omega
  have hnext : (c.starts + 1) % n = ((c.before ++ c.tried).length + 1) % n := by
    rw [Nat.add_mod, h.stop, ← Nat.add_mod]
  constructor
  · rw [hlen, sweep_succ, ← h.turn, hnext, List.append_assoc, Nat.zero_add, Nat.add_comm 1]
  · rw [hlen, hnext, Nat.mod_mod]

theorem One.Steps.orderly {fmtV : Option V → String} {s : Tests n V} {c c' : One V}
    (hstep : One.Steps fmtV s c c') (h : c.Orderly n) : c'.Orderly n := by
  -- outside of a round nothing is said about its length
  have hleave : ∀ pc, (∀ left, pc ≠ .trying left) →
      (c.retry = false → pc = .round → c.submitted = []) →
      (∀ index, pc = .polling index ∨ (pc = .returned index ∧ index ≠ -1) →
        c.submitted.getLast? = some index) →
      ∀ starts tried, c.before ++ tried = sweep n 0 (c.before ++ tried).length →
        starts % n = (c.before ++ tried).length % n →
        One.Orderly n { c with starts, tried, pc } := by
    intro pc hnot hfresh hlast starts tried hturn hstop
    refine ⟨?_, h.once, hlast, hturn, hstop, ?_⟩
    · intro hretry hpc
      rcases hpc with hpc | ⟨left, hpc⟩
      · exact hfresh hretry hpc
      · exact absurd hpc (hnot left)
    · intro left hpc
      exact absurd hpc (hnot left)
  cases hstep with
  | begin hpc =>
    refine ⟨fun hretry _ => h.fresh hretry (Or.inl hpc), h.once, by simp, ?_, ?_, ?_⟩
    · simpa using h.turn
    · simpa using h.stop
    · rintro left ⟨⟩
      simp
  | fail hpc msg => exact hleave _ (by simp) (by simp) (by simp) _ _ h.turn h.stop
  | finish hpc => exact hleave _ (by simp) (by simp) (by simp) _ _ h.turn h.stop
  | noLeader hpc =>
    exact hleave _ (by simp) (fun hretry _ => h.fresh hretry (Or.inr ⟨0, hpc⟩)) (by simp) _ _
      h.turn h.stop
  | submit left index1 hpc hindex =>
    have hfresh : c.retry = false → c.submitted = [] :=
      fun hretry => h.fresh hretry (Or.inr ⟨_, hpc⟩)
    refine ⟨by simp, ?_, by simp, h.next.1, h.next.2, by simp⟩
    intro hretry
    simp [hfresh hretry]
  | noIndex left hpc =>
    exact hleave _ (by simp) (fun hretry _ => h.fresh hretry (Or.inr ⟨_, hpc⟩)) (by simp) _ _
      h.next.1 h.next.2
  | refused left hpc =>
    refine ⟨fun hretry _ => h.fresh hretry (Or.inr ⟨_, hpc⟩), h.once, by simp, h.next.1, h.next.2,
      ?_⟩
    rintro left' ⟨⟩
    have hlen := h.tries _ hpc
    simp only [List.length_append, List.length_singleton]
    omega
  | poll index hpc =>
    cases nCommitted fmtV s.ts index with
    | error msg => exact hleave _ (by simp) (by simp) (by simp) _ _ h.turn h.stop
    | ok answer =>
      rw [One.polled]
      split
      · refine hleave _ (by simp) (by simp) ?_ _ _ h.turn h.stop
        intro i hi
        obtain ⟨hsame, -⟩ := hi.resolve_left (by simp)
        cases hsame
        exact h.last index (Or.inl hpc)
      · exact h
  | late index hpc hretry =>
    exact hleave _ (by simp) (by simp [hretry]) (by simp) _ _ h.turn h.stop
  | lateOnce index hpc msg => exact hleave _ (by simp) (by simp) (by simp) _ _ h.turn h.stop

/-- Where a call of `one` comes from. -/
theorem Tests.step_ones {fmtV : Option V → String} {s s' : Tests n V} {a : Act n V Snap}
    (hstep : s.step fmtV a = some s') {c : One V} (hc : c ∈ s'.ones) :
    c ∈ s.ones ∨
      (∃ cmd expectedServers retry, c = ⟨cmd, expectedServers, retry, 0, .round, [], [], []⟩) ∨
      ∃ d ∈ s.ones, One.Steps fmtV s d c := by
  cases a with
  | check i m =>
    obtain ⟨-, hstep⟩ := Option.ite_none_right_eq_some.mp hstep
    cases hstep
    split at hc <;> exact Or.inl hc
  | report i =>
    obtain ⟨err, -, rfl⟩ := Option.map_eq_some_iff.mp hstep
    exact Or.inl hc
  | one cmd expectedServers retry =>
    cases hstep
    rcases List.mem_append.mp hc with hc | hc
    · exact Or.inl hc
    · exact Or.inr (Or.inl ⟨cmd, expectedServers, retry, List.mem_singleton.mp hc⟩)
  | oneGoes k inTime index1 ok =>
    obtain ⟨d', hd', rfl⟩ := Option.map_eq_some_iff.mp hstep
    obtain ⟨d, hd, hgoes⟩ := Option.bind_eq_some_iff.mp hd'
    rcases List.mem_or_eq_of_mem_set hc with hc | rfl
    · exact Or.inl hc
    · exact Or.inr (Or.inr ⟨d, List.mem_of_getElem? hd, One.steps_of_step hgoes⟩)
  | waitGoes w terms =>
    obtain ⟨w', -, rfl⟩ := Option.map_eq_some_iff.mp hstep
    exact Or.inl hc
  | kill | restart | connect | cleanup | wait =>
    cases hstep
    exact Or.inl hc

/-- In every run, for every call of `one`: without retry at most one server takes the command
under an index (an answer with index -1 is none); the index returned is the one under which the
command was submitted last; over the whole call the servers are looked at in turn, each round
going on where the last one stopped; and a round in which no server takes the command has looked
at each of them exactly once. -/
theorem one_submits (fmtV : Option V → String) {acts : List (Act n V Snap)} {s : Tests n V}
    (hrun : run (Tests.step fmtV) (Tests.start n V) acts = some s) :
    ∀ c ∈ s.ones, (c.retry = false → c.submitted.length ≤ 1) ∧
      (∀ index, c.pc = .returned index → index ≠ -1 → c.submitted.getLast? = some index) ∧
      c.before ++ c.tried = sweep n 0 (c.before ++ c.tried).length ∧
      (c.pc = .trying 0 → c.tried = sweep n c.before.length n ∧
        c.tried.Perm (List.range n)) := by
  have hinv : ∀ c ∈ s.ones, c.Orderly n := by
    refine run_induction (P := fun _ s => ∀ c ∈ s.ones, c.Orderly n) (by simp [Tests.start]) ?_ hrun
    intro as t a t' _ ht hstep c hc
    rcases Tests.step_ones hstep hc with hc | ⟨cmd, expectedServers, retry, rfl⟩ | ⟨d, hd, hgoes⟩
    · exact ht c hc
    · exact ⟨by simp, by simp, by simp, by simp [sweep], by simp, by simp⟩
    · exact hgoes.orderly (ht d hd)
  intro c hc
  obtain ⟨-, honce, hlast, hturn, -, htries⟩ := hinv c hc
  refine ⟨honce, fun index hpc hne => hlast index (Or.inr ⟨hpc, hne⟩), hturn, ?_⟩
  intro hpc
  have htried : c.tried = sweep n c.before.length n := by
    have hlen := htries 0 hpc
    have hdrop := congrArg (List.drop c.before.length) hturn
    rw [List.drop_left, List.length_append, sweep_drop, Nat.zero_add] at hdrop
    rw [hdrop]
    congr 1
  refine ⟨htried, ?_⟩
  rw [htried]
  exact sweep_perm n _

/-- Three servers: server 1 refuses and server 2 takes the command, but there is no agreement in
time; in the next round, which goes on with server 0, all refuse. -/
def refusedRound : List (Act 3 Nat Unit) :=
  [.one (some 7) 2 true, .oneGoes 0 true 0 false, .oneGoes 0 true 0 false, .oneGoes 0 true 5 true,
   .oneGoes 0 false 0 false, .oneGoes 0 true 0 false, .oneGoes 0 true 0 false,
   .oneGoes 0 true 0 false, .oneGoes 0 true 0 false]

theorem refusedRound_submits :
    ∃ s c, run (Tests.step fun _ => "") (Tests.start 3 Nat) refusedRound = some s ∧
      s.ones = [c] ∧ c.before = [1, 2] ∧ c.tried = sweep 3 2 3 ∧ c.tried.Perm (List.range 3) := by
  have hrun : ∃ s c, run (Tests.step fun _ => "") (Tests.start 3 Nat) refusedRound = some s ∧
      s.ones = [c] ∧ c.before = [1, 2] ∧ c.pc = .trying 0 := ⟨_, _, rfl, rfl, by decide, by decide⟩
  obtain ⟨s, c, hs, hones, hbefore, hpc⟩ := hrun
  have hmem : c ∈ s.ones := by
    rw [hones]
    exact List.mem_singleton_self c
  obtain ⟨htried, hperm⟩ := (one_submits _ hs c hmem).2.2.2 hpc
  rw [hbefore] at htried
  exact ⟨s, c, hs, hones, hbefore, htried, hperm⟩

end RaftTest
