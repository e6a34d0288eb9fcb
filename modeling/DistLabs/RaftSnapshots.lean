import DistLabs.RaftPasses

/-!
# What the Raft tester remembers with snapshots

`ingestLog` replaces a copy as a whole, so the tester remembers an entry only as long
as no snapshot older than the entry replaces the last copy that has it.
-/
namespace RaftTest

open Runs

variable {n : Nat} {V Snap : Type} [DecidableEq V]

/-! ## What the tester remembers -/

section Covers

omit [DecidableEq V]

/-- Some server reported the command at the index, and the comparison found no conflict. -/
def Accepted (served : List (Served n V)) (i : Int) (v : Option V) : Prop :=
  ∃ a, .checkLogs a i v "" ∈ served

theorem Accepted.append {served : List (Served n V)} {i : Int} {v : Option V}
    (h : Accepted served i v) (xs : List (Served n V)) : Accepted (served ++ xs) i v := by
  obtain ⟨a, hmem⟩ := h
  exact ⟨a, List.mem_append_left _ hmem⟩

/-- At the index the log has an accepted command if it reaches that far, and else nothing. -/
structure Covers (served : List (Served n V)) (i : Int) (rs : Rfsrv V) : Prop where
  nonneg : 0 ≤ rs.lastApplied
  below : 1 ≤ i → i ≤ rs.lastApplied → ∃ v, rs.log i = some v ∧ Accepted served i v
  above : rs.lastApplied < i → rs.log i = none

theorem Covers.fresh (served : List (Served n V)) (i : Int) :
    Covers served i ⟨0, fun _ => none⟩ where
  nonneg := Int.le_refl 0
  below := by
    intro hi hle
    have hle : i ≤ 0 := hle
    omega
  above := fun _ => rfl

theorem Covers.append {served : List (Served n V)} {i : Int} {rs : Rfsrv V}
    (h : Covers served i rs) (xs : List (Served n V)) : Covers (served ++ xs) i rs where
  nonneg := h.nonneg
  below := by
    intro hi hle
    obtain ⟨v, hlog, hacc⟩ := h.below hi hle
    exact ⟨v, hlog, hacc.append xs⟩
  above := h.above

/-- What the log has at the index was accepted. -/
theorem Covers.accepted {served : List (Served n V)} {i : Int} {rs : Rfsrv V}
    (h : Covers served i rs) (hi : 1 ≤ i) {v : Option V} (hv : rs.log i = some v) :
    Accepted served i v := by
  by_cases hle : i ≤ rs.lastApplied
  · obtain ⟨w, hw, hacc⟩ := h.below hi hle
    cases hw.symm.trans hv
    exact hacc
  · rw [h.above (by omega)] at hv
    cases hv

theorem snapLog_getElem? (log : Int → Option (Option V)) (index : Int) (j : Nat) :
    (snapLog log index)[j]? = if j < (index + 1).toNat then some ((log j).getD none) else none := by
  have hmap : snapLog log index =
      (List.range (index + 1).toNat).map fun j : Nat => (log j).getD none := by
    simp [snapLog, ← List.map_eq_flatMap]
  rw [hmap, List.getElem?_map]
  by_cases hj : j < (index + 1).toNat
  · rw [List.getElem?_range hj, if_pos hj]
    rfl
  · rw [if_neg hj, List.getElem?_eq_none (by simpa using hj)]
    rfl

/-- Reading a log back from a snapshot up to `index`. -/
theorem sliceMap_snapLog (log : Int → Option (Option V)) (index : Int) {k : Int} (hk : 0 ≤ k) :
    sliceMap (snapLog log index) k = if k ≤ index then some ((log k).getD none) else none := by
  have hcast : ((k.toNat : Nat) : Int) = k := Int.toNat_of_nonneg hk
  rw [sliceMap, if_pos hk, snapLog_getElem?, hcast]
  by_cases hle : k ≤ index
  · rw [if_pos (by omega), if_pos hle]
  · rw [if_neg (by omega), if_neg hle]

theorem Covers.snapLog {served : List (Served n V)} {i : Int} {rs : Rfsrv V}
    (h : Covers served i rs) :
    Covers served i ⟨rs.lastApplied, sliceMap (snapLog rs.log rs.lastApplied)⟩ where
  nonneg := h.nonneg
  below := by
    intro hi hle
    obtain ⟨v, hlog, hacc⟩ := h.below hi hle
    refine ⟨v, ?_, hacc⟩
    show sliceMap _ i = some v
    have hle : i ≤ rs.lastApplied := hle
    rw [sliceMap_snapLog _ _ (by omega), if_pos hle, hlog]
    rfl
  above := by
    intro hlt
    have hlt : rs.lastApplied < i := hlt
    have hpos := h.nonneg
    show sliceMap _ i = none
    rw [sliceMap_snapLog _ _ (by omega), if_neg (by omega)]

/-- The next command enters the log. -/
theorem Covers.store {served : List (Served n V)} {i : Int} {rs : Rfsrv V} {m : ApplyMsg V Snap}
    (h : Covers served i rs) (gob : Labgob V Snap) (horder : m.commandIndex = rs.lastApplied + 1)
    (hacc : m.commandIndex = i → Accepted served i m.command) :
    Covers served i (storeCommand gob m rs).1 where
  nonneg := by
    have hpos := h.nonneg
    show 0 ≤ m.commandIndex
    omega
  below := by
    intro hi hle
    have hle : i ≤ m.commandIndex := hle
    by_cases hnew : m.commandIndex = i
    · exact ⟨m.command, by simp [storeCommand, hnew], hacc hnew⟩
    · obtain ⟨v, hlog, hold⟩ := h.below hi (by omega)
      exact ⟨v, by simpa [storeCommand, Ne.symm hnew] using hlog, hold⟩
  above := by
    intro hlt
    have hlt : m.commandIndex < i := hlt
    have hne : i ≠ m.commandIndex := by omega
    simpa [storeCommand, hne] using h.above (by omega)

theorem ingestSnap_ok {gob : Labgob V Snap} {me : Fin n} {snapshot : Option Snap} {index : Int}
    {rs rs' : Rfsrv V} (h : ingestSnap gob me snapshot index rs = ("", rs')) :
    ∃ sn k xlog, snapshot = some sn ∧ gob.decode sn = some (k, xlog) ∧
      rs' = ⟨k, sliceMap xlog⟩ := by
  cases snapshot with
  | none => simp [ingestSnap] at h
  | some sn =>
    cases hd : gob.decode sn with
    | none => simp [ingestSnap, hd] at h
    | some decoded =>
      obtain ⟨k, xlog⟩ := decoded
      refine ⟨sn, k, xlog, rfl, hd, ?_⟩
      simp only [ingestSnap, hd] at h
      split at h
      · have hmsg : s!"server {me} snapshot doesn't match m.SnapshotIndex" ≠ "" := by
          repeat apply append_ne_empty
          decide
        exact absurd (congrArg Prod.fst h) hmsg
      · exact (congrArg Prod.snd h).symm

end Covers

/-- Raft hands out snapshots that some server passed to it. -/
def FromRaft (gob : Labgob V Snap) (s : Passes n V Snap) : PassEvent n V Snap → Prop
  | .read _ m => m.snapshotValid = true → ∀ sn, m.snapshot = some sn → ∃ j, sn ∈ s.taken j
  | .restart _ sn => 0 < gob.len sn → ∃ j, sn ∈ s.taken j
  | _ => True

/-- If the snapshot is older than index `i`, the copy of the server is not the only one with an
entry there. -/
def Spared (gob : Labgob V Snap) (i : Int) (ts : Test n V) (a : Fin n) (sn : Snap) : Prop :=
  ∀ k xlog, gob.decode sn = some (k, xlog) → k < i → ((ts.srvs a).logs i).isSome →
    ∃ j, j ≠ a ∧ ((ts.srvs j).logs i).isSome

/-- No snapshot older than index `i` replaces the last copy with an entry there. -/
def Spares (gob : Labgob V Snap) (i : Int) (s : Passes n V Snap) : PassEvent n V Snap → Prop
  | .read a m => m.snapshotValid = true → ∀ sn, m.snapshot = some sn → Spared gob i s.ts a sn
  | .restart a sn => 0 < gob.len sn → Spared gob i s.ts a sn
  | _ => True

/-- The error says something about the index: it was found in a comparison there, or by a pass
that compared nothing, after which the log of the server is no longer what it has applied. -/
def Found.Touches (i : Int) (f : Found n) : Prop := f.index = none ∨ f.index = some i

/-- As long as no error that touches the index was found: what was accepted there is one command,
some copy has it, and no copy, log or snapshot has anything else there. -/
structure Remembers (gob : Labgob V Snap) (i : Int) (s : Passes n V Snap) : Prop where
  positive : ∀ v, Accepted s.ts.served i v → 1 ≤ i
  servers : ∀ a rs, s.rf a = some rs → Covers s.ts.served i rs
  passes : ∀ a rs m err, s.rf a = some rs → s.pc a = .compared m err →
    m.commandIndex = rs.lastApplied + 1 ∧
      (m.commandIndex = i → Accepted s.ts.served i m.command)
  taken : ∀ a, ∀ sn ∈ s.taken a, ∃ k xlog, sn = gob.encode k xlog ∧
    Covers s.ts.served i ⟨k, sliceMap xlog⟩
  copies : 1 ≤ i → ∀ j v, (s.ts.srvs j).logs i = some v → Accepted s.ts.served i v
  kept : ∀ v, Accepted s.ts.served i v → ∃ j, (s.ts.srvs j).logs i = some v
  one : ∀ v w, Accepted s.ts.served i v → Accepted s.ts.served i w → v = w

section Remembers

omit [DecidableEq V]

theorem Remembers.start (gob : Labgob V Snap) (i : Int) :
    Remembers gob i (Passes.start n V Snap) where
  positive := by
    rintro v ⟨a, hmem⟩
    cases hmem
  servers := by
    intro a rs hrf
    cases hrf
    exact .fresh _ i
  passes := by
    intro a rs m err hrf hpc
    cases hpc
  taken := by
    intro a sn hsn
    cases hsn
  copies := by
    intro hi j v hv
    cases hv
  kept := by
    rintro v ⟨a, hmem⟩
    cases hmem
  one := by
    rintro v w ⟨a, hmem⟩
    cases hmem

/-- A step after which the accepted commands at the index are those before it. -/
theorem Remembers.frame {gob : Labgob V Snap} {i : Int} {s t : Passes n V Snap}
    (h : Remembers gob i s) {xs : List (Served n V)} (hserved : t.ts.served = s.ts.served ++ xs)
    (hxs : ∀ a v, .checkLogs a i v "" ∉ xs)
    (hservers : ∀ a rs, t.rf a = some rs → s.rf a = some rs ∨ Covers s.ts.served i rs)
    (hpasses : ∀ a rs m err, t.rf a = some rs → t.pc a = .compared m err →
      (s.rf a = some rs ∧ s.pc a = .compared m err) ∨
        m.commandIndex = rs.lastApplied + 1 ∧ m.commandIndex ≠ i)
    (htaken : ∀ a, ∀ sn ∈ t.taken a, sn ∈ s.taken a ∨
      ∃ k xlog, sn = gob.encode k xlog ∧ Covers s.ts.served i ⟨k, sliceMap xlog⟩)
    (hcopies : 1 ≤ i → ∀ j v, (t.ts.srvs j).logs i = some v →
      (s.ts.srvs j).logs i = some v ∨ Accepted s.ts.served i v)
    (hkept : ∀ j v, (s.ts.srvs j).logs i = some v → Accepted s.ts.served i v →
      ∃ j, (t.ts.srvs j).logs i = some v) : Remembers gob i t := by
  have hacc : ∀ v, Accepted t.ts.served i v → Accepted s.ts.served i v := by
    rintro v ⟨a, hmem⟩
    rw [hserved] at hmem
    exact ⟨a, (List.mem_append.mp hmem).resolve_right (hxs a v)⟩
  constructor
  · exact fun v hv => h.positive v (hacc v hv)
  · intro a rs hrf
    rw [hserved]
    rcases hservers a rs hrf with hold | hnew
    · exact (h.servers a rs hold).append xs
    · exact hnew.append xs
  · intro a rs m err hrf hpc
    rw [hserved]
    rcases hpasses a rs m err hrf hpc with ⟨hrf, hpc⟩ | ⟨horder, hne⟩
    · obtain ⟨horder, hm⟩ := h.passes a rs m err hrf hpc
      exact ⟨horder, fun hi => (hm hi).append xs⟩
    · exact ⟨horder, fun hi => absurd hi hne⟩
  · intro a sn hsn
    rw [hserved]
    obtain ⟨k, xlog, hsn, hcovers⟩ := (htaken a sn hsn).elim (h.taken a sn) id
    exact ⟨k, xlog, hsn, hcovers.append xs⟩
  · intro hi j v hv
    rw [hserved]
    rcases hcopies hi j v hv with hold | hnew
    · exact (h.copies hi j v hold).append xs
    · exact hnew.append xs
  · intro v hv
    obtain ⟨j, hj⟩ := h.kept v (hacc v hv)
    exact hkept j v hj (hacc v hv)
  · exact fun v w hv hw => h.one v w (hacc v hv) (hacc w hw)

/-- A server takes over the log of a snapshot, and the tester with it. -/
theorem Remembers.ingest {gob : Labgob V Snap} {i : Int} {s t : Passes n V Snap}
    (h : Remembers gob i s) (a : Fin n) {rs : Rfsrv V} (hcovers : Covers s.ts.served i rs)
    (hspared : rs.lastApplied < i → ((s.ts.srvs a).logs i).isSome →
      ∃ j, j ≠ a ∧ ((s.ts.srvs j).logs i).isSome)
    (hserved : t.ts.served = s.ts.served ++ [.ingestLog a rs.log])
    (hrf : t.rf = Function.update s.rf a (some rs))
    (hpc : ∀ b m err, t.pc b = .compared m err → b ≠ a ∧ s.pc b = .compared m err)
    (htaken : t.taken = s.taken)
    (hlogs : ∀ j, (t.ts.srvs j).logs = if j = a then rs.log else (s.ts.srvs j).logs) :
    Remembers gob i t := by
  refine h.frame hserved (by simp) ?_ ?_ ?_ ?_ ?_
  · intro b rs' hb
    rw [hrf, Function.update_apply] at hb
    split at hb
    · cases hb
      exact Or.inr hcovers
    · exact Or.inl hb
  · intro b rs' m err hb hm
    obtain ⟨hne, hm⟩ := hpc b m err hm
    rw [hrf, Function.update_of_ne hne] at hb
    exact Or.inl ⟨hb, hm⟩
  · intro b sn hsn
    rw [htaken] at hsn
    exact Or.inl hsn
  · intro hi j v hv
    rw [hlogs] at hv
    split at hv
    · exact Or.inr (hcovers.accepted hi hv)
    · exact Or.inl hv
  · intro j v hv hacc
    have hi := h.positive v hacc
    by_cases hj : j = a
    · subst hj
      by_cases hle : i ≤ rs.lastApplied
      · -- the snapshot reaches the index, so it has the one accepted command
        obtain ⟨w, hw, hwacc⟩ := hcovers.below hi hle
        refine ⟨j, ?_⟩
        rw [hlogs, if_pos rfl, hw, h.one w v hwacc hacc]
      · obtain ⟨j', hne, hsome⟩ := hspared (by omega) (by rw [hv]; rfl)
        obtain ⟨w, hw⟩ := Option.isSome_iff_exists.mp hsome
        refine ⟨j', ?_⟩
        rw [hlogs, if_neg hne, hw, h.one w v (h.copies hi j' w hw) hacc]
    · exact ⟨j, by rw [hlogs, if_neg hj, hv]⟩

/-- The command of a pass enters the log, and perhaps a snapshot. -/
theorem Remembers.store {gob : Labgob V Snap} {i : Int} {s t : Passes n V Snap}
    (h : Remembers gob i s) {a : Fin n} {m : ApplyMsg V Snap} {rs : Rfsrv V} {err : String}
    (hrf : s.rf a = some rs) (hpc : s.pc a = .compared m err) (hts : t.ts = s.ts)
    (hrfs : t.rf = Function.update s.rf a (some (storeCommand gob m rs).1))
    (htaken : t.taken =
      Function.update s.taken a (s.taken a ++ (storeCommand gob m rs).2.toList))
    (hpcs : ∀ b m err, t.pc b = .compared m err → b ≠ a ∧ s.pc b = .compared m err) :
    Remembers gob i t := by
  obtain ⟨horder, hacc⟩ := h.passes a rs m err hrf hpc
  have hcovers := (h.servers a rs hrf).store gob horder hacc
  have hserved : t.ts.served = s.ts.served ++ [] := by rw [hts, List.append_nil]
  refine h.frame hserved (by simp) ?_ ?_ ?_ ?_ ?_
  · intro b rs' hb
    rw [hrfs, Function.update_apply] at hb
    split at hb
    · cases hb
      exact Or.inr hcovers
    · exact Or.inl hb
  · intro b rs' m' err' hb hm'
    obtain ⟨hne, hm'⟩ := hpcs b m' err' hm'
    rw [hrfs, Function.update_of_ne hne] at hb
    exact Or.inl ⟨hb, hm'⟩
  · intro b sn hsn
    rw [htaken, Function.update_apply] at hsn
    split at hsn
    · rename_i hb
      subst hb
      rcases List.mem_append.mp hsn with hold | hnew
      · exact Or.inl hold
      · simp only [storeCommand, Option.mem_toList, Option.ite_none_right_eq_some] at hnew
        obtain ⟨-, hnew⟩ := hnew
        cases hnew
        exact Or.inr ⟨_, _, rfl, hcovers.snapLog⟩
    · exact Or.inl hsn
  · intro _ j v hv
    rw [hts] at hv
    exact Or.inl hv
  · intro j v hv _
    exact ⟨j, by rw [hts, hv]⟩

/-- A snapshot of Raft, decoded. -/
theorem Remembers.passed {gob : Labgob V Snap} {i : Int} {s : Passes n V Snap}
    (hgob : ∀ index xlog, gob.decode (gob.encode index xlog) = some (index, xlog))
    (h : Remembers gob i s) {sn : Snap} (hraft : ∃ j, sn ∈ s.taken j) {k : Int}
    {xlog : List (Option V)} (hd : gob.decode sn = some (k, xlog)) :
    Covers s.ts.served i ⟨k, sliceMap xlog⟩ := by
  obtain ⟨j, hsn⟩ := hraft
  obtain ⟨k', xlog', rfl, hcovers⟩ := h.taken j sn hsn
  rw [hgob] at hd
  cases hd
  exact hcovers

end Remembers

/-- The copies at one index after a comparison. -/
theorem checkLogs_logs_at (fmtV : Option V → String) (a j : Fin n) (m : ApplyMsg V Snap) (i : Int)
    (ts : Test n V) : ((checkLogs fmtV a m ts).2.2.srvs j).logs i =
      if j = a ∧ m.commandIndex = i then some m.command else (ts.srvs j).logs i := by
  rw [checkLogs_logs]
  by_cases hj : j = a
  · subst hj
    by_cases hk : m.commandIndex = i
    · simp [hk]
    · simp [hk, Ne.symm hk]
  · simp [hj]

/-- No copy conflicts with a command that is accepted. -/
theorem command_of_quiet {fmtV : Option V → String} {a : Fin n} {m : ApplyMsg V Snap}
    {ts : Test n V} (hquiet : (checkLogs fmtV a m ts).1 = "") {j : Fin n} {v : Option V}
    (hv : (ts.srvs j).logs m.commandIndex = some v) : v = m.command := by
  by_contra hne
  exact (compareAll_ne_iff fmtV ts a m.commandIndex m.command).mpr ⟨j, v, hv, hne⟩ hquiet

omit [DecidableEq V] in
theorem compared_pc {s t : Passes n V Snap} {a b : Fin n} {m m' : ApplyMsg V Snap}
    {err err' : String} (hpc : t.pc = Function.update s.pc a (.compared m err))
    (hb : t.pc b = .compared m' err') : (b = a ∧ m' = m) ∨ s.pc b = .compared m' err' := by
  rw [hpc, Function.update_apply] at hb
  split at hb
  · cases hb
    exact Or.inl ⟨by assumption, rfl⟩
  · exact Or.inr hb

/-- A command is compared at the index and accepted: it is the one accepted before, if any was. -/
theorem Remembers.compare_at {gob : Labgob V Snap} {s t : Passes n V Snap}
    {fmtV : Option V → String} {a : Fin n} {m : ApplyMsg V Snap} {rs : Rfsrv V} {err : String}
    (h : Remembers gob m.commandIndex s) (hrf : s.rf a = some rs)
    (horder : m.commandIndex = rs.lastApplied + 1) (hquiet : (checkLogs fmtV a m s.ts).1 = "")
    (hts : t.ts = (checkLogs fmtV a m s.ts).2.2) (hrfs : t.rf = s.rf) (htaken : t.taken = s.taken)
    (hpc : t.pc = Function.update s.pc a (.compared m err)) :
    Remembers gob m.commandIndex t := by
  have hserved : t.ts.served = s.ts.served ++ [.checkLogs a m.commandIndex m.command ""] := by
    rw [hts, ← hquiet]
    rfl
  have hpos := (h.servers a rs hrf).nonneg
  have hall : ∀ v, Accepted t.ts.served m.commandIndex v → v = m.command := by
    rintro v ⟨b, hmem⟩
    rw [hserved] at hmem
    rcases List.mem_append.mp hmem with hmem | hmem
    · obtain ⟨j, hj⟩ := h.kept v ⟨b, hmem⟩
      exact command_of_quiet hquiet hj
    · exact (Served.checkLogs.inj (List.mem_singleton.mp hmem)).2.2.1
  have hnew : Accepted t.ts.served m.commandIndex m.command := by
    refine ⟨a, ?_⟩
    rw [hserved]
    exact List.mem_append_right _ (List.mem_singleton_self _)
  constructor
  · intro v hv
    omega
  · intro b rs' hb
    rw [hrfs] at hb
    rw [hserved]
    exact (h.servers b rs' hb).append _
  · intro b rs' m' err' hb hm'
    rw [hrfs] at hb
    rcases compared_pc hpc hm' with ⟨rfl, rfl⟩ | hold
    · cases hrf.symm.trans hb
      exact ⟨horder, fun _ => hnew⟩
    · obtain ⟨horder', hacc⟩ := h.passes b rs' m' err' hb hold
      refine ⟨horder', fun hi => ?_⟩
      rw [hserved]
      exact (hacc hi).append _
  · intro b sn hsn
    rw [htaken] at hsn
    obtain ⟨k, xlog, hsn, hcovers⟩ := h.taken b sn hsn
    rw [hserved]
    exact ⟨k, xlog, hsn, hcovers.append _⟩
  · intro hi j v hv
    rw [hts, checkLogs_logs_at] at hv
    split at hv
    · cases hv
      exact hnew
    · rw [command_of_quiet hquiet hv]
      exact hnew
  · intro v hv
    refine ⟨a, ?_⟩
    rw [hts, checkLogs_logs_at, if_pos ⟨rfl, rfl⟩, hall v hv]
  · intro v w hv hw
    rw [hall v hv, hall w hw]

/-- A command is compared at another index. -/
theorem Remembers.compare_elsewhere {gob : Labgob V Snap} {i : Int} {s t : Passes n V Snap}
    (h : Remembers gob i s) (fmtV : Option V → String) {a : Fin n} {m : ApplyMsg V Snap}
    {rs : Rfsrv V} {err : String} (hindex : m.commandIndex ≠ i) (hrf : s.rf a = some rs)
    (horder : m.commandIndex = rs.lastApplied + 1)
    (hts : t.ts = (checkLogs fmtV a m s.ts).2.2) (hrfs : t.rf = s.rf) (htaken : t.taken = s.taken)
    (hpc : t.pc = Function.update s.pc a (.compared m err)) : Remembers gob i t := by
  have hsame : ∀ j, (t.ts.srvs j).logs i = (s.ts.srvs j).logs i := by
    intro j
    rw [hts, checkLogs_logs_at, if_neg fun hj => hindex hj.2]
  have hserved : t.ts.served = s.ts.served ++
      [.checkLogs a m.commandIndex m.command (checkLogs fmtV a m s.ts).1] := by
    rw [hts]
    rfl
  refine h.frame hserved ?_ ?_ ?_ ?_ ?_ ?_
  · intro b v hmem
    exact hindex (Served.checkLogs.inj (List.mem_singleton.mp hmem)).2.1.symm
  · intro b rs' hb
    rw [hrfs] at hb
    exact Or.inl hb
  · intro b rs' m' err' hb hm'
    rw [hrfs] at hb
    rcases compared_pc hpc hm' with ⟨rfl, rfl⟩ | hold
    · cases hrf.symm.trans hb
      exact Or.inr ⟨horder, hindex⟩
    · exact Or.inl ⟨hb, hold⟩
  · intro b sn hsn
    rw [htaken] at hsn
    exact Or.inl hsn
  · intro hi j v hv
    rw [hsame] at hv
    exact Or.inl hv
  · intro j v hv _
    exact ⟨j, by rw [hsame, hv]⟩

omit [DecidableEq V] in
theorem ingestLog_logs (i j : Fin n) (log : Int → Option (Option V)) (ts : Test n V) :
    ((ingestLog i log ts).srvs j).logs = if j = i then log else (ts.srvs j).logs := by
  by_cases hj : j = i
  · subst hj
    simp [ingestLog]
  · simp [ingestLog, hj]

omit [DecidableEq V] in
/-- A step that leaves the copies alone, and the server of which goes down or starts anew. -/
theorem Remembers.reset {gob : Labgob V Snap} {i : Int} {s t : Passes n V Snap}
    (h : Remembers gob i s) (a : Fin n) {xs : List (Served n V)}
    (hserved : t.ts.served = s.ts.served ++ xs) (hxs : ∀ b v, .checkLogs b i v "" ∉ xs)
    (hlogs : ∀ j, (t.ts.srvs j).logs = (s.ts.srvs j).logs)
    (hrf : t.rf = s.rf ∨ t.rf = Function.update s.rf a none ∨
      t.rf = Function.update s.rf a (some ⟨0, fun _ => none⟩))
    (hpc : ∀ b m err, t.pc b = .compared m err → b ≠ a ∧ s.pc b = .compared m err)
    (htaken : t.taken = s.taken) : Remembers gob i t := by
  have hrfs : ∀ b rs, t.rf b = some rs → s.rf b = some rs ∨
      (b = a ∧ rs = ⟨0, fun _ => none⟩) := by
    intro b rs hb
    rcases hrf with hsame | hdown | hfresh
    · rw [hsame] at hb
      exact Or.inl hb
    · rw [hdown, Function.update_apply] at hb
      split at hb
      · cases hb
      · exact Or.inl hb
    · rw [hfresh, Function.update_apply] at hb
      split at hb
      · cases hb
        exact Or.inr ⟨by assumption, rfl⟩
      · exact Or.inl hb
  refine h.frame hserved hxs ?_ ?_ ?_ ?_ ?_
  · intro b rs hb
    rcases hrfs b rs hb with hold | ⟨-, rfl⟩
    · exact Or.inl hold
    · exact Or.inr (.fresh _ i)
  · intro b rs m err hb hm
    obtain ⟨hne, hm⟩ := hpc b m err hm
    exact Or.inl ⟨(hrfs b rs hb).resolve_right fun hba => hne hba.1, hm⟩
  · intro b sn hsn
    rw [htaken] at hsn
    exact Or.inl hsn
  · intro _ j v hv
    rw [hlogs] at hv
    exact Or.inl hv
  · intro j v hv _
    exact ⟨j, by rw [hlogs, hv]⟩

theorem Remembers.step {gob : Labgob V Snap} {fmtV : Option V → String} {i : Int}
    {s t : Passes n V Snap} {e : PassEvent n V Snap}
    (hgob : ∀ index xlog, gob.decode (gob.encode index xlog) = some (index, xlog))
    (h : Remembers gob i s) (hs : s.Steps gob fmtV e t) (hraft : FromRaft gob s e)
    (hspares : Spares gob i s e) (hquiet : ∀ f ∈ t.found, ¬ f.Touches i) : Remembers gob i t := by
  -- a pass of another server stays where it is
  have hothers : ∀ a pc, (∀ m err, pc ≠ .compared m err) → ∀ b m err,
      Function.update s.pc a pc b = .compared m err → b ≠ a ∧ s.pc b = .compared m err := by
    intro a pc hne b m err hb
    rw [Function.update_apply] at hb
    split at hb
    · exact absurd hb (hne m err)
    · exact ⟨by assumption, hb⟩
  have hidle : ∀ a, s.pc a = .reading → ∀ b m err, s.pc b = .compared m err →
      b ≠ a ∧ s.pc b = .compared m err := by
    rintro a ha b m err hb
    refine ⟨?_, hb⟩
    rintro rfl
    cases ha.symm.trans hb
  have hnoted : ∀ (a : Fin n) index err (u : Passes n V Snap),
      (∀ f ∈ (u.note a index err).found, ¬ f.Touches i) → index = none ∨ index = some i →
        err = "" := by
    intro a index err u hquiet hindex
    by_contra hne
    rw [note_found, if_pos hne] at hquiet
    exact hquiet _ (List.mem_append_right _ (List.mem_singleton_self _)) hindex
  cases hs with
  | ingest a m rs rs' err hrf hpc hv hsnap =>
    obtain rfl := hnoted _ _ _ _ hquiet (Or.inl rfl)
    obtain ⟨sn, k, xlog, hsn, hd, rfl⟩ := ingestSnap_ok hsnap
    have hcovers := h.passed hgob (hraft hv sn hsn) hd
    refine h.ingest a hcovers (hspares hv sn hsn k xlog hd) (by simp [ingestLog]) (by simp) ?_
      (by simp) ?_
    · rw [note_pc]
      exact hothers a _ (by simp)
    · intro j
      rw [note_toSys]
      exact ingestLog_logs a j _ s.ts
  | refuse a m rs err hrf hpc horder herr =>
    exact absurd (hnoted _ _ _ _ hquiet (Or.inl rfl)) herr
  | compare a m rs err hrf hpc horder herr =>
    by_cases hindex : m.commandIndex = i
    · subst hindex
      have hempty : (checkLogs fmtV a m s.ts).1 = "" := by
        by_contra hne
        exact herr hne (hnoted _ _ _ _ hquiet (Or.inr rfl))
      exact h.compare_at hrf horder hempty (by simp) (by simp) (by simp) (note_pc _ _ _ _)
    · exact h.compare_elsewhere fmtV hindex hrf horder (by simp) (by simp) (by simp)
        (note_pc _ _ _ _)
  | ignore a m => exact h
  | store a m rs err hrf hpc =>
    exact h.store hrf hpc rfl rfl rfl (hothers a _ (by simp))
  | report a err hpc =>
    obtain ⟨xs, hserved, hxs⟩ : ∃ xs, (report a err s.ts).served = s.ts.served ++ xs ∧
        ∀ b v, .checkLogs b i v "" ∉ xs := by
      by_cases herr : err = ""
      · exact ⟨[], by simp [RaftTest.report, herr], by simp⟩
      · exact ⟨[.applyErr a err], by simp [RaftTest.report, herr, applyErr], by simp⟩
    exact h.reset a hserved hxs (fun j => report_logs a j err s.ts) (Or.inl rfl)
      (hothers a _ (by simp)) rfl
  | kill a =>
    exact h.reset a rfl (by simp) (fun j => kill_logs a j s.ts) (Or.inr (Or.inl rfl))
      (hothers a _ (by simp)) rfl
  | restartEmpty a sn hpc =>
    exact h.reset a (List.append_nil _).symm (by simp) (fun j => mksrv_logs a j s.ts)
      (Or.inr (Or.inr rfl)) (hidle a hpc) rfl
  | restartFrom a sn rs hpc hlen hsnap =>
    obtain ⟨sn', k, xlog, hsn, hd, rfl⟩ := ingestSnap_ok hsnap
    cases hsn
    have hcovers := h.passed hgob (hraft hlen) hd
    refine h.ingest a hcovers (hspares hlen k xlog hd) rfl rfl (hidle a hpc) rfl ?_
    intro j
    exact (mksrv_logs a j _).trans (ingestLog_logs a j _ s.ts)
  | restartFail a sn err hpc =>
    refine h.reset a (show _ = s.ts.served ++ [.applyErr a err] from rfl) (by simp) ?_
      (Or.inr (Or.inl rfl)) (hidle a hpc) rfl
    intro j
    exact (mksrv_logs a j _).trans (applyErr_logs a j err s.ts)

theorem Remembers.of_run {gob : Labgob V Snap} {fmtV : Option V → String} {i : Int}
    {events : List (PassEvent n V Snap)} {s : Passes n V Snap}
    (hgob : ∀ index xlog, gob.decode (gob.encode index xlog) = some (index, xlog))
    (h : run (Passes.step gob fmtV) (Passes.start n V Snap) events = some s)
    (hraft : Obeys (Passes.step gob fmtV) (Passes.start n V Snap) (FromRaft gob) events)
    (hspares : Obeys (Passes.step gob fmtV) (Passes.start n V Snap) (Spares gob i) events)
    (hquiet : ∀ f ∈ s.found, ¬ f.Touches i) : Remembers gob i s := by
  have hrun : (∀ f ∈ s.found, ¬ f.Touches i) → Remembers gob i s := by
    refine run_induction_of_obeys
      (P := fun _ s => (∀ f ∈ s.found, ¬ f.Touches i) → Remembers gob i s)
      (fun _ => .start gob i) ?_ h
      (fun pre e post u he hu => And.intro (hraft pre e post u he hu) (hspares pre e post u he hu))
    intro _ u e v _ hu hok hstep hv
    have hsteps := Passes.steps_of_step hstep
    obtain ⟨-, new, -, hfound, -⟩ := hsteps.calls
    have hbefore : ∀ f ∈ u.found, ¬ f.Touches i := by
      intro f hf
      exact hv f (by rw [hfound]; exact List.mem_append_left _ hf)
    exact (hu hbefore).step hgob hsteps hok.1 hok.2 hv
  exact hrun hquiet

/-- Two different commands were compared at the index, the first with success. -/
theorem found_of_conflict {gob : Labgob V Snap} {fmtV : Option V → String} {i : Int}
    {events : List (PassEvent n V Snap)} {s : Passes n V Snap}
    (hgob : ∀ index xlog, gob.decode (gob.encode index xlog) = some (index, xlog))
    (h : run (Passes.step gob fmtV) (Passes.start n V Snap) events = some s)
    (hraft : Obeys (Passes.step gob fmtV) (Passes.start n V Snap) (FromRaft gob) events)
    (hspares : Obeys (Passes.step gob fmtV) (Passes.start n V Snap) (Spares gob i) events)
    {pre mid post : List (Served n V)} {a b : Fin n} {v w : Option V} {err : String}
    (hserved : s.ts.served = pre ++ .checkLogs a i v "" :: mid ++ .checkLogs b i w err :: post)
    (hne : w ≠ v) : ∃ f ∈ s.found, f.Touches i := by
  by_contra hnone
  have hquiet : ∀ f ∈ s.found, ¬ f.Touches i := fun f hf htouches => hnone ⟨f, hf, htouches⟩
  have hr := Remembers.of_run hgob h hraft hspares hquiet
  have herr : err = "" := by
    by_contra herr
    obtain ⟨f, hf, -, hindex, -⟩ := ((Watched.of_run h).exact (pre ++ .checkLogs a i v "" :: mid)
      b i w err post (by simpa using hserved)).2 herr
    exact hquiet f hf (Or.inr hindex)
  exact hne (hr.one w v ⟨b, by simp [hserved, herr]⟩ ⟨a, by simp [hserved]⟩)

/-- A restart finds in the persister a snapshot that the server itself passed to Raft. -/
def FromTaken (s : Passes n V Snap) : PassEvent n V Snap → Prop
  | .restart i sn => sn ∈ s.taken i
  | _ => True

/-- Once accepted, a command makes every later comparison of its index with another
command report an error. -/
def NeverForgets (gob : Labgob V Snap) (fmtV : Option V → String) (n : Nat) : Prop :=
  ∀ (events : List (PassEvent n V Snap)) (s : Passes n V Snap),
    run (Passes.step gob fmtV) (Passes.start n V Snap) events = some s →
    Obeys (Passes.step gob fmtV) (Passes.start n V Snap) FromTaken events →
    ∀ pre a i v mid b w err post,
      s.ts.served = pre ++ .checkLogs a i v "" :: mid ++ .checkLogs b i w err :: post → w ≠ v →
        err ≠ ""

/-- In every run, with kills at any moment: a comparison reports an error exactly if some copy
holds another command at the index, and the server goes on to report what it found with
`ApplyErr`, unless it is killed first. If Raft hands out only snapshots that were passed to it,
and no snapshot older than index `i` replaces the last copy with an entry at `i`, then an
accepted command is not forgotten: by the time another command has been compared at `i`, an error
was found, in that comparison, in an earlier one at `i`, or by a pass that compared nothing. -/
theorem checkLogs_reports (gob : Labgob V Snap)
    (hgob : ∀ index xlog, gob.decode (gob.encode index xlog) = some (index, xlog))
    (fmtV : Option V → String) (events : List (PassEvent n V Snap)) (s : Passes n V Snap)
    (h : run (Passes.step gob fmtV) (Passes.start n V Snap) events = some s) :
    (∀ pre b i w err post, s.ts.served = pre ++ .checkLogs b i w err :: post →
      (err ≠ "" ↔ ∃ j old, held pre j i = some old ∧ old ≠ w) ∧
      (err ≠ "" →
        ∃ f ∈ s.found, f.server = b ∧ f.index = some i ∧ f.calls = pre.length + 1)) ∧
    (∀ f ∈ s.found, f.err ≠ "" ∧
      Followed f.server f.err (s.pc f.server) (s.ts.served.drop f.calls)) ∧
    (Obeys (Passes.step gob fmtV) (Passes.start n V Snap) (FromRaft gob) events →
      ∀ i, Obeys (Passes.step gob fmtV) (Passes.start n V Snap) (Spares gob i) events →
      ∀ pre a v mid b w err post,
        s.ts.served = pre ++ .checkLogs a i v "" :: mid ++ .checkLogs b i w err :: post → w ≠ v →
        ∃ f ∈ s.found, f.Touches i ∧ f.calls ≤ pre.length + mid.length + 2) := by
  have hw := Watched.of_run h
  refine ⟨hw.exact, ?_, ?_⟩
  · intro f hf
    obtain ⟨hne, -, hfollowed⟩ := hw.followed f hf
    exact ⟨hne, hfollowed⟩
  · intro hraft i hspares pre a v mid b w err post hserved hne
    obtain ⟨as, bs, u, rfl, hu, hlast, hsub⟩ := Passes.served_moment h _ _ _ hserved
    obtain ⟨f, hf, htouches⟩ := found_of_conflict hgob hu hraft.left hspares.left hlast hne
    obtain ⟨-, hcalls, -⟩ := (Watched.of_run hu).followed f hf
    refine ⟨f, hsub hf, htouches, hcalls.trans (le_of_eq ?_)⟩
    simp [hlast]
    omega

/-- An encoding in which a snapshot is the pair of its index and its log. -/
def pairGob : Labgob Nat (Int × List (Option Nat)) :=
  ⟨fun index xlog => (index, xlog), some, fun _ => 1⟩

def natFmt : Option Nat → String
  | none => "<nil>"
  | some v => toString v

def command (index : Int) (v : Nat) : ApplyMsg Nat (Int × List (Option Nat)) :=
  ⟨true, some v, index, false, none, 0⟩

/-- A server applies its first ten entries, and passes a snapshot to Raft after the ninth. -/
def tenReads (i : Fin 2) : List (PassEvent 2 Nat (Int × List (Option Nat))) :=
  (List.range 10).flatMap fun k : Nat => [.read i (command (k + 1) k), .store i, .report i]

def ninth : Int × List (Option Nat) := (9, none :: (List.range 9).map some)

/-- A server has applied its entries and others theirs; it is killed, restarts from the snapshot
and applies another command at the tenth index. -/
def rolledBack (a : Fin 2) (others : List (PassEvent 2 Nat (Int × List (Option Nat)))) :
    List (PassEvent 2 Nat (Int × List (Option Nat))) :=
  tenReads a ++ others ++ [.kill a] ++ [.restart a ninth] ++ [.read a (command 10 99)]

/-- A proviso on the snapshots that Raft hands out holds in this run if it holds at the restart:
all messages are commands. -/
theorem rolledBack_obeys {a : Fin 2} {others : List (PassEvent 2 Nat (Int × List (Option Nat)))}
    {ok : Passes 2 Nat (Int × List (Option Nat)) → PassEvent 2 Nat (Int × List (Option Nat)) → Prop}
    (hothers : ∀ e ∈ others, ∃ i, e ∈ tenReads i)
    (hcommand : ∀ s i index v, ok s (.read i (command index v)))
    (hstore : ∀ s i, ok s (.store i)) (hreport : ∀ s i, ok s (.report i))
    (hkill : ∀ s i, ok s (.kill i))
    (hrestart : ∀ s, run (Passes.step pairGob natFmt) (Passes.start 2 Nat _)
      (tenReads a ++ others ++ [.kill a]) = some s → ok s (.restart a ninth)) :
    Obeys (Passes.step pairGob natFmt) (Passes.start 2 Nat _) ok (rolledBack a others) := by
  intro pre e post u he hu
  have hten : ∀ i, e ∈ tenReads i → ok u e := by
    intro i hmem
    obtain ⟨k, -, hmem⟩ := List.mem_flatMap.mp hmem
    simp only [List.mem_cons, List.not_mem_nil, or_false] at hmem
    rcases hmem with rfl | rfl | rfl
    · exact hcommand u i _ _
    · exact hstore u i
    · exact hreport u i
  rcases concat_eq_append_cons_iff.mp he with ⟨-, rfl, -⟩ | ⟨rest, -, he⟩
  · exact hcommand u a 10 99
  rcases concat_eq_append_cons_iff.mp he with ⟨rfl, rfl, -⟩ | ⟨rest', -, he⟩
  · exact hrestart u hu
  have hmem : e ∈ tenReads a ++ others ++ [.kill a] := by simp [he]
  simp only [List.mem_append, List.mem_singleton] at hmem
  rcases hmem with (hmem | hmem) | rfl
  · exact hten a hmem
  · obtain ⟨i, hi⟩ := hothers e hmem
    exact hten i hi
  · exact hkill u a

/-- Server 1 has applied the ten entries too. -/
theorem checkLogs_reports_spared : ∃ s,
    run (Passes.step pairGob natFmt) (Passes.start 2 Nat _) (rolledBack 0 (tenReads 1)) = some s ∧
      ∃ f ∈ s.found, f.Touches 10 ∧ f.calls ≤ 23 := by
  obtain ⟨s, hs⟩ : ∃ s, run (Passes.step pairGob natFmt) (Passes.start 2 Nat _)
      (rolledBack 0 (tenReads 1)) = some s := ⟨_, rfl⟩
  obtain ⟨err, hserved⟩ : ∃ err, s.ts.served = s.ts.served.take 9 ++
      .checkLogs 0 10 (some 9) "" :: (s.ts.served.drop 10).take 12 ++
        .checkLogs 0 10 (some 99) err :: [] := by
    cases hs
    exact ⟨_, rfl⟩
  have hothers : ∀ e ∈ tenReads 1, ∃ i, e ∈ tenReads i := fun e he => ⟨1, he⟩
  have hraft : Obeys (Passes.step pairGob natFmt) (Passes.start 2 Nat _) (FromRaft pairGob)
      (rolledBack 0 (tenReads 1)) := by
    refine rolledBack_obeys hothers (by simp [FromRaft, command]) (by simp [FromRaft])
      (by simp [FromRaft]) (by simp [FromRaft]) ?_
    rintro u ⟨⟩ -
    exact ⟨0, List.mem_singleton.mpr rfl⟩
  have hspares : Obeys (Passes.step pairGob natFmt) (Passes.start 2 Nat _) (Spares pairGob 10)
      (rolledBack 0 (tenReads 1)) := by
    refine rolledBack_obeys hothers (by simp [Spares, command]) (by simp [Spares])
      (by simp [Spares]) (by simp [Spares]) ?_
    -- the other server has an entry at the tenth index
    rintro u ⟨⟩ - k xlog - - -
    exact ⟨1, by decide, rfl⟩
  obtain ⟨f, hf, htouches, hcalls⟩ := (checkLogs_reports pairGob (fun _ _ => rfl) natFmt _ s hs).2.2
    hraft 10 hspares _ 0 (some 9) _ 0 (some 99) err [] hserved (by decide)
  have hpre := List.length_take_le 9 s.ts.served
  have hmid := List.length_take_le 12 (s.ts.served.drop 10)
  exact ⟨s, hs, f, hf, htouches, by omega⟩

/-- Nobody else has applied the tenth entry: the restart makes the tester forget it, and the
other command passes. -/
theorem forgetful_not_noticed : ¬ NeverForgets pairGob natFmt 2 := by
  intro h
  obtain ⟨s, hs⟩ : ∃ s, run (Passes.step pairGob natFmt) (Passes.start 2 Nat _)
      (rolledBack 0 []) = some s := ⟨_, rfl⟩
  have hserved : s.ts.served = s.ts.served.take 9 ++ .checkLogs 0 10 (some 9) "" ::
      (s.ts.served.drop 10).take 2 ++ .checkLogs 0 10 (some 99) "" :: [] := by
    cases hs
    rfl
  refine h _ s hs ?_ _ 0 10 (some 9) _ 0 (some 99) "" [] hserved (by decide) rfl
  refine rolledBack_obeys (by simp) (by simp [FromTaken]) (by simp [FromTaken])
    (by simp [FromTaken]) (by simp [FromTaken]) ?_
  rintro u ⟨⟩
  exact List.mem_singleton.mpr rfl

end RaftTest
