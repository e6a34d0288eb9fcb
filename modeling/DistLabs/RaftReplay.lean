import DistLabs.RaftSnapshots

/-!
# Snapshot plus tail equals full replay

Servers with snapshots that are fed one command sequence: command by command, by
snapshots of it, and by restarts from such snapshots. `Replays` says of a log and
its `lastApplied` that they are those of a replay from the start; live servers
have it, and so has every snapshot passed to Raft.
-/
namespace RaftTest

open Runs

variable {n : Nat} {V Snap : Type}

/-- Some server passed the snapshot to Raft, as one at index `k`. -/
def Passed (gob : Labgob V Snap) (s : Sys n V Snap) (k : Int) (sn : Snap) : Prop :=
  ∃ j xlog, sn ∈ s.taken j ∧ sn = gob.encode k xlog

/-- What Raft does to the servers: it sends the next command of the sequence, or a snapshot
with the index it was passed for, and a server starts from such a snapshot or an empty one. -/
def Fed (gob : Labgob V Snap) (C : Int → Option V) (s : Sys n V Snap) : SnapEvent n V Snap → Prop
  | .read i m =>
    (m.snapshotValid = true → ∃ sn, m.snapshot = some sn ∧ Passed gob s m.snapshotIndex sn) ∧
      (m.snapshotValid = false → m.commandValid = true → ∀ rs, s.rf i = some rs →
        m.commandIndex = rs.lastApplied + 1 ∧ m.command = C m.commandIndex)
  | .kill _ => True
  | .restart _ sn => gob.len sn = 0 ∨ ∃ k, Passed gob s k sn

/-- The server was told of no error: neither in a comparison nor in an alarm. -/
def Served.quiet : Served n V → Prop
  | .checkLogs _ _ _ err => err = ""
  | .ingestLog _ _ => True
  | .applyErr _ _ => False
  | .kill _ => True

/-- The log is, from index one on, the command sequence up to `lastApplied`. -/
structure Replays (C : Int → Option V) (rs : Rfsrv V) : Prop where
  nonneg : 0 ≤ rs.lastApplied
  log : ∀ k, 1 ≤ k → rs.log k = if k ≤ rs.lastApplied then some (C k) else none

theorem Replays.fresh (C : Int → Option V) : Replays C ⟨0, fun _ => none⟩ where
  nonneg := Int.le_refl 0
  log := by
    intro k hk
    rw [if_neg (by show ¬ k ≤ 0; omega)]

theorem Replays.next {C : Int → Option V} {rs : Rfsrv V} (h : Replays C rs) :
    Replays C ⟨rs.lastApplied + 1,
      Function.update rs.log (rs.lastApplied + 1) (some (C (rs.lastApplied + 1)))⟩ where
  nonneg := by
    have := h.nonneg
    show 0 ≤ rs.lastApplied + 1
    omega
  log := by
    intro k hk
    show Function.update rs.log _ _ k = if k ≤ rs.lastApplied + 1 then _ else _
    by_cases hnew : k = rs.lastApplied + 1
    · subst hnew
      simp
    · rw [Function.update_of_ne hnew, h.log k hk]
      have hle : k ≤ rs.lastApplied ↔ k ≤ rs.lastApplied + 1 := by omega
      simp only [hle]

/-- Encoding a log and reading it back as a map gives the same entries from index one on. -/
theorem Replays.snapLog {C : Int → Option V} {rs : Rfsrv V} (h : Replays C rs) :
    Replays C ⟨rs.lastApplied, sliceMap (RaftTest.snapLog rs.log rs.lastApplied)⟩ where
  nonneg := h.nonneg
  log := by
    intro k hk
    show sliceMap _ k = if k ≤ rs.lastApplied then _ else _
    rw [sliceMap_snapLog _ _ (by omega), h.log k hk]
    by_cases hle : k ≤ rs.lastApplied
    · rw [if_pos hle, if_pos hle]
      rfl
    · rw [if_neg hle, if_neg hle]

/-- A refused snapshot leaves the server as it was. -/
theorem ingestSnap_refused (gob : Labgob V Snap) (me : Fin n) {snapshot : Option Snap} {index : Int}
    (rs : Rfsrv V)
    (h : ∀ b k xlog, snapshot = some b → gob.decode b = some (k, xlog) → 0 ≤ index ∧ index ≠ k) :
    (ingestSnap gob me snapshot index rs).2 = rs := by
  cases snapshot with
  | none => rfl
  | some b =>
    cases hd : gob.decode b with
    | none => simp [ingestSnap, hd]
    | some decoded =>
      obtain ⟨k, xlog⟩ := decoded
      obtain ⟨hpos, hne⟩ := h b k xlog rfl hd
      have hmismatch : index ≠ -1 ∧ index ≠ k := ⟨by omega, hne⟩
      simp [ingestSnap, hd, hmismatch]

theorem ingestSnap_accepted {gob : Labgob V Snap} (me : Fin n) {b : Snap} {index k : Int}
    {xlog : List (Option V)} (rs : Rfsrv V) (hd : gob.decode b = some (k, xlog))
    (hindex : index = -1 ∨ index = k) :
    ingestSnap gob me (some b) index rs = ("", ⟨k, sliceMap xlog⟩) := by
  have hmatch : ¬ (index ≠ -1 ∧ index ≠ k) := by
    rintro ⟨hne, hne'⟩
    exact hindex.elim hne hne'
  simp [ingestSnap, hd, hmatch]

/-- The state of servers that have replayed the sequence, each up to its own index. -/
structure Replayed (gob : Labgob V Snap) (C : Int → Option V) (s : Sys n V Snap) : Prop where
  servers : ∀ i rs, s.rf i = some rs → Replays C rs ∧
    ∀ k, 1 ≤ k → k ≤ rs.lastApplied → (s.ts.srvs i).logs k = some (C k)
  copies : ∀ i k v, 1 ≤ k → (s.ts.srvs i).logs k = some v → v = C k
  taken : ∀ i, ∀ sn ∈ s.taken i, ∃ k xlog, sn = gob.encode k xlog ∧ Replays C ⟨k, sliceMap xlog⟩
  quiet : ∀ call ∈ s.ts.served, call.quiet

theorem Replayed.start (gob : Labgob V Snap) (C : Int → Option V) :
    Replayed gob C (Sys.start n V Snap) where
  servers := by
    intro i rs hrs
    cases hrs
    refine ⟨Replays.fresh C, ?_⟩
    intro k hk hle
    exact absurd hle (by show ¬ k ≤ 0; omega)
  copies := by
    intro i k v _ hv
    cases hv
  taken := by
    intro i sn hsn
    cases hsn
  quiet := by
    intro call hcall
    cases hcall

/-- A snapshot that was passed to Raft holds a replay up to its index. -/
theorem Replayed.passed {gob : Labgob V Snap} {C : Int → Option V} {s : Sys n V Snap}
    (hgob : ∀ index xlog, gob.decode (gob.encode index xlog) = some (index, xlog))
    (h : Replayed gob C s) {k : Int} {sn : Snap} (hp : Passed gob s k sn) :
    ∃ xlog, gob.decode sn = some (k, xlog) ∧ Replays C ⟨k, sliceMap xlog⟩ := by
  obtain ⟨j, xlog, hmem, rfl⟩ := hp
  obtain ⟨k', xlog', heq, hr⟩ := h.taken j _ hmem
  have hsame : (k, xlog) = (k', xlog') := by
    apply Option.some.inj
    rw [← hgob k xlog, heq, hgob k' xlog']
  cases hsame
  exact ⟨xlog, hgob k xlog, hr⟩

/-- One server changes its state, and the tester's copies follow. -/
theorem Replayed.of_server {gob : Labgob V Snap} {C : Int → Option V} {s t : Sys n V Snap}
    (h : Replayed gob C s) (i : Fin n) (hrf : ∀ j, j ≠ i → t.rf j = s.rf j)
    (hlogs : ∀ j, j ≠ i → (t.ts.srvs j).logs = (s.ts.srvs j).logs)
    (hserver : ∀ rs, t.rf i = some rs → Replays C rs ∧
      ∀ k, 1 ≤ k → k ≤ rs.lastApplied → (t.ts.srvs i).logs k = some (C k))
    (hcopy : ∀ k v, 1 ≤ k → (t.ts.srvs i).logs k = some v → v = C k)
    (htaken : ∀ j, ∀ sn ∈ t.taken j, sn ∈ s.taken j ∨
      ∃ k xlog, sn = gob.encode k xlog ∧ Replays C ⟨k, sliceMap xlog⟩)
    (hquiet : ∀ call ∈ t.ts.served, call ∈ s.ts.served ∨ call.quiet) : Replayed gob C t where
  servers := by
    intro j rs hrs
    by_cases hj : j = i
    · subst hj
      exact hserver rs hrs
    · rw [hrf j hj] at hrs
      rw [hlogs j hj]
      exact h.servers j rs hrs
  copies := by
    intro j k v hk hv
    by_cases hj : j = i
    · subst hj
      exact hcopy k v hk hv
    · rw [hlogs j hj] at hv
      exact h.copies j k v hk hv
  taken := by
    intro j sn hsn
    rcases htaken j sn hsn with hold | hnew
    · exact h.taken j sn hold
    · exact hnew
  quiet := by
    intro call hcall
    rcases hquiet call hcall with hold | hnew
    · exact h.quiet call hold
    · exact hnew

/-- A server takes over the log of a snapshot, and the tester with it. -/
theorem Replayed.ingest {gob : Labgob V Snap} {C : Int → Option V} {s : Sys n V Snap}
    (h : Replayed gob C s) (i : Fin n) {rs : Rfsrv V} (hreplays : Replays C rs) :
    Replayed gob C { s with
      rf := Function.update s.rf i (some rs)
      ts := ingestLog i rs.log s.ts } := by
  have hcopy : ((ingestLog i rs.log s.ts).srvs i).logs = rs.log := by simp [ingestLog]
  refine h.of_server i (fun j hj => by simp [hj]) (fun j hj => by simp [ingestLog, hj]) ?_ ?_
    (fun j sn hsn => Or.inl hsn) ?_
  · intro rs' hrs'
    obtain rfl : rs = rs' := by simpa using hrs'
    refine ⟨hreplays, ?_⟩
    intro k hk hle
    rw [hcopy, hreplays.log k hk, if_pos hle]
  · intro k v hk hv
    rw [hcopy, hreplays.log k hk] at hv
    exact (Option.some.inj (Option.ite_none_right_eq_some.mp hv).2).symm
  · intro call hcall
    rcases List.mem_append.mp hcall with hold | hnew
    · exact Or.inl hold
    · rw [List.mem_singleton.mp hnew]
      exact Or.inr trivial

/-- A server goes down, or starts again without a snapshot. -/
theorem Replayed.reset {gob : Labgob V Snap} {C : Int → Option V} {s : Sys n V Snap}
    (h : Replayed gob C s) (i : Fin n) {rf : Option (Rfsrv V)}
    (hrf : ∀ rs, rf = some rs → rs = ⟨0, fun _ => none⟩) :
    Replayed gob C { s with rf := Function.update s.rf i rf } := by
  refine h.of_server i (fun j hj => by simp [hj]) (fun _ _ => rfl) ?_ (h.copies i)
    (fun j sn hsn => Or.inl hsn) (fun call hcall => Or.inl hcall)
  intro rs hrs
  obtain rfl := hrf rs (by simpa using hrs)
  refine ⟨Replays.fresh C, ?_⟩
  intro k hk hle
  exact absurd hle (by show ¬ k ≤ 0; omega)

/-- The tester replaces or drops a proxy. -/
theorem Replayed.proxy {gob : Labgob V Snap} {C : Int → Option V} {s : Sys n V Snap}
    (h : Replayed gob C s) {ts : Test n V} (hlogs : ∀ j, (ts.srvs j).logs = (s.ts.srvs j).logs)
    (hserved : ∀ call ∈ ts.served, call ∈ s.ts.served ∨ call.quiet) :
    Replayed gob C { s with ts := ts } where
  servers := by
    simp only [hlogs]
    exact h.servers
  copies := by
    simp only [hlogs]
    exact h.copies
  taken := h.taken
  quiet := by
    intro call hcall
    rcases hserved call hcall with hold | hnew
    · exact h.quiet call hold
    · exact hnew

variable [DecidableEq V]

/-- A command of the sequence is accepted: no copy holds another one, and the index before
it has been applied. -/
theorem Replayed.checkLogs {gob : Labgob V Snap} {C : Int → Option V} {s : Sys n V Snap}
    (h : Replayed gob C s) (fmtV : Option V → String) {i : Fin n} {m : ApplyMsg V Snap}
    {rs : Rfsrv V} (hrs : s.rf i = some rs) (hindex : m.commandIndex = rs.lastApplied + 1)
    (hcommand : m.command = C m.commandIndex) :
    (checkLogs fmtV i m s.ts).1 = "" ∧
      (m.commandIndex > 1 → (RaftTest.checkLogs fmtV i m s.ts).2.1 = true) := by
  obtain ⟨hreplays, hcopy⟩ := h.servers i rs hrs
  have hpos := hreplays.nonneg
  constructor
  · by_contra herr
    obtain ⟨j, old, hold, hne⟩ := (compareAll_ne_iff fmtV s.ts i m.commandIndex m.command).mp herr
    rw [hcommand] at hne
    exact hne (h.copies j m.commandIndex old (by omega) hold)
  · intro hlarge
    have hprev : m.commandIndex - 1 = rs.lastApplied := by omega
    show ((s.ts.srvs i).logs (m.commandIndex - 1)).isSome = true
    rw [hprev, hcopy rs.lastApplied (by omega) (Int.le_refl _)]
    rfl

/-- What the command branch does with it, and with the snapshot it may pass to Raft. -/
theorem Replayed.applyCommand {gob : Labgob V Snap} {C : Int → Option V} {s : Sys n V Snap}
    (h : Replayed gob C s) (fmtV : Option V → String) {i : Fin n} {m : ApplyMsg V Snap}
    {rs : Rfsrv V} (hrs : s.rf i = some rs) (hindex : m.commandIndex = rs.lastApplied + 1)
    (hcommand : m.command = C m.commandIndex) :
    (applyCommand gob fmtV i m rs s.ts).1 = "" ∧
    Replays C (RaftTest.applyCommand gob fmtV i m rs s.ts).2.1 ∧
    (RaftTest.applyCommand gob fmtV i m rs s.ts).2.2.1 = (RaftTest.checkLogs fmtV i m s.ts).2.2 ∧
    ∀ sn ∈ (RaftTest.applyCommand gob fmtV i m rs s.ts).2.2.2, ∃ k xlog,
      sn = gob.encode k xlog ∧ Replays C ⟨k, sliceMap xlog⟩ := by
  obtain ⟨herr, hprev⟩ := h.checkLogs fmtV hrs hindex hcommand
  have hnext : Replays C
      ⟨m.commandIndex, Function.update rs.log m.commandIndex (some m.command)⟩ := by
    rw [hcommand, hindex]
    exact (h.servers i rs hrs).1.next
  have horder : ¬ ((RaftTest.checkLogs fmtV i m s.ts).1 ≠ "ErrRPC" ∧ m.commandIndex > 1 ∧
      (RaftTest.checkLogs fmtV i m s.ts).2.1 = false) := by
    rintro ⟨-, hlarge, hmissing⟩
    rw [hprev hlarge] at hmissing
    cases hmissing
  refine ⟨?_, hnext, ?_, ?_⟩
  · simp only [RaftTest.applyCommand, compareCommand, ne_eq, ← hindex, not_true_eq_false, if_false]
    rw [if_neg horder, herr]
  · simp only [RaftTest.applyCommand, compareCommand, ne_eq, ← hindex, not_true_eq_false, if_false]
  · intro sn hsn
    simp only [RaftTest.applyCommand, storeCommand] at hsn
    split at hsn
    · obtain rfl := Option.some.inj hsn
      exact ⟨m.commandIndex, _, rfl, hnext.snapLog⟩
    · cases hsn

/-- A message that Raft may send keeps the servers in step with the sequence. -/
theorem Replayed.read {gob : Labgob V Snap} {C : Int → Option V} {s : Sys n V Snap}
    (hgob : ∀ index xlog, gob.decode (gob.encode index xlog) = some (index, xlog))
    (h : Replayed gob C s) (fmtV : Option V → String) {i : Fin n} {m : ApplyMsg V Snap}
    {rs : Rfsrv V} (hrs : s.rf i = some rs) (hfed : Fed gob C s (.read i m)) :
    Replayed gob C (applierSnap gob fmtV i m rs s) := by
  obtain ⟨hsnap, hcmd⟩ := hfed
  by_cases hv : m.snapshotValid = true
  · obtain ⟨sn, hsn, hpassed⟩ := hsnap hv
    obtain ⟨xlog, hd, hreplays⟩ := h.passed hgob hpassed
    have hstate : applierSnap gob fmtV i m rs s =
        { s with
          rf := Function.update s.rf i (some ⟨m.snapshotIndex, sliceMap xlog⟩)
          ts := ingestLog i (sliceMap xlog) s.ts } := by
      rw [applierSnap, if_pos hv, hsn, ingestSnap_accepted i rs hd (Or.inr rfl)]
      rfl
    rw [hstate]
    exact h.ingest i hreplays
  · by_cases hc : m.commandValid = true
    · obtain ⟨hindex, hcommand⟩ := hcmd (by simpa using hv) hc rs hrs
      obtain ⟨herr, hreplays, hts, hpassed⟩ := h.applyCommand fmtV hrs hindex hcommand
      have hstate : applierSnap gob fmtV i m rs s =
          { rf := Function.update s.rf i (some (RaftTest.applyCommand gob fmtV i m rs s.ts).2.1)
            ts := (RaftTest.checkLogs fmtV i m s.ts).2.2
            taken := Function.update s.taken i
              (s.taken i ++ (RaftTest.applyCommand gob fmtV i m rs s.ts).2.2.2.toList) } := by
        rw [applierSnap, if_neg hv, if_pos hc, ← hts]
        simp only [herr]
        rfl
      have hlog : ∀ k, ((RaftTest.checkLogs fmtV i m s.ts).2.2.srvs i).logs k =
          if k = m.commandIndex then some (C k) else (s.ts.srvs i).logs k := by
        intro k
        rw [checkLogs_logs, if_pos rfl, Function.update_apply, hcommand]
        by_cases hk : k = m.commandIndex
        · rw [if_pos hk, if_pos hk, hk]
        · rw [if_neg hk, if_neg hk]
      rw [hstate]
      refine h.of_server i (fun j hj => by simp [hj])
        (fun j hj => by simp [checkLogs_logs, hj]) ?_ ?_ ?_ ?_
      · intro rs' hrs'
        obtain rfl : (RaftTest.applyCommand gob fmtV i m rs s.ts).2.1 = rs' := by simpa using hrs'
        refine ⟨hreplays, ?_⟩
        intro k hk hle
        rw [hlog k]
        by_cases hnew : k = m.commandIndex
        · rw [if_pos hnew]
        · have hle' : k ≤ m.commandIndex := hle
          rw [if_neg hnew]
          exact (h.servers i rs hrs).2 k hk (by omega)
      · intro k v hk hv
        rw [hlog k] at hv
        by_cases hnew : k = m.commandIndex
        · rw [if_pos hnew] at hv
          exact (Option.some.inj hv).symm
        · rw [if_neg hnew] at hv
          exact h.copies i k v hk hv
      · intro j sn hsn
        by_cases hj : j = i
        · subst hj
          simp only [Function.update_self, List.mem_append, Option.mem_toList] at hsn
          rcases hsn with hold | hnew
          · exact Or.inl hold
          · exact Or.inr (hpassed sn hnew)
        · simp only [ne_eq, hj, not_false_eq_true, Function.update_of_ne] at hsn
          exact Or.inl hsn
      · intro call hcall
        rcases List.mem_append.mp hcall with hold | hnew
        · exact Or.inl hold
        · rw [List.mem_singleton.mp hnew]
          exact Or.inr (h.checkLogs fmtV hrs hindex hcommand).1
    · rw [applierSnap, if_neg hv, if_neg hc]
      exact h

theorem Replayed.step {gob : Labgob V Snap} {C : Int → Option V} {s t : Sys n V Snap}
    {e : SnapEvent n V Snap}
    (hgob : ∀ index xlog, gob.decode (gob.encode index xlog) = some (index, xlog))
    (h : Replayed gob C s) (fmtV : Option V → String) (hfed : Fed gob C s e)
    (hs : SnapEvent.step gob fmtV s e = some t) : Replayed gob C t := by
  cases e with
  | read i m =>
    obtain ⟨rs, hrs, rfl⟩ := Option.map_eq_some_iff.mp hs
    exact h.read hgob fmtV hrs hfed
  | kill i =>
    cases hs
    have hdown : Replayed gob C { s with rf := Function.update s.rf i none } :=
      h.reset i (fun rs hrs => nomatch hrs)
    refine hdown.proxy (fun j => kill_logs i j s.ts) ?_
    intro call hcall
    rcases List.mem_append.mp hcall with hold | hnew
    · exact Or.inl hold
    · rw [List.mem_singleton.mp hnew]
      exact Or.inr trivial
  | restart i sn =>
    cases hs
    have hnew : Replayed gob C (newRfsrv gob i sn s) := by
      rw [newRfsrv]
      by_cases hlen : 0 < gob.len sn
      · obtain ⟨k, hpassed⟩ := hfed.resolve_left (by omega)
        obtain ⟨xlog, hd, hreplays⟩ := h.passed hgob hpassed
        rw [if_pos hlen, ingestSnap_accepted i _ hd (Or.inl rfl)]
        exact h.ingest i hreplays
      · rw [if_neg hlen]
        exact h.reset i (fun rs hrs => (Option.some.inj hrs).symm)
    exact hnew.proxy (fun j => mksrv_logs i j _) fun _ hcall => Or.inl hcall

theorem Replayed.of_run {gob : Labgob V Snap} {C : Int → Option V} {fmtV : Option V → String}
    {events : List (SnapEvent n V Snap)} {s : Sys n V Snap}
    (hgob : ∀ index xlog, gob.decode (gob.encode index xlog) = some (index, xlog))
    (h : run (SnapEvent.step gob fmtV) (Sys.start n V Snap) events = some s)
    (hfed : Obeys (SnapEvent.step gob fmtV) (Sys.start n V Snap) (Fed gob C) events) :
    Replayed gob C s :=
  run_induction_of_obeys (P := fun _ s => Replayed gob C s) (Replayed.start gob C)
    (fun _ _ _ _ _ hr hok hs => hr.step hgob fmtV hok hs) h hfed

/-- Snapshot plus tail equals full replay: servers that are fed one command sequence report
no error, hold it up to their index, and so do the tester's copies, which never hold anything
else. A snapshot that is missing, cannot be decoded or is for another index changes no server. -/
theorem snapshot_tail_replays (gob : Labgob V Snap)
    (hgob : ∀ index xlog, gob.decode (gob.encode index xlog) = some (index, xlog))
    (fmtV : Option V → String) (C : Int → Option V) (events : List (SnapEvent n V Snap))
    (s : Sys n V Snap) (h : run (SnapEvent.step gob fmtV) (Sys.start n V Snap) events = some s)
    (hfed : Obeys (SnapEvent.step gob fmtV) (Sys.start n V Snap) (Fed gob C) events) :
    (∀ call ∈ s.ts.served, call.quiet) ∧
    (∀ i rs, s.rf i = some rs → ∀ k, 1 ≤ k →
      rs.log k = if k ≤ rs.lastApplied then some (C k) else none) ∧
    (∀ i rs, s.rf i = some rs → ∀ k, 1 ≤ k → k ≤ rs.lastApplied →
      (s.ts.srvs i).logs k = some (C k)) ∧
    (∀ i k v, 1 ≤ k → (s.ts.srvs i).logs k = some v → v = C k) ∧
    (∀ (t : Sys n V Snap) i m rs, t.rf i = some rs → m.snapshotValid = true →
      (m.snapshot = none ∨ ∃ b, m.snapshot = some b ∧ (gob.decode b = none ∨
        ∃ k xlog, gob.decode b = some (k, xlog) ∧ 0 ≤ m.snapshotIndex ∧ m.snapshotIndex ≠ k)) →
      (applierSnap gob fmtV i m rs t).rf i = some rs) := by
  have hr := Replayed.of_run hgob h hfed
  refine ⟨hr.quiet, fun i rs hrs => (hr.servers i rs hrs).1.log,
    fun i rs hrs => (hr.servers i rs hrs).2, hr.copies, ?_⟩
  intro t i m rs hrs hv hrefused
  have hsame : (ingestSnap gob i m.snapshot m.snapshotIndex rs).2 = rs := by
    apply ingestSnap_refused
    intro b k xlog hb hd
    rcases hrefused with hnil | ⟨b', hb', hd' | ⟨k', xlog', hd', hpos, hne⟩⟩
    · rw [hnil] at hb
      cases hb
    · obtain rfl := Option.some.inj (hb.symm.trans hb')
      rw [hd] at hd'
      cases hd'
    · obtain rfl := Option.some.inj (hb.symm.trans hb')
      rw [hd] at hd'
      cases hd'
      exact ⟨hpos, hne⟩
  rw [applierSnap, if_pos hv]
  simp [hsame]

/-- The sequence of the numbers, as commands. -/
def numbers (k : Int) : Option Nat := some k.toNat

/-- Server 0 applies nine commands and passes a snapshot to Raft, from which it restarts;
server 1 is sent the snapshot and applies the tenth command. -/
def resumed : List (SnapEvent 2 Nat (Int × List (Option Nat))) :=
  [.read 0 (command 1 1), .read 0 (command 2 2), .read 0 (command 3 3), .read 0 (command 4 4),
   .read 0 (command 5 5), .read 0 (command 6 6), .read 0 (command 7 7), .read 0 (command 8 8),
   .read 0 (command 9 9), .kill 0, .restart 0 (9, none :: (List.range 9).map fun k => some (k + 1)),
   .read 1 ⟨false, none, 0, true, some (9, none :: (List.range 9).map fun k => some (k + 1)), 9⟩,
   .read 1 (command 10 10)]

theorem fed_command {gob : Labgob Nat (Int × List (Option Nat))}
    {s : Sys 2 Nat (Int × List (Option Nat))} {i : Fin 2} {k : Int} {v : Nat} {rs : Rfsrv Nat}
    (hrs : s.rf i = some rs) (hk : k = rs.lastApplied + 1) (hv : v = k.toNat) :
    Fed gob numbers s (.read i (command k v)) := by
  refine ⟨(fun hn => nomatch hn), ?_⟩
  intro _ _ rs' hrs'
  rw [hrs] at hrs'
  cases hrs'
  exact ⟨hk, congrArg some hv⟩

theorem resumed_fed :
    Obeys (SnapEvent.step pairGob natFmt) (Sys.start 2 Nat _) (Fed pairGob numbers) resumed := by
  iterate 9
    refine .cons (fed_command rfl rfl rfl) fun s hs => ?_
    cases hs
  refine .cons trivial fun s hs => ?_
  cases hs
  refine .cons (Or.inr ⟨9, 0, _, List.mem_singleton.mpr rfl, rfl⟩) fun s hs => ?_
  cases hs
  refine .cons ⟨fun _ => ⟨_, rfl, 0, _, List.mem_singleton.mpr rfl, rfl⟩, (fun hn => nomatch hn)⟩
    fun s hs => ?_
  cases hs
  refine .cons (fed_command rfl rfl rfl) fun s hs => ?_
  exact .of_forall (by simp)

theorem resumed_replays : ∃ s rs,
    run (SnapEvent.step pairGob natFmt) (Sys.start 2 Nat _) resumed = some s ∧
      s.rf 1 = some rs ∧ rs.lastApplied = 10 ∧ rs.log 5 = some (some 5) ∧
      (s.ts.srvs 1).logs 10 = some (some 10) ∧ ∀ call ∈ s.ts.served, call.quiet := by
  obtain ⟨s, hs⟩ : ∃ s, run (SnapEvent.step pairGob natFmt) (Sys.start 2 Nat _) resumed = some s :=
    ⟨_, rfl⟩
  obtain ⟨rs, hrs, hlast⟩ : ∃ rs, s.rf 1 = some rs ∧ rs.lastApplied = 10 := by
    cases hs
    exact ⟨_, rfl, rfl⟩
  obtain ⟨hquiet, hlog, hcopy, -⟩ :=
    snapshot_tail_replays pairGob (fun _ _ => rfl) natFmt numbers resumed s hs resumed_fed
  refine ⟨s, rs, hs, hrs, hlast, ?_, ?_, hquiet⟩
  · rw [hlog 1 rs hrs 5 (by decide), hlast]
    rfl
  · exact hcopy 1 rs hrs 10 (by decide) (by omega)

end RaftTest
