import DistLabs.RaftAgreement

/-!
# Agreement as the Raft tests see it

The tests of the package `raft` submit commands with `one` and look at indices with
`wait`, from any number of goroutines, while the appliers of the servers go on, and
while servers are disconnected, killed and restarted. Both read the tester's copies
through `nCommitted`.

An applier makes two calls for one message, `CheckLogs` and, if there is an error,
`ApplyErr`; anything may happen in between. A server that is killed there takes the
error with it, which `lost` remembers. The answers of Raft to `Start` and `GetState`
and the passing of time are free. The texts for the annotations are left out.
-/
namespace RaftTest

open Runs

variable {n : Nat} {V Snap : Type}

section Source

variable [DecidableEq V]

/-- The loop of `nCommitted` over the servers. -/
def countCommitted (fmtV : Option V → String) (ts : Test n V) (index : Int) :
    List (Fin n) → Nat → Option V → Except String (Nat × Option V)
  | [], count, cmd => .ok (count, cmd)
  | j :: js, count, cmd =>
    if (ts.srvs j).applyErr ≠ "" then .error (ts.srvs j).applyErr
    else match (ts.srvs j).logs index with
      | some cmd1 =>
        if count > 0 ∧ cmd ≠ cmd1 then
          let v := fmtV cmd
          let w := fmtV cmd1
          .error s!"committed values at index {index} do not match ({v} != {w})"
        else countCommitted fmtV ts index js (count + 1) cmd1
      | none => countCommitted fmtV ts index js count cmd

/-- How many servers think that the entry is committed, and the entry; an error ends
the goroutine that asked. -/
def nCommitted (fmtV : Option V → String) (ts : Test n V) (index : Int) :
    Except String (Nat × Option V) :=
  countCommitted fmtV ts index (List.finRange n) 0 none

/-- Where a call of `one` is. -/
inductive OnePc where
  | round
  | trying (left : Nat)
  | polling (index : Int)
  | returned (index : Int)
  | fatal (msg : String)
  deriving DecidableEq

/-- A call of `one`. Not in the source: `tried` lists the servers that the present round has
looked at and `before` those of the rounds before it, `submitted` the indices under which Raft
took the command. -/
structure One (V : Type) where
  cmd : Option V
  expectedServers : Int
  retry : Bool
  starts : Nat
  pc : OnePc
  before : List Nat
  tried : List Nat
  submitted : List Int
  deriving DecidableEq

/-- Where a call of `wait` is. -/
inductive WaitPc (V : Type) where
  | looping (iters : Nat)
  | sleeping (iters : Nat)
  | last
  | returned (cmd : Option V)
  | movedOn
  | fatal (msg : String)
  | crashed
  deriving DecidableEq

structure Wait (V : Type) where
  index : Int
  n : Int
  startTerm : Int
  pc : WaitPc V
  deriving DecidableEq

/-- The tester, what the appliers have yet to report, and the calls of the tests. -/
structure Tests (n : Nat) (V : Type) where
  ts : Test n V
  pending : Fin n → Option String
  lost : List (Fin n)
  connected : Fin n → Bool
  finished : Bool
  ones : List (One V)
  waits : List (Wait V)

def Tests.start (n : Nat) (V : Type) : Tests n V :=
  ⟨makeTest n V, fun _ => none, [], fun _ => true, false, [], []⟩

/-- `one` finds a Raft to submit to at this position of `srvs`. -/
def Tests.hasRaft (s : Tests n V) (j : Nat) : Bool :=
  if h : j < n then s.connected ⟨j, h⟩ && (s.ts.srvs ⟨j, h⟩).rfsrv else false

/-- What `one` does with the answer of `nCommitted`. -/
def One.polled (c : One V) (index : Int) : Except String (Nat × Option V) → One V
  | .error msg => { c with pc := .fatal msg }
  | .ok (nd, cmd1) =>
    if 0 < nd ∧ c.expectedServers ≤ nd ∧ cmd1 = c.cmd then { c with pc := .returned index } else c

/-- The next piece of a call of `one`: `inTime` is the outcome of the test of the clock
there, `index1` and `ok` are the answer of `Start`. -/
def One.step (fmtV : Option V → String) (s : Tests n V) (inTime : Bool) (index1 : Int)
    (ok : Bool) (c : One V) : Option (One V) :=
  let failed := "one(" ++ fmtV c.cmd ++ ") failed to reach agreement"
  match c.pc with
  | .round =>
    if inTime && !s.finished then
      some { c with pc := .trying n, before := c.before ++ c.tried, tried := [] }
    else if s.finished = false then some { c with pc := .fatal failed }
    else some { c with pc := .returned (-1) }
  | .trying 0 => some { c with pc := .round }
  | .trying (left + 1) =>
    let starts := (c.starts + 1) % n
    let tried := c.tried ++ [starts]
    if s.hasRaft starts && ok then
      if index1 ≠ -1 then
        some { c with starts, tried, submitted := c.submitted ++ [index1], pc := .polling index1 }
      else some { c with starts, tried, pc := .round }
    else some { c with starts, tried, pc := .trying left }
  | .polling index =>
    if inTime then some (c.polled index (nCommitted fmtV s.ts index))
    else if c.retry = false then some { c with pc := .fatal failed }
    else some { c with pc := .round }
  | .returned _ => none
  | .fatal _ => none

/-- `wait` asks the servers for their terms: `some true` is a server that has moved on,
`none` the call of a method on a server that is down. -/
def askTerms (ts : Test n V) (terms : Fin n → Int) (startTerm : Int) : List (Fin n) → Option Bool
  | [] => some false
  | j :: js =>
    if (ts.srvs j).rfsrv = false then none
    else if terms j > startTerm then some true
    else askTerms ts terms startTerm js

/-- `wait` at the end of its loop. -/
def Wait.concluded (w : Wait V) : Except String (Nat × Option V) → Wait V
  | .error msg => { w with pc := .fatal msg }
  | .ok (nd, cmd) =>
    if nd < w.n then
      let index := w.index
      let wanted := w.n
      { w with pc := .fatal s!"only {nd} decided for index {index}; wanted {wanted}" }
    else { w with pc := .returned cmd }

/-- `wait` in its loop. -/
def Wait.polled (w : Wait V) (iters : Nat) : Except String (Nat × Option V) → Wait V
  | .error msg => { w with pc := .fatal msg }
  | .ok (nd, _) => { w with pc := if nd ≥ w.n then .last else .sleeping iters }

/-- The next piece of a call of `wait`; `terms` holds the answers of `GetState`. -/
def Wait.step (fmtV : Option V → String) (s : Tests n V) (terms : Fin n → Int) (w : Wait V) :
    Option (Wait V) :=
  match w.pc with
  | .looping iters =>
    if iters < 30 then some (w.polled iters (nCommitted fmtV s.ts w.index))
    else some { w with pc := .last }
  | .sleeping iters =>
    if w.startTerm > -1 then
      match askTerms s.ts terms w.startTerm (List.finRange n) with
      | none => some { w with pc := .crashed }
      | some true => some { w with pc := .movedOn }
      | some false => some { w with pc := .looping (iters + 1) }
    else some { w with pc := .looping (iters + 1) }
  | .last => some (w.concluded (nCommitted fmtV s.ts w.index))
  | .returned _ => none
  | .movedOn => none
  | .fatal _ => none
  | .crashed => none

inductive Act (n : Nat) (V Snap : Type) where
  /-- The applier of a server reads a message, up to the answer of `CheckLogs`. -/
  | check (i : Fin n) (m : ApplyMsg V Snap)
  /-- It reports the error, if there is one. -/
  | report (i : Fin n)
  | kill (i : Fin n)
  | restart (i : Fin n)
  | connect (i : Fin n) (up : Bool)
  | cleanup
  | one (cmd : Option V) (expectedServers : Int) (retry : Bool)
  | oneGoes (c : Nat) (inTime : Bool) (index1 : Int) (ok : Bool)
  | wait (index n startTerm : Int)
  | waitGoes (w : Nat) (terms : Fin n → Int)

/-- What `applier` has to report for a message. -/
def applierErr (i : Fin n) (index : Int) (err : String) (prevok : Bool) : String :=
  if index > 1 ∧ prevok = false then s!"server {i} apply out of order {index}" else err

def Tests.check (fmtV : Option V → String) (i : Fin n) (m : ApplyMsg V Snap) (s : Tests n V) :
    Tests n V :=
  let (err, prevok, ts) := checkLogs fmtV i m s.ts
  { s with ts, pending := Function.update s.pending i
             (some (applierErr i m.commandIndex err prevok)) }

def Tests.step (fmtV : Option V → String) (s : Tests n V) : Act n V Snap → Option (Tests n V)
  | .check i m =>
    if s.pending i = none then
      some (if m.commandValid = false then s else s.check fmtV i m)
    else none
  | .report i => (s.pending i).map fun err =>
      { s with ts := RaftTest.report i err s.ts, pending := Function.update s.pending i none }
  | .kill i => some { s with
      ts := RaftTest.kill i s.ts
      pending := Function.update s.pending i none
      lost := if (s.pending i).getD "" ≠ "" then s.lost ++ [i] else s.lost }
  | .restart i => some { s with ts := mksrv i s.ts }
  | .connect i up => some { s with connected := Function.update s.connected i up }
  | .cleanup => some { s with finished := true }
  | .one cmd expectedServers retry =>
    some { s with ones := s.ones ++ [⟨cmd, expectedServers, retry, 0, .round, [], [], []⟩] }
  | .oneGoes c inTime index1 ok =>
    (s.ones[c]?.bind (One.step fmtV s inTime index1 ok)).map fun c' =>
      { s with ones := s.ones.set c c' }
  | .wait index n startTerm =>
    some { s with waits := s.waits ++ [⟨index, n, startTerm, .looping 0⟩] }
  | .waitGoes w terms =>
    (s.waits[w]?.bind (Wait.step fmtV s terms)).map fun w' =>
      { s with waits := s.waits.set w w' }

end Source

/-! ## The count of the servers -/

/-- The servers whose copy holds the command at the index. -/
def holders [DecidableEq V] (ts : Test n V) (index : Int) (v : Option V) : List (Fin n) :=
  (List.finRange n).filter fun j => decide ((ts.srvs j).logs index = some v)

variable [DecidableEq V]

theorem holders_subset {ts ts' : Test n V} {index index' : Int} {v v' : Option V}
    (h : ∀ j, (ts.srvs j).logs index = some v → (ts'.srvs j).logs index' = some v') :
    (holders ts index v).length ≤ (holders ts' index' v').length := by
  apply List.Sublist.length_le
  apply List.monotone_filter_right
  intro j hj
  exact decide_eq_true (h j (of_decide_eq_true hj))

/-- An answer of the loop: no error, every copy that was met holds the command that is
returned, and so did the copies counted before. -/
theorem countCommitted_ok (fmtV : Option V → String) (ts : Test n V) (index : Int) {nd : Nat}
    {v : Option V} (js : List (Fin n)) (count : Nat) (cmd : Option V)
    (h : countCommitted fmtV ts index js count cmd = .ok (nd, v)) :
    nd = count + js.countP (fun j => decide ((ts.srvs j).logs index = some v)) ∧
      (∀ j ∈ js, ∀ w, (ts.srvs j).logs index = some w → w = v) ∧ (0 < count → cmd = v) := by
  induction js generalizing count cmd with
  | nil =>
    cases h
    simp
  | cons j js ih =>
    rw [countCommitted] at h
    split at h
    · cases h
    · cases hlog : (ts.srvs j).logs index with
      | none =>
        simp only [hlog] at h
        obtain ⟨hnd, hall, hcmd⟩ := ih count cmd h
        refine ⟨by simp [hlog, hnd], ?_, hcmd⟩
        intro k hk w hw
        rcases List.mem_cons.mp hk with rfl | hk
        · rw [hlog] at hw
          cases hw
        · exact hall k hk w hw
      | some cmd1 =>
        simp only [hlog] at h
        split at h
        · cases h
        · rename_i hsame
          obtain ⟨hnd, hall, hcmd⟩ := ih (count + 1) cmd1 h
          obtain rfl := hcmd (Nat.succ_pos count)
          refine ⟨by simp [hlog, hnd]; omega, ?_, ?_⟩
          · intro k hk w hw
            rcases List.mem_cons.mp hk with rfl | hk
            · exact Option.some.inj (hw.symm.trans hlog)
            · exact hall k hk w hw
          · intro hpos
            by_contra hne
            exact hsame ⟨hpos, hne⟩

theorem nCommitted_ok {fmtV : Option V → String} {ts : Test n V} {index : Int} {nd : Nat}
    {v : Option V} (h : nCommitted fmtV ts index = .ok (nd, v)) :
    nd = (holders ts index v).length ∧ ∀ j w, (ts.srvs j).logs index = some w → w = v := by
  obtain ⟨hnd, hall, -⟩ := countCommitted_ok fmtV ts index (List.finRange n) 0 none h
  rw [Nat.zero_add, List.countP_eq_length_filter] at hnd
  exact ⟨hnd, fun j => hall j (List.mem_finRange j)⟩

/-! ## What is reported as committed -/

/-- An entry that a test was told is committed on at least so many servers. -/
structure Report (V : Type) where
  index : Int
  cmd : Option V
  servers : Int
  deriving DecidableEq

def One.report (c : One V) : Option (Report V) :=
  match c.pc with
  | .returned index => if index ≠ -1 then some ⟨index, c.cmd, c.expectedServers⟩ else none
  | _ => none

/-- A `wait` for no server at all returns without a report. -/
def Wait.report (w : Wait V) : Option (Report V) :=
  match w.pc with
  | .returned cmd => if 0 < w.n then some ⟨w.index, cmd, w.n⟩ else none
  | _ => none

def Tests.reports (s : Tests n V) : List (Report V) :=
  s.ones.filterMap One.report ++ s.waits.filterMap Wait.report

/-- An entry is on enough servers, and no copy holds another one in its place. -/
structure AgreedAt (ts : Test n V) (index : Int) (v : Option V) (servers : Int) : Prop where
  held : 0 < (holders ts index v).length
  enough : servers ≤ (holders ts index v).length
  only : ∀ j w, (ts.srvs j).logs index = some w → w = v

/-- What a call of `one` can do next. -/
inductive One.Steps (fmtV : Option V → String) (s : Tests n V) (c : One V) : One V → Prop where
  | begin (hpc : c.pc = .round) :
    Steps fmtV s c { c with pc := .trying n, before := c.before ++ c.tried, tried := [] }
  | fail (hpc : c.pc = .round) (msg : String) : Steps fmtV s c { c with pc := .fatal msg }
  | finish (hpc : c.pc = .round) : Steps fmtV s c { c with pc := .returned (-1) }
  | noLeader (hpc : c.pc = .trying 0) : Steps fmtV s c { c with pc := .round }
  | submit (left : Nat) (index1 : Int) (hpc : c.pc = .trying (left + 1)) (hindex : index1 ≠ -1) :
    Steps fmtV s c { c with starts := (c.starts + 1) % n, tried := c.tried ++ [(c.starts + 1) % n],
                            submitted := c.submitted ++ [index1], pc := .polling index1 }
  | noIndex (left : Nat) (hpc : c.pc = .trying (left + 1)) :
    Steps fmtV s c { c with starts := (c.starts + 1) % n, tried := c.tried ++ [(c.starts + 1) % n],
                            pc := .round }
  | refused (left : Nat) (hpc : c.pc = .trying (left + 1)) :
    Steps fmtV s c { c with starts := (c.starts + 1) % n, tried := c.tried ++ [(c.starts + 1) % n],
                            pc := .trying left }
  | poll (index : Int) (hpc : c.pc = .polling index) :
    Steps fmtV s c (c.polled index (nCommitted fmtV s.ts index))
  | late (index : Int) (hpc : c.pc = .polling index) (hretry : c.retry = true) :
    Steps fmtV s c { c with pc := .round }
  | lateOnce (index : Int) (hpc : c.pc = .polling index) (msg : String) :
    Steps fmtV s c { c with pc := .fatal msg }

theorem One.steps_of_step {fmtV : Option V → String} {s : Tests n V} {inTime ok : Bool}
    {index1 : Int} {c c' : One V} (hstep : One.step fmtV s inTime index1 ok c = some c') :
    One.Steps fmtV s c c' := by
  unfold One.step at hstep
  split at hstep
  · rename_i hpc
    split at hstep
    · cases hstep
      exact .begin hpc
    · split at hstep
      · cases hstep
        exact .fail hpc _
      · cases hstep
        exact .finish hpc
  · rename_i hpc
    cases hstep
    exact .noLeader hpc
  · rename_i left hpc
    dsimp only at hstep
    split at hstep
    · split at hstep
      · rename_i hindex
        cases hstep
        exact .submit left index1 hpc hindex
      · cases hstep
        exact .noIndex left hpc
    · cases hstep
      exact .refused left hpc
  · rename_i index hpc
    split at hstep
    · cases hstep
      exact .poll index hpc
    · split at hstep
      · cases hstep
        exact .lateOnce index hpc _
      · rename_i hretry
        cases hstep
        exact .late index hpc (by simpa using hretry)
  · cases hstep
  · cases hstep

/-- A call that succeeds has just seen the agreement. -/
theorem One.Steps.report {fmtV : Option V → String} {s : Tests n V} {c c' : One V} {r : Report V}
    (hstep : One.Steps fmtV s c c') (hr : c'.report = some r) :
    AgreedAt s.ts r.index r.cmd r.servers := by
  cases hstep with
  | poll index hpc =>
    cases hn : nCommitted fmtV s.ts index with
    | error msg =>
      rw [hn] at hr
      cases hr
    | ok answer =>
      obtain ⟨nd, cmd1⟩ := answer
      obtain ⟨hnd, honly⟩ := nCommitted_ok hn
      rw [hn, One.polled] at hr
      split at hr
      · rename_i henough
        obtain ⟨hpos, hle, rfl⟩ := henough
        simp only [One.report] at hr
        obtain ⟨-, hr⟩ := Option.ite_none_right_eq_some.mp hr
        cases hr
        exact ⟨hnd ▸ hpos, hnd ▸ hle, honly⟩
      · simp [One.report, hpc] at hr
  | finish hpc => simp [One.report] at hr
  | _ => cases hr

omit [DecidableEq V] in
theorem Wait.polled_report (w : Wait V) (iters : Nat) (answer : Except String (Nat × Option V)) :
    (w.polled iters answer).report = none := by
  cases answer with
  | error msg => rfl
  | ok answer => by_cases hle : w.n ≤ answer.1 <;> simp [Wait.polled, Wait.report, hle]

theorem Wait.step_report {fmtV : Option V → String} {s : Tests n V} {terms : Fin n → Int}
    {w w' : Wait V} {r : Report V} (hstep : Wait.step fmtV s terms w = some w')
    (hr : w'.report = some r) : AgreedAt s.ts r.index r.cmd r.servers := by
  unfold Wait.step at hstep
  split at hstep
  · split at hstep
    · cases hstep
      rw [Wait.polled_report] at hr
      cases hr
    · cases hstep
      cases hr
  · split at hstep
    · split at hstep <;> (cases hstep; cases hr)
    · cases hstep
      cases hr
  · cases hstep
    cases hn : nCommitted fmtV s.ts w.index with
    | error msg =>
      rw [hn] at hr
      cases hr
    | ok answer =>
      obtain ⟨nd, cmd⟩ := answer
      obtain ⟨hnd, honly⟩ := nCommitted_ok hn
      rw [hn, Wait.concluded] at hr
      split at hr
      · cases hr
      · rename_i hle
        simp only [Wait.report] at hr
        obtain ⟨hpos, hr⟩ := Option.ite_none_right_eq_some.mp hr
        cases hr
        refine ⟨?_, ?_, honly⟩ <;> (dsimp only; omega)
  · cases hstep
  · cases hstep
  · cases hstep
  · cases hstep

end RaftTest
