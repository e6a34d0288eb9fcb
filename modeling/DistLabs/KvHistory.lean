import DistLabs.KvServer

/-!
# The history of the key/value tests

`Get` and `Put` of the package `kvtest` take the time, call the clerk, take the time
again and append what they saw to the `OpLog`, which `CheckPorcupine` checks against
`KvModel`. Any number of clients do so at once. What is behind the clerk is any store
that keeps the promises of its comments: a request is executed at moments between
the call and the return of the clerk, once or, if it was sent again, several times;
the clerk returns the reply of one of these executions, and `ErrMaybe` for an
`ErrVersion` if it had sent the request more than once.

The time is that of the wall clock, since `t0` has no monotonic reading: it may be set to
anything at any moment. `execs` records the executions in their order; no client reads it.
-/
namespace KvTest

open Runs Linearize Models GoMaps
open KvSrv (Key Op)

/-- What the server replies; a `Put` leaves the other fields of its output at zero. -/
def Key.reply (k : Key) : Op → KvOutput
  | .get => k.get
  | .put value version => ⟨"", 0, (k.put value version).2⟩

/-- One execution of the request of a call. -/
structure Exec where
  call : Nat
  key : String
  op : Op
  out : KvOutput
  time : Int

/-- Where a `Get` or `Put` has got to: in the clerk, returned from it with the reply of
execution `e`, past reading the time, or past `Append`. -/
inductive CallPc where
  | clerk
  | returned (e : Nat) (out : KvOutput)
  | timed (e : Nat) (out : KvOutput) (stop : Int)
  | logged (e : Nat) (out : KvOutput) (stop : Int)
  deriving DecidableEq

structure LogCall where
  cli : Int
  key : String
  op : Op
  start : Int
  pc : CallPc

structure Recorder where
  now : Int
  store : String → Key
  execs : List Exec
  calls : List LogCall
  log : List Operation

def Recorder.start (now : Int) : Recorder := ⟨now, fun _ => .absent, [], [], []⟩

/-- The operation that `Append` records. -/
def LogCall.operation (call : LogCall) (out : KvOutput) (stop : Int) : Operation :=
  ⟨call.cli, call.op.input call.key, call.start, out, stop⟩

/-- What the clerk makes of a reply. -/
def clerkReturn (resent : Bool) (op : Op) (out : KvOutput) : KvOutput :=
  match op with
  | .get => out
  | .put _ _ => if resent && out.err == "ErrVersion" then ⟨"", 0, "ErrMaybe"⟩ else out

inductive RecAct where
  | clock (now : Int)
  | call (cli : Int) (key : String) (op : Op)
  | exec (c : Nat)
  | ret (c e : Nat) (resent : Bool)
  | stop (c : Nat)
  | append (c : Nat)

def Recorder.step (s : Recorder) : RecAct → Option Recorder
  | .clock now => some { s with now := now }
  | .call cli key op => some { s with calls := s.calls ++ [⟨cli, key, op, s.now, .clerk⟩] }
  | .exec c =>
    match s.calls[c]? with
    | some call =>
      if call.pc = .clerk then
        let k := s.store call.key
        some { s with
          store := Function.update s.store call.key (k.exec call.op)
          execs := s.execs ++ [⟨c, call.key, call.op, Key.reply k call.op, s.now⟩] }
      else none
    | none => none
  | .ret c e resent =>
    match s.calls[c]?, s.execs[e]? with
    | some call, some x =>
      -- a request that was not sent again was executed once
      if call.pc = .clerk ∧ x.call = c ∧ (resent = false → s.execs.countP (·.call = c) = 1) then
        some { s with
          calls := s.calls.set c
            { call with pc := .returned e (clerkReturn resent call.op x.out) } }
      else none
    | _, _ => none
  | .stop c =>
    match s.calls[c]? with
    | some call =>
      match call.pc with
      | .returned e out =>
        some { s with calls := s.calls.set c { call with pc := .timed e out s.now } }
      | _ => none
    | none => none
  | .append c =>
    match s.calls[c]? with
    | some call =>
      match call.pc with
      | .timed e out stop =>
        some { s with
          calls := s.calls.set c { call with pc := .logged e out stop }
          log := s.log ++ [call.operation out stop] }
      | _ => none
    | none => none

/-- The steps, one constructor for each action. -/
inductive Recorder.Steps (s : Recorder) : RecAct → Recorder → Prop
  | clock (now : Int) : Steps s (.clock now) { s with now := now }
  | call (cli : Int) (key : String) (op : Op) :
      Steps s (.call cli key op) { s with calls := s.calls ++ [⟨cli, key, op, s.now, .clerk⟩] }
  | exec (c : Nat) (call : LogCall) (hc : s.calls[c]? = some call) (hpc : call.pc = .clerk) :
      Steps s (.exec c) { s with
        store := Function.update s.store call.key ((s.store call.key).exec call.op)
        execs := s.execs ++
          [⟨c, call.key, call.op, Key.reply (s.store call.key) call.op, s.now⟩] }
  | ret (c e : Nat) (resent : Bool) (call : LogCall) (x : Exec) (hc : s.calls[c]? = some call)
      (hx : s.execs[e]? = some x) (hpc : call.pc = .clerk) (hcall : x.call = c)
      (honce : resent = false → s.execs.countP (·.call = c) = 1) :
      Steps s (.ret c e resent) { s with
        calls := s.calls.set c
          { call with pc := .returned e (clerkReturn resent call.op x.out) } }
  | stop (c e : Nat) (out : KvOutput) (call : LogCall) (hc : s.calls[c]? = some call)
      (hpc : call.pc = .returned e out) :
      Steps s (.stop c) { s with calls := s.calls.set c { call with pc := .timed e out s.now } }
  | append (c e : Nat) (out : KvOutput) (stop : Int) (call : LogCall)
      (hc : s.calls[c]? = some call) (hpc : call.pc = .timed e out stop) :
      Steps s (.append c) { s with
        calls := s.calls.set c { call with pc := .logged e out stop }
        log := s.log ++ [call.operation out stop] }

theorem Recorder.steps_of_step {s t : Recorder} {a : RecAct} (h : s.step a = some t) :
    s.Steps a t := by
  cases a with
  | clock now =>
    cases h
    exact .clock now
  | call cli key op =>
    cases h
    exact .call cli key op
  | exec c =>
    simp only [Recorder.step] at h
    split at h
    · rename_i call hc
      obtain ⟨hpc, h⟩ := Option.ite_none_right_eq_some.mp h
      cases h
      exact .exec c call hc hpc
    · cases h
  | ret c e resent =>
    simp only [Recorder.step] at h
    split at h
    · rename_i call x hc hx
      obtain ⟨⟨hpc, hcall, honce⟩, h⟩ := Option.ite_none_right_eq_some.mp h
      cases h
      exact .ret c e resent call x hc hx hpc hcall honce
    · cases h
  | stop c =>
    simp only [Recorder.step] at h
    split at h
    · rename_i call hc
      split at h
      · rename_i e out hpc
        cases h
        exact .stop c e out call hc hpc
      · cases h
    · cases h
  | append c =>
    simp only [Recorder.step] at h
    split at h
    · rename_i call hc
      split at h
      · rename_i e out stop hpc
        cases h
        exact .append c e out stop call hc hpc
      · cases h
    · cases h

/-! ## The executions -/

/-- The store after executions, from the empty one. -/
def storeAfter (xs : List Exec) : String → Key :=
  xs.foldl (fun st x => Function.update st x.key ((st x.key).exec x.op)) fun _ => .absent

theorem storeAfter_concat (xs : List Exec) (x : Exec) :
    storeAfter (xs ++ [x]) =
      Function.update (storeAfter xs) x.key ((storeAfter xs x.key).exec x.op) := by
  simp [storeAfter]

/-- Every execution replied what the store held for its key. -/
def Served (xs : List Exec) : Prop :=
  ∀ i x, xs[i]? = some x → x.out = Key.reply (storeAfter (xs.take i) x.key) x.op

theorem Served.concat {xs : List Exec} {x : Exec} (h : Served xs)
    (hx : x.out = Key.reply (storeAfter xs x.key) x.op) : Served (xs ++ [x]) := by
  intro i y hy
  rcases getElem?_concat_cases hy with hy | ⟨rfl, rfl⟩
  · rw [List.take_append_of_le_length (List.getElem?_eq_some_iff.mp hy).1.le]
    exact h i y hy
  · simpa using hx

/-- The execution was of a `Put` and took effect. -/
def Exec.took (x : Exec) : Bool :=
  match x.op with
  | .get => false
  | .put _ _ => x.out.err == "OK"

/-- A `Put` takes effect exactly at its version. -/
theorem exec_put_state (k : Key) (value : String) (version : UInt64) :
    (k.exec (.put value version)).state =
      if k.state.version = version then ⟨value, version + 1⟩ else k.state := by
  cases k with
  | absent =>
    by_cases hv : version = 0
    · subst hv
      rfl
    · simp [Key.exec, Key.put, Key.state, init, hv, Ne.symm hv]
  | present old current =>
    by_cases hv : version = current
    · simp [Key.exec, Key.put, Key.state, hv]
    · simp [Key.exec, Key.put, Key.state, hv, Ne.symm hv]

theorem put_ok_iff (k : Key) (value : String) (version : UInt64) :
    (k.put value version).2 = "OK" ↔ k.state.version = version := by
  cases k with
  | absent =>
    by_cases hv : version = 0
    · subst hv
      simp [Key.put, Key.state, init]
    · simp [Key.put, Key.state, init, hv, Ne.symm hv]
  | present old current =>
    by_cases hv : version = current
    · simp [Key.put, Key.state, hv]
    · simp [Key.put, Key.state, hv, Ne.symm hv]

theorem put_err_cases (k : Key) (value : String) (version : UInt64) :
    (k.put value version).2 = "OK" ∨ (k.put value version).2 = "ErrVersion" ∨
      (k.put value version).2 = "ErrNoKey" := by
  cases k with
  | absent => by_cases hv : version = 0 <;> simp [Key.put, hv]
  | present old current => by_cases hv : version = current <;> simp [Key.put, hv]

theorem Served.left {xs ys : List Exec} (h : Served (xs ++ ys)) : Served xs := by
  intro i x hx
  have hlt := (List.getElem?_eq_some_iff.mp hx).1
  have hxy : (xs ++ ys)[i]? = some x := by rwa [List.getElem?_append_left hlt]
  rw [h i x hxy, List.take_append_of_le_length hlt.le]

theorem Served.last {xs : List Exec} {x : Exec} (h : Served (xs ++ [x])) :
    x.out = Key.reply (storeAfter xs x.key) x.op := by
  simpa using h xs.length x (by simp)

/-- How many `Put`s to the key took effect. -/
def effects (k : String) (xs : List Exec) : Nat := xs.countP fun x => x.key == k && x.took

/-- The version of a key counts the `Put`s that took effect, modulo the word size. -/
theorem Served.version_eq {xs : List Exec} (h : Served xs) (k : String) :
    (storeAfter xs k).state.version = UInt64.ofNat (effects k xs) := by
  induction xs using List.reverseRecOn with
  | nil => rfl
  | append_singleton xs x ih =>
    have hbefore := ih h.left
    rw [storeAfter_concat, effects, List.countP_append, ← effects]
    by_cases hk : x.key = k
    · subst hk
      rw [Function.update_self]
      cases hop : x.op with
      | get => simpa [Key.exec, Exec.took, hop] using hbefore
      | put value version =>
        have hout := h.last
        rw [hop] at hout
        have htook : x.took = true ↔ (storeAfter xs x.key).state.version = version := by
          rw [← put_ok_iff _ value]
          simp [Exec.took, hop, hout, Key.reply]
        rw [exec_put_state]
        split
        · rename_i hv
          rw [← hv, hbefore]
          simp [htook.mpr hv, UInt64.ofNat_add]
        · rename_i hv
          simp [mt htook.mp hv, hbefore]
    · rw [Function.update_of_ne (Ne.symm hk), hbefore]
      simp [hk]

theorem Served.took_at {xs : List Exec} (h : Served xs) {i : Nat} {x : Exec}
    (hx : xs[i]? = some x) (htook : x.took = true) :
    ∃ value, x.op = .put value (UInt64.ofNat (effects x.key (xs.take i))) := by
  have hout := h i x hx
  cases hop : x.op with
  | get => simp [Exec.took, hop] at htook
  | put value version =>
    have hv : (storeAfter (xs.take i) x.key).state.version = version := by
      rw [← put_ok_iff _ value]
      simpa [Exec.took, hop, hout, Key.reply] using htook
    have hsplit : Served (xs.take i ++ xs.drop i) := by rwa [List.take_append_drop]
    rw [hsplit.left.version_eq] at hv
    exact ⟨value, by rw [hv]⟩

/-- A `Put` takes effect at most once, as long as the versions do not wrap around. -/
theorem Served.took_once {xs : List Exec} (h : Served xs) (hlen : xs.length < UInt64.size)
    {i j : Nat} {x y : Exec} (hx : xs[i]? = some x) (hy : xs[j]? = some y)
    (hxtook : x.took = true) (hytook : y.took = true) (hkey : x.key = y.key)
    (hop : x.op = y.op) : i = j := by
  obtain ⟨v, hv⟩ := h.took_at hx hxtook
  obtain ⟨w, hw⟩ := h.took_at hy hytook
  rw [hop, hw] at hv
  have hsame := (KvSrv.Op.put.inj hv).2
  have hbound : ∀ k n, effects k (xs.take n) < UInt64.size := by
    intro k n
    have hcount : effects k (xs.take n) ≤ (xs.take n).length := List.countP_le_length
    have htake := List.length_take_le' n xs
    omega
  have hnat : effects y.key (xs.take j) = effects x.key (xs.take i) := by
    have := congrArg UInt64.toNat hsame
    simpa [UInt64.toNat_ofNat', Nat.mod_eq_of_lt (hbound _ _)] using this
  rw [← hkey, effects, effects] at hnat
  rcases Nat.lt_trichotomy i j with hij | hij | hij
  · have := countP_take_lt (p := fun z => z.key == x.key && z.took) hx (by simp [hxtook]) hij
    omega
  · exact hij
  · have := countP_take_lt (p := fun z => z.key == x.key && z.took) hy (by simp [hytook, hkey]) hij
    omega

/-! ## What every step keeps -/

/-- The execution and output that the clerk returned with. -/
def CallPc.reply : CallPc → Option (Nat × KvOutput)
  | .clerk => none
  | .returned e out => some (e, out)
  | .timed e out _ => some (e, out)
  | .logged e out _ => some (e, out)

def CallPc.stop : CallPc → Option Int
  | .timed _ _ stop => some stop
  | .logged _ _ stop => some stop
  | _ => none

/-- The operation that a call has appended to the log. -/
def LogCall.appended (call : LogCall) : Option Operation :=
  match call.pc with
  | .logged _ out stop => some (call.operation out stop)
  | _ => none

def appendedBy (calls : List LogCall) (c : Nat) : Option Operation :=
  (calls[c]?).bind LogCall.appended

/-- The executions belong to calls and stand in the order of time. -/
structure ExecsInv (s : Recorder) : Prop where
  served : Served s.execs
  store : s.store = storeAfter s.execs
  times : s.execs.Pairwise (·.time ≤ ·.time)
  past : ∀ x ∈ s.execs, x.time ≤ s.now
  started : ∀ (c : Nat) call, s.calls[c]? = some call → call.start ≤ s.now
  ofCall : ∀ x ∈ s.execs, ∃ call, s.calls[x.call]? = some call ∧ x.key = call.key ∧
    x.op = call.op ∧ call.start ≤ x.time

/-- The clerk returned the reply of an execution of the call, and all of them are over. -/
structure CallsInv (s : Recorder) : Prop where
  replied : ∀ c call e out, s.calls[c]? = some call → call.pc.reply = some (e, out) →
    ∃ x resent, s.execs[e]? = some x ∧ x.call = c ∧ out = clerkReturn resent call.op x.out ∧
      (resent = false → s.execs.countP (·.call = c) = 1)
  settled : ∀ c call stop, s.calls[c]? = some call → call.pc.stop = some stop →
    ∀ x ∈ s.execs, x.call = c → x.time ≤ stop

/-- The log holds each operation once. -/
def LogInv (s : Recorder) : Prop :=
  ∃ ids : List Nat, ids.Nodup ∧ s.log = ids.filterMap (appendedBy s.calls) ∧
    ∀ c, c ∈ ids ↔ (appendedBy s.calls c).isSome

/-- A step of a call that leaves the executions alone. -/
theorem ExecsInv.call_step {s : Recorder} (h : ExecsInv s) {c : Nat} {call : LogCall}
    (hc : s.calls[c]? = some call) (pc : CallPc) (log : List Operation) :
    ExecsInv { s with calls := s.calls.set c { call with pc := pc }, log := log } where
  served := h.served
  store := h.store
  times := h.times
  past := h.past
  started := by
    intro d call' hd
    rcases getElem?_set_cases hd with ⟨rfl, rfl⟩ | ⟨-, hd⟩
    · exact h.started _ call hc
    · exact h.started d call' hd
  ofCall := by
    intro x hx
    obtain ⟨old, hold, hcall⟩ := h.ofCall x hx
    exact exists_getElem?_set hc hold (by rintro rfl; exact hcall) hcall

theorem ExecsInv.step {s t : Recorder} {a : RecAct} (h : ExecsInv s) (hstep : s.step a = some t)
    (hclock : ∀ now, a = .clock now → s.now ≤ now) : ExecsInv t := by
  cases Recorder.steps_of_step hstep with
  | clock now =>
    have hlater := hclock now rfl
    refine ⟨h.served, h.store, h.times, ?_, ?_, h.ofCall⟩
    · intro x hx
      exact (h.past x hx).trans hlater
    · intro c call hc
      exact (h.started c call hc).trans hlater
  | call cli key op =>
    refine ⟨h.served, h.store, h.times, h.past, ?_, ?_⟩
    · intro c call hc
      rcases getElem?_concat_cases hc with hc | ⟨-, rfl⟩
      · exact h.started c call hc
      · exact Int.le_refl _
    · intro x hx
      obtain ⟨call, hcall, hrest⟩ := h.ofCall x hx
      exact ⟨call, getElem?_concat_of_some hcall _, hrest⟩
  | exec c call hc hpc =>
    refine ⟨h.served.concat (by rw [h.store]), ?_, ?_, ?_, h.started, ?_⟩
    · rw [storeAfter_concat, ← h.store]
    · refine List.pairwise_append.mpr ⟨h.times, List.pairwise_singleton _ _, ?_⟩
      intro x hx y hy
      cases List.mem_singleton.mp hy
      exact h.past x hx
    · intro x hx
      rcases List.mem_append.mp hx with hx | hx
      · exact h.past x hx
      · cases List.mem_singleton.mp hx
        exact Int.le_refl _
    · intro x hx
      rcases List.mem_append.mp hx with hx | hx
      · exact h.ofCall x hx
      · cases List.mem_singleton.mp hx
        exact ⟨call, hc, rfl, rfl, h.started c call hc⟩
  | ret c e resent call x hc hx hpc hcall honce => exact h.call_step hc _ _
  | stop c e out call hc hpc => exact h.call_step hc _ _
  | append c e out stop call hc hpc => exact h.call_step hc _ _

theorem CallsInv.step {s t : Recorder} {a : RecAct} (hx : ExecsInv s) (h : CallsInv s)
    (hstep : s.step a = some t) : CallsInv t := by
  cases Recorder.steps_of_step hstep with
  | clock now => exact ⟨h.replied, h.settled⟩
  | call cli key op =>
    constructor
    · intro c call e out hc hreply
      rcases getElem?_concat_cases hc with hc | ⟨-, rfl⟩
      · exact h.replied c call e out hc hreply
      · cases hreply
    · intro c call stop hc hstop
      rcases getElem?_concat_cases hc with hc | ⟨-, rfl⟩
      · exact h.settled c call stop hc hstop
      · cases hstop
  | exec c call hc hpc =>
    -- a call that has returned is not the one that executes
    have hother : ∀ d call', s.calls[d]? = some call' → call'.pc ≠ .clerk → c ≠ d := by
      rintro d call' hd hne rfl
      cases hc.symm.trans hd
      exact hne hpc
    constructor
    · intro d call' e out hd hreply
      have hne := hother d call' hd (by rintro hpc'; simp [hpc', CallPc.reply] at hreply)
      obtain ⟨x, resent, hx, hrest, hout, honce⟩ := h.replied d call' e out hd hreply
      refine ⟨x, resent, getElem?_concat_of_some hx _, hrest, hout, ?_⟩
      intro hresent
      simpa [hne] using honce hresent
    · intro d call' stop hd hstop x hx hcall
      have hne := hother d call' hd (by rintro hpc'; simp [hpc', CallPc.stop] at hstop)
      rcases List.mem_append.mp hx with hx | hx
      · exact h.settled d call' stop hd hstop x hx hcall
      · cases List.mem_singleton.mp hx
        exact absurd hcall hne
  | ret c e resent call x hc hx hpc hcall honce =>
    constructor
    · intro d call' e' out hd hreply
      rcases getElem?_set_cases hd with ⟨rfl, rfl⟩ | ⟨-, hd⟩
      · cases hreply
        exact ⟨x, resent, hx, hcall, rfl, honce⟩
      · exact h.replied d call' e' out hd hreply
    · intro d call' stop hd hstop
      rcases getElem?_set_cases hd with ⟨rfl, rfl⟩ | ⟨-, hd⟩
      · cases hstop
      · exact h.settled d call' stop hd hstop
  | stop c e out call hc hpc =>
    constructor
    · intro d call' e' out' hd hreply
      rcases getElem?_set_cases hd with ⟨rfl, rfl⟩ | ⟨-, hd⟩
      · exact h.replied _ call e' out' hc (by rw [hpc]; exact hreply)
      · exact h.replied d call' e' out' hd hreply
    · intro d call' stop hd hstop
      rcases getElem?_set_cases hd with ⟨rfl, rfl⟩ | ⟨-, hd⟩
      · cases hstop
        exact fun x hmem _ => hx.past x hmem
      · exact h.settled d call' stop hd hstop
  | append c e out stop call hc hpc =>
    constructor
    · intro d call' e' out' hd hreply
      rcases getElem?_set_cases hd with ⟨rfl, rfl⟩ | ⟨-, hd⟩
      · exact h.replied _ call e' out' hc (by rw [hpc]; exact hreply)
      · exact h.replied d call' e' out' hd hreply
    · intro d call' stop' hd hstop
      rcases getElem?_set_cases hd with ⟨rfl, rfl⟩ | ⟨-, hd⟩
      · exact h.settled _ call stop' hc (by rw [hpc]; exact hstop)
      · exact h.settled d call' stop' hd hstop

theorem appendedBy_set {calls : List LogCall} {c : Nat} {call : LogCall}
    (hc : calls[c]? = some call) (pc : CallPc) (d : Nat) :
    appendedBy (calls.set c { call with pc := pc }) d =
      if d = c then LogCall.appended { call with pc := pc } else appendedBy calls d := by
  by_cases hd : d = c
  · subst hd
    simp [appendedBy, getElem?_set_of_some hc]
  · simp [appendedBy, hd, List.getElem?_set_ne (Ne.symm hd)]

theorem appendedBy_set_of_none {calls : List LogCall} {c : Nat} {call : LogCall} {pc : CallPc}
    (hc : calls[c]? = some call) (hbefore : call.appended = none)
    (hafter : LogCall.appended { call with pc := pc } = none) :
    appendedBy (calls.set c { call with pc := pc }) = appendedBy calls := by
  funext d
  rw [appendedBy_set hc]
  split
  · subst d
    simp [appendedBy, hc, hbefore, hafter]
  · rfl

theorem LogInv.frame {s t : Recorder} (h : LogInv s) (hlog : t.log = s.log)
    (happended : appendedBy t.calls = appendedBy s.calls) : LogInv t := by
  obtain ⟨ids, hnodup, hids, hmem⟩ := h
  exact ⟨ids, hnodup, by rw [hlog, happended, hids], by rw [happended]; exact hmem⟩

theorem LogInv.step {s t : Recorder} {a : RecAct} (h : LogInv s) (hstep : s.step a = some t) :
    LogInv t := by
  cases Recorder.steps_of_step hstep with
  | clock now => exact h
  | call cli key op =>
    refine h.frame (by rfl) ?_
    funext c
    simp only [appendedBy]
    rcases Nat.lt_trichotomy c s.calls.length with hlt | rfl | hgt
    · rw [List.getElem?_append_left hlt]
    · simp [LogCall.appended]
    · rw [List.getElem?_eq_none (by simp; omega), List.getElem?_eq_none (by omega)]
  | exec c call hc hpc => exact h
  | ret c e resent call x hc hx hpc hcall honce =>
    exact h.frame (by rfl)
      (appendedBy_set_of_none hc (by simp [LogCall.appended, hpc]) (by simp [LogCall.appended]))
  | stop c e out call hc hpc =>
    exact h.frame (by rfl)
      (appendedBy_set_of_none hc (by simp [LogCall.appended, hpc]) (by simp [LogCall.appended]))
  | append c e out stop call hc hpc =>
    obtain ⟨ids, hnodup, hids, hmem⟩ := h
    have hnew : c ∉ ids := by
      simp [hmem, appendedBy, hc, LogCall.appended, hpc]
    have hold : ids.filterMap (appendedBy (s.calls.set c { call with pc := .logged e out stop })) =
        ids.filterMap (appendedBy s.calls) := by
      apply List.filterMap_congr
      intro d hd
      rw [appendedBy_set hc, if_neg (by rintro rfl; exact hnew hd)]
    refine ⟨ids ++ [c], ?_, ?_, ?_⟩
    · rw [List.nodup_append]
      refine ⟨hnodup, List.nodup_singleton c, ?_⟩
      rintro d hd _ hc rfl
      exact hnew (List.mem_singleton.mp hc ▸ hd)
    · rw [List.filterMap_append, hold, ← hids]
      simp [appendedBy_set hc, LogCall.appended, LogCall.operation]
    · intro d
      rw [appendedBy_set hc, List.mem_append, List.mem_singleton, hmem]
      by_cases hd : d = c <;> simp [hd, LogCall.appended]

theorem Recorder.execs_length_le {s t : Recorder} {a : RecAct} (h : s.step a = some t) :
    t.execs.length ≤ s.execs.length + 1 := by
  cases Recorder.steps_of_step h <;> simp

/-- What the clock is set to. -/
def RecAct.reading : RecAct → Option Int
  | .clock now => some now
  | _ => none

/-- The clock starts at `now` and is not set back. -/
def NotSetBack (now : Int) (as : List RecAct) : Prop :=
  (now :: as.filterMap RecAct.reading).Pairwise (· ≤ ·)

instance (now : Int) (as : List RecAct) : Decidable (NotSetBack now as) :=
  inferInstanceAs (Decidable (List.Pairwise _ _))

theorem NotSetBack.left {now : Int} {as bs : List RecAct} (h : NotSetBack now (as ++ bs)) :
    NotSetBack now as := by
  rw [NotSetBack, List.filterMap_append, ← List.cons_append] at h
  exact (List.pairwise_append.mp h).1

theorem NotSetBack.last {now later : Int} {as : List RecAct}
    (h : NotSetBack now (as ++ [.clock later])) :
    ∀ r ∈ now :: as.filterMap RecAct.reading, r ≤ later := by
  rw [NotSetBack, List.filterMap_append, ← List.cons_append] at h
  intro r hr
  exact (List.pairwise_append.mp h).2.2 r hr later (by simp [RecAct.reading])

/-- The clock shows what it was set to last. -/
theorem Recorder.now_mem {now : Int} {as : List RecAct} {s : Recorder}
    (h : run Recorder.step (.start now) as = some s) :
    s.now ∈ now :: as.filterMap RecAct.reading := by
  refine run_induction (P := fun as s => s.now ∈ now :: as.filterMap RecAct.reading) ?_ ?_ h
  · exact List.mem_cons_self
  · intro as s a t _ ih hstep
    rw [List.filterMap_append, ← List.cons_append]
    cases Recorder.steps_of_step hstep with
    | clock later => simp [RecAct.reading]
    | call | exec | ret | stop | append => exact List.mem_append_left _ ih

/-- What holds after every run. -/
structure RecorderInv (as : List RecAct) (s : Recorder) : Prop where
  execs : ExecsInv s
  calls : CallsInv s
  log : LogInv s
  length : s.execs.length ≤ as.length

theorem RecorderInv.of_run {now : Int} {as : List RecAct} {s : Recorder}
    (h : run Recorder.step (.start now) as = some s) (hclock : NotSetBack now as) :
    RecorderInv as s := by
  refine run_induction (P := fun as s => NotSetBack now as → RecorderInv as s) ?_ ?_ h hclock
  · intro _
    refine ⟨⟨?_, rfl, List.Pairwise.nil, ?_, ?_, ?_⟩, ⟨?_, ?_⟩, ⟨[], ?_⟩, Nat.le_refl 0⟩ <;>
      simp [Recorder.start, Served, appendedBy]
  · intro as s a t hrun ih hstep hclock
    have hinv := ih hclock.left
    refine ⟨hinv.execs.step hstep ?_, hinv.calls.step hinv.execs hstep, hinv.log.step hstep, ?_⟩
    · rintro later rfl
      exact hclock.last _ (Recorder.now_mem hrun)
    · have hgrow := Recorder.execs_length_le hstep
      have := hinv.length
      simp only [List.length_append, List.length_singleton]
      omega

/-! ## Where a call takes effect -/

/-- The execution in which a call that returned the reply of execution `e` is seen to take
effect: the one in which its `Put` did, or `e`. -/
def pointOf (xs : List Exec) (c e : Nat) : Nat :=
  (xs.findIdx? fun x => x.call == c && x.took).getD e

theorem pointOf_cases (xs : List Exec) (c e : Nat) :
    (∃ x, xs[pointOf xs c e]? = some x ∧ x.call = c ∧ x.took = true) ∨
    (pointOf xs c e = e ∧ ∀ x ∈ xs, x.call = c → x.took = false) := by
  rw [pointOf]
  cases hfind : xs.findIdx? fun x => x.call == c && x.took with
  | some i =>
    obtain ⟨hlt, hp, -⟩ := List.findIdx?_eq_some_iff_getElem.mp hfind
    exact Or.inl ⟨xs[i], List.getElem?_eq_getElem hlt, by simpa using hp⟩
  | none =>
    refine Or.inr ⟨rfl, ?_⟩
    intro x hx hcall
    simpa [hcall] using List.findIdx?_eq_none_iff.mp hfind x hx

/-- The call that takes effect in execution `i`. -/
def Recorder.pointCall (s : Recorder) (i : Nat) : Option Nat := do
  let x ← s.execs[i]?
  let call ← s.calls[x.call]?
  let (e, _) ← call.pc.reply
  if pointOf s.execs x.call e = i then some x.call else none

theorem Recorder.pointCall_eq_some {s : Recorder} {i c : Nat} :
    s.pointCall i = some c ↔ ∃ x call e out, s.execs[i]? = some x ∧ x.call = c ∧
      s.calls[c]? = some call ∧ call.pc.reply = some (e, out) ∧ pointOf s.execs c e = i := by
  simp only [Recorder.pointCall, Option.bind_eq_bind, Option.bind_eq_some_iff,
    Option.ite_none_right_eq_some, Option.some.injEq]
  constructor
  · rintro ⟨x, hx, call, hcall, ⟨e, out⟩, hreply, hpoint, rfl⟩
    exact ⟨x, call, e, out, hx, rfl, hcall, hreply, hpoint⟩
  · rintro ⟨x, call, e, out, hx, rfl, hcall, hreply, hpoint⟩
    exact ⟨x, hx, call, hcall, (e, out), hreply, hpoint, rfl⟩

section Points

variable {s : Recorder}

theorem getElem_ofCall (hs : ExecsInv s) {i : Nat} {x : Exec} (hx : s.execs[i]? = some x) :
    ∃ call, s.calls[x.call]? = some call ∧ x.key = call.key ∧ x.op = call.op ∧
      call.start ≤ x.time :=
  hs.ofCall x (List.mem_of_getElem? hx)

/-- The point of a call that has returned is an execution of it. -/
theorem exists_point (hs : CallsInv s) {c : Nat} {call : LogCall} {e : Nat} {out : KvOutput}
    (hc : s.calls[c]? = some call) (hreply : call.pc.reply = some (e, out)) :
    ∃ x, s.execs[pointOf s.execs c e]? = some x ∧ x.call = c := by
  rcases pointOf_cases s.execs c e with ⟨x, hx, hcall, -⟩ | ⟨hpoint, -⟩
  · exact ⟨x, hx, hcall⟩
  · obtain ⟨x, resent, hx, hcall, -⟩ := hs.replied c call e out hc hreply
    exact ⟨x, by rw [hpoint]; exact hx, hcall⟩

/-- An execution that took effect is the point of its call. -/
theorem pointOf_took (hs : ExecsInv s) (hlen : s.execs.length < UInt64.size) {i : Nat} {x : Exec}
    (hx : s.execs[i]? = some x) (htook : x.took = true) (e : Nat) :
    pointOf s.execs x.call e = i := by
  rcases pointOf_cases s.execs x.call e with ⟨y, hy, hcall, hytook⟩ | ⟨-, hnone⟩
  · obtain ⟨call, hc, hkey, hop, -⟩ := getElem_ofCall hs hx
    obtain ⟨call', hc', hkey', hop', -⟩ := getElem_ofCall hs hy
    rw [hcall, hc] at hc'
    cases hc'
    exact hs.served.took_once hlen hy hx hytook htook (hkey'.trans hkey.symm) (hop'.trans hop.symm)
  · have hfalse := hnone x (List.mem_of_getElem? hx) rfl
    simp [htook] at hfalse

/-- The error of a `Put` that took effect in execution `i` and returned the reply of `e`. -/
theorem err_of_took {xs : List Exec} {e i : Nat} {x y : Exec} {value : String} {version : UInt64}
    {resent : Bool} {k : Key} (hx : xs[i]? = some x) (hy : xs[e]? = some y)
    (hcall : y.call = x.call) (hxerr : x.out.err = "OK")
    (hyout : y.out = Key.reply k (.put value version))
    (honce : resent = false → xs.countP (·.call = x.call) = 1)
    (hnokey : (clerkReturn resent (.put value version) y.out).err ≠ "ErrNoKey") :
    (clerkReturn resent (.put value version) y.out).err = "OK" ∨
      (clerkReturn resent (.put value version) y.out).err = "ErrMaybe" := by
  have hyerr : y.out.err = (k.put value version).2 := by rw [hyout]; rfl
  rcases put_err_cases k value version with herr | herr | herr
  · simp [clerkReturn, hyerr, herr]
  · cases resent with
    | true => simp [clerkReturn, hyerr, herr]
    | false =>
      -- sent once, the `Put` had only one execution
      have hsame := index_unique_of_countP hx hy (by simp) (by simp [hcall]) (honce rfl)
      subst hsame
      cases hx.symm.trans hy
      simp [hyerr, herr] at hxerr
  · simp [clerkReturn, hyerr, herr] at hnokey

/-- `KvModel` accepts what a call returned, in the state at its point. -/
theorem step_point (hs : ExecsInv s) (hcs : CallsInv s) {c e i : Nat} {call : LogCall}
    {out : KvOutput} {x : Exec} (hc : s.calls[c]? = some call)
    (hreply : call.pc.reply = some (e, out)) (hpoint : pointOf s.execs c e = i)
    (hx : s.execs[i]? = some x) (hxc : x.call = c)
    (hnokey : (call.op.input call.key).op = 1 → out.err ≠ "ErrNoKey") :
    (step (storeAfter (s.execs.take i) x.key).state (call.op.input call.key) out).1 = true := by
  obtain ⟨y, resent, hy, hyc, rfl, honce⟩ := hcs.replied c call e out hc hreply
  have hop : ∀ {j : Nat} {z}, s.execs[j]? = some z → z.call = c → z.op = call.op := by
    intro j z hz hzc
    obtain ⟨call', hc', -, hop, -⟩ := getElem_ofCall hs hz
    rw [hzc, hc] at hc'
    cases hc'
    exact hop
  have hxout := hs.served i x hx
  have hyout := hs.served e y hy
  rw [hop hx hxc] at hxout
  rw [hop hy hyc] at hyout
  -- without an effect the point is the execution whose reply was returned
  have hsame : x.took = false → y = x := by
    intro hnot
    rcases pointOf_cases s.execs c e with ⟨z, hz, -, htook⟩ | ⟨hpe, -⟩
    · rw [hpoint, hx] at hz
      cases hz
      rw [hnot] at htook
      cases htook
    · rw [← hpoint, hpe, hy] at hx
      cases hx
      rfl
  cases hcop : call.op with
  | get =>
    have hyx := hsame (by simp [Exec.took, hop hx hxc, hcop])
    rw [hcop] at hxout
    subst hyx
    cases hk : storeAfter (s.execs.take i) y.key <;>
      simp [step, Op.input, clerkReturn, hxout, Key.reply, hk, Key.get, Key.state, init]
  | put value version =>
    rw [hcop] at hxout hyout hnokey
    have hnokey := hnokey rfl
    have hxerr : x.out.err = ((storeAfter (s.execs.take i) x.key).put value version).2 := by
      rw [hxout]
      rfl
    by_cases htook : x.took = true
    · have hok : x.out.err = "OK" := by simpa [Exec.took, hop hx hxc, hcop] using htook
      have hversion := (put_ok_iff _ value version).mp (hxerr.symm.trans hok)
      have herr :=
        err_of_took hx hy (hyc.trans hxc.symm) hok hyout (by rw [hxc]; exact honce) hnokey
      simpa [step, Op.input, hversion] using herr
    · have hyx := hsame (by simpa using htook)
      subst hyx
      have hnot : y.out.err ≠ "OK" := by simpa [Exec.took, hop hx hxc, hcop] using htook
      have hversion := mt (put_ok_iff _ value version).mpr (hxerr ▸ hnot)
      rcases put_err_cases (storeAfter (s.execs.take i) y.key) value version with herr | herr | herr
      · exact absurd (hxerr.trans herr) hnot
      · cases resent <;> simp [step, Op.input, hversion, clerkReturn, hxerr, herr]
      · simp [clerkReturn, hxerr, herr] at hnokey

/-- The states of the model along the executions. -/
def stateAt (xs : List Exec) (i : Nat) : String → KvState :=
  fun k => (storeAfter (xs.take i) k).state

theorem stateAt_succ {xs : List Exec} {i : Nat} {x : Exec} (hx : xs[i]? = some x) :
    stateAt xs (i + 1) = Function.update (stateAt xs i) x.key
      ((storeAfter (xs.take i) x.key).exec x.op).state := by
  funext k
  rw [stateAt, take_succ_of_some hx, storeAfter_concat]
  by_cases hk : k = x.key
  · subst hk
    simp
  · simp [hk, stateAt]

/-- An execution without effect leaves the model where it is. -/
theorem stateAt_succ_of_not_took {xs : List Exec} (h : Served xs) {i : Nat} {x : Exec}
    (hx : xs[i]? = some x) (hnot : x.took = false) : stateAt xs (i + 1) = stateAt xs i := by
  have hsame : ((storeAfter (xs.take i) x.key).exec x.op).state = stateAt xs i x.key := by
    have hout := h i x hx
    cases hop : x.op with
    | get => rfl
    | put value version =>
      rw [exec_put_state, if_neg]
      · rfl
      · rw [← put_ok_iff _ value]
        simpa [Exec.took, hop, hout, Key.reply] using hnot
  rw [stateAt_succ hx, hsame, Function.update_eq_self]

/-- The operation that takes effect in execution `i`. -/
def Recorder.point (s : Recorder) (i : Nat) : Option Operation :=
  (s.pointCall i).bind (appendedBy s.calls)

theorem appendedBy_eq_some {calls : List LogCall} {c : Nat} {o : Operation} :
    appendedBy calls c = some o ↔ ∃ call e out stop, calls[c]? = some call ∧
      call.pc = .logged e out stop ∧ o = call.operation out stop := by
  simp only [appendedBy, Option.bind_eq_some_iff]
  constructor
  · rintro ⟨call, hc, happended⟩
    simp only [LogCall.appended] at happended
    split at happended
    · rename_i e out stop hpc
      cases happended
      exact ⟨call, e, out, stop, hc, hpc, rfl⟩
    · cases happended
  · rintro ⟨call, e, out, stop, hc, hpc, rfl⟩
    exact ⟨call, hc, by simp [LogCall.appended, hpc]⟩

theorem point_eq_some {i : Nat} {o : Operation} (h : s.point i = some o) :
    ∃ x call e out stop, s.execs[i]? = some x ∧ s.calls[x.call]? = some call ∧
      call.pc = .logged e out stop ∧ pointOf s.execs x.call e = i ∧
      o = call.operation out stop := by
  obtain ⟨c, hc, ho⟩ := Option.bind_eq_some_iff.mp h
  obtain ⟨x, call, e, out, hx, rfl, hcall, hreply, hpoint⟩ := Recorder.pointCall_eq_some.mp hc
  obtain ⟨call', e', out', stop, hcall', hpc, rfl⟩ := appendedBy_eq_some.mp ho
  cases hcall.symm.trans hcall'
  rw [hpc] at hreply
  cases hreply
  exact ⟨x, call, e, out, stop, hx, hcall, hpc, hpoint, rfl⟩

/-- The point of an operation lies between its call and its return. -/
theorem point_between (hs : ExecsInv s) (hcs : CallsInv s) {i : Nat} {o : Operation}
    (h : s.point i = some o) :
    ∃ x, s.execs[i]? = some x ∧ o.call ≤ x.time ∧ x.time ≤ o.ret := by
  obtain ⟨x, call, e, out, stop, hx, hc, hpc, -, rfl⟩ := point_eq_some h
  obtain ⟨call', hc', -, -, hstart⟩ := getElem_ofCall hs hx
  cases hc.symm.trans hc'
  exact ⟨x, hx, hstart,
    hcs.settled x.call call stop hc (by rw [hpc]; rfl) x (List.mem_of_getElem? hx) rfl⟩

theorem accept_eq_some {st st' : KvState} {o : Operation}
    (hok : (step st o.input o.output).1 = true) (hstate : (step st o.input o.output).2 = .kv st') :
    accept st o = some st' := by
  have hpair : step st o.input o.output = (true, .kv st') := Prod.ext hok hstate
  simp [accept, hpair]

/-- Every call has been appended to the log. -/
def Recorder.AllLogged (s : Recorder) : Prop :=
  ∀ c, c < s.calls.length → (appendedBy s.calls c).isSome

/-- Each operation of the log has one point. -/
theorem perm_points (hs : CallsInv s) (hlog : LogInv s) (hall : s.AllLogged) :
    ((List.range s.execs.length).filterMap s.point).Perm s.log := by
  obtain ⟨ids, hnodup, hids, hmem⟩ := hlog
  have hpoints : (List.range s.execs.length).filterMap s.point =
      ((List.range s.execs.length).filterMap s.pointCall).filterMap (appendedBy s.calls) := by
    rw [List.filterMap_filterMap]
    rfl
  rw [hpoints, hids]
  apply List.Perm.filterMap
  rw [List.perm_ext_iff_of_nodup _ hnodup]
  · intro c
    rw [hmem, List.mem_filterMap]
    constructor
    · rintro ⟨i, -, hi⟩
      obtain ⟨x, call, e, out, -, -, hc, -⟩ := Recorder.pointCall_eq_some.mp hi
      exact hall c (List.getElem?_eq_some_iff.mp hc).1
    · intro happended
      obtain ⟨o, ho⟩ := Option.isSome_iff_exists.mp happended
      obtain ⟨call, e, out, stop, hc, hpc, -⟩ := appendedBy_eq_some.mp ho
      have hreply : call.pc.reply = some (e, out) := by rw [hpc]; rfl
      obtain ⟨x, hx, hxc⟩ := exists_point hs hc hreply
      exact ⟨_, List.mem_range.mpr (List.getElem?_eq_some_iff.mp hx).1,
        Recorder.pointCall_eq_some.mpr ⟨x, call, e, out, hx, hxc, hc, hreply, rfl⟩⟩
  · refine List.Nodup.filterMap ?_ List.nodup_range
    intro i j c hi hj
    obtain ⟨_, call, e, out, -, -, hc, hreply, rfl⟩ := Recorder.pointCall_eq_some.mp hi
    obtain ⟨_, call', e', out', -, -, hc', hreply', rfl⟩ := Recorder.pointCall_eq_some.mp hj
    cases hc.symm.trans hc'
    cases hreply.symm.trans hreply'
    rfl

theorem log_linearizable (hs : ExecsInv s) (hcs : CallsInv s) (hlog : LogInv s)
    (hlen : s.execs.length < UInt64.size) (hall : s.AllLogged)
    (hnokey : ∀ o ∈ s.log, o.input.op = 1 → o.output.err ≠ "ErrNoKey") :
    Linearizable Operation.call Operation.ret (keyed (·.input.key) accept) (fun _ => init)
      s.log := by
  have hperm := perm_points hcs hlog hall
  refine linearizable_of_points s.execs.length s.point (stateAt s.execs)
    (fun i => (s.execs[i]?).elim 0 Exec.time) rfl ?_ ?_ ?_ ?_ hperm
  · intro i hi hnone
    have hx := List.getElem?_eq_getElem hi
    apply stateAt_succ_of_not_took hs.served hx
    -- an effect would be the point of a call, and all calls are in the log
    by_contra htook
    obtain ⟨call, hc, -⟩ := getElem_ofCall hs hx
    obtain ⟨o, ho⟩ := Option.isSome_iff_exists.mp (hall _ (List.getElem?_eq_some_iff.mp hc).1)
    obtain ⟨call', e, out, stop, hc', hpc, -⟩ := appendedBy_eq_some.mp ho
    have hpoint := pointOf_took hs hlen hx (by simpa using htook) e
    have hcall := Recorder.pointCall_eq_some.mpr
      ⟨_, call', e, out, hx, rfl, hc', by rw [hpc]; rfl, hpoint⟩
    simp [Recorder.point, hcall, ho] at hnone
  · intro i o hi hpoint
    have ho : o ∈ s.log :=
      hperm.mem_iff.mp (List.mem_filterMap.mpr ⟨i, List.mem_range.mpr hi, hpoint⟩)
    obtain ⟨x, call, e, out, stop, hx, hc, hpc, hpo, rfl⟩ := point_eq_some hpoint
    obtain ⟨call', hc', hkey, hop, -⟩ := getElem_ofCall hs hx
    cases hc.symm.trans hc'
    have haccept : accept (stateAt s.execs i call.key) (call.operation out stop) =
        some ((storeAfter (s.execs.take i) x.key).exec x.op).state := by
      apply accept_eq_some
      · rw [← hkey]
        exact step_point hs hcs hc (by rw [hpc]; rfl) hpo hx rfl (hnokey _ ho)
      · rw [← hkey, hop]
        exact KvSrv.step_state _ _ _ _
    have hkeyed : (call.operation out stop).input.key = call.key := by
      simp only [LogCall.operation]
      cases call.op <;> rfl
    rw [keyed, hkeyed, haccept, stateAt_succ hx, hkey]
    rfl
  · intro i o hi hpoint
    obtain ⟨x, hx, hbetween⟩ := point_between hs hcs hpoint
    simpa [hx] using hbetween
  · intro i j hij hj
    have hi : i < s.execs.length := by omega
    simpa [List.getElem?_eq_getElem hi, List.getElem?_eq_getElem hj] using
      List.pairwise_iff_getElem.mp hs.times i j hi hj hij

end Points

/-! ## The check -/

/-- A `Put` that returned `ErrNoKey` is accepted in no state. -/
theorem accept_noKey (st : KvState) {o : Operation} (hop : o.input.op = 1)
    (herr : o.output.err = "ErrNoKey") : accept st o = none := by
  by_cases hv : st.version = o.input.version <;> simp [accept, step, hop, herr, hv]

theorem not_linearizable_of_refused {history : List Operation} {o : Operation} (ho : o ∈ history)
    (hrefused : ∀ st, accept st o = none) :
    ¬ Linearizable Operation.call Operation.ret accept init history := by
  rintro ⟨l, hperm, -, hrun⟩
  obtain ⟨pre, post, rfl⟩ := List.append_of_mem (hperm.mem_iff.mpr ho)
  rw [run_append] at hrun
  cases hpre : run accept init pre with
  | none => simp [hpre] at hrun
  | some st => simp [hpre, hrefused st] at hrun

/-- When all calls are in the log and the clock was not set back, the check of the log against
`KvModel` fails only because of a `Put` that returned `ErrNoKey`, which the model does not know.
The versions have not wrapped around. -/
theorem checkPorcupine_exact (ω : RangeOrder String) (now : Int) (as : List RecAct)
    (s : Recorder) (hrun : run Recorder.step (.start now) as = some s)
    (hclock : NotSetBack now as) (hshort : as.length < UInt64.size) (hall : s.AllLogged) :
    (∀ part ∈ partition ω s.log, Linearizable Operation.call Operation.ret accept init part) ↔
      ∀ o ∈ s.log, o.input.op = 1 → o.output.err ≠ "ErrNoKey" := by
  have hinv := RecorderInv.of_run hrun hclock
  rw [linearizable_parts_iff]
  constructor
  · intro hlin o ho hop herr
    refine not_linearizable_of_refused (List.mem_filter.mpr ⟨ho, ?_⟩)
      (fun st => accept_noKey st hop herr) (hlin o.input.key)
    simp
  · intro hnokey
    refine (linearizable_keyed_iff _ _ _ _ _ s.log ?_).mp
      (log_linearizable hinv.execs hinv.calls hinv.log
        (Nat.lt_of_le_of_lt hinv.length hshort) hall hnokey)
    intro o ho
    obtain ⟨i, -, hpoint⟩ :=
      List.mem_filterMap.mp ((perm_points hinv.calls hinv.log hall).mem_iff.mpr ho)
    obtain ⟨x, -, hcall, hret⟩ := point_between hinv.execs hinv.calls hpoint
    exact hcall.trans hret

/-- A `Put` that was sent twice and executed twice, and a `Get` of another client that
overlaps with it. -/
def resentPut : List RecAct :=
  [.call 0 "k" (.put "a" 0), .clock 3, .exec 0, .call 1 "k" .get, .clock 4, .exec 0, .exec 1,
    .ret 1 2 false, .ret 0 1 true, .clock 6, .stop 0, .append 0, .stop 1, .append 1]

theorem resentPut_runs : ∃ s, run Recorder.step (.start 0) resentPut = some s ∧ s.AllLogged ∧
    s.log = [⟨0, ⟨1, "k", "a", 0⟩, 0, ⟨"", 0, "ErrMaybe"⟩, 6⟩,
      ⟨1, ⟨0, "k", "", 0⟩, 3, ⟨"a", 1, "OK"⟩, 6⟩] := by
  refine ⟨_, rfl, ?_, rfl⟩
  intro c hc
  replace hc : c < 2 := hc
  rcases c with _ | _ | c
  · rfl
  · rfl
  · omega

theorem checkPorcupine_resentPut : ∃ s, run Recorder.step (.start 0) resentPut = some s ∧
    s.AllLogged ∧
    ((∀ part ∈ partition (.stored _) s.log,
      Linearizable Operation.call Operation.ret accept init part) ↔
      ∀ o ∈ s.log, o.input.op = 1 → o.output.err ≠ "ErrNoKey") := by
  obtain ⟨s, hrun, hall, -⟩ := resentPut_runs
  exact ⟨s, hrun, hall,
    checkPorcupine_exact (.stored _) 0 resentPut s hrun (by decide) (by decide) hall⟩

end KvTest
