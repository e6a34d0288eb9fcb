import DistLabs.KvModel

/-!
# The key/value server and its model

One key of the server that the comments of `KVServer.Get` and `KVServer.Put`
describe, and how the model of the linearizability checker follows it. The model
has no notion of an absent key: it starts as if the key held the empty string at
version 0. Its state is always the one that stands for the server's. The outputs
it accepts are not: it looks at the value of a `Get` only, and for a `Put` to an
absent key it expects `ErrVersion` where the server answers `ErrNoKey`.
-/
namespace KvSrv

open Models

/-- What the server holds for one key. -/
inductive Key where
  | absent
  | present (value : String) (version : UInt64)
  deriving DecidableEq, Repr

inductive Op where
  | get
  | put (value : String) (version : UInt64)
  deriving DecidableEq, Repr

/-- The reply of `Get`; the fields that are not mentioned keep their zero values. -/
def Key.get : Key → KvOutput
  | .absent => ⟨"", 0, "ErrNoKey"⟩
  | .present value version => ⟨value, version, "OK"⟩

/-- The key after a `Put`, and the error it replies. -/
def Key.put (value : String) (version : UInt64) : Key → Key × String
  | .absent => if version = 0 then (.present value 1, "OK") else (.absent, "ErrNoKey")
  | .present old current =>
    if version = current then (.present value (current + 1), "OK")
    else (.present old current, "ErrVersion")

def Key.exec (k : Key) : Op → Key
  | .get => k
  | .put value version => (k.put value version).1

/-- The key after the operations, from an absent one. -/
def after (ops : List Op) : Key := ops.foldl Key.exec .absent

/-- The server's output, or `ErrMaybe` in place of the error of a `Put`. -/
def Expected (k : Key) (out : KvOutput) : Op → Prop
  | .get => out = k.get
  | .put value version => out.err = (k.put value version).2 ∨ out.err = "ErrMaybe"

/-- The outputs of a run are expected ones. -/
def Conforms : Key → List (Op × KvOutput) → Prop
  | _, [] => True
  | k, (op, out) :: rest => Expected k out op ∧ Conforms (k.exec op) rest

def Op.input (key : String) : Op → KvInput
  | .get => ⟨0, key, "", 0⟩
  | .put value version => ⟨1, key, value, version⟩

/-- The state of the model after `Step` has seen the operations with their outputs. -/
def replay (key : String) (st : KvState) : List (Op × KvOutput) → KvState
  | [] => st
  | (op, out) :: rest =>
    match (step st (op.input key) out).2 with
    | .kv st' => replay key st' rest
    | .text _ => st

/-! ## The states agree -/

/-- The model state that stands for a key. -/
def Key.state : Key → KvState
  | .absent => init
  | .present value version => ⟨value, version⟩

/-- `Step` follows the server, whatever the output. -/
theorem step_state (key : String) (k : Key) (op : Op) (out : KvOutput) :
    (step k.state (op.input key) out).2 = .kv (k.exec op).state := by
  cases op with
  | get => rfl
  | put value version =>
    cases k with
    | absent =>
      by_cases hv : version = 0
      · subst hv
        rfl
      · simp [step, Op.input, Key.state, init, Key.exec, Key.put, hv, Ne.symm hv]
    | present old current =>
      by_cases hv : version = current
      · simp [step, Op.input, Key.state, Key.exec, Key.put, hv]
      · simp [step, Op.input, Key.state, Key.exec, Key.put, hv, Ne.symm hv]

theorem replay_state (key : String) (k : Key) (past : List (Op × KvOutput)) :
    replay key k.state past = ((past.map Prod.fst).foldl Key.exec k).state := by
  induction past generalizing k with
  | nil => rfl
  | cons head rest ih =>
    obtain ⟨op, out⟩ := head
    rw [replay, step_state]
    exact ih (k.exec op)

/-! ## The outputs agree in part -/

/-- `Step` accepts the expected outputs of the operation and no others. -/
def ExactAt (key : String) (st : KvState) (k : Key) (op : Op) : Prop :=
  ∀ out, (step st (op.input key) out).1 = true ↔ Expected k out op

theorem exactAt_present (key value : String) (version : UInt64) (old : String) (current : UInt64) :
    ExactAt key (Key.present old current).state (.present old current) (.put value version) := by
  intro out
  by_cases hv : version = current
  · simp [step, Op.input, Key.state, Expected, Key.put, hv]
  · simp [step, Op.input, Key.state, Expected, Key.put, hv, Ne.symm hv]

theorem exactAt_absent_iff (key value : String) (version : UInt64) :
    ExactAt key init .absent (.put value version) ↔ version = 0 := by
  constructor
  · intro h
    by_contra hv
    -- the server answers `ErrNoKey`
    have herr := (h ⟨"", 0, "ErrNoKey"⟩).mpr (Or.inl (by simp [Key.put, hv]))
    simp [step, Op.input, init, Ne.symm hv] at herr
  · rintro rfl out
    simp [step, Op.input, init, Expected, Key.put]

/-- The value of a `Get` is all that `Step` looks at. -/
theorem not_exactAt_get (key : String) (k : Key) : ¬ ExactAt key k.state k .get := by
  intro h
  have hval : k.get.value = k.state.value := by cases k <;> rfl
  have hout := (h ⟨k.get.value, k.get.version, "ErrMaybe"⟩).mp (by simp [step, Op.input, hval])
  cases k <;> simp [Expected, Key.get] at hout

theorem exactAt_iff (key : String) (k : Key) (op : Op) :
    ExactAt key k.state k op ↔
      ∃ value version, op = .put value version ∧ (k = .absent → version = 0) := by
  cases op with
  | get => simp [not_exactAt_get]
  | put value version =>
    cases k with
    | absent => simpa [Key.state] using exactAt_absent_iff key value version
    | present old current => simpa using exactAt_present key value version old current

/-- Once a `Put` has installed the key, it stays. -/
theorem after_ne_absent (value : String) (ops : List Op) :
    after (.put value 0 :: ops) ≠ .absent := by
  have hstays : ∀ k : Key, k ≠ .absent → ops.foldl Key.exec k ≠ .absent := by
    induction ops with
    | nil => exact fun _ hk => hk
    | cons op ops ih =>
      intro k hk
      refine ih (k.exec op) ?_
      cases k with
      | absent => exact absurd rfl hk
      | present old current =>
        cases op with
        | get => simp [Key.exec]
        | put v version => by_cases hv : version = current <;> simp [Key.exec, Key.put, hv]
  exact hstays (.present value 1) (by simp)

/-- `Step`, having replayed a run, accepts exactly the expected outputs of a `Put` that is
at version 0 if the key is still absent. -/
theorem exactAt_replay_iff (key : String) (past : List (Op × KvOutput)) (op : Op) :
    ExactAt key (replay key init past) (after (past.map Prod.fst)) op ↔
      ∃ value version, op = .put value version ∧
        (after (past.map Prod.fst) = .absent → version = 0) := by
  have hstate : replay key init past = (after (past.map Prod.fst)).state :=
    replay_state key .absent past
  rw [hstate]
  exact exactAt_iff key _ op

/-- The server's own outputs conform. -/
theorem exists_conforms (k : Key) (ops : List Op) :
    ∃ past : List (Op × KvOutput), past.map Prod.fst = ops ∧ Conforms k past := by
  induction ops generalizing k with
  | nil => exact ⟨[], rfl, trivial⟩
  | cons op ops ih =>
    obtain ⟨past, hpast, hconf⟩ := ih (k.exec op)
    obtain ⟨out, hout⟩ : ∃ out, Expected k out op := by
      cases op with
      | get => exact ⟨k.get, rfl⟩
      | put value version => exact ⟨⟨"", 0, (k.put value version).2⟩, Or.inl rfl⟩
    exact ⟨(op, out) :: past, by rw [List.map_cons, hpast], hout, hconf⟩

/-- In a run of `Put`s that starts at version 0 the key is absent before the first only. -/
theorem version_of_absent {ops pre post : List Op} {value : String} {version : UInt64}
    (hputs : ∀ op ∈ ops, op ≠ .get)
    (hfirst : ∀ value version rest, ops = .put value version :: rest → version = 0)
    (hsplit : ops = pre ++ .put value version :: post) (habsent : after pre = .absent) :
    version = 0 := by
  cases pre with
  | nil => exact hfirst value version post hsplit
  | cons first pre =>
    have hput : first ≠ .get := hputs first (by simp [hsplit])
    cases first with
    | get => exact absurd rfl hput
    | put value' version' =>
      obtain rfl := hfirst value' version' _ hsplit
      exact absurd habsent (after_ne_absent value' pre)

/-- Along a run `Step` accepts exactly the outputs that the server allows if and only if
the run has only `Put`s and the first of them is at version 0. -/
theorem kvModel_exact_iff (key : String) (ops : List Op) :
    (∀ pre op post, ops = pre ++ op :: post → ∀ past : List (Op × KvOutput),
      past.map Prod.fst = pre → Conforms .absent past →
      ∀ out, (step (replay key init past) (op.input key) out).1 = true ↔
        Expected (after pre) out op) ↔
    (∀ op ∈ ops, op ≠ .get) ∧
      ∀ value version rest, ops = .put value version :: rest → version = 0 := by
  constructor
  · intro h
    have hpoint : ∀ pre op post, ops = pre ++ op :: post →
        ∃ value version, op = .put value version ∧ (after pre = .absent → version = 0) := by
      intro pre op post hsplit
      obtain ⟨past, rfl, hconf⟩ := exists_conforms .absent pre
      exact (exactAt_replay_iff key past op).mp (h _ op post hsplit past rfl hconf)
    constructor
    · rintro op hop rfl
      obtain ⟨pre, post, hsplit⟩ := List.append_of_mem hop
      obtain ⟨value, version, hput, -⟩ := hpoint pre .get post hsplit
      cases hput
    · intro value version rest hops
      obtain ⟨value', version', hput, hzero⟩ := hpoint [] _ rest hops
      cases hput
      exact hzero rfl
  · rintro ⟨hputs, hfirst⟩ pre op post hsplit past rfl -
    refine (exactAt_replay_iff key past op).mpr ?_
    have hop : op ≠ .get := hputs op (by simp [hsplit])
    cases op with
    | get => exact absurd rfl hop
    | put value version =>
      exact ⟨value, version, rfl, version_of_absent hputs hfirst hsplit⟩

/-- `Step` rejects the documented `ErrNoKey` and accepts a `Get` with a wrong version and
error. -/
theorem kvModel_differs :
    Expected .absent ⟨"", 0, "ErrNoKey"⟩ (.put "6.5840" 1) ∧
    (step init (Op.input "y" (.put "6.5840" 1)) ⟨"", 0, "ErrNoKey"⟩).1 = false ∧
    ¬ Expected (.present "6.5840" 1) ⟨"6.5840", 7, "ErrNoKey"⟩ .get ∧
    (step (Key.present "6.5840" 1).state (Op.input "k" .get)
      ⟨"6.5840", 7, "ErrNoKey"⟩).1 = true := by
  refine ⟨Or.inl rfl, by decide, ?_, by decide⟩
  intro h
  simp [Expected, Key.get] at h

end KvSrv
