import Mathlib.Algebra.GroupWithZero.Nat
import Mathlib.Data.List.Induction
import Mathlib.Data.List.Infix
import Mathlib.Data.List.Nodup

/-!
# Runs of partial step functions

A system is given by a partial step function `σ → α → Option σ`: the answer
`none` says that the action is not enabled in the state. A run is a finite list
of actions, each enabled where it is taken. Nothing bounds its length, and an
interleaving of several threads is just a list of their actions.

The second half is the other use of a partial step function: the body of a
`for` loop, whose `none` is the `break`.
-/
namespace Runs

variable {σ α : Type*}

/-- A place in an extended list is a place in the list or the new end. -/
theorem concat_eq_append_cons_iff {as pre post : List α} {a b : α} :
    as ++ [a] = pre ++ b :: post ↔
      (as = pre ∧ a = b ∧ post = []) ∨ ∃ rest, post = rest ++ [a] ∧ as = pre ++ b :: rest := by
  constructor
  · intro h
    induction post using List.reverseRecOn with
    | nil =>
      obtain ⟨rfl, hb⟩ := List.append_inj' h rfl
      exact Or.inl ⟨rfl, by simpa using hb, rfl⟩
    | append_singleton rest c _ =>
      rw [← List.cons_append, ← List.append_assoc] at h
      obtain ⟨h₁, h₂⟩ := List.append_inj' h rfl
      obtain rfl : a = c := by simpa using h₂
      exact Or.inr ⟨rest, rfl, h₁⟩
  · rintro (⟨rfl, rfl, rfl⟩ | ⟨rest, rfl, rfl⟩)
    · rfl
    · simp

/-- What is found in a list whose `i`-th element was replaced. -/
theorem getElem?_set_cases {xs : List α} {i j : Nat} {a b : α} (h : (xs.set i a)[j]? = some b) :
    (j = i ∧ b = a) ∨ (j ≠ i ∧ xs[j]? = some b) := by
  rw [List.getElem?_set] at h
  by_cases hij : i = j
  · rw [if_pos hij] at h
    obtain ⟨-, h⟩ := Option.ite_none_right_eq_some.mp h
    exact Or.inl ⟨hij.symm, (Option.some.inj h).symm⟩
  · rw [if_neg hij] at h
    exact Or.inr ⟨Ne.symm hij, h⟩

/-- What is found in a list with a new last element. -/
theorem getElem?_concat_cases {xs : List α} {j : Nat} {a b : α} (h : (xs ++ [a])[j]? = some b) :
    xs[j]? = some b ∨ (j = xs.length ∧ b = a) := by
  rcases Nat.lt_or_ge j xs.length with hlt | hge
  · rw [List.getElem?_append_left hlt] at h
    exact Or.inl h
  · rw [List.getElem?_append_right hge, List.getElem?_singleton] at h
    obtain ⟨h0, h⟩ := Option.ite_none_right_eq_some.mp h
    exact Or.inr ⟨by omega, (Option.some.inj h).symm⟩

theorem getElem?_set_of_some {xs : List α} {i : Nat} {a : α} (h : xs[i]? = some a) (b : α) :
    (xs.set i b)[i]? = some b :=
  List.getElem?_set_self (List.getElem?_eq_some_iff.mp h).1

theorem getElem?_concat_of_some {xs : List α} {i : Nat} {a : α} (h : xs[i]? = some a) (b : α) :
    (xs ++ [b])[i]? = some a := by
  rw [List.getElem?_append_left (List.getElem?_eq_some_iff.mp h).1]
  exact h

theorem getElem?_of_prefix {xs ys : List α} (h : xs <+: ys) {i : Nat} {a : α}
    (hi : xs[i]? = some a) : ys[i]? = some a := by
  obtain ⟨zs, rfl⟩ := h
  rw [List.getElem?_append_left (List.getElem?_eq_some_iff.mp hi).1]
  exact hi

/-- What becomes of an element when one element is replaced. -/
theorem exists_getElem?_set {xs : List α} {i j : Nat} {a a' b : α} {P : α → Prop}
    (hi : xs[i]? = some a) (hj : xs[j]? = some b) (hself : b = a → P a') (hother : P b) :
    ∃ b', (xs.set i a')[j]? = some b' ∧ P b' := by
  by_cases hij : i = j
  · subst hij
    exact ⟨a', getElem?_set_of_some hi a', hself (Option.some.inj (hj.symm.trans hi))⟩
  · exact ⟨b, by rw [List.getElem?_set_ne hij]; exact hj, hother⟩

theorem take_succ_of_some {xs : List α} {i : Nat} {a : α} (h : xs[i]? = some a) :
    xs.take (i + 1) = xs.take i ++ [a] := by
  rw [List.take_add_one, h, Option.toList_some]

/-- Going past an element that counts raises the count. -/
theorem countP_take_lt {p : α → Bool} {xs : List α} {i j : Nat} {a : α} (h : xs[i]? = some a)
    (ha : p a = true) (hij : i < j) : (xs.take i).countP p < (xs.take j).countP p := by
  have hone : (xs.take (i + 1)).countP p = (xs.take i).countP p + 1 := by
    simp [take_succ_of_some h, ha]
  have hsub : (xs.take (i + 1)).Sublist (xs.take j) := List.take_sublist_take_left hij
  have hle : (xs.take (i + 1)).countP p ≤ (xs.take j).countP p := hsub.countP_le
  omega

/-- What counts only once stands at one place. -/
theorem index_unique_of_countP {p : α → Bool} {xs : List α} {i j : Nat} {a b : α}
    (hi : xs[i]? = some a) (hj : xs[j]? = some b) (ha : p a = true) (hb : p b = true)
    (hone : xs.countP p = 1) : i = j := by
  have hnot : ∀ {i j : Nat} {a b : α}, xs[i]? = some a → xs[j]? = some b → p a = true →
      p b = true → ¬ i < j := by
    intro i j a b hi hj ha hb hij
    have hfirst := countP_take_lt hi ha hij
    have hsecond := countP_take_lt hj hb (Nat.lt_add_one j)
    have hle : (xs.take (j + 1)).countP p ≤ xs.countP p := (List.take_sublist _ _).countP_le
    omega
  have hij := hnot hi hj ha hb
  have hji := hnot hj hi hb ha
  omega

/-- A list without repetition, extended by an element with a new image. -/
theorem nodup_map_concat {β : Type*} {f : α → β} {xs : List α} {a : α} (h : (xs.map f).Nodup)
    (hnew : ∀ x ∈ xs, f x ≠ f a) : ((xs ++ [a]).map f).Nodup := by
  rw [List.map_append, List.map_singleton, List.nodup_append]
  refine ⟨h, List.nodup_singleton _, ?_⟩
  intro b hb b' hb'
  obtain ⟨x, hx, rfl⟩ := List.mem_map.mp hb
  rw [List.mem_singleton.mp hb']
  exact hnew x hx

/-- Replacing an element by one with the same image leaves the images alone. -/
theorem map_set_of_eq {β : Type*} {f : α → β} {xs : List α} {i : Nat} {a b : α}
    (h : xs[i]? = some a) (hf : f b = f a) : (xs.set i b).map f = xs.map f := by
  have hi : (xs.map f)[i]? = some (f b) := by simp [h, hf]
  obtain ⟨hlt, hget⟩ := List.getElem?_eq_some_iff.mp hi
  rw [List.map_set, ← hget]
  exact List.set_getElem_self hlt

/-- What replacing an element does to a sum. -/
theorem sum_map_set {f : α → Nat} {xs : List α} {i : Nat} {a b : α} (h : xs[i]? = some a) :
    ((xs.set i b).map f).sum + f a = (xs.map f).sum + f b := by
  induction xs generalizing i with
  | nil => simp at h
  | cons x xs ih =>
    cases i with
    | zero =>
      obtain rfl : x = a := by simpa using h
      simp only [List.set_cons_zero, List.map_cons, List.sum_cons]
      omega
    | succ i =>
      have hnext := ih (i := i) (by simpa using h)
      simp only [List.set_cons_succ, List.map_cons, List.sum_cons]
      omega

/-- A count is full exactly if everything counts. -/
theorem sum_map_eq_length_iff {f : α → Nat} (hf : ∀ x, f x ≤ 1) (xs : List α) :
    (xs.map f).sum ≤ xs.length ∧ ((xs.map f).sum = xs.length ↔ ∀ x ∈ xs, f x = 1) := by
  induction xs with
  | nil => simp
  | cons x xs ih =>
    have hx := hf x
    obtain ⟨hle, hiff⟩ := ih
    simp only [List.map_cons, List.sum_cons, List.length_cons, List.forall_mem_cons, ← hiff]
    omega

/-- A fold over lists that are put together one after the other. -/
theorem foldlM_flatMap {β : Type*} {m : Type _ → Type _} [Monad m] [LawfulMonad m]
    (f : σ → β → m σ) (g : α → List β) (xs : List α) (s : σ) :
    (xs.flatMap g).foldlM f s = xs.foldlM (fun s x => (g x).foldlM f s) s := by
  induction xs generalizing s with
  | nil => rfl
  | cons x xs ih =>
    rw [List.flatMap_cons, List.foldlM_append, List.foldlM_cons]
    congr 1
    funext t
    exact ih t

/-- Where one fold goes through, another one that follows it step by step does too. -/
theorem foldlM_follows {τ : Type*} {R : σ → τ → Prop} {f : σ → α → Option σ}
    {g : τ → α → Option τ} (xs : List α)
    (step : ∀ x ∈ xs, ∀ s t t', R s t → g t x = some t' → ∃ s', f s x = some s' ∧ R s' t')
    {s : σ} {t t' : τ} (h : R s t) (ht' : xs.foldlM g t = some t') :
    ∃ s', xs.foldlM f s = some s' ∧ R s' t' := by
  induction xs generalizing s t with
  | nil =>
    cases ht'
    exact ⟨s, rfl, h⟩
  | cons x xs ih =>
    rw [List.foldlM_cons] at ht'
    obtain ⟨t₁, ht₁, hrest⟩ := Option.bind_eq_some_iff.mp ht'
    obtain ⟨s₁, hs₁, h₁⟩ := step x List.mem_cons_self s t t₁ h ht₁
    obtain ⟨s', hs', h'⟩ := ih (fun y hy => step y (List.mem_cons_of_mem x hy)) h₁ hrest
    exact ⟨s', by rw [List.foldlM_cons, hs₁]; exact hs', h'⟩

/-- Execute the actions in order; `none` means that one of them was not enabled. -/
def run (step : σ → α → Option σ) : σ → List α → Option σ
  | s, [] => some s
  | s, a :: rest => (step s a).bind fun t => run step t rest

@[simp] theorem run_nil (step : σ → α → Option σ) (s : σ) : run step s [] = some s := rfl
@[simp] theorem run_cons (step : σ → α → Option σ) (s : σ) (a : α) (rest : List α) :
    run step s (a :: rest) = (step s a).bind fun t => run step t rest := rfl

theorem run_append (step : σ → α → Option σ) (s : σ) (as bs : List α) :
    run step s (as ++ bs) = (run step s as).bind fun t => run step t bs := by
  induction as generalizing s with
  | nil => rfl
  | cons a as ih =>
    cases h : step s a with
    | none => simp [h]
    | some t => simpa [h] using ih t

theorem run_concat (step : σ → α → Option σ) (s : σ) (as : List α) (a : α) :
    run step s (as ++ [a]) = (run step s as).bind fun t => step t a := by
  rw [run_append]
  congr 1
  funext t
  cases h : step t a <;> simp [h]

theorem run_concat_eq_some {step : σ → α → Option σ} {s u : σ} {as : List α} {a : α} :
    run step s (as ++ [a]) = some u ↔ ∃ t, run step s as = some t ∧ step t a = some u := by
  rw [run_concat, Option.bind_eq_some_iff]

/-- What holds initially and is kept by every step holds after every run. The
property may speak of the actions taken so far as well as of the state. -/
theorem run_induction {step : σ → α → Option σ} {start : σ} {P : List α → σ → Prop}
    (init : P [] start)
    (next : ∀ as s a t, run step start as = some s → P as s → step s a = some t →
      P (as ++ [a]) t)
    {as : List α} {s : σ} (h : run step start as = some s) : P as s := by
  induction as using List.reverseRecOn generalizing s with
  | nil =>
    cases h
    exact init
  | append_singleton as a ih =>
    obtain ⟨t, ht, ha⟩ := run_concat_eq_some.mp h
    exact next as t a s ht (ih ht) ha

/-- Every action of the run was taken in a state that `ok` allows it in. -/
def Obeys (step : σ → α → Option σ) (start : σ) (ok : σ → α → Prop) (as : List α) : Prop :=
  ∀ pre a post s, as = pre ++ a :: post → run step start pre = some s → ok s a

theorem Obeys.left {step : σ → α → Option σ} {start : σ} {ok : σ → α → Prop} {as bs : List α}
    (h : Obeys step start ok (as ++ bs)) : Obeys step start ok as := by
  intro pre a post s he hs
  exact h pre a (post ++ bs) s (by simp [he]) hs

theorem Obeys.last {step : σ → α → Option σ} {start s : σ} {ok : σ → α → Prop} {as : List α}
    {a : α} (h : Obeys step start ok (as ++ [a])) (hs : run step start as = some s) : ok s a :=
  h as a [] s rfl hs

theorem Obeys.of_forall {step : σ → α → Option σ} {start : σ} {ok : σ → α → Prop} {as : List α}
    (h : ∀ a ∈ as, ∀ s, ok s a) : Obeys step start ok as := by
  intro pre a post s he _
  exact h a (by simp [he]) s

/-- Whether every step of a run is allowed, for a rule that can be evaluated. -/
def obeysCheck (step : σ → α → Option σ) (ok : σ → α → Bool) : σ → List α → Bool
  | _, [] => true
  | s, a :: as => ok s a && (step s a).all fun t => obeysCheck step ok t as

theorem Obeys.cons {step : σ → α → Option σ} {start : σ} {ok : σ → α → Prop} {a : α}
    {as : List α} (ha : ok start a) (has : ∀ t, step start a = some t → Obeys step t ok as) :
    Obeys step start ok (a :: as) := by
  intro pre b post s he hs
  cases pre with
  | nil =>
    cases hs
    obtain ⟨rfl, -⟩ := List.cons.inj he
    exact ha
  | cons c pre =>
    obtain ⟨rfl, hrest⟩ := List.cons.inj he
    obtain ⟨t, ht, hs⟩ := Option.bind_eq_some_iff.mp hs
    exact has t ht pre b post s hrest hs

theorem Obeys.of_check {step : σ → α → Option σ} {start : σ} {ok : σ → α → Prop}
    [∀ s a, Decidable (ok s a)] {as : List α}
    (h : obeysCheck step (fun s a => decide (ok s a)) start as = true) :
    Obeys step start ok as := by
  induction as generalizing start with
  | nil => exact .of_forall (by simp)
  | cons a as ih =>
    rw [obeysCheck, Bool.and_eq_true, decide_eq_true_eq] at h
    refine .cons h.1 ?_
    intro t ht
    apply ih
    simpa [ht] using h.2

/-- The induction rule for runs under a proviso on their steps. -/
theorem run_induction_of_obeys {step : σ → α → Option σ} {start : σ} {ok : σ → α → Prop}
    {P : List α → σ → Prop} (init : P [] start)
    (next : ∀ as s a t, run step start as = some s → P as s → ok s a → step s a = some t →
      P (as ++ [a]) t)
    {as : List α} {s : σ} (h : run step start as = some s) (hok : Obeys step start ok as) :
    P as s := by
  induction as using List.reverseRecOn generalizing s with
  | nil =>
    cases h
    exact init
  | append_singleton as a ih =>
    obtain ⟨t, ht, ha⟩ := run_concat_eq_some.mp h
    exact next as t a s ht (ih ht hok.left) (hok.last ht) ha

/-- Some moment of the run, given by the actions taken up to it and the state
then reached, has the property. -/
def Moment (step : σ → α → Option σ) (start : σ) (as : List α) (P : List α → σ → Prop) : Prop :=
  ∃ pre post s, as = pre ++ post ∧ run step start pre = some s ∧ P pre s

/-- The action was taken in the run, in a state with the property. -/
def TakenAt (step : σ → α → Option σ) (start : σ) (as : List α) (a : α) (P : σ → Prop) : Prop :=
  ∃ pre post s, as = pre ++ a :: post ∧ run step start pre = some s ∧ P s

theorem Moment.append {step : σ → α → Option σ} {start : σ} {as : List α}
    {P : List α → σ → Prop} (h : Moment step start as P) (bs : List α) :
    Moment step start (as ++ bs) P := by
  obtain ⟨pre, post, s, rfl, hs, hp⟩ := h
  exact ⟨pre, post ++ bs, s, by simp, hs, hp⟩

theorem Moment.now {step : σ → α → Option σ} {start s : σ} {as : List α}
    {P : List α → σ → Prop} (hs : run step start as = some s) (hp : P as s) :
    Moment step start as P := ⟨as, [], s, by simp, hs, hp⟩

theorem TakenAt.append {step : σ → α → Option σ} {start : σ} {as : List α} {a : α} {P : σ → Prop}
    (h : TakenAt step start as a P) (bs : List α) : TakenAt step start (as ++ bs) a P := by
  obtain ⟨pre, post, s, rfl, hs, hp⟩ := h
  exact ⟨pre, post ++ bs, s, by simp, hs, hp⟩

theorem TakenAt.now {step : σ → α → Option σ} {start s : σ} {as : List α} {a : α} {P : σ → Prop}
    (hs : run step start as = some s) (hp : P s) : TakenAt step start (as ++ [a]) a P :=
  ⟨as, [], s, rfl, hs, hp⟩

/-- Exactly `n` passes through a loop body that does not break. -/
def passes (body : σ → Option σ) : Nat → σ → Option σ
  | 0, s => some s
  | n + 1, s => (body s).bind (passes body n)

/-- The loop breaks after exactly `n` passes, leaving the state `t`. -/
def BreaksAfter (body : σ → Option σ) (n : Nat) (s t : σ) : Prop :=
  passes body n s = some t ∧ body t = none

/-- The state a loop leaves at its `break`, for a body with a decreasing measure. -/
def loop (body : σ → Option σ) (μ : σ → Nat) (d : ∀ s t, body s = some t → μ t < μ s)
    (s : σ) : σ :=
  match _h : body s with
  | none => s
  | some t => loop body μ d t
termination_by μ s
decreasing_by exact d s t _h

variable {body : σ → Option σ} {μ : σ → Nat} {d : ∀ s t, body s = some t → μ t < μ s}

theorem loop_none {s : σ} (h : body s = none) : loop body μ d s = s := by
  rw [loop]
  split <;> simp_all

theorem loop_some {s t : σ} (h : body s = some t) :
    loop body μ d s = loop body μ d t := by
  rw [loop]
  split <;> simp_all

/-- The loop really terminates, within as many passes as its measure counts. -/
theorem loop_breaks (s : σ) : ∃ n, n ≤ μ s ∧ BreaksAfter body n s (loop body μ d s) := by
  induction hm : μ s using Nat.strong_induction_on generalizing s with
  | _ m ih =>
    subst hm
    cases h : body s with
    | none => exact ⟨0, Nat.zero_le _, by rw [loop_none h]; exact ⟨rfl, h⟩⟩
    | some t =>
      obtain ⟨n, hn, hp, hb⟩ := ih (μ t) (d s t h) t rfl
      have ht := d s t h
      refine ⟨n + 1, by omega, ?_⟩
      rw [loop_some h]
      exact ⟨by simpa [passes, h] using hp, hb⟩

/-- A loop invariant survives to the `break`. -/
theorem loop_invariant {I : σ → Prop} (keep : ∀ s t, I s → body s = some t → I t) {s : σ}
    (h : I s) : I (loop body μ d s) := by
  induction hm : μ s using Nat.strong_induction_on generalizing s with
  | _ m ih =>
    subst hm
    cases hb : body s with
    | none => rwa [loop_none hb]
    | some t =>
      rw [loop_some hb]
      exact ih (μ t) (d s t hb) (keep s t h hb) rfl

/-- Two loops whose bodies break together and otherwise keep a relation leave related states. -/
theorem loop_related {τ : Type*} {body' : τ → Option τ} {μ' : τ → Nat}
    {d' : ∀ s t, body' s = some t → μ' t < μ' s} {R : σ → τ → Prop}
    (step : ∀ s t, R s t → (body s = none ∧ body' t = none) ∨
      ∃ s' t', body s = some s' ∧ body' t = some t' ∧ R s' t') {s : σ} {t : τ} (h : R s t) :
    R (loop body μ d s) (loop body' μ' d' t) := by
  induction hm : μ s using Nat.strong_induction_on generalizing s t with
  | _ m ih =>
    subst hm
    rcases step s t h with ⟨hs, ht⟩ | ⟨s', t', hs, ht, h'⟩
    · rwa [loop_none hs, loop_none ht]
    · rw [loop_some hs, loop_some ht]
      exact ih (μ s') (d s s' hs) h' rfl

end Runs
