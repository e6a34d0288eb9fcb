import DistLabs.Runs

/-!
# What happens in the end

A behavior goes on forever; at each moment one action is taken, or nothing
happens. A class of actions is treated fairly if, once some action of it can
always be taken, one is taken. A rank that no step raises, and that is left again
at every value but zero, comes down to zero.
-/
namespace Fairness

open Runs

variable {σ α : Type*} {step : σ → α → Option σ} {start : σ}

/-- One moment: an action, or nothing. -/
def Takes (step : σ → α → Option σ) (s : σ) : Option α → σ → Prop
  | none, s' => s' = s
  | some a, s' => step s a = some s'

structure Behavior (step : σ → α → Option σ) (start : σ) where
  state : Nat → σ
  act : Nat → Option α
  init : state 0 = start
  next : ∀ t, Takes step (state t) (act t) (state (t + 1))

/-- Some action of the class can be taken. -/
def Enabled (step : σ → α → Option σ) (A : σ → α → Prop) (s : σ) : Prop :=
  ∃ a, A s a ∧ (step s a).isSome

namespace Behavior

def WeakFair (b : Behavior step start) (A : σ → α → Prop) : Prop :=
  ∀ t₀, (∀ t, t₀ ≤ t → Enabled step A (b.state t)) →
    ∃ t, t₀ ≤ t ∧ ∃ a, A (b.state t) a ∧ b.act t = some a

/-- The states of a behavior are those of runs. -/
theorem reached (b : Behavior step start) (t : Nat) :
    ∃ as, run step start as = some (b.state t) := by
  induction t with
  | zero => exact ⟨[], by rw [b.init]; rfl⟩
  | succ t ih =>
    obtain ⟨as, has⟩ := ih
    have hnext := b.next t
    cases hact : b.act t with
    | none =>
      rw [hact] at hnext
      exact ⟨as, by rw [has, show b.state (t + 1) = b.state t from hnext]⟩
    | some a =>
      rw [hact] at hnext
      exact ⟨as ++ [a], run_concat_eq_some.mpr ⟨_, has, hnext⟩⟩

/-- What every step of the behavior keeps from a moment on holds from then on. -/
theorem always_of {Q : σ → α → Prop} (b : Behavior step start)
    (allowed : ∀ t a, b.act t = some a → Q (b.state t) a) {P : σ → Prop}
    (keep : ∀ s a s', P s → Q s a → step s a = some s' → P s') {t u : Nat} (htu : t ≤ u)
    (h : P (b.state t)) : P (b.state u) := by
  induction u, htu using Nat.le_induction with
  | base => exact h
  | succ u _ ih =>
    have hnext := b.next u
    cases hact : b.act u with
    | none =>
      rw [hact] at hnext
      rwa [show b.state (u + 1) = b.state u from hnext]
    | some a =>
      rw [hact] at hnext
      exact keep _ a _ ih (allowed u a hact) hnext

theorem always (b : Behavior step start) {P : σ → Prop}
    (keep : ∀ s a s', P s → step s a = some s' → P s') {t u : Nat} (htu : t ≤ u)
    (h : P (b.state t)) : P (b.state u) :=
  b.always_of (Q := fun _ _ => True) (fun _ _ _ => trivial) (fun s a s' h _ => keep s a s' h) htu h

section Rank

variable {f : σ → Nat}

/-- A class that is treated fairly lowers the rank, if it can be taken as long as the rank
stays, and lowers it when it is taken. -/
theorem WeakFair.lowers {b : Behavior step start} {A : σ → α → Prop} (fair : b.WeakFair A)
    {t₀ k : Nat} (mono : ∀ t, t₀ ≤ t → f (b.state t) ≤ k)
    (enabled : ∀ t, t₀ ≤ t → f (b.state t) = k → Enabled step A (b.state t))
    (help : ∀ t a, t₀ ≤ t → f (b.state t) = k → A (b.state t) a →
      step (b.state t) a = some (b.state (t + 1)) → f (b.state (t + 1)) < k) :
    ∃ t, t₀ ≤ t ∧ f (b.state t) < k := by
  by_contra hnever
  have hstays : ∀ t, t₀ ≤ t → f (b.state t) = k := by
    intro t ht
    have hle := mono t ht
    have hge : ¬ f (b.state t) < k := fun hlt => hnever ⟨t, ht, hlt⟩
    omega
  obtain ⟨t, ht, a, ha, hact⟩ := fair t₀ fun t ht => enabled t ht (hstays t ht)
  have hnext := b.next t
  rw [hact] at hnext
  exact hnever ⟨t + 1, by omega, help t a ht (hstays t ht) ha hnext⟩

/-- A rank that is always left again for a lower one comes down to zero. -/
theorem eventually_zero (b : Behavior step start) {t : Nat}
    (leaves : ∀ u, t ≤ u → f (b.state u) ≠ 0 →
      ∃ v, u ≤ v ∧ f (b.state v) < f (b.state u)) :
    ∃ u, t ≤ u ∧ f (b.state u) = 0 := by
  have hdown : ∀ k u, t ≤ u → f (b.state u) = k → ∃ v, t ≤ v ∧ f (b.state v) = 0 := by
    intro k
    induction k using Nat.strong_induction_on with
    | _ k ih =>
      intro u hu hk
      by_cases hzero : f (b.state u) = 0
      · exact ⟨u, hu, hzero⟩
      · obtain ⟨v, hv, hlt⟩ := leaves u hu hzero
        exact ih _ (hk ▸ hlt) v (by omega) rfl
  exact hdown _ t (Nat.le_refl t) rfl

/-- A rank above zero names a party it awaits. If the rank only falls, or stays with the
same party awaited, and the awaited party can go on and lowers the rank when it does, the
rank comes down to zero. `P` holds all the time. -/
theorem comes_to_zero {γ : Type*} {Acts : γ → σ → α → Prop} {P : σ → Prop} (awaits : σ → γ)
    {b : Behavior step start} (fair : ∀ g, b.WeakFair (Acts g)) {t : Nat}
    (always : ∀ u, t ≤ u → P (b.state u))
    (falls : ∀ s a s', P s → P s' → f s ≠ 0 → step s a = some s' →
      f s' < f s ∨ f s' = f s ∧ awaits s' = awaits s)
    (enabled : ∀ s, P s → f s ≠ 0 → Enabled step (Acts (awaits s)) s)
    (lowers : ∀ s a s', P s → P s' → f s ≠ 0 → Acts (awaits s) s a → step s a = some s' →
      f s' < f s) :
    ∃ u, t ≤ u ∧ f (b.state u) = 0 := by
  by_contra hnever
  have hpos : ∀ u, t ≤ u → f (b.state u) ≠ 0 := fun u hu hzero => hnever ⟨u, hu, hzero⟩
  have hsame : ∀ u v, t ≤ u → u ≤ v → f (b.state v) < f (b.state u) ∨
      f (b.state v) = f (b.state u) ∧ awaits (b.state v) = awaits (b.state u) := by
    intro u v hu huv
    induction v, huv using Nat.le_induction with
    | base => exact Or.inr ⟨rfl, rfl⟩
    | succ v huv ih =>
      have hnext := b.next v
      cases hact : b.act v with
      | none =>
        rw [hact] at hnext
        rwa [show b.state (v + 1) = b.state v from hnext]
      | some a =>
        rw [hact] at hnext
        have hv : t ≤ v := Nat.le_trans hu huv
        have hstep := falls _ a _ (always v hv) (always (v + 1) (Nat.le_succ_of_le hv))
          (hpos v hv) hnext
        rcases ih with hless | ⟨hf, ha⟩
        · exact Or.inl (by omega)
        · rcases hstep with hless | ⟨hf', ha'⟩
          · exact Or.inl (hf ▸ hless)
          · exact Or.inr ⟨hf'.trans hf, ha'.trans ha⟩
  refine hnever (b.eventually_zero fun u hu hzero => ?_)
  have hkeep : ∀ v, u ≤ v → f (b.state v) = f (b.state u) →
      awaits (b.state v) = awaits (b.state u) := by
    intro v hv hf
    rcases hsame u v hu hv with hless | ⟨-, ha⟩
    · omega
    · exact ha
  refine (fair (awaits (b.state u))).lowers (f := f) (fun v hv => ?_) (fun v hv hf => ?_)
    fun v a hv hf ha hstep => ?_
  · rcases hsame u v hu hv with hless | ⟨hf, -⟩ <;> omega
  · rw [← hkeep v hv hf]
    exact enabled _ (always v (by omega)) (hpos v (by omega))
  · rw [← hf]
    exact lowers _ a _ (always v (by omega)) (always (v + 1) (by omega)) (hpos v (by omega))
      (hkeep v hv hf ▸ ha) hstep

end Rank

/-! ## Runs that end -/

/-- The actions of a run, and then nothing. -/
def ofRun (s : σ) (as : List α) (h : run step start as = some s) : Behavior step start where
  state t := (run step start (as.take t)).getD s
  act t := as[t]?
  init := by simp
  next := by
    intro t
    cases hact : as[t]? with
    | none =>
      have hlen : as.length ≤ t := List.getElem?_eq_none_iff.mp hact
      simp [Takes, List.take_of_length_le hlen, List.take_of_length_le (Nat.le_succ_of_le hlen)]
    | some a =>
      have htake : as.take (t + 1) = as.take t ++ [a] := by
        rw [List.take_add_one, hact, Option.toList_some]
      obtain ⟨u, hu⟩ : ∃ u, run step start (as.take (t + 1)) = some u := by
        have hsplit := List.take_append_drop (t + 1) as
        rw [← hsplit, run_append] at h
        obtain ⟨u, hu, -⟩ := Option.bind_eq_some_iff.mp h
        exact ⟨u, hu⟩
      obtain ⟨w, hw, hstep⟩ := run_concat_eq_some.mp (htake ▸ hu)
      simp only [Takes, hu, hw, Option.getD_some]
      exact hstep

theorem ofRun_state {s : σ} {as : List α} (h : run step start as = some s) {t : Nat}
    (ht : as.length ≤ t) : (ofRun s as h).state t = s := by
  simp [ofRun, List.take_of_length_le ht, h]

theorem ofRun_allowed {s : σ} {as : List α} (h : run step start as = some s)
    {Q : σ → α → Prop} (hQ : Obeys step start Q as) (t : Nat) (a : α)
    (hact : (ofRun s as h).act t = some a) : Q ((ofRun s as h).state t) a := by
  have hsplit : as = as.take t ++ a :: as.drop (t + 1) := by
    obtain ⟨hlt, rfl⟩ := List.getElem?_eq_some_iff.mp hact
    rw [List.getElem_cons_drop, List.take_append_drop]
  obtain ⟨u, hu, -⟩ : ∃ u, run step start (as.take t) = some u ∧
      run step u (a :: as.drop (t + 1)) = some s := by
    rw [hsplit, run_append] at h
    exact Option.bind_eq_some_iff.mp h
  have hstate : (ofRun s as h).state t = u := by simp [ofRun, hu]
  rw [hstate]
  exact hQ _ a _ u hsplit hu

/-- What can no longer be taken at the end of a run was treated fairly. -/
theorem ofRun_weakFair {s : σ} {as : List α} (h : run step start as = some s)
    {A : σ → α → Prop} (hend : ¬ Enabled step A s) : (ofRun s as h).WeakFair A := by
  intro t₀ henabled
  have hlast := henabled (max t₀ as.length) (Nat.le_max_left _ _)
  rw [ofRun_state h (Nat.le_max_right _ _)] at hlast
  exact absurd hlast hend

end Behavior

end Fairness
