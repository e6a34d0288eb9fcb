import Mathlib.Data.List.MinMax
import Mathlib.Data.List.Perm.Basic
import Mathlib.Logic.Function.Basic
import DistLabs.Runs

/-!
# Linearizability and its locality

Operations are intervals on a linear time axis, accepted or refused one after the
other by a partial step function. A linearization is an order of the whole history
that extends real time and is accepted. A store with one independent state for
each key is linearizable exactly if every key is: orders chosen key by key can be
merged, because of the operations still to be placed one that returns first tells
which key may go next.
-/
namespace Linearize

open Runs

variable {Op σ K T : Type*} [LinearOrder T]

/-- No operation stands before one that returned before it was called. -/
def RealTime (call ret : Op → T) (l : List Op) : Prop := l.Pairwise fun a b => ¬ ret b < call a

/-- The history has a total order that extends real time and is accepted in turn. -/
def Linearizable (call ret : Op → T) (step : σ → Op → Option σ) (init : σ) (h : List Op) : Prop :=
  ∃ l, l.Perm h ∧ RealTime call ret l ∧ (run step init l).isSome

/-- The store with one state for each key, every operation acting on its own key's. -/
def keyed [DecidableEq K] (key : Op → K) (step : σ → Op → Option σ) (s : K → σ) (o : Op) :
    Option (K → σ) := (step (s (key o)) o).map (Function.update s (key o))

/-- The keyed store accepts a sequence exactly if each key accepts its part of it. -/
theorem run_keyed_isSome [DecidableEq K] (key : Op → K) (step : σ → Op → Option σ) (s : K → σ)
    (l : List Op) :
    (run (keyed key step) s l).isSome ↔
      ∀ k, (run step (s k) (l.filter (key · = k))).isSome := by
  induction l generalizing s with
  | nil => simp
  | cons o l ih =>
    cases ho : step (s (key o)) o with
    | none =>
      simp only [run_cons, keyed, ho, Option.map_none, Option.bind_none, Option.isSome_none,
        Bool.false_eq_true, false_iff, not_forall]
      exact ⟨key o, by simp [ho]⟩
    | some t =>
      simp only [run_cons, keyed, ho, Option.map_some, Option.bind_some]
      rw [ih]
      refine forall_congr' fun k => ?_
      by_cases hk : k = key o
      · subst hk
        simp [ho]
      · simp [hk, Ne.symm hk]

/-- The first operation of the key of an operation that returns first was called
before any operation returned. -/
theorem call_le_of_first_return {call ret : Op → T} {l : List Op} {x m b : Op} {rest : List Op}
    (hl : l = x :: rest) (hr : RealTime call ret l) (hm : m ∈ l) (hx : call x ≤ ret x)
    (hmin : ret m ≤ ret b) : ¬ ret b < call x := by
  subst hl
  have hcall : call x ≤ ret m := by
    rcases List.mem_cons.mp hm with rfl | hm
    · exact hx
    · exact not_lt.mp ((List.pairwise_cons.mp hr).1 m hm)
  exact not_lt.mpr (hcall.trans hmin)

/-- Orders chosen key by key have a common extension that respects real time. -/
theorem exists_merge [DecidableEq K] (key : Op → K) (call ret : Op → T) (h : List Op)
    (hwf : ∀ o ∈ h, call o ≤ ret o) (L : K → List Op)
    (hp : ∀ k, (L k).Perm (h.filter (key · = k))) (hr : ∀ k, RealTime call ret (L k)) :
    ∃ l, l.Perm h ∧ RealTime call ret l ∧ ∀ k, l.filter (key · = k) = L k := by
  induction hn : h.length generalizing h L with
  | zero =>
    have hnil : h = [] := List.length_eq_zero_iff.mp hn
    subst hnil
    refine ⟨[], List.Perm.refl _, List.Pairwise.nil, fun k => ?_⟩
    exact ((hp k).eq_nil).symm
  | succ n ih =>
    have hne : h ≠ [] := by
      rintro rfl
      simp at hn
    obtain ⟨m, hm⟩ : ∃ m, m ∈ h.argmin ret := by
      cases harg : h.argmin ret with
      | none => exact absurd (List.argmin_eq_none.mp harg) hne
      | some m => exact ⟨m, rfl⟩
    have hmem : m ∈ L (key m) :=
      (hp (key m)).mem_iff.mpr (List.mem_filter.mpr ⟨List.argmin_mem hm, by simp⟩)
    obtain ⟨x, rest, hx⟩ := List.exists_cons_of_ne_nil (List.ne_nil_of_mem hmem)
    have hxh : x ∈ h ∧ key x = key m := by
      have : x ∈ h.filter (key · = key m) := (hp (key m)).mem_iff.mp (by simp [hx])
      simpa using this
    -- take the first operation of the chosen key out of the history
    obtain ⟨h', hh'⟩ : ∃ h', h.Perm (x :: h') := by
      obtain ⟨s, t, rfl⟩ := List.append_of_mem hxh.1
      exact ⟨s ++ t, List.perm_middle⟩
    have hp' : ∀ k, (Function.update L (key m) rest k).Perm (h'.filter (key · = k)) := by
      intro k
      have hk := (hp k).trans (hh'.filter _)
      by_cases he : k = key m
      · subst he
        rw [hx, List.filter_cons_of_pos (by simpa using hxh.2)] at hk
        simpa using hk.cons_inv
      · rw [List.filter_cons_of_neg (by simpa [hxh.2] using Ne.symm he)] at hk
        simpa [he] using hk
    have hr' : ∀ k, RealTime call ret (Function.update L (key m) rest k) := by
      intro k
      by_cases he : k = key m
      · subst he
        have := hr (key m)
        rw [hx] at this
        rw [Function.update_self]
        exact (List.pairwise_cons.mp this).2
      · simpa [he] using hr k
    have hlen : h'.length = n := by
      have := hh'.length_eq
      rw [List.length_cons] at this
      omega
    obtain ⟨l, hl, hrt, hfil⟩ := ih h'
      (fun o ho => hwf o (hh'.mem_iff.mpr (List.mem_cons_of_mem _ ho))) _ hp' hr' hlen
    refine ⟨x :: l, (hl.cons x).trans hh'.symm, List.pairwise_cons.mpr ⟨?_, hrt⟩, ?_⟩
    · intro b hb
      have hbh : b ∈ h := hh'.mem_iff.mpr (List.mem_cons_of_mem _ (hl.mem_iff.mp hb))
      exact call_le_of_first_return hx (hr (key m)) hmem (hwf x hxh.1)
        (List.le_of_mem_argmin hbh hm)
    · intro k
      by_cases he : k = key m
      · subst he
        rw [List.filter_cons_of_pos (by simpa using hxh.2), hfil, hx]
        simp
      · rw [List.filter_cons_of_neg (by simpa [hxh.2] using Ne.symm he), hfil]
        simp [he]

/-- Locality: the keyed store is linearizable exactly if every key is. -/
theorem linearizable_keyed_iff [DecidableEq K] (key : Op → K) (call ret : Op → T)
    (step : σ → Op → Option σ) (init : σ) (h : List Op) (hwf : ∀ o ∈ h, call o ≤ ret o) :
    Linearizable call ret (keyed key step) (fun _ => init) h ↔
      ∀ k, Linearizable call ret step init (h.filter (key · = k)) := by
  constructor
  · rintro ⟨l, hp, hr, ha⟩ k
    exact ⟨l.filter (key · = k), hp.filter _, hr.filter _,
      (run_keyed_isSome key step _ l).mp ha k⟩
  · intro hk
    choose L hp hr ha using hk
    obtain ⟨l, hlp, hlr, hl⟩ := exists_merge key call ret h hwf L hp hr
    refine ⟨l, hlp, hlr, (run_keyed_isSome key step _ l).mpr fun k => ?_⟩
    rw [hl k]
    exact ha k

/-- A history is linearizable if its operations take effect one after the other, each at a
point between its call and its return, and nothing else changes the state. -/
theorem linearizable_of_points {call ret : Op → T} {step : σ → Op → Option σ} {init : σ}
    {h : List Op} (n : Nat) (point : Nat → Option Op) (state : Nat → σ) (time : Nat → T)
    (hinit : state 0 = init) (hskip : ∀ i, i < n → point i = none → state (i + 1) = state i)
    (hstep : ∀ i o, i < n → point i = some o → step (state i) o = some (state (i + 1)))
    (htime : ∀ i o, i < n → point i = some o → call o ≤ time i ∧ time i ≤ ret o)
    (hmono : ∀ i j, i < j → j < n → time i ≤ time j)
    (hperm : ((List.range n).filterMap point).Perm h) : Linearizable call ret step init h := by
  refine ⟨_, hperm, ?_, ?_⟩
  · rw [RealTime, List.pairwise_filterMap]
    refine (List.pairwise_lt_range (n := n)).imp_of_mem ?_
    intro i j hi hj hij a ha b hb
    have hin := List.mem_range.mp hi
    have hjn := List.mem_range.mp hj
    exact not_lt.mpr (((htime i a hin ha).1.trans (hmono i j hij hjn)).trans (htime j b hjn hb).2)
  · have hrun : ∀ m, m ≤ n →
        run step init ((List.range m).filterMap point) = some (state m) := by
      intro m
      induction m with
      | zero => simp [hinit]
      | succ m ih =>
        intro hm
        have hbefore := ih (by omega)
        rw [List.range_succ, List.filterMap_append, run_append, hbefore, Option.bind_some]
        cases hpoint : point m with
        | none => simp [hpoint, hskip m (by omega) hpoint]
        | some o => simp [hpoint, hstep m o (by omega) hpoint]
    simp [hrun n (Nat.le_refl n)]

/-- An empty history is linearizable, so only keys that occur need to be checked. -/
theorem linearizable_nil (call ret : Op → T) (step : σ → Op → Option σ) (init : σ) :
    Linearizable call ret step init [] := ⟨[], List.Perm.refl _, List.Pairwise.nil, rfl⟩

end Linearize
