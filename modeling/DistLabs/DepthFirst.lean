import Mathlib.Data.Finset.Card
import Mathlib.Data.Fintype.Card
import Mathlib.Data.List.Nodup
import Mathlib.Logic.Relation

/-!
# Depth-first search with a global list of what was seen

A node is marked when it is entered, and then its work is done in order: to emit
something, or to visit another node. What was seen stays seen from one search to
the next, so everything is emitted once.

The fuel bounds the depth of the recursion; one more than the number of nodes is
enough for every search.
-/
namespace DepthFirst

open Relation

variable {τ ω : Type*}

inductive Work (τ ω : Type*) where
  | emit (o : ω)
  | visit (t : τ)

structure State (τ ω : Type*) where
  seen : List τ
  out : List ω

def State.empty : State τ ω := ⟨[], []⟩

/-- One piece of work, for a given way to visit a node. -/
def perform (visit : τ → State τ ω → Option (State τ ω)) (s : State τ ω) :
    Work τ ω → Option (State τ ω)
  | .emit o => some { s with out := s.out ++ [o] }
  | .visit t => visit t s

def visit [DecidableEq τ] (work : τ → List (Work τ ω)) :
    Nat → τ → State τ ω → Option (State τ ω)
  | 0, _, _ => none
  | fuel + 1, t, s =>
    if t ∈ s.seen then some s
    else (work t).foldlM (perform (visit work fuel)) { s with seen := t :: s.seen }

def Work.emitted : Work τ ω → Option ω
  | .emit o => some o
  | .visit _ => none

def emits (ws : List (Work τ ω)) : List ω := ws.filterMap Work.emitted

@[simp] theorem emits_nil : emits ([] : List (Work τ ω)) = [] := rfl
@[simp] theorem emits_emit (o : ω) (ws : List (Work τ ω)) :
    emits (.emit o :: ws) = o :: emits ws := rfl
@[simp] theorem emits_visit (t : τ) (ws : List (Work τ ω)) :
    emits (.visit t :: ws) = emits ws := rfl
@[simp] theorem emits_append (ws ws' : List (Work τ ω)) :
    emits (ws ++ ws') = emits ws ++ emits ws' := List.filterMap_append

@[simp] theorem emits_visits (ts : List τ) : emits (ts.map (.visit : τ → Work τ ω)) = [] := by
  induction ts with
  | nil => rfl
  | cons t ts ih => rw [List.map_cons, emits_visit, ih]

theorem foldlM_visits (visit : τ → State τ ω → Option (State τ ω)) (ts : List τ) (s : State τ ω) :
    (ts.map .visit).foldlM (perform visit) s = ts.foldlM (fun s t => visit t s) s := by
  rw [List.foldlM_map]
  rfl

def Child (work : τ → List (Work τ ω)) (t c : τ) : Prop := .visit c ∈ work t

/-- What doing the work `ws` has changed: the nodes `new` were entered, each has emitted what
it has to, and each node it visits has been seen. -/
structure Explored (work : τ → List (Work τ ω)) (ws : List (Work τ ω)) (s s' : State τ ω)
    (new : List τ) : Prop where
  seen : s'.seen = new ++ s.seen
  nodup : new.Nodup
  fresh : ∀ u ∈ new, u ∉ s.seen
  out : s'.out.Perm (s.out ++ emits ws ++ new.flatMap fun u => emits (work u))
  found : ∀ c, .visit c ∈ ws → c ∈ s'.seen
  closed : ∀ u ∈ new, ∀ c, Child work u c → c ∈ s'.seen
  reached : ∀ u ∈ new, ∃ c, .visit c ∈ ws ∧ ReflTransGen (Child work) c u

namespace Explored

variable {work : τ → List (Work τ ω)} {ws ws' : List (Work τ ω)} {s s' s'' : State τ ω}
  {new new' : List τ}

theorem nil (work : τ → List (Work τ ω)) (s : State τ ω) : Explored work [] s s [] where
  seen := rfl
  nodup := List.nodup_nil
  fresh := by simp
  out := by simp
  found := by simp
  closed := by simp
  reached := by simp

theorem emit (work : τ → List (Work τ ω)) (s : State τ ω) (o : ω) :
    Explored work [.emit o] s { s with out := s.out ++ [o] } [] where
  seen := rfl
  nodup := List.nodup_nil
  fresh := by simp
  out := by simp
  found := by simp
  closed := by simp
  reached := by simp

theorem subset (h : Explored work ws s s' new) {u : τ} (hu : u ∈ s.seen) : u ∈ s'.seen := by
  rw [h.seen]
  exact List.mem_append_right _ hu

theorem append (h : Explored work ws s s' new) (h' : Explored work ws' s' s'' new') :
    Explored work (ws ++ ws') s s'' (new' ++ new) where
  seen := by rw [h'.seen, h.seen, List.append_assoc]
  nodup := by
    refine List.nodup_append.mpr ⟨h'.nodup, h.nodup, ?_⟩
    rintro u hu v hv rfl
    refine h'.fresh u hu ?_
    rw [h.seen]
    exact List.mem_append_left _ hv
  fresh := by
    intro u hu hs
    rcases List.mem_append.mp hu with hu | hu
    · exact h'.fresh u hu (h.subset hs)
    · exact h.fresh u hu hs
  out := by
    refine h'.out.trans (((h.out.append_right _).append_right _).trans ?_)
    simp only [emits_append, List.flatMap_append, List.append_assoc]
    refine (List.Perm.append_left _ ?_).append_left _
    rw [← List.append_assoc (emits ws')]
    exact List.perm_append_comm
  found := by
    intro c hc
    rcases List.mem_append.mp hc with hc | hc
    · exact h'.subset (h.found c hc)
    · exact h'.found c hc
  closed := by
    intro u hu c hc
    rcases List.mem_append.mp hu with hu | hu
    · exact h'.closed u hu c hc
    · exact h'.subset (h.closed u hu c hc)
  reached := by
    intro u hu
    rcases List.mem_append.mp hu with hu | hu
    · obtain ⟨c, hc, hreach⟩ := h'.reached u hu
      exact ⟨c, List.mem_append_right _ hc, hreach⟩
    · obtain ⟨c, hc, hreach⟩ := h.reached u hu
      exact ⟨c, List.mem_append_left _ hc, hreach⟩

/-- A node that was seen before is not entered again. -/
theorem again {t : τ} (ht : t ∈ s.seen) : Explored work [.visit t] s s [] where
  seen := rfl
  nodup := List.nodup_nil
  fresh := by simp
  out := by simp
  found := by
    intro c hc
    cases List.mem_singleton.mp hc
    exact ht
  closed := by simp
  reached := by simp

/-- A node is entered, and its work is done. -/
theorem enter {t : τ} (ht : t ∉ s.seen)
    (h : Explored work (work t) { s with seen := t :: s.seen } s' new) :
    Explored work [.visit t] s s' (new ++ [t]) where
  seen := by rw [h.seen, List.append_assoc, List.singleton_append]
  nodup := by
    refine List.nodup_append.mpr ⟨h.nodup, List.nodup_singleton t, ?_⟩
    rintro u hu v hv rfl
    exact h.fresh u hu (by simp [List.mem_singleton.mp hv])
  fresh := by
    intro u hu
    rcases List.mem_append.mp hu with hu | hu
    · exact fun hs => h.fresh u hu (List.mem_cons_of_mem t hs)
    · rwa [List.mem_singleton.mp hu]
  out := by
    refine h.out.trans ?_
    simp only [emits_visit, emits_nil, List.append_nil, List.flatMap_append, List.flatMap_cons,
      List.flatMap_nil, List.append_assoc]
    exact List.perm_append_comm.append_left _
  found := by
    intro c hc
    cases List.mem_singleton.mp hc
    exact h.subset List.mem_cons_self
  closed := by
    intro u hu c hc
    rcases List.mem_append.mp hu with hu | hu
    · exact h.closed u hu c hc
    · rw [List.mem_singleton.mp hu] at hc
      exact h.found c hc
  reached := by
    intro u hu
    refine ⟨t, List.mem_singleton_self _, ?_⟩
    rcases List.mem_append.mp hu with hu | hu
    · obtain ⟨c, hc, hreach⟩ := h.reached u hu
      exact ReflTransGen.head hc hreach
    · rw [List.mem_singleton.mp hu]

end Explored

variable [DecidableEq τ] {work : τ → List (Work τ ω)}

omit [DecidableEq τ] in
/-- Work that is done in order, where each visit explores. -/
theorem explored_of_foldlM {visit : τ → State τ ω → Option (State τ ω)}
    (hvisit : ∀ t s s', visit t s = some s' → ∃ new, Explored work [.visit t] s s' new)
    (ws : List (Work τ ω)) {s s' : State τ ω} (h : ws.foldlM (perform visit) s = some s') :
    ∃ new, Explored work ws s s' new := by
  induction ws generalizing s with
  | nil =>
    cases h
    exact ⟨[], .nil work _⟩
  | cons w ws ih =>
    rw [List.foldlM_cons] at h
    obtain ⟨s₁, hw, hrest⟩ := Option.bind_eq_some_iff.mp h
    obtain ⟨new', hnew'⟩ := ih hrest
    cases w with
    | emit o =>
      cases hw
      exact ⟨_, (Explored.emit work s o).append hnew'⟩
    | visit t =>
      obtain ⟨new, hnew⟩ := hvisit t s s₁ hw
      exact ⟨_, hnew.append hnew'⟩

theorem explored_of_visit {fuel : Nat} {t : τ} {s s' : State τ ω}
    (h : visit work fuel t s = some s') : ∃ new, Explored work [.visit t] s s' new := by
  induction fuel generalizing t s s' with
  | zero => cases h
  | succ fuel ih =>
    rw [visit] at h
    by_cases ht : t ∈ s.seen
    · rw [if_pos ht] at h
      cases h
      exact ⟨[], .again ht⟩
    · rw [if_neg ht] at h
      obtain ⟨new, hnew⟩ := explored_of_foldlM (fun _ _ _ => ih) (work t) h
      exact ⟨_, hnew.enter ht⟩

/-! ## Enough fuel -/

section Total

variable [Fintype τ]

def unseen (s : State τ ω) : Nat := (Finset.univ.filter (· ∉ s.seen)).card

theorem unseen_le_card (s : State τ ω) : unseen s ≤ Fintype.card τ := Finset.card_le_univ _

theorem unseen_mono {s s' : State τ ω} (h : ∀ u ∈ s.seen, u ∈ s'.seen) :
    unseen s' ≤ unseen s := by
  apply Finset.card_le_card
  intro u hu
  simp only [Finset.mem_filter, Finset.mem_univ, true_and] at hu ⊢
  exact fun hs => hu (h u hs)

theorem unseen_enter {s : State τ ω} {t : τ} (ht : t ∉ s.seen) :
    unseen { s with seen := t :: s.seen } < unseen s := by
  apply Finset.card_lt_card
  rw [Finset.ssubset_iff_of_subset]
  · exact ⟨t, by simp [ht], by simp⟩
  · intro u hu
    simp only [Finset.mem_filter, Finset.mem_univ, true_and, List.mem_cons, not_or] at hu ⊢
    exact hu.2

theorem foldlM_total {fuel : Nat}
    (hvisit : ∀ t (s : State τ ω), unseen s < fuel → ∃ s', visit work fuel t s = some s')
    (ws : List (Work τ ω)) {s : State τ ω} (hs : unseen s < fuel) :
    ∃ s', ws.foldlM (perform (visit work fuel)) s = some s' := by
  induction ws generalizing s with
  | nil => exact ⟨s, rfl⟩
  | cons w ws ih =>
    obtain ⟨s₁, hw, hs₁⟩ : ∃ s₁, perform (visit work fuel) s w = some s₁ ∧ unseen s₁ < fuel := by
      cases w with
      | emit o => exact ⟨_, rfl, hs⟩
      | visit t =>
        obtain ⟨s₁, hs₁⟩ := hvisit t s hs
        obtain ⟨new, hnew⟩ := explored_of_visit hs₁
        exact ⟨s₁, hs₁, lt_of_le_of_lt (unseen_mono fun u => hnew.subset) hs⟩
    obtain ⟨s', hs'⟩ := ih hs₁
    exact ⟨s', by rw [List.foldlM_cons, hw]; exact hs'⟩

/-- The depth of the recursion is bounded by the number of nodes that were not seen. -/
theorem visit_total (fuel : Nat) (t : τ) (s : State τ ω) (hs : unseen s < fuel) :
    ∃ s', visit work fuel t s = some s' := by
  induction fuel generalizing t s with
  | zero => exact absurd hs (Nat.not_lt_zero _)
  | succ fuel ih =>
    rw [visit]
    by_cases ht : t ∈ s.seen
    · exact ⟨s, if_pos ht⟩
    · rw [if_neg ht]
      have hlt := unseen_enter ht
      exact foldlM_total ih (work t) (by omega)

/-- Searches from any nodes, one after the other, end; they have seen what can be reached
from these nodes, and have emitted the work of each such node once. -/
theorem search_reachable (work : τ → List (Work τ ω)) (ts : List τ) {fuel : Nat}
    (hfuel : Fintype.card τ < fuel) :
    ∃ s, ts.foldlM (fun s t => visit work fuel t s) State.empty = some s ∧ s.seen.Nodup ∧
      (∀ u, u ∈ s.seen ↔ ∃ t ∈ ts, ReflTransGen (Child work) t u) ∧
      s.out.Perm (s.seen.flatMap fun u => emits (work u)) := by
  have hempty : unseen (State.empty : State τ ω) < fuel :=
    lt_of_le_of_lt (unseen_le_card _) hfuel
  have hvisit : ∀ t (s : State τ ω), unseen s < fuel → ∃ s', visit work fuel t s = some s' :=
    visit_total fuel
  obtain ⟨s, hs⟩ := foldlM_total hvisit (ts.map .visit) hempty
  obtain ⟨new, hnew⟩ := explored_of_foldlM (fun _ _ _ => explored_of_visit) _ hs
  have hseen : s.seen = new := by rw [hnew.seen, State.empty, List.append_nil]
  refine ⟨s, by rw [← foldlM_visits, hs], hseen ▸ hnew.nodup, ?_, ?_⟩
  · intro u
    constructor
    · intro hu
      obtain ⟨c, hc, hreach⟩ := hnew.reached u (hseen ▸ hu)
      obtain ⟨t, ht, hvisit⟩ := List.mem_map.mp hc
      cases hvisit
      exact ⟨c, ht, hreach⟩
    · rintro ⟨t, ht, hreach⟩
      -- what was seen is closed under the children of its nodes
      induction hreach with
      | refl => exact hnew.found t (List.mem_map.mpr ⟨t, ht, rfl⟩)
      | tail _ hchild ih => exact hnew.closed _ (hseen ▸ ih) _ hchild
  · have hout := hnew.out
    rw [emits_visits, ← hseen] at hout
    simpa [State.empty] using hout

end Total

end DepthFirst
