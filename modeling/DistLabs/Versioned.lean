import DistLabs.Runs
import Mathlib.Algebra.BigOperators.Fin
import Mathlib.Algebra.BigOperators.Group.Finset.Piecewise

/-!
# Clients of an atomic versioned cell

A cell holds a value and a version. A `put` names the version it expects: it
takes effect only at that version, and then increments it. Any number of clients
run programs that call `put` and `get` one at a time; a `put` is called, may take
effect and returns in steps of its own, so the runs are all interleavings. The
answer of a `put` may leave open whether it took effect.

`effects` counts for each client its `put`s that took effect; no program reads it.
-/
namespace Versioned

open Runs

variable {V S : Type} {n : Nat}

structure Cell (V : Type) where
  value : V
  version : Nat

/-- What a `put` returns: it took effect, it did not, or this is not known. -/
inductive Answer where
  | ok | version | maybe
  deriving DecidableEq

/-- The answers that a `put` may return. -/
def Answer.Fits (took : Bool) : Answer → Prop
  | .ok => took = true
  | .version => took = false
  | .maybe => True

instance (took : Bool) : (a : Answer) → Decidable (a.Fits took)
  | .ok => inferInstanceAs (Decidable (took = true))
  | .version => inferInstanceAs (Decidable (took = false))
  | .maybe => inferInstanceAs (Decidable True)

inductive Request (V : Type) where
  | put (value : V) (version : Nat)
  | get

/-- A sequential program over the cell: its next request, what it does with the answers,
and whether it can return. -/
structure Program (V S : Type) where
  request : S → Option (Request V)
  afterPut : S → Answer → S
  afterGet : S → V → Nat → S
  stop : S → Option S

/-- A `put` that was called and has not returned. -/
structure Pending (V : Type) where
  value : V
  version : Nat
  took : Bool

structure System (V S : Type) (n : Nat) where
  cell : Cell V
  clients : Fin n → S
  pending : Fin n → Option (Pending V)
  effects : Fin n → Nat

def start (cell : Cell V) (clients : Fin n → S) : System V S n :=
  ⟨cell, clients, fun _ => none, fun _ => 0⟩

inductive Act (n : Nat) where
  | stop (i : Fin n)
  | put (i : Fin n)
  | takeEffect (i : Fin n)
  | reply (i : Fin n) (a : Answer)
  | get (i : Fin n)
  deriving DecidableEq

def step (P : Fin n → Program V S) (s : System V S n) : Act n → Option (System V S n)
  | .stop i =>
    match s.pending i with
    | none => ((P i).stop (s.clients i)).map fun c =>
      { s with clients := Function.update s.clients i c }
    | some _ => none
  | .put i =>
    match s.pending i, (P i).request (s.clients i) with
    | none, some (.put v version) =>
      some { s with pending := Function.update s.pending i (some ⟨v, version, false⟩) }
    | _, _ => none
  | .takeEffect i =>
    match s.pending i with
    | some ⟨v, version, false⟩ =>
      if version = s.cell.version then
        some { s with
          cell := ⟨v, version + 1⟩
          pending := Function.update s.pending i (some ⟨v, version, true⟩)
          effects := Function.update s.effects i (s.effects i + 1) }
      else none
    | _ => none
  | .reply i a =>
    match s.pending i with
    | some p =>
      if a.Fits p.took then
        some { s with
          clients := Function.update s.clients i ((P i).afterPut (s.clients i) a)
          pending := Function.update s.pending i none }
      else none
    | none => none
  | .get i =>
    match s.pending i, (P i).request (s.clients i) with
    | none, some .get =>
      let c := (P i).afterGet (s.clients i) s.cell.value s.cell.version
      some { s with clients := Function.update s.clients i c }
    | _, _ => none

/-- Everything a step can do. -/
inductive Moved (P : Fin n → Program V S) (s : System V S n) : Act n → System V S n → Prop where
  | stop (i : Fin n) (c : S) (hfree : s.pending i = none)
      (hc : (P i).stop (s.clients i) = some c) :
      Moved P s (.stop i) { s with clients := Function.update s.clients i c }
  | put (i : Fin n) (v : V) (version : Nat) (hfree : s.pending i = none)
      (hrequest : (P i).request (s.clients i) = some (.put v version)) :
      Moved P s (.put i)
        { s with pending := Function.update s.pending i (some ⟨v, version, false⟩) }
  | takeEffect (i : Fin n) (v : V) (hpending : s.pending i = some ⟨v, s.cell.version, false⟩) :
      Moved P s (.takeEffect i)
        { s with
          cell := ⟨v, s.cell.version + 1⟩
          pending := Function.update s.pending i (some ⟨v, s.cell.version, true⟩)
          effects := Function.update s.effects i (s.effects i + 1) }
  | reply (i : Fin n) (p : Pending V) (a : Answer) (hpending : s.pending i = some p)
      (hfits : a.Fits p.took) :
      Moved P s (.reply i a)
        { s with
          clients := Function.update s.clients i ((P i).afterPut (s.clients i) a)
          pending := Function.update s.pending i none }
  | get (i : Fin n) (hfree : s.pending i = none)
      (hrequest : (P i).request (s.clients i) = some .get) :
      Moved P s (.get i)
        { s with
          clients := Function.update s.clients i
            ((P i).afterGet (s.clients i) s.cell.value s.cell.version) }

theorem moved_of_step {P : Fin n → Program V S} {s t : System V S n} {a : Act n}
    (h : step P s a = some t) : Moved P s a t := by
  cases a with
  | stop i =>
    simp only [step] at h
    split at h
    · rename_i hfree
      obtain ⟨c, hc, rfl⟩ := Option.map_eq_some_iff.mp h
      exact .stop i c hfree hc
    · cases h
  | put i =>
    simp only [step] at h
    split at h
    · rename_i v version hfree hrequest
      cases h
      exact .put i v version hfree hrequest
    · cases h
  | takeEffect i =>
    simp only [step] at h
    split at h
    · rename_i v version hpending
      split at h
      · rename_i hversion
        subst hversion
        cases h
        exact .takeEffect i v hpending
      · cases h
    · cases h
  | reply i a =>
    simp only [step] at h
    split at h
    · rename_i p hpending
      split at h
      · rename_i hfits
        cases h
        exact .reply i p a hpending hfits
      · cases h
    · cases h
  | get i =>
    simp only [step] at h
    split at h
    · rename_i hfree hrequest
      cases h
      exact .get i hfree hrequest
    · cases h

/-! ## What holds of the cell and of each client -/

/-- The steps of a client keep `C` of the cell and `J` of the cell and that client: its
state, its pending `put` and the count of its effects. An effect also keeps `J` of the
`others`. Only answers with `ok` are returned. -/
structure Keeps (P : Fin n → Program V S) (ok : Answer → Prop) (C : Cell V → Prop)
    (J : Cell V → Fin n → S → Option (Pending V) → Nat → Prop) : Prop where
  stop : ∀ cell i c c' e, C cell → J cell i c none e → (P i).stop c = some c' →
    J cell i c' none e
  put : ∀ cell i c v version e, C cell → J cell i c none e →
    (P i).request c = some (.put v version) → J cell i c (some ⟨v, version, false⟩) e
  takeEffect : ∀ cell i c v e, C cell → J cell i c (some ⟨v, cell.version, false⟩) e →
    C ⟨v, cell.version + 1⟩ ∧
      J ⟨v, cell.version + 1⟩ i c (some ⟨v, cell.version, true⟩) (e + 1)
  others : ∀ cell i c v e j c' p e', i ≠ j → C cell →
    J cell i c (some ⟨v, cell.version, false⟩) e → J cell j c' p e' →
    J ⟨v, cell.version + 1⟩ j c' p e'
  reply : ∀ cell i c p a e, C cell → J cell i c (some p) e → a.Fits p.took → ok a →
    J cell i ((P i).afterPut c a) none e
  get : ∀ cell i c e, C cell → J cell i c none e → (P i).request c = some .get →
    J cell i ((P i).afterGet c cell.value cell.version) none e

variable {P : Fin n → Program V S} {ok : Answer → Prop} {C : Cell V → Prop}
  {J : Cell V → Fin n → S → Option (Pending V) → Nat → Prop}

/-- The property that `Keeps` is about, of the whole system. -/
def Holds (C : Cell V → Prop) (J : Cell V → Fin n → S → Option (Pending V) → Nat → Prop)
    (s : System V S n) : Prop :=
  C s.cell ∧ ∀ i, J s.cell i (s.clients i) (s.pending i) (s.effects i)

/-- A step of one client, seen by all. -/
theorem Holds.frame {s t : System V S n} (h : Holds C J s) (i : Fin n) (hcell : t.cell = s.cell)
    (hothers : ∀ j, j ≠ i → t.clients j = s.clients j ∧ t.pending j = s.pending j)
    (heffects : t.effects = s.effects)
    (hi : J s.cell i (t.clients i) (t.pending i) (s.effects i)) : Holds C J t := by
  rw [Holds, hcell, heffects]
  refine ⟨h.1, fun j => ?_⟩
  by_cases hij : j = i
  · rw [hij]
    exact hi
  · rw [(hothers j hij).1, (hothers j hij).2]
    exact h.2 j

theorem Keeps.step (hk : Keeps P ok C J) {s t : System V S n} {a : Act n} (hm : Moved P s a t)
    (hok : ∀ i b, a = .reply i b → ok b) (h : Holds C J s) : Holds C J t := by
  have hC := h.1
  cases hm with
  | stop i c hfree hc =>
    have hi := h.2 i
    rw [hfree] at hi
    refine h.frame i rfl (fun j hj => by simp [hj]) rfl ?_
    simpa [hfree] using hk.stop _ i _ c _ hC hi hc
  | put i v version hfree hrequest =>
    have hi := h.2 i
    rw [hfree] at hi
    refine h.frame i rfl (fun j hj => by simp [hj]) rfl ?_
    simpa using hk.put _ i _ v version _ hC hi hrequest
  | takeEffect i v hpending =>
    -- the only step that changes the cell, under the eyes of the others
    have hi := h.2 i
    rw [hpending] at hi
    obtain ⟨hC', hi'⟩ := hk.takeEffect _ i _ v _ hC hi
    refine ⟨hC', fun j => ?_⟩
    by_cases hij : j = i
    · subst hij
      simpa using hi'
    · simpa [hij] using hk.others _ i _ v _ j _ _ _ (Ne.symm hij) hC hi (h.2 j)
  | reply i p b hpending hfits =>
    have hi := h.2 i
    rw [hpending] at hi
    refine h.frame i rfl (fun j hj => by simp [hj]) rfl ?_
    simpa using hk.reply _ i _ p b _ hC hi hfits (hok i b rfl)
  | get i hfree hrequest =>
    have hi := h.2 i
    rw [hfree] at hi
    refine h.frame i rfl (fun j hj => by simp [hj]) rfl ?_
    simpa [hfree] using hk.get _ i _ _ hC hi hrequest

/-- What the steps keep holds after every run. -/
theorem Keeps.run (hk : Keeps P ok C J) {cell : Cell V} {clients : Fin n → S} (hcell : C cell)
    (hstart : ∀ i, J cell i (clients i) none 0) {acts : List (Act n)} {s : System V S n}
    (hrun : run (Versioned.step P) (start cell clients) acts = some s)
    (hok : ∀ i a, Act.reply i a ∈ acts → ok a) : Holds C J s := by
  refine run_induction
    (P := fun acts s => (∀ i a, Act.reply i a ∈ acts → ok a) → Holds C J s) ?_ ?_ hrun hok
  · exact fun _ => ⟨hcell, hstart⟩
  · intro acts s a t _ ih hstep hok
    refine hk.step (moved_of_step hstep) ?_ (ih fun i b hb => hok i b (by simp [hb]))
    rintro i b rfl
    exact hok i b (by simp)

/-! ## Effects and versions -/

/-- The version counts the `put`s that took effect. -/
theorem version_eq {cell : Cell V} {clients : Fin n → S}
    {acts : List (Act n)} {s : System V S n}
    (hrun : run (step P) (start cell clients) acts = some s) :
    s.cell.version = cell.version + ∑ i, s.effects i := by
  refine run_induction (P := fun _ s => s.cell.version = cell.version + ∑ i, s.effects i) ?_ ?_ hrun
  · simp [start]
  · intro acts s a t _ ih hstep
    cases moved_of_step hstep with
    | takeEffect i v hpending =>
      have hsum := Finset.sum_erase_add Finset.univ s.effects (Finset.mem_univ i)
      have hcount : ∑ j, Function.update s.effects i (s.effects i + 1) j =
          ∑ j, s.effects j + 1 := by
        rw [Finset.sum_update_of_mem (Finset.mem_univ i), Finset.sdiff_singleton_eq_erase]
        omega
      change s.cell.version + 1 = _
      rw [hcount, ih]
      omega
    | _ => exact ih

theorem version_pos_of_effect {cell : Cell V} {clients : Fin n → S} {acts : List (Act n)}
    {s : System V S n} (hrun : run (step P) (start cell clients) acts = some s)
    (heffect : ∃ i, Act.takeEffect i ∈ acts) : 0 < s.cell.version := by
  obtain ⟨i, hi⟩ := heffect
  refine run_induction (P := fun acts s => Act.takeEffect i ∈ acts → 0 < s.cell.version) ?_ ?_
    hrun hi
  · simp
  · intro acts s a t _ ih hstep hi
    have hearlier : Act.takeEffect i ≠ a → 0 < s.cell.version := by
      intro ha
      exact ih (by simpa [ha] using hi)
    cases moved_of_step hstep with
    | takeEffect j v hpending => exact Nat.succ_pos _
    | stop j c hfree hc => exact hearlier (by simp)
    | put j v version hfree hrequest => exact hearlier (by simp)
    | reply j p b hpending hfits => exact hearlier (by simp)
    | get j hfree hrequest => exact hearlier (by simp)

end Versioned
