import Mathlib.Algebra.BigOperators.Group.Finset.Basic
import Mathlib.Algebra.Order.BigOperators.Group.Finset
import Mathlib.Data.Fintype.Card
import Mathlib.Data.Fintype.BigOperators
import Mathlib.Algebra.GroupWithZero.Action.Defs
import Mathlib.Tactic.Linarith

/-!
# Level assignments and frugal reassignment

Items of a finite type are assigned to owners. An assignment is level on a set
of owners when no two of their loads differ by more than one. A reassignment is
frugal when no owner both gives and gets, owners that got items are among the
lowest, owners that gave are among the highest, and no getter ends above a
giver. Frugality is kept by moving one item from a highest to a lowest owner,
and a frugal reassignment that ends level moves as few items as any level
assignment can.
-/
namespace Balance

open Finset

variable {ι κ : Type*}

/-- The owner lost an item on the way from `a` to `b`. -/
def Gave (a b : ι → κ) (g : κ) : Prop := ∃ s, a s = g ∧ b s ≠ g

/-- The owner holds an item it did not hold before. -/
def Got (a b : ι → κ) (g : κ) : Prop := ∃ s, a s ≠ g ∧ b s = g

theorem gave_update [DecidableEq ι] {a b : ι → κ} {s : ι} {g k : κ}
    (h : Gave a (Function.update b s g) k) : Gave a b k ∨ (a s = k ∧ g ≠ k) := by
  obtain ⟨x, ha, hb⟩ := h
  by_cases hx : x = s
  · subst hx
    exact Or.inr ⟨ha, by simpa using hb⟩
  · exact Or.inl ⟨x, ha, by simpa [hx] using hb⟩

theorem got_update [DecidableEq ι] {a b : ι → κ} {s : ι} {g k : κ}
    (h : Got a (Function.update b s g) k) : Got a b k ∨ g = k := by
  obtain ⟨x, ha, hb⟩ := h
  by_cases hx : x = s
  · subst hx
    exact Or.inr (by simpa using hb)
  · exact Or.inl ⟨x, ha, by simpa [hx] using hb⟩

variable [Fintype ι] [DecidableEq κ]

/-- How many items an owner holds. -/
def load (a : ι → κ) (g : κ) : ℕ := #{s | a s = g}

/-- No two owners in `G` differ by more than one item. -/
def Level (G : Finset κ) (a : ι → κ) : Prop := ∀ g ∈ G, ∀ h ∈ G, load a g ≤ load a h + 1

/-- How many items change their owner. -/
def moved (a b : ι → κ) : ℕ := #{s | a s ≠ b s}

/-- Items with the same owner before and after, counted at one owner. -/
def kept (a b : ι → κ) (g : κ) : ℕ := #{s | a s = g ∧ b s = g}

/-- The reassignment from `a` to `b` has only taken from the top and added at the bottom. -/
structure Frugal (G : Finset κ) (a b : ι → κ) : Prop where
  oneWay : ∀ g ∈ G, Gave a b g → ¬ Got a b g
  gotLow : ∀ g ∈ G, Got a b g → ∀ h ∈ G, load b g ≤ load b h + 1
  gaveHigh : ∀ g ∈ G, Gave a b g → ∀ h ∈ G, load b h ≤ load b g + 1
  gotLeGave : ∀ g ∈ G, ∀ h ∈ G, Got a b g → Gave a b h → load b g ≤ load b h

theorem load_le_card (a : ι → κ) (g : κ) : load a g ≤ Fintype.card ι :=
  card_le_univ _

theorem load_pos_iff (a : ι → κ) (g : κ) : 0 < load a g ↔ ∃ s, a s = g := by
  rw [load, card_pos]
  constructor
  · rintro ⟨s, hs⟩
    exact ⟨s, by simpa using hs⟩
  · rintro ⟨s, hs⟩
    exact ⟨s, by simpa using hs⟩

theorem sum_load (G : Finset κ) (a : ι → κ) (hv : ∀ s, a s ∈ G) :
    ∑ g ∈ G, load a g = Fintype.card ι :=
  (card_eq_sum_card_fiberwise (fun s _ => hv s)).symm

/-- A level assignment gives every owner the floor or the ceiling of the average. -/
theorem level_load (G : Finset κ) (a : ι → κ) (hv : ∀ s, a s ∈ G) (hl : Level G a)
    {g : κ} (hg : g ∈ G) :
    Fintype.card ι / #G ≤ load a g ∧ load a g ≤ Fintype.card ι / #G + 1 := by
  have hsum := sum_load G a hv
  have hpos : 0 < #G := card_pos.mpr ⟨g, hg⟩
  have hdiv := Nat.div_add_mod (Fintype.card ι) #G
  have hmod := Nat.mod_lt (Fintype.card ι) hpos
  constructor
  · -- an owner below the floor keeps every owner at most at the floor
    by_contra hlow
    have hle : ∀ h ∈ G, load a h ≤ Fintype.card ι / #G := by
      intro h hh
      have := hl h hh g hg
      omega
    have hlt := sum_lt_sum hle ⟨g, hg, by omega⟩
    rw [hsum, sum_const, smul_eq_mul] at hlt
    omega
  · -- an owner above the ceiling keeps every owner above the floor
    by_contra hhigh
    have hle : ∀ h ∈ G, Fintype.card ι / #G + 1 ≤ load a h := by
      intro h hh
      have := hl g hg h hh
      omega
    have hle' := sum_le_sum hle
    rw [hsum, sum_const, smul_eq_mul, Nat.mul_add] at hle'
    omega

/-- With no more owners than items a level assignment leaves nobody empty-handed. -/
theorem level_load_pos (G : Finset κ) (a : ι → κ) (hv : ∀ s, a s ∈ G) (hl : Level G a)
    (hc : #G ≤ Fintype.card ι) {g : κ} (hg : g ∈ G) : 0 < load a g := by
  have hq : 0 < Fintype.card ι / #G := Nat.div_pos hc (card_pos.mpr ⟨g, hg⟩)
  have := (level_load G a hv hl hg).1
  omega

theorem Frugal.refl (G : Finset κ) (a : ι → κ) : Frugal G a a := by
  have hgave : ∀ g, ¬ Gave a a g := fun g ⟨s, h, h'⟩ => h' h
  have hgot : ∀ g, ¬ Got a a g := fun g ⟨s, h, h'⟩ => h h'
  exact ⟨fun g _ h => absurd h (hgave g), fun g _ h => absurd h (hgot g),
    fun g _ h => absurd h (hgave g), fun g _ _ _ h => absurd h (hgot g)⟩

theorem kept_le_before (a b : ι → κ) (g : κ) : kept a b g ≤ load a g :=
  card_le_card (fun s hs => by simp_all)

theorem kept_le_after (a b : ι → κ) (g : κ) : kept a b g ≤ load b g :=
  card_le_card (fun s hs => by simp_all)

theorem moved_add_kept (G : Finset κ) (a b : ι → κ) (hv : ∀ s, b s ∈ G) :
    moved a b + ∑ g ∈ G, kept a b g = Fintype.card ι := by
  have hsame : ∑ g ∈ G, kept a b g = #{s | a s = b s} := by
    rw [card_eq_sum_card_fiberwise (f := b) (t := G) (fun s _ => hv s)]
    refine sum_congr rfl fun g _ => ?_
    rw [kept, filter_filter]
    congr 1
    ext s
    constructor
    · intro h
      simp_all
    · intro h
      simp_all
  rw [hsame, moved, Nat.add_comm]
  have := card_filter_add_card_filter_not (s := (univ : Finset ι)) (fun s => a s = b s)
  simpa [card_univ] using this

/-- An owner that did not give keeps all it had. -/
theorem kept_of_not_gave {a b : ι → κ} {g : κ} (h : ¬ Gave a b g) : kept a b g = load a g := by
  refine le_antisymm (kept_le_before a b g) (card_le_card ?_)
  intro s hs
  have ha : a s = g := by simpa using hs
  have hb : b s = g := by
    by_contra hb
    exact h ⟨s, ha, hb⟩
  simp [ha, hb]

/-- An owner that did not get anything has only what it had. -/
theorem kept_of_not_got {a b : ι → κ} {g : κ} (h : ¬ Got a b g) : kept a b g = load b g := by
  refine le_antisymm (kept_le_after a b g) (card_le_card ?_)
  intro s hs
  have hb : b s = g := by simpa using hs
  have ha : a s = g := by
    by_contra ha
    exact h ⟨s, ha, hb⟩
  simp [ha, hb]

theorem kept_lt_after {a b : ι → κ} {g : κ} (h : Got a b g) : kept a b g < load b g := by
  obtain ⟨s, ha, hb⟩ := h
  refine card_lt_card ⟨fun x hx => by simp_all, fun hsub => ?_⟩
  have := hsub (show s ∈ ({x | b x = g} : Finset ι) by simpa using hb)
  simp_all

theorem kept_lt_before {a b : ι → κ} {g : κ} (h : Gave a b g) : kept a b g < load a g := by
  obtain ⟨s, ha, hb⟩ := h
  refine card_lt_card ⟨fun x hx => by simp_all, fun hsub => ?_⟩
  have := hsub (show s ∈ ({x | a x = g} : Finset ι) by simpa using ha)
  simp_all

/-- Frugality: an owner keeps as much as its old and its new load allow. -/
theorem Frugal.kept_eq_min {G : Finset κ} {a b : ι → κ} (hf : Frugal G a b) {g : κ} (hg : g ∈ G) :
    kept a b g = min (load a g) (load b g) := by
  have h₁ := kept_le_before a b g
  have h₂ := kept_le_after a b g
  by_cases hgave : Gave a b g
  · have := kept_of_not_got (hf.oneWay g hg hgave)
    omega
  · have := kept_of_not_gave hgave
    omega

theorem Frugal.load_le_of_exchange {G : Finset κ} {a b : ι → κ} (hf : Frugal G a b) {g h : κ}
    (hg : g ∈ G) (hh : h ∈ G) (hup : load a g < load b g) (hdown : load b h < load a h) :
    load b g ≤ load b h := by
  apply hf.gotLeGave g hg h hh
  · by_contra hn
    have := kept_of_not_got hn
    have := kept_le_before a b g
    omega
  · by_contra hn
    have := kept_of_not_gave hn
    have := kept_le_after a b h
    omega

/-- Two owners that were level with each other never exchange an item. -/
theorem Frugal.no_exchange {G : Finset κ} {a b : ι → κ} (hf : Frugal G a b) {s : ι}
    (ha : a s ∈ G) (hb : b s ∈ G) (hlevel : load a (a s) ≤ load a (b s) + 1) : a s = b s := by
  by_contra hne
  have hgave : Gave a b (a s) := ⟨s, rfl, fun h => hne h.symm⟩
  have hgot : Got a b (b s) := ⟨s, hne, rfl⟩
  have hnotGot := hf.oneWay _ ha hgave
  have hnotGave : ¬ Gave a b (b s) := fun h => hf.oneWay _ hb h hgot
  have h₁ := kept_of_not_got hnotGot
  have h₂ := kept_of_not_gave hnotGave
  have h₃ := kept_lt_before hgave
  have h₄ := kept_lt_after hgot
  have h₅ := hf.gotLeGave _ hb _ ha hgot hgave
  omega

/-- A frugal reassignment that ends level moves no more items than any level
assignment to the same owners would. Either no owner was cut to the floor, and
then it keeps the most pointwise; or nobody was raised to the ceiling, and then
it adds the least pointwise. -/
theorem Frugal.moved_le {G : Finset κ} {a b t : ι → κ} (hf : Frugal G a b)
    (hvb : ∀ s, b s ∈ G) (hlb : Level G b) (hvt : ∀ s, t s ∈ G) (hlt : Level G t) :
    moved a b ≤ moved a t := by
  have hb := moved_add_kept G a b hvb
  have ht := moved_add_kept G a t hvt
  have hloads : ∑ g ∈ G, load b g = ∑ g ∈ G, load t g := by
    rw [sum_load G b hvb, sum_load G t hvt]
  suffices hk : ∑ g ∈ G, kept a t g ≤ ∑ g ∈ G, kept a b g by omega
  set q := Fintype.card ι / #G with hq
  by_cases hcut : ∃ h ∈ G, load b h = q ∧ q < load a h
  · obtain ⟨h, hh, hbh, hah⟩ := hcut
    have hpoint : ∀ g ∈ G, kept a t g + load b g ≤ kept a b g + load t g := by
      intro g hg
      have h₁ := level_load G b hvb hlb hg
      have h₂ := level_load G t hvt hlt hg
      have h₃ := hf.kept_eq_min hg
      have h₄ := kept_le_before a t g
      have h₅ := kept_le_after a t g
      by_cases hup : load a g < load b g
      · have := hf.load_le_of_exchange hg hh hup (by omega)
        omega
      · omega
    have hsum := sum_le_sum hpoint
    rw [sum_add_distrib, sum_add_distrib] at hsum
    omega
  · apply sum_le_sum
    intro g hg
    have h₁ := level_load G b hvb hlb hg
    have h₂ := level_load G t hvt hlt hg
    have h₃ := hf.kept_eq_min hg
    have h₄ := kept_le_before a t g
    have h₅ := kept_le_after a t g
    by_cases hfloor : load b g = q
    · have : ¬ q < load a g := fun hlt => hcut ⟨g, hg, hfloor, hlt⟩
      omega
    · omega

variable [DecidableEq ι]

theorem load_update_to {b : ι → κ} {s : ι} {g : κ} (h : b s ≠ g) :
    load (Function.update b s g) g = load b g + 1 := by
  have he : ({x | Function.update b s g x = g} : Finset ι) =
      insert s ({x | b x = g} : Finset ι) := by
    ext x
    by_cases hx : x = s <;> simp [Function.update_apply, hx]
  rw [load, he, card_insert_of_notMem (by simpa using h), load]

theorem load_update_from {b : ι → κ} {s : ι} {g : κ} (h : b s ≠ g) :
    load (Function.update b s g) (b s) + 1 = load b (b s) := by
  have he : ({x | Function.update b s g x = b s} : Finset ι) =
      ({x | b x = b s} : Finset ι).erase s := by
    ext x
    by_cases hx : x = s
    · subst hx; simp [Ne.symm h]
    · simp [Function.update_apply, hx]
  rw [load, he, load]
  exact card_erase_add_one (by simp)

theorem load_update_other {b : ι → κ} {s : ι} {g k : κ} (hg : k ≠ g) (hb : k ≠ b s) :
    load (Function.update b s g) k = load b k := by
  rw [load, load]
  congr 1
  ext x
  by_cases hx : x = s
  · subst hx; simp [Ne.symm hg, Ne.symm hb]
  · simp [Function.update_apply, hx]

/-- An item without an owner in `G` goes to a lowest owner, while nobody in `G` has given yet. -/
theorem Frugal.adopt {G : Finset κ} {a b : ι → κ} (hf : Frugal G a b)
    (hnone : ∀ g ∈ G, ¬ Gave a b g) {s : ι} (ha : a s ∉ G) (hb : b s ∉ G) {low : κ}
    (hlow : low ∈ G) (hmin : ∀ h ∈ G, load b low ≤ load b h) :
    Frugal G a (Function.update b s low) ∧
      ∀ g ∈ G, ¬ Gave a (Function.update b s low) g := by
  have hstill : ∀ g ∈ G, ¬ Gave a (Function.update b s low) g := by
    intro g hg h
    rcases gave_update h with h | ⟨h, -⟩
    · exact hnone g hg h
    · exact ha (h ▸ hg)
  have hup : ∀ h ∈ G, load b h ≤ load (Function.update b s low) h := by
    intro h hh
    by_cases he : h = low
    · subst he
      have := load_update_to (b := b) (s := s) (g := h) (fun e => hb (e ▸ hh))
      omega
    · exact (load_update_other (b := b) (s := s) he (fun e => hb (e ▸ hh))).ge
  refine ⟨⟨fun g hg h => absurd h (hstill g hg), ?_, fun g hg h => absurd h (hstill g hg),
    fun g _ h hh _ hgave => absurd hgave (hstill h hh)⟩, hstill⟩
  intro g hg hgot h hh
  have hh' := hup h hh
  by_cases he : g = low
  · subst he
    have := load_update_to (b := b) (s := s) (g := g) (fun e => hb (e ▸ hg))
    have := hmin h hh
    omega
  · have hold : Got a b g := (got_update hgot).resolve_right (Ne.symm he)
    have := load_update_other (b := b) (s := s) he (fun e => hb (e ▸ hg))
    have := hf.gotLow g hg hold h hh
    omega

section Handover

variable {G : Finset κ} {a b : ι → κ} {s : ι} {low : κ}

omit [DecidableEq ι] in
theorem ne_of_gap (hgap : load b low + 2 ≤ load b (b s)) : b s ≠ low := by
  intro h
  rw [h] at hgap
  omega

/-- Nobody rises above the old highest load. -/
theorem load_handed_le (hmax : ∀ h ∈ G, load b h ≤ load b (b s))
    (hgap : load b low + 2 ≤ load b (b s)) {h : κ} (hh : h ∈ G) :
    load (Function.update b s low) h ≤ load b (b s) := by
  have hto := load_update_to (ne_of_gap hgap)
  have hfrom := load_update_from (ne_of_gap hgap)
  by_cases he : h = low
  · rw [he]; omega
  · by_cases he' : h = b s
    · rw [he']; omega
    · rw [load_update_other he he']
      exact hmax h hh

/-- Nobody falls below the old lowest load. -/
theorem le_load_handed (hmin : ∀ h ∈ G, load b low ≤ load b h)
    (hgap : load b low + 2 ≤ load b (b s)) {h : κ} (hh : h ∈ G) :
    load b low ≤ load (Function.update b s low) h := by
  have hto := load_update_to (ne_of_gap hgap)
  have hfrom := load_update_from (ne_of_gap hgap)
  by_cases he : h = low
  · rw [he]; omega
  · by_cases he' : h = b s
    · rw [he']; omega
    · rw [load_update_other he he']
      exact hmin h hh

omit [DecidableEq ι] in
theorem Frugal.not_gave_low (hf : Frugal G a b) (hhigh : b s ∈ G) (hlow : low ∈ G)
    (hgap : load b low + 2 ≤ load b (b s)) : ¬ Gave a b low := by
  intro h
  have := hf.gaveHigh low hlow h (b s) hhigh
  omega

omit [DecidableEq ι] in
theorem Frugal.not_got_high (hf : Frugal G a b) (hhigh : b s ∈ G) (hlow : low ∈ G)
    (hgap : load b low + 2 ≤ load b (b s)) : ¬ Got a b (b s) := by
  intro h
  have := hf.gotLow (b s) hhigh h low hlow
  omega

/-- The giver never got anything, so the item is one of its own. -/
theorem Frugal.gave_handed (hf : Frugal G a b) (hhigh : b s ∈ G) (hlow : low ∈ G)
    (hgap : load b low + 2 ≤ load b (b s)) {g : κ}
    (h : Gave a (Function.update b s low) g) : Gave a b g ∨ g = b s := by
  have hown : a s = b s := by
    by_contra hne
    exact hf.not_got_high hhigh hlow hgap ⟨s, hne, rfl⟩
  rcases gave_update h with h | ⟨h, -⟩
  · exact Or.inl h
  · exact Or.inr (by rw [← h, hown])

theorem Frugal.load_of_got_handed (hf : Frugal G a b) (hhigh : b s ∈ G) (hlow : low ∈ G)
    (hgap : load b low + 2 ≤ load b (b s)) {g : κ} (hg : g ∈ G)
    (h : Got a (Function.update b s low) g) :
    load (Function.update b s low) g ≤ load b low + 1 := by
  by_cases he : g = low
  · rw [he, load_update_to (ne_of_gap hgap)]
  · have hold := (got_update h).resolve_right (Ne.symm he)
    have hg' : g ≠ b s := by
      rintro rfl
      exact hf.not_got_high hhigh hlow hgap hold
    rw [load_update_other he hg']
    exact hf.gotLow g hg hold low hlow

theorem Frugal.load_of_gave_handed (hf : Frugal G a b) (hhigh : b s ∈ G) (hlow : low ∈ G)
    (hgap : load b low + 2 ≤ load b (b s)) {g : κ} (hg : g ∈ G)
    (h : Gave a (Function.update b s low) g) :
    load b (b s) ≤ load (Function.update b s low) g + 1 := by
  by_cases he : g = b s
  · rw [he, load_update_from (ne_of_gap hgap)]
  · have hold := (hf.gave_handed hhigh hlow hgap h).resolve_right he
    have hg' : g ≠ low := by
      rintro rfl
      exact hf.not_gave_low hhigh hlow hgap hold
    rw [load_update_other hg' he]
    exact hf.gaveHigh g hg hold (b s) hhigh

/-- One item goes from a highest to a lowest owner that lies at least two below it. -/
theorem Frugal.move (hf : Frugal G a b) (hhigh : b s ∈ G) (hlow : low ∈ G)
    (hmax : ∀ h ∈ G, load b h ≤ load b (b s)) (hmin : ∀ h ∈ G, load b low ≤ load b h)
    (hgap : load b low + 2 ≤ load b (b s)) : Frugal G a (Function.update b s low) := by
  constructor
  · intro g hg h h'
    have hgave := hf.gave_handed hhigh hlow hgap h
    by_cases he : g = low
    · subst he
      exact hf.not_gave_low hhigh hlow hgap (hgave.resolve_right (ne_of_gap hgap).symm)
    · have hold := (got_update h').resolve_right (Ne.symm he)
      by_cases he' : g = b s
      · exact hf.not_got_high hhigh hlow hgap (he' ▸ hold)
      · exact hf.oneWay g hg (hgave.resolve_right he') hold
  · intro g hg h k hk
    have := hf.load_of_got_handed hhigh hlow hgap hg h
    have := le_load_handed hmin hgap hk
    omega
  · intro g hg h k hk
    have := hf.load_of_gave_handed hhigh hlow hgap hg h
    have := load_handed_le hmax hgap hk
    omega
  · intro g hg k hk h h'
    have := hf.load_of_got_handed hhigh hlow hgap hg h
    have := hf.load_of_gave_handed hhigh hlow hgap hk h'
    omega

end Handover

/-- The sum of the squared loads, counted item by item. -/
def imbalance (b : ι → κ) : ℕ := ∑ s, load b (b s)

omit [DecidableEq ι] in
theorem imbalance_eq_sum (T : Finset κ) (b : ι → κ) (hT : ∀ s, b s ∈ T) :
    imbalance b = ∑ g ∈ T, load b g * load b g := by
  rw [imbalance, ← sum_fiberwise_of_maps_to (fun s _ => hT s)]
  refine sum_congr rfl fun g _ => ?_
  rw [sum_congr rfl (fun s hs => by rw [(mem_filter.mp hs).2]), sum_const, smul_eq_mul]
  rfl

/-- Moving an item to an owner at least two below its own makes the loads more even. -/
theorem imbalance_update_lt {b : ι → κ} {s : ι} {low : κ} (hgap : load b low + 2 ≤ load b (b s)) :
    imbalance (Function.update b s low) < imbalance b := by
  have hne : b s ≠ low := by
    intro h
    rw [h] at hgap
    omega
  let T : Finset κ := insert low (univ.image b)
  have hb : ∀ x, b x ∈ T := fun x => mem_insert_of_mem (mem_image_of_mem b (mem_univ x))
  have hu : ∀ x, Function.update b s low x ∈ T := by
    intro x
    by_cases hx : x = s
    · subst hx; simp [T]
    · simpa [hx] using hb x
  have hlow : low ∈ T.erase (b s) := mem_erase.mpr ⟨Ne.symm hne, mem_insert_self _ _⟩
  rw [imbalance_eq_sum T b hb, imbalance_eq_sum T _ hu]
  rw [← add_sum_erase T _ (hb s), ← add_sum_erase T (fun g => load b g * load b g) (hb s)]
  rw [← add_sum_erase _ _ hlow, ← add_sum_erase _ (fun g => load b g * load b g) hlow]
  have hrest : ∑ g ∈ (T.erase (b s)).erase low,
      load (Function.update b s low) g * load (Function.update b s low) g =
        ∑ g ∈ (T.erase (b s)).erase low, load b g * load b g := by
    refine sum_congr rfl fun g hg => ?_
    rw [mem_erase, mem_erase] at hg
    rw [load_update_other hg.1 hg.2.1]
  rw [hrest, load_update_to hne]
  have hfrom := load_update_from hne
  generalize load (Function.update b s low) (b s) = x at *
  generalize load b low = y at *
  rw [← hfrom]
  nlinarith

end Balance
