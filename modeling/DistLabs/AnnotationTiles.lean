import DistLabs.Annotations
import DistLabs.Runs

/-!
# Continuous annotations tile time

Each call of `annotateContinuousColor` should become one interval, up to the next
call on its tag or to `finalize`. What `finalize` returns is these intervals and,
beside them, one for each `annotateContinuousEnd` that finds nothing open.
-/
namespace Tester

open GoMaps Annotation

inductive ContCall where
  | color (tag desp details bgcolor : String)
  | ended (tag : String)
  deriving DecidableEq

def ContCall.tag : ContCall → String
  | .color tag _ _ _ => tag
  | .ended tag => tag

namespace Annotation

/-- A call at a time. -/
def call (an : Annotation) (c : Int × ContCall) : Annotation :=
  match c.2 with
  | .color tag desp details bgcolor => an.annotateContinuousColor c.1 tag desp details bgcolor
  | .ended tag => an.annotateContinuousEnd c.1 tag

def calls (an : Annotation) (cs : List (Int × ContCall)) : Annotation := cs.foldl call an

end Annotation

/-- What has been collected by calls that begin with nothing collected. -/
def recorded (cs : List (Int × ContCall)) : Annotation := mkAnnotation.calls cs

theorem recorded_eq (cs : List (Int × ContCall)) : recorded cs = mkAnnotation.calls cs := rfl

/-! ## The tiles -/

/-- The time of the next call on the tag, or of `finalize`. -/
def nextTime (cs : List (Int × ContCall)) (t : Int) (tag : String) : Int :=
  match cs.find? fun c => c.2.tag = tag with
  | some c => c.1
  | none => t

/-- One interval for each `annotateContinuousColor`, from its time to the next on its tag. -/
def tiles (t : Int) : List (Int × ContCall) → List Porcupine.Annotation
  | [] => []
  | (t₀, .color tag desp details bgcolor) :: cs =>
    ⟨tag, t₀, nextTime cs t tag, desp, details, bgcolor⟩ :: tiles t cs
  | (_, .ended _) :: cs => tiles t cs

/-- The intervals from the zero time that ending with nothing open leaves behind. -/
def idleEnds (an : Annotation) : List (Int × ContCall) → List Porcupine.Annotation
  | [] => []
  | (t₀, .ended tag) :: cs =>
    (if an.continuous.lookup tag = none then [⟨tag, 0, t₀, "", "", ""⟩] else []) ++
      idleEnds (an.call (t₀, .ended tag)) cs
  | c :: cs => idleEnds (an.call c) cs

/-- The open annotations, each with the time at which it will end. -/
def opened (m : GoMap String Continuous) (upto : String → Int) : List Porcupine.Annotation :=
  m.entries.map fun e => e.2.concretize e.1 (upto e.1)

theorem nextTime_cons_self (c : Int × ContCall) (cs : List (Int × ContCall)) (t : Int) :
    nextTime (c :: cs) t c.2.tag = c.1 := by
  simp [nextTime]

theorem nextTime_cons_of_ne {c : Int × ContCall} {tag : String} (h : tag ≠ c.2.tag)
    (cs : List (Int × ContCall)) (t : Int) : nextTime (c :: cs) t tag = nextTime cs t tag := by
  simp [nextTime, Ne.symm h]

theorem opened_of_lookup {m : GoMap String Continuous} {tag : String} {cont : Continuous}
    (h : m.lookup tag = some cont) (upto : String → Int) :
    (opened m upto).Perm (cont.concretize tag (upto tag) :: opened (m.erase tag) upto) :=
  (entries_perm_of_lookup h).map _

theorem opened_of_none {m : GoMap String Continuous} {tag : String} (h : m.lookup tag = none)
    (upto : String → Int) : opened (m.erase tag) upto = opened m upto := by
  rw [opened, entries_erase_of_none h, opened]

theorem opened_insert (m : GoMap String Continuous) (tag : String) (cont : Continuous)
    (upto : String → Int) : opened (m.insert tag cont) upto =
      cont.concretize tag (upto tag) :: opened (m.erase tag) upto := by
  rw [opened, AList.entries_insert]
  rfl

/-- A call does not move the end of the annotations on other tags. -/
theorem opened_erase_cons (m : GoMap String Continuous) (c : Int × ContCall)
    (cs : List (Int × ContCall)) (t : Int) : opened (m.erase c.2.tag) (nextTime (c :: cs) t) =
      opened (m.erase c.2.tag) (nextTime cs t) := by
  apply List.map_congr_left
  intro e he
  have hne : e.1 ≠ c.2.tag := by
    intro heq
    have hmem : e.1 ∈ m.erase c.2.tag := List.mem_keys_of_mem he
    rw [heq] at hmem
    exact (AList.mem_erase.mp hmem).1 rfl
  rw [nextTime_cons_of_ne hne]

theorem foldl_finalizeTag (an : Annotation) (t : Int) (tags : List String)
    (x : List Porcupine.Annotation) : tags.foldl (an.finalizeTag t) x =
      x ++ tags.filterMap fun tag =>
        (an.continuous.lookup tag).map fun cont => cont.concretize tag t := by
  induction tags generalizing x with
  | nil => simp
  | cons tag tags ih =>
    rw [List.foldl_cons, ih]
    cases h : an.continuous.lookup tag <;> simp [finalizeTag, h]

theorem finalize_perm (an : Annotation) (ω : RangeOrder String) (t : Int) :
    (an.finalize ω t).1.Perm (an.annotations ++ opened an.continuous fun _ => t) := by
  rw [finalize, foldl_finalizeTag]
  refine List.Perm.append_left _ ?_
  rw [opened, ← filterMap_lookup_keys an.continuous fun tag cont => cont.concretize tag t]
  exact (ω.perm _).filterMap _

/-! ## One call -/

/-- The interval that a call closes, if one was open on its tag. -/
def closing (m : GoMap String Continuous) (c : Int × ContCall) : List Porcupine.Annotation :=
  ((m.lookup c.2.tag).map fun cont => cont.concretize c.2.tag c.1).toList

/-- Of the open annotations a call closes the one on its tag. -/
theorem opened_cons (m : GoMap String Continuous) (c : Int × ContCall)
    (cs : List (Int × ContCall)) (t : Int) : (opened m (nextTime (c :: cs) t)).Perm
      (closing m c ++ opened (m.erase c.2.tag) (nextTime cs t)) := by
  rw [← opened_erase_cons m c cs t]
  cases h : m.lookup c.2.tag with
  | none =>
    rw [closing, h, opened_of_none h]
    exact List.Perm.refl _
  | some cont =>
    have hopen := opened_of_lookup h (nextTime (c :: cs) t)
    rw [nextTime_cons_self] at hopen
    rw [closing, h]
    exact hopen

theorem call_color (an : Annotation) (t₀ : Int) (tag desp details bgcolor : String) :
    an.call (t₀, .color tag desp details bgcolor) = { an with
      annotations := an.annotations ++
        closing an.continuous (t₀, .color tag desp details bgcolor)
      continuous := an.continuous.insert tag ⟨t₀, desp, details, bgcolor⟩ } := by
  cases h : an.continuous.lookup tag <;>
    simp [call, annotateContinuousColor, closing, ContCall.tag, h]

theorem call_ended (an : Annotation) (t₀ : Int) (tag : String) :
    an.call (t₀, .ended tag) = { an with
      annotations := an.annotations ++ closing an.continuous (t₀, .ended tag) ++
        if an.continuous.lookup tag = none then [⟨tag, 0, t₀, "", "", ""⟩] else []
      continuous := an.continuous.erase tag } := by
  cases h : an.continuous.lookup tag <;>
    simp [call, annotateContinuousEnd, closing, ContCall.tag, getD, h, Continuous.concretize]

/-- What has been recorded, what is open and what will come. -/
def total (an : Annotation) (t : Int) (cs : List (Int × ContCall)) : List Porcupine.Annotation :=
  an.annotations ++ opened an.continuous (nextTime cs t) ++ tiles t cs ++ idleEnds an cs

theorem total_call (an : Annotation) (t : Int) (c : Int × ContCall) (cs : List (Int × ContCall)) :
    (total an t (c :: cs)).Perm (total (an.call c) t cs) := by
  have hopen := opened_cons an.continuous c cs t
  obtain ⟨t₀, call⟩ := c
  cases call with
  | color tag desp details bgcolor =>
    -- the new annotation moves from what will come to what is open
    rw [total, total, tiles, idleEnds, call_color, opened_insert]
    · refine List.Perm.append_right _ ?_
      simp only [List.append_assoc]
      refine List.Perm.append_left _ ?_
      refine (List.Perm.append_right _ hopen).trans ?_
      rw [List.append_assoc]
      exact List.Perm.append_left _ List.perm_middle
    · simp
  | ended tag =>
    simp only [ContCall.tag] at hopen
    rw [total, total, tiles, idleEnds, call_ended]
    simp only [List.append_assoc]
    refine List.Perm.append_left _ ?_
    refine (List.Perm.append_right _ hopen).trans ?_
    rw [List.append_assoc]
    refine List.Perm.append_left _ ?_
    simpa only [List.append_assoc] using
      List.perm_append_comm_assoc (opened (an.continuous.erase tag) (nextTime cs t) ++ tiles t cs)
        (if an.continuous.lookup tag = none then [⟨tag, 0, t₀, "", "", ""⟩] else []) _

theorem finalize_calls (cs : List (Int × ContCall)) (an : Annotation) (ω : RangeOrder String)
    (t : Int) : ((an.calls cs).finalize ω t).1.Perm (total an t cs) := by
  induction cs generalizing an with
  | nil =>
    refine (finalize_perm an ω t).trans ?_
    simp only [total, tiles, idleEnds, List.append_nil]
    exact List.Perm.refl _
  | cons c cs ih => exact (ih (an.call c)).trans (total_call an t c cs).symm

/-! ## Ends with nothing open -/

/-- The last call on the tag opened an annotation. -/
def OpenAfter (tag : String) (cs : List (Int × ContCall)) : Prop :=
  ∃ before t₀ desp details bgcolor after,
    cs = before ++ (t₀, .color tag desp details bgcolor) :: after ∧
      ∀ c ∈ after, c.2 ≠ .ended tag

theorem lookup_call (an : Annotation) (c : Int × ContCall) (tag : String) :
    (an.call c).continuous.lookup tag = none ↔
      c.2 = .ended tag ∨ (c.2.tag ≠ tag ∧ an.continuous.lookup tag = none) := by
  obtain ⟨t₀, call⟩ := c
  cases call with
  | color tag' desp details bgcolor =>
    rw [call_color, lookup_insert_apply]
    by_cases h : tag = tag'
    · simp [h, ContCall.tag]
    · simp [h, ContCall.tag, Ne.symm h]
  | ended tag' =>
    rw [call_ended, lookup_erase_apply]
    by_cases h : tag = tag'
    · simp [h]
    · simp [h, ContCall.tag, Ne.symm h]

theorem openAfter_concat (tag : String) (cs : List (Int × ContCall)) (c : Int × ContCall) :
    OpenAfter tag (cs ++ [c]) ↔
      (∃ desp details bgcolor, c.2 = .color tag desp details bgcolor) ∨
        (OpenAfter tag cs ∧ c.2 ≠ .ended tag) := by
  constructor
  · rintro ⟨before, t₀, desp, details, bgcolor, after, heq, hafter⟩
    rcases Runs.concat_eq_append_cons_iff.mp heq with ⟨-, rfl, -⟩ | ⟨rest, rfl, rfl⟩
    · exact Or.inl ⟨desp, details, bgcolor, rfl⟩
    · refine Or.inr ⟨⟨before, t₀, desp, details, bgcolor, rest, rfl, ?_⟩, hafter c (by simp)⟩
      intro c' hc'
      exact hafter c' (List.mem_append_left _ hc')
  · rintro (⟨desp, details, bgcolor, hc⟩ |
      ⟨⟨before, t₀, desp, details, bgcolor, after, rfl, hafter⟩, hc⟩)
    · exact ⟨cs, c.1, desp, details, bgcolor, [], by rw [← hc], by simp⟩
    · refine ⟨before, t₀, desp, details, bgcolor, after ++ [c], by simp, ?_⟩
      intro c' hc'
      rcases List.mem_append.mp hc' with hc' | hc'
      · exact hafter c' hc'
      · rw [List.mem_singleton.mp hc']
        exact hc

theorem lookup_calls (cs : List (Int × ContCall)) (tag : String) :
    (recorded cs).continuous.lookup tag ≠ none ↔ OpenAfter tag cs := by
  induction cs using List.reverseRecOn with
  | nil => simp [recorded, Annotation.calls, mkAnnotation, OpenAfter]
  | append_singleton cs c ih =>
    have hcall : recorded (cs ++ [c]) = (recorded cs).call c := by
      simp [recorded, Annotation.calls]
    rw [hcall, ne_eq, lookup_call, openAfter_concat, ← ih]
    cases hc : c.2 with
    | color tag' desp details bgcolor =>
      by_cases h : tag' = tag <;> simp [ContCall.tag, h]
    | ended tag' => by_cases h : tag' = tag <;> simp [ContCall.tag, h]

theorem idleEnds_eq_nil_iff (an : Annotation) (cs : List (Int × ContCall)) :
    idleEnds an cs = [] ↔ ∀ pre t₀ tag post, cs = pre ++ (t₀, .ended tag) :: post →
      (an.calls pre).continuous.lookup tag ≠ none := by
  induction cs generalizing an with
  | nil => simp [idleEnds]
  | cons c cs ih =>
    -- the first call is the place in question, or it lies further on
    have hsplit : (∀ pre t₀ tag post, c :: cs = pre ++ (t₀, .ended tag) :: post →
        (an.calls pre).continuous.lookup tag ≠ none) ↔
        (∀ t₀ tag, c = (t₀, .ended tag) → an.continuous.lookup tag ≠ none) ∧
          ∀ pre t₀ tag post, cs = pre ++ (t₀, .ended tag) :: post →
            ((an.call c).calls pre).continuous.lookup tag ≠ none := by
      constructor
      · intro h
        refine ⟨fun t₀ tag hc => h [] t₀ tag cs (by rw [hc]; rfl), ?_⟩
        intro pre t₀ tag post hcs
        exact h (c :: pre) t₀ tag post (by rw [hcs]; rfl)
      · rintro ⟨hfirst, hrest⟩ pre t₀ tag post hcs
        cases pre with
        | nil => exact hfirst t₀ tag (List.cons.inj hcs).1
        | cons c' pre =>
          obtain ⟨rfl, htail⟩ := List.cons.inj hcs
          exact hrest pre t₀ tag post htail
    rw [hsplit, ← ih]
    obtain ⟨t₀, call⟩ := c
    cases call with
    | color tag desp details bgcolor => simp [idleEnds]
    | ended tag => simp [idleEnds]

/-- Continuous annotations tile time exactly if every `annotateContinuousEnd` has something to
end: what `finalize` returns is one interval for each `annotateContinuousColor`, and no more. -/
theorem finalize_tiles_iff (cs : List (Int × ContCall)) (ω : RangeOrder String) (t : Int) :
    ((recorded cs).finalize ω t).1.Perm (tiles t cs) ↔
      ∀ pre t₀ tag post, cs = pre ++ (t₀, .ended tag) :: post → OpenAfter tag pre := by
  have hfinal : ((recorded cs).finalize ω t).1.Perm
      (tiles t cs ++ idleEnds mkAnnotation cs) := by
    simpa [recorded, total, mkAnnotation, opened] using finalize_calls cs mkAnnotation ω t
  have hidle : ((recorded cs).finalize ω t).1.Perm (tiles t cs) ↔
      idleEnds mkAnnotation cs = [] := by
    constructor
    · intro h
      have hlength := (h.symm.trans hfinal).length_eq
      rw [List.length_append] at hlength
      exact List.eq_nil_of_length_eq_zero (by omega)
    · intro h
      rwa [h, List.append_nil] at hfinal
  rw [hidle, idleEnds_eq_nil_iff]
  simp only [← recorded_eq, lookup_calls]

/-- Clearing the failures when there are none ends an annotation that was never begun. -/
theorem idle_end_recorded : ¬ ((recorded [(5, .ended tagPartition)]).finalize
    (.stored String) 9).1.Perm (tiles 9 [(5, .ended tagPartition)]) := by
  decide

end Tester
