import Mathlib.Data.Set.Card
import DistLabs.DepthFirst
import DistLabs.Labgob
import DistLabs.Runs

/-!
# Every lower-case field is reported once

`checkType` is a depth-first search: the nodes are the types, and the work at a
struct type is to report its lower-case fields, each right before its type is
visited.
-/
namespace Labgob

open GoMaps DepthFirst Relation Runs

variable {τ : Type}

/-! ## The search that `checkType` makes -/

def fieldWork (isUpper : Char → Bool) (t : τ) (f : Field τ × Nat) : List (Work τ (τ × Nat)) :=
  if f.1.exported isUpper = false then [.emit (t, f.2), .visit f.1.type] else [.visit f.1.type]

def shapeWork (isUpper : Char → Bool) (t : τ) : Shape τ → List (Work τ (τ × Nat))
  | .struct fields => fields.zipIdx.flatMap (fieldWork isUpper t)
  | .slice elem => [.visit elem]
  | .array elem => [.visit elem]
  | .ptr elem => [.visit elem]
  | .map key elem => [.visit elem, .visit key]
  | .basic _ => []
  | .other => []

def typeWork (G : Types τ) (isUpper : Char → Bool) (t : τ) : List (Work τ (τ × Nat)) :=
  shapeWork isUpper t (G.shape t)

theorem visit_mem_fieldWork {isUpper : Char → Bool} {t c : τ} {f : Field τ × Nat} :
    .visit c ∈ fieldWork isUpper t f ↔ c = f.1.type := by
  unfold fieldWork
  split <;> simp

theorem emits_fieldWork (isUpper : Char → Bool) (t : τ) (f : Field τ × Nat) :
    emits (fieldWork isUpper t f) = if f.1.exported isUpper = false then [(t, f.2)] else [] := by
  unfold fieldWork
  split <;> rfl

theorem child_iff_refers (G : Types τ) (isUpper : Char → Bool) (t c : τ) :
    Child (typeWork G isUpper) t c ↔ Refers G t c := by
  unfold Child typeWork
  constructor
  · intro h
    cases hshape : G.shape t with
    | struct fields =>
      rw [hshape] at h
      obtain ⟨f, hf, hc⟩ := List.mem_flatMap.mp h
      rw [visit_mem_fieldWork.mp hc]
      exact .field hshape (List.fst_mem_of_mem_zipIdx hf)
    | slice elem =>
      obtain rfl : c = elem := by simpa [hshape, shapeWork] using h
      exact .slice hshape
    | array elem =>
      obtain rfl : c = elem := by simpa [hshape, shapeWork] using h
      exact .array hshape
    | ptr elem =>
      obtain rfl : c = elem := by simpa [hshape, shapeWork] using h
      exact .ptr hshape
    | map key elem =>
      obtain rfl | rfl : c = elem ∨ c = key := by simpa [hshape, shapeWork] using h
      · exact .elem hshape
      · exact .key hshape
    | basic k => simp [hshape, shapeWork] at h
    | other => simp [hshape, shapeWork] at h
  · intro h
    cases h with
    | field h hf =>
      obtain ⟨i, hi, rfl⟩ := List.mem_iff_getElem.mp hf
      rw [h]
      refine List.mem_flatMap.mpr ⟨(_, i), ?_, visit_mem_fieldWork.mpr rfl⟩
      simp [List.mem_zipIdx_iff_getElem?]
    | slice h => simp [h, shapeWork]
    | array h => simp [h, shapeWork]
    | ptr h => simp [h, shapeWork]
    | elem h => simp [h, shapeWork]
    | key h => simp [h, shapeWork]

theorem child_eq_refers (G : Types τ) (isUpper : Char → Bool) :
    Child (typeWork G isUpper) = Refers G := by
  funext t c
  exact propext (child_iff_refers G isUpper t c)

/-! ## What is reported of one type -/

/-- The numbers of the lower-case fields of a struct. -/
def lowerCaseFields (isUpper : Char → Bool) (fs : List (Field τ × Nat)) : List Nat :=
  (fs.filter fun f => !f.1.exported isUpper).map Prod.snd

theorem emits_fields (isUpper : Char → Bool) (t : τ) (fs : List (Field τ × Nat)) :
    emits (fs.flatMap (fieldWork isUpper t)) = (lowerCaseFields isUpper fs).map (t, ·) := by
  induction fs with
  | nil => rfl
  | cons f fs ih =>
    rw [List.flatMap_cons, emits_append, ih, emits_fieldWork]
    cases h : f.1.exported isUpper <;> simp [lowerCaseFields, h]

theorem mem_lowerCaseFields {isUpper : Char → Bool} {fields : List (Field τ)} {i : Nat} :
    i ∈ lowerCaseFields isUpper fields.zipIdx ↔
      ∃ f, fields[i]? = some f ∧ f.exported isUpper = false := by
  simp [lowerCaseFields, List.mem_zipIdx_iff_getElem?]

theorem nodup_lowerCaseFields (isUpper : Char → Bool) (fields : List (Field τ)) :
    (lowerCaseFields isUpper fields.zipIdx).Nodup := by
  have hindices : (fields.zipIdx.map Prod.snd).Nodup := by
    rw [List.zipIdx_map_snd]
    exact List.nodup_range'
  exact hindices.sublist (List.filter_sublist.map _)

/-- Only struct types have something to report. -/
theorem emits_typeWork (G : Types τ) (isUpper : Char → Bool) (t : τ) :
    (∃ fields, G.shape t = .struct fields ∧ emits (typeWork G isUpper t) =
      (lowerCaseFields isUpper fields.zipIdx).map (t, ·)) ∨
    ((∀ fields, G.shape t ≠ .struct fields) ∧ emits (typeWork G isUpper t) = []) := by
  unfold typeWork
  cases h : G.shape t with
  | struct fields => exact .inl ⟨fields, rfl, emits_fields isUpper t _⟩
  | slice elem => exact .inr ⟨nofun, rfl⟩
  | array elem => exact .inr ⟨nofun, rfl⟩
  | ptr elem => exact .inr ⟨nofun, rfl⟩
  | map key elem => exact .inr ⟨nofun, rfl⟩
  | basic k => exact .inr ⟨nofun, rfl⟩
  | other => exact .inr ⟨nofun, rfl⟩

theorem mem_emits_typeWork {G : Types τ} {isUpper : Char → Bool} {t : τ} {p : τ × Nat} :
    p ∈ emits (typeWork G isUpper t) ↔ p.1 = t ∧ LowerCase G isUpper t p.2 := by
  rcases emits_typeWork G isUpper t with ⟨fields, hshape, hemits⟩ | ⟨hshape, hemits⟩
  · rw [hemits, List.mem_map]
    constructor
    · rintro ⟨i, hi, rfl⟩
      obtain ⟨f, hf, hlower⟩ := mem_lowerCaseFields.mp hi
      exact ⟨rfl, fields, f, hshape, hf, hlower⟩
    · rintro ⟨rfl, fields', f, hshape', hf, hlower⟩
      rw [hshape] at hshape'
      cases hshape'
      exact ⟨p.2, mem_lowerCaseFields.mpr ⟨f, hf, hlower⟩, rfl⟩
  · rw [hemits]
    constructor
    · intro h
      cases h
    · rintro ⟨-, fields, f, h, -⟩
      exact absurd h (hshape fields)

theorem nodup_emits_typeWork (G : Types τ) (isUpper : Char → Bool) (t : τ) :
    (emits (typeWork G isUpper t)).Nodup := by
  rcases emits_typeWork G isUpper t with ⟨fields, -, hemits⟩ | ⟨-, hemits⟩
  · rw [hemits]
    exact (nodup_lowerCaseFields isUpper fields).map (Prod.mk_right_injective t)
  · rw [hemits]
    exact List.nodup_nil

theorem nodup_reports (G : Types τ) (isUpper : Char → Bool) {seen : List τ} (h : seen.Nodup) :
    (seen.flatMap fun u => emits (typeWork G isUpper u)).Nodup := by
  rw [List.nodup_flatMap]
  refine ⟨fun u _ => nodup_emits_typeWork G isUpper u, ?_⟩
  refine h.imp ?_
  intro u v huv p hu hv
  exact huv ((mem_emits_typeWork.mp hu).1.symm.trans (mem_emits_typeWork.mp hv).1)

/-! ## The simulation -/

variable [DecidableEq τ]

/-- The line printed for the `i`-th field of a type. -/
def reportLine (G : Types τ) (p : τ × Nat) : String :=
  match G.shape p.1 with
  | .struct fields => lowerCaseLine G p.1 ((fields[p.2]?.map Field.name).getD "")
  | _ => ""

/-- The global variables are those of a state of the search. -/
structure Shows (G : Types τ) (st : Globals τ) (s : State τ (τ × Nat)) : Prop where
  checked : ∀ t, st.isChecked t = true ↔ t ∈ s.seen
  reported : st.reported = s.out
  errorCount : st.errorCount = s.out.length
  printed : st.printed = s.out.map (reportLine G)

namespace Shows

variable {G : Types τ} {st : Globals τ} {s : State τ (τ × Nat)}

theorem start (G : Types τ) : Shows G .start .empty where
  checked := by simp [Globals.start, State.empty, Globals.isChecked]
  reported := rfl
  errorCount := rfl
  printed := rfl

theorem enter (h : Shows G st s) (t : τ) :
    Shows G { st with checked := st.checked.insert t true } { s with seen := t :: s.seen } where
  checked := by
    intro u
    have hu := h.checked u
    simp only [Globals.isChecked, lookup_insert_apply, List.mem_cons] at hu ⊢
    split
    · next heq => simp [heq]
    · next hne => simp [hne, hu]
  reported := h.reported
  errorCount := h.errorCount
  printed := h.printed

/-- The complaint about a lower-case field is what the work for it emits. -/
theorem field {isUpper : Char → Bool} {t : τ} {fields : List (Field τ)} {f : Field τ × Nat}
    (hshape : G.shape t = .struct fields) (hf : f ∈ fields.zipIdx) (h : Shows G st s)
    (hlower : f.1.exported isUpper = false) :
    Shows G (checkField G isUpper t f.1 f.2 st) { s with out := s.out ++ [(t, f.2)] } := by
  have hline : reportLine G (t, f.2) = lowerCaseLine G t f.1.name := by
    rw [List.mem_zipIdx_iff_getElem?] at hf
    simp [reportLine, hshape, hf]
  rw [checkField, if_pos hlower]
  constructor
  · exact h.checked
  · simp [h.reported]
  · simp [h.errorCount]
  · simp [h.printed, hline]

end Shows

/-- One call of `checkType` does what the search does. -/
def Follows (G : Types τ) (check : τ → Globals τ → Option (Globals τ))
    (visit : τ → State τ (τ × Nat) → Option (State τ (τ × Nat))) : Prop :=
  ∀ t st s s', Shows G st s → visit t s = some s' → ∃ st', check t st = some st' ∧ Shows G st' s'

theorem follows_field {G : Types τ} {check : τ → Globals τ → Option (Globals τ)}
    {visit : τ → State τ (τ × Nat) → Option (State τ (τ × Nat))} (hfollows : Follows G check visit)
    (isUpper : Char → Bool) {t : τ} {fields : List (Field τ)} (hshape : G.shape t = .struct fields)
    {f : Field τ × Nat} (hf : f ∈ fields.zipIdx) {st : Globals τ} {s s' : State τ (τ × Nat)}
    (h : Shows G st s) (hs' : (fieldWork isUpper t f).foldlM (perform visit) s = some s') :
    ∃ st', check f.1.type (checkField G isUpper t f.1 f.2 st) = some st' ∧ Shows G st' s' := by
  unfold fieldWork at hs'
  split at hs'
  · next hlower =>
    have hvisit : visit f.1.type { s with out := s.out ++ [(t, f.2)] } = some s' := by
      simpa [perform] using hs'
    exact hfollows _ _ _ _ (h.field hshape hf hlower) hvisit
  · next hupper =>
    have hvisit : visit f.1.type s = some s' := by simpa [perform] using hs'
    rw [checkField, if_neg hupper]
    exact hfollows _ _ _ _ h hvisit

theorem follows_checkType (G : Types τ) (isUpper : Char → Bool) (fuel : Nat) :
    Follows G (checkType G isUpper fuel) (visit (typeWork G isUpper) fuel) := by
  induction fuel with
  | zero =>
    intro t st s s' _ hs'
    cases hs'
  | succ fuel ih =>
    intro t st s s' h hs'
    rw [visit] at hs'
    rw [checkType]
    by_cases hseen : t ∈ s.seen
    · rw [if_pos hseen] at hs'
      cases hs'
      exact ⟨st, if_pos ((h.checked t).mpr hseen), h⟩
    · rw [if_neg hseen] at hs'
      rw [if_neg (fun hchecked => hseen ((h.checked t).mp hchecked))]
      have henter := h.enter t
      rw [typeWork] at hs'
      cases hshape : G.shape t with
      | struct fields =>
        rw [hshape] at hs'
        rw [shapeWork, foldlM_flatMap] at hs'
        refine foldlM_follows fields.zipIdx ?_ henter hs'
        intro f hf st₁ s₁ s₂ h₁ hs₂
        exact follows_field ih isUpper hshape hf h₁ hs₂
      | slice elem =>
        rw [hshape] at hs'
        exact ih _ _ _ _ henter (by simpa [shapeWork, perform] using hs')
      | array elem =>
        rw [hshape] at hs'
        exact ih _ _ _ _ henter (by simpa [shapeWork, perform] using hs')
      | ptr elem =>
        rw [hshape] at hs'
        exact ih _ _ _ _ henter (by simpa [shapeWork, perform] using hs')
      | map key elem =>
        rw [hshape] at hs'
        obtain ⟨s₁, helem, hkey⟩ := Option.bind_eq_some_iff.mp hs'
        obtain ⟨st₁, hst₁, h₁⟩ := ih elem _ _ _ henter helem
        obtain ⟨st', hst', h'⟩ := ih key _ _ _ h₁ (by simpa [perform] using hkey)
        exact ⟨st', by simp only [hst₁, Option.bind_some, hst'], h'⟩
      | basic k =>
        rw [hshape] at hs'
        cases hs'
        exact ⟨_, rfl, henter⟩
      | other =>
        rw [hshape] at hs'
        cases hs'
        exact ⟨_, rfl, henter⟩

/-! ## Completeness -/

/-- The types that can be reached from the types `ts`. -/
def Reachable (G : Types τ) (ts : List τ) (t : τ) : Prop := ∃ r ∈ ts, ReflTransGen (Refers G) r t

/-- The fields to complain about, with their types. -/
def offences (G : Types τ) (isUpper : Char → Bool) (ts : List τ) : Set (τ × Nat) :=
  {p | Reachable G ts p.1 ∧ LowerCase G isUpper p.1 p.2}

/-- Calls of `checkType` on any types, one after the other, return; what they have checked is
what can be reached from these types, and each lower-case field of it is reported once. -/
theorem checkType_complete [Fintype τ] (G : Types τ) (isUpper : Char → Bool) (ts : List τ)
    (fuel : Nat) (hfuel : Fintype.card τ < fuel) :
    ∃ st, ts.foldlM (fun st t => checkType G isUpper fuel t st) .start = some st ∧
      (∀ t, st.isChecked t = true ↔ Reachable G ts t) ∧
      st.reported.Nodup ∧ (∀ p, p ∈ st.reported ↔ p ∈ offences G isUpper ts) ∧
      st.printed = st.reported.map (reportLine G) ∧
      st.errorCount = (offences G isUpper ts).ncard := by
  obtain ⟨s, hs, hnodup, hseen, hout⟩ := search_reachable (typeWork G isUpper) ts hfuel
  obtain ⟨st, hst, h⟩ := foldlM_follows ts
    (fun t _ => follows_checkType G isUpper fuel t) (Shows.start G) hs
  rw [child_eq_refers] at hseen
  have hreported : ∀ p, p ∈ st.reported ↔ p ∈ offences G isUpper ts := by
    intro p
    rw [h.reported, hout.mem_iff, List.mem_flatMap]
    constructor
    · rintro ⟨u, hu, hp⟩
      obtain ⟨rfl, hlower⟩ := mem_emits_typeWork.mp hp
      exact ⟨(hseen _).mp hu, hlower⟩
    · rintro ⟨hreach, hlower⟩
      exact ⟨p.1, (hseen _).mpr hreach, mem_emits_typeWork.mpr ⟨rfl, hlower⟩⟩
  have honce : st.reported.Nodup := by
    rw [h.reported, hout.nodup_iff]
    exact nodup_reports G isUpper hnodup
  refine ⟨st, hst, fun t => (h.checked t).trans (hseen t), honce, hreported, ?_, ?_⟩
  · rw [h.printed, h.reported]
  · -- the list has no duplicates, so its length counts the set
    have hset : offences G isUpper ts = ↑st.reported.toFinset := by
      ext p
      rw [← hreported, Finset.mem_coe, List.mem_toFinset]
    rw [hset, Set.ncard_coe_finset, List.toFinset_card_of_nodup honce, h.errorCount, h.reported]

/-! The types of `TestCapital`: `[]map[*T4]int` is encoded, `*[]map[T4]int` decoded. -/

inductive Capital where
  | int | t4 | ptrT4 | mapPtrT4 | sliceMapPtrT4 | mapT4 | sliceMapT4 | ptrSliceMapT4
  deriving DecidableEq

instance : Fintype Capital where
  elems := {.int, .t4, .ptrT4, .mapPtrT4, .sliceMapPtrT4, .mapT4, .sliceMapT4, .ptrSliceMapT4}
  complete := by
    intro t
    cases t <;> decide

def capital : Types Capital where
  name
    | .int => "int"
    | .t4 => "T4"
    | _ => ""
  shape
    | .int => .basic (.int .int)
    | .t4 => .struct [⟨"Yes", .int, false⟩, ⟨"no", .int, false⟩]
    | .ptrT4 => .ptr .t4
    | .mapPtrT4 => .map .ptrT4 .int
    | .sliceMapPtrT4 => .slice .mapPtrT4
    | .mapT4 => .map .t4 .int
    | .sliceMapT4 => .slice .mapT4
    | .ptrSliceMapT4 => .ptr .sliceMapT4

theorem checkType_capital :
    Fintype.card Capital < 9 ∧
    ∃ st, [Capital.sliceMapPtrT4, .ptrSliceMapT4].foldlM
        (fun st t => checkType capital Char.isUpper 9 t st) .start = some st ∧
      (∀ t, st.isChecked t = true) ∧ st.reported = [(.t4, 1)] ∧
      (offences capital Char.isUpper [.sliceMapPtrT4, .ptrSliceMapT4]).ncard = 1 := by
  obtain ⟨st, hst, -, -, -, -, hcount⟩ := checkType_complete capital Char.isUpper
    [.sliceMapPtrT4, .ptrSliceMapT4] 9 (by decide)
  refine ⟨by decide, st, hst, ?_⟩
  cases hst
  exact ⟨by decide, by decide, hcount.symm⟩

end Labgob
