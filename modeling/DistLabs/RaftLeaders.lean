import DistLabs.GoMaps

/-!
# The Raft tester's checks of leaders and terms

`checkOneLeader` asks the connected servers up to ten times who leads, each server at
a moment of its own, and groups the answers by term in a Go map, over which it then
ranges. What it concludes depends neither on the order of that loop nor, if no term
ever has two leaders, on the moments at which the servers answered.
-/
namespace RaftTest

open GoMaps

variable {n : Nat}

/-- What a check finds when it comes to a server: whether the server is connected, whether
the tester has a proxy for it, and the answer of `GetState`. -/
structure Look where
  connected : Bool
  up : Bool
  term : Int
  leader : Bool
  deriving DecidableEq

/-- The connected servers that say they lead, with their terms; `none` is a call through a
proxy that is `nil`. -/
def askLeaders (looks : Fin n → Look) : List (Fin n) → Option (List (Int × Fin n))
  | [] => some []
  | i :: is =>
    let look := looks i
    if look.connected then
      if look.up = false then none
      else (askLeaders looks is).map fun seen =>
        if look.leader then (look.term, i) :: seen else seen
    else askLeaders looks is

/-- The map from terms to their leaders. -/
def leadersByTerm (seen : List (Int × Fin n)) : GoMap Int (List (Fin n)) :=
  collect Prod.fst [] (fun leaders x => leaders ++ [x.2]) seen

/-- The loop over the map: an error for a term with several leaders, else the last term. -/
def lastTermWithLeader (leaders : GoMap Int (List (Fin n))) : List Int → Int → Except String Int
  | [], last => .ok last
  | term :: terms, last =>
    let count := (getD leaders term []).length
    if count > 1 then .error s!"term {term} has {count} (>1) leaders"
    else lastTermWithLeader leaders terms (if term > last then term else last)

inductive Verdict (n : Nat) where
  | leader (i : Fin n)
  | fatal (msg : String)
  | crashed
  deriving DecidableEq

/-- One pass of `checkOneLeader`; `none` is a pass that found no leader. -/
def lookForLeader (ω : RangeOrder Int) (looks : Fin n → Look) : Option (Verdict n) :=
  match askLeaders looks (List.finRange n) with
  | none => some .crashed
  | some seen =>
    let leaders := leadersByTerm seen
    match lastTermWithLeader leaders (ω.order leaders.keys) (-1) with
    | .error msg => some (.fatal msg)
    | .ok last =>
      if leaders.keys.length ≠ 0 then
        -- the map may lack the term -1, and then there is no first element
        match getD leaders last [] with
        | [] => some .crashed
        | i :: _ => some (.leader i)
      else none

def passesForLeader (ω : Nat → RangeOrder Int) (looks : Nat → Fin n → Look) :
    (left iters : Nat) → Verdict n
  | 0, _ => .fatal "expected one leader, got none"
  | left + 1, iters =>
    (lookForLeader (ω iters) (looks iters)).getD (passesForLeader ω looks left (iters + 1))

def checkOneLeader (ω : Nat → RangeOrder Int) (looks : Nat → Fin n → Look) : Verdict n :=
  passesForLeader ω looks 10 0

/-- `checkTerms` from the term found so far. -/
def agreeOnTerm (looks : Fin n → Look) : List (Fin n) → Int → Option (Except String Int)
  | [], term => some (.ok term)
  | i :: is, term =>
    let look := looks i
    if look.connected then
      if look.up = false then none
      else if term = -1 then agreeOnTerm looks is look.term
      else if term ≠ look.term then some (.error "servers disagree on term")
      else agreeOnTerm looks is term
    else agreeOnTerm looks is term

def checkTerms (looks : Fin n → Look) : Option (Except String Int) :=
  agreeOnTerm looks (List.finRange n) (-1)

/-! ## What one pass concludes -/

def Seen (looks : Fin n → Look) (i : Fin n) : Prop :=
  (looks i).connected = true ∧ (looks i).leader = true

instance (looks : Fin n → Look) (i : Fin n) : Decidable (Seen looks i) :=
  inferInstanceAs (Decidable (_ ∧ _))

/-- Two servers lead in one term. -/
def Clash (looks : Fin n → Look) : Prop :=
  ∃ i j, i ≠ j ∧ Seen looks i ∧ Seen looks j ∧ (looks i).term = (looks j).term

/-- The server leads in a later term than every other leader. -/
def Top (looks : Fin n → Look) (i : Fin n) : Prop :=
  Seen looks i ∧ ∀ j, Seen looks j → j ≠ i → (looks j).term < (looks i).term

/-- The tester has a proxy for every connected server, and terms are numbers from zero on. -/
structure Regular (looks : Fin n → Look) : Prop where
  up : ∀ i, (looks i).connected = true → (looks i).up = true
  term : ∀ i, Seen looks i → 0 ≤ (looks i).term

/-- The leaders of a term, in the order of the servers. -/
def leadersIn (looks : Fin n → Look) (term : Int) : List (Fin n) :=
  (List.finRange n).filter fun i => decide (Seen looks i ∧ (looks i).term = term)

theorem mem_leadersIn {looks : Fin n → Look} {term : Int} {i : Fin n} :
    i ∈ leadersIn looks term ↔ Seen looks i ∧ (looks i).term = term := by
  simp [leadersIn]

theorem askLeaders_eq {looks : Fin n → Look}
    (hup : ∀ i, (looks i).connected = true → (looks i).up = true) (is : List (Fin n)) :
    askLeaders looks is =
      some ((is.filter fun i => decide (Seen looks i)).map fun i => ((looks i).term, i)) := by
  induction is with
  | nil => rfl
  | cons i is ih =>
    rw [askLeaders, ih]
    by_cases hconnected : (looks i).connected = true
    · by_cases hleader : (looks i).leader = true
      · simp [Seen, hconnected, hleader, hup i hconnected]
      · simp [Seen, hconnected, hleader, hup i hconnected]
    · simp [Seen, hconnected]

/-- The seen leaders with their terms, as the passes collect them. -/
def seenLeaders (looks : Fin n → Look) : List (Int × Fin n) :=
  ((List.finRange n).filter fun i => decide (Seen looks i)).map fun i => ((looks i).term, i)

theorem getD_leadersByTerm (looks : Fin n → Look) (term : Int) :
    getD (leadersByTerm (seenLeaders looks)) term [] = leadersIn looks term := by
  rw [leadersByTerm, getD_collect, List.foldl_append_eq_append, List.nil_append]
  simp only [seenLeaders, leadersIn]
  induction List.finRange n with
  | nil => rfl
  | cons i is ih =>
    by_cases hseen : Seen looks i
    · by_cases hterm : (looks i).term = term
      · simpa [hseen, hterm] using ih
      · simpa [hseen, hterm] using ih
    · simpa [hseen] using ih

theorem mem_keys_leadersByTerm (looks : Fin n → Look) (term : Int) :
    term ∈ (leadersByTerm (seenLeaders looks)).keys ↔
      ∃ i, Seen looks i ∧ (looks i).term = term := by
  rw [← AList.mem_keys, leadersByTerm, mem_collect]
  simp [seenLeaders]

/-- With one leader a term, the loop finds the last of the terms. -/
theorem lastTermWithLeader_ok (leaders : GoMap Int (List (Fin n))) (terms : List Int) (last : Int)
    (h : ∀ term ∈ terms, (getD leaders term []).length ≤ 1) :
    ∃ t, lastTermWithLeader leaders terms last = .ok t ∧ last ≤ t ∧ (∀ term ∈ terms, term ≤ t) ∧
      (t = last ∨ t ∈ terms) := by
  induction terms generalizing last with
  | nil => exact ⟨last, rfl, by simp⟩
  | cons term terms ih =>
    have hone : ¬ (getD leaders term []).length > 1 := by
      have := h term List.mem_cons_self
      omega
    obtain ⟨t, ht, hlast, hall, hfrom⟩ := ih (if term > last then term else last)
      fun t ht => h t (List.mem_cons_of_mem term ht)
    have hbounds : last ≤ t ∧ term ≤ t := by
      split at hlast <;> omega
    refine ⟨t, by rw [lastTermWithLeader, if_neg hone, ht], hbounds.1, ?_, ?_⟩
    · intro x hx
      rcases List.mem_cons.mp hx with rfl | hx
      · exact hbounds.2
      · exact hall x hx
    · rcases hfrom with hfrom | hfrom
      · split at hfrom
        · exact Or.inr (hfrom ▸ List.mem_cons_self)
        · exact Or.inl hfrom
      · exact Or.inr (List.mem_cons_of_mem term hfrom)

theorem lastTermWithLeader_error (leaders : GoMap Int (List (Fin n))) (terms : List Int)
    (last : Int) {term : Int} (hterm : term ∈ terms) (h : 1 < (getD leaders term []).length) :
    ∃ t, 1 < (getD leaders t []).length ∧ lastTermWithLeader leaders terms last =
      .error s!"term {t} has {(getD leaders t []).length} (>1) leaders" := by
  induction terms generalizing last with
  | nil => cases hterm
  | cons t terms ih =>
    rw [lastTermWithLeader]
    by_cases ht : (getD leaders t []).length > 1
    · exact ⟨t, ht, by rw [if_pos ht]⟩
    · rw [if_neg ht]
      rcases List.mem_cons.mp hterm with rfl | hmem
      · exact absurd h ht
      · exact ih _ hmem

theorem clash_iff (looks : Fin n → Look) :
    Clash looks ↔ ∃ term, 1 < (leadersIn looks term).length := by
  have hnodup : ∀ term, (leadersIn looks term).Nodup := fun term => (List.nodup_finRange n).filter _
  constructor
  · rintro ⟨i, j, hne, hi, hj, hterm⟩
    refine ⟨(looks i).term, ?_⟩
    have hmem : i ∈ leadersIn looks (looks i).term := mem_leadersIn.mpr ⟨hi, rfl⟩
    have hmem' : j ∈ leadersIn looks (looks i).term := mem_leadersIn.mpr ⟨hj, hterm.symm⟩
    by_contra hle
    obtain ⟨k, hk⟩ := List.length_eq_one_iff.mp
      (show (leadersIn looks (looks i).term).length = 1 by
        have := List.length_pos_of_mem hmem
        omega)
    rw [hk, List.mem_singleton] at hmem hmem'
    exact hne (hmem.trans hmem'.symm)
  · rintro ⟨term, hlen⟩
    rcases hleaders : leadersIn looks term with _ | ⟨i, _ | ⟨j, rest⟩⟩
    · simp [hleaders] at hlen
    · simp [hleaders] at hlen
    · have hi : i ∈ leadersIn looks term := by simp [hleaders]
      have hj : j ∈ leadersIn looks term := by simp [hleaders]
      have hne : i ≠ j := by
        rintro rfl
        have := hnodup term
        simp [hleaders] at this
      obtain ⟨hi, hti⟩ := mem_leadersIn.mp hi
      obtain ⟨hj, htj⟩ := mem_leadersIn.mp hj
      exact ⟨i, j, hne, hi, hj, hti.trans htj.symm⟩

/-- The message about a term with several leaders. -/
def multipleLeaders (looks : Fin n → Look) (term : Int) : String :=
  let count := (leadersIn looks term).length
  s!"term {term} has {count} (>1) leaders"

theorem lookForLeader_clash {looks : Fin n → Look} (h : Regular looks) (ω : RangeOrder Int)
    (hclash : Clash looks) :
    ∃ term, 1 < (leadersIn looks term).length ∧
      lookForLeader ω looks = some (.fatal (multipleLeaders looks term)) := by
  obtain ⟨term, hlen⟩ := (clash_iff looks).mp hclash
  rw [← getD_leadersByTerm] at hlen
  have hkey : term ∈ ω.order (leadersByTerm (seenLeaders looks)).keys := by
    rw [RangeOrder.mem_order, mem_keys_leadersByTerm]
    rw [getD_leadersByTerm] at hlen
    obtain ⟨i, hi⟩ := List.exists_mem_of_length_pos (Nat.lt_of_succ_lt hlen)
    exact ⟨i, mem_leadersIn.mp hi⟩
  obtain ⟨t, ht, herr⟩ := lastTermWithLeader_error _ _ (-1) hkey hlen
  rw [getD_leadersByTerm] at ht herr
  refine ⟨t, ht, ?_⟩
  rw [lookForLeader, askLeaders_eq h.up, ← seenLeaders]
  simp only [herr]
  rfl

theorem lookForLeader_none {looks : Fin n → Look} (h : Regular looks) (ω : RangeOrder Int)
    (hnone : ∀ i, ¬ Seen looks i) : lookForLeader ω looks = none := by
  have hempty : seenLeaders looks = [] := by
    simp [seenLeaders, hnone]
  have hkeys : (leadersByTerm (seenLeaders looks)).keys = [] := by
    rw [hempty]
    rfl
  have horder : ω.order [] = [] := List.perm_nil.mp (ω.perm [])
  rw [lookForLeader, askLeaders_eq h.up, ← seenLeaders]
  simp [hkeys, horder, lastTermWithLeader]

theorem lookForLeader_top {looks : Fin n → Look} (h : Regular looks) (ω : RangeOrder Int)
    {i : Fin n} (hseen : Seen looks i) (hno : ¬ Clash looks) :
    ∃ j, Top looks j ∧ lookForLeader ω looks = some (.leader j) := by
  have hone : ∀ term, (leadersIn looks term).length ≤ 1 := by
    intro term
    by_contra hlen
    exact hno ((clash_iff looks).mpr ⟨term, by omega⟩)
  obtain ⟨t, hok, -, hall, hfrom⟩ := lastTermWithLeader_ok (leadersByTerm (seenLeaders looks))
    (ω.order (leadersByTerm (seenLeaders looks)).keys) (-1)
    (fun term _ => by rw [getD_leadersByTerm]; exact hone term)
  have hle : ∀ j, Seen looks j → (looks j).term ≤ t := by
    intro j hj
    apply hall
    rw [RangeOrder.mem_order, mem_keys_leadersByTerm]
    exact ⟨j, hj, rfl⟩
  -- terms start from zero, so the last one is not the -1 that the loop began with
  have hkey : t ∈ (leadersByTerm (seenLeaders looks)).keys := by
    rcases hfrom with rfl | hfrom
    · have hpos := h.term i hseen
      have := hle i hseen
      omega
    · exact (RangeOrder.mem_order ω _ t).mp hfrom
  obtain ⟨j, hj, hterm⟩ := (mem_keys_leadersByTerm looks t).mp hkey
  have hleaders : leadersIn looks t = [j] := by
    have hmem : j ∈ leadersIn looks t := mem_leadersIn.mpr ⟨hj, hterm⟩
    have hpos := List.length_pos_of_mem hmem
    have hle := hone t
    obtain ⟨k, hk⟩ := List.length_eq_one_iff.mp (show (leadersIn looks t).length = 1 by omega)
    rw [hk, List.mem_singleton] at hmem
    rw [hk, hmem]
  refine ⟨j, ⟨hj, ?_⟩, ?_⟩
  · intro k hk hne
    have hk' := hle k hk
    have hdiff : (looks k).term ≠ (looks j).term := fun he => hno ⟨k, j, hne, hk, hj, he⟩
    omega
  · have hkeys : (leadersByTerm (seenLeaders looks)).keys.length ≠ 0 := by
      have := List.length_pos_of_mem hkey
      omega
    rw [lookForLeader, askLeaders_eq h.up, ← seenLeaders]
    simp only [hok, if_pos hkeys, getD_leadersByTerm, hleaders]

/-! ## What the check concludes -/

theorem passesForLeader_first (ω : Nat → RangeOrder Int) {looks : Nat → Fin n → Look}
    (h : ∀ k, Regular (looks k)) {left iters k : Nat} (hk : k < left)
    (hnone : ∀ l, l < k → ∀ i, ¬ Seen (looks (iters + l)) i) {verdict : Verdict n}
    (hverdict : lookForLeader (ω (iters + k)) (looks (iters + k)) = some verdict) :
    passesForLeader ω looks left iters = verdict := by
  induction left generalizing iters k with
  | zero => omega
  | succ left ih =>
    rw [passesForLeader]
    cases k with
    | zero => rw [← Nat.add_zero iters, hverdict, Option.getD_some]
    | succ k =>
      have hfirst := hnone 0 (Nat.succ_pos k)
      rw [Nat.add_zero] at hfirst
      rw [lookForLeader_none (h iters) _ hfirst, Option.getD_none]
      rw [show iters + (k + 1) = iters + 1 + k by omega] at hverdict
      refine ih (by omega) ?_ hverdict
      intro l hl
      have := hnone (l + 1) (by omega)
      rwa [show iters + (l + 1) = iters + 1 + l by omega] at this

theorem passesForLeader_none (ω : Nat → RangeOrder Int) {looks : Nat → Fin n → Look}
    (h : ∀ k, Regular (looks k)) (left iters : Nat)
    (hnone : ∀ l, l < left → ∀ i, ¬ Seen (looks (iters + l)) i) :
    passesForLeader ω looks left iters = .fatal "expected one leader, got none" := by
  induction left generalizing iters with
  | zero => rfl
  | succ left ih =>
    have hfirst := hnone 0 (Nat.succ_pos left)
    rw [Nat.add_zero] at hfirst
    rw [passesForLeader, lookForLeader_none (h iters) _ hfirst, Option.getD_none]
    apply ih
    intro l hl
    have := hnone (l + 1) (by omega)
    rwa [show iters + (l + 1) = iters + 1 + l by omega] at this

/-- Nobody was seen to lead in any pass before this one, and somebody is seen now. -/
def FirstSeen (looks : Nat → Fin n → Look) (k : Nat) : Prop :=
  (∀ l, l < k → ∀ i, ¬ Seen (looks l) i) ∧ ∃ i, Seen (looks k) i

theorem exists_firstSeen {looks : Nat → Fin n → Look} {k : Nat} {i : Fin n}
    (h : Seen (looks k) i) : ∃ l, l ≤ k ∧ FirstSeen looks l := by
  induction k using Nat.strong_induction_on generalizing i with
  | _ k ih =>
    by_cases hbefore : ∃ l, l < k ∧ ∃ j, Seen (looks l) j
    · obtain ⟨l, hl, j, hj⟩ := hbefore
      obtain ⟨m, hm, hfirst⟩ := ih l hl hj
      exact ⟨m, by omega, hfirst⟩
    · refine ⟨k, Nat.le_refl k, ?_, i, h⟩
      intro l hl j hj
      exact hbefore ⟨l, hl, j, hj⟩

/-- The verdict is settled by the first of the ten passes in which somebody leads, and it is
about what was seen there: a clash is reported with a term in which it happened; without a
clash, the leader of the last term is returned. In whatever order Go ranges over its maps. -/
theorem checkOneLeader_cases (ω : Nat → RangeOrder Int) {looks : Nat → Fin n → Look}
    (h : ∀ k, Regular (looks k)) :
    (∃ k, k < 10 ∧ FirstSeen looks k ∧ Clash (looks k) ∧
      ∃ term, 1 < (leadersIn (looks k) term).length ∧
        checkOneLeader ω looks = .fatal (multipleLeaders (looks k) term)) ∨
    (∃ k, k < 10 ∧ FirstSeen looks k ∧ ¬ Clash (looks k) ∧
      ∃ i, Top (looks k) i ∧ checkOneLeader ω looks = .leader i) ∨
    ((∀ k, k < 10 → ∀ i, ¬ Seen (looks k) i) ∧
      checkOneLeader ω looks = .fatal "expected one leader, got none") := by
  by_cases hseen : ∃ k, k < 10 ∧ FirstSeen looks k
  · obtain ⟨k, hk, hfirst⟩ := hseen
    have hbefore : ∀ l, l < k → ∀ i, ¬ Seen (looks (0 + l)) i := by
      intro l hl
      rw [Nat.zero_add]
      exact hfirst.1 l hl
    have hpass : ∀ verdict, lookForLeader (ω k) (looks k) = some verdict →
        checkOneLeader ω looks = verdict := by
      intro verdict hverdict
      rw [← Nat.zero_add k] at hverdict
      exact passesForLeader_first ω h hk hbefore hverdict
    by_cases hclash : Clash (looks k)
    · obtain ⟨term, hlen, hfatal⟩ := lookForLeader_clash (h k) (ω k) hclash
      exact Or.inl ⟨k, hk, hfirst, hclash, term, hlen, hpass _ hfatal⟩
    · obtain ⟨i, hi⟩ := hfirst.2
      obtain ⟨j, htop, hleader⟩ := lookForLeader_top (h k) (ω k) hi hclash
      exact Or.inr (Or.inl ⟨k, hk, hfirst, hclash, j, htop, hpass _ hleader⟩)
  · have hnone : ∀ k, k < 10 → ∀ i, ¬ Seen (looks k) i := by
      intro k hk i hi
      obtain ⟨l, hl, hfirst⟩ := exists_firstSeen hi
      exact hseen ⟨l, by omega, hfirst⟩
    refine Or.inr (Or.inr ⟨hnone, passesForLeader_none ω h 10 0 ?_⟩)
    intro l hl
    rw [Nat.zero_add]
    exact hnone l hl

/-! ## Raft with one leader a term -/

/-- The term of each server and whether it leads, at every moment. -/
abbrev History (n : Nat) := Nat → Fin n → Int × Bool

/-- No term ever has two leaders, not even at different moments. -/
def ElectionSafety (hist : History n) : Prop :=
  ∀ t u i j term, hist t i = (term, true) → hist u j = (term, true) → i = j

/-- Each answer was the state of its server at some moment. -/
def AnswersFrom (hist : History n) (looks : Nat → Fin n → Look) : Prop :=
  ∀ k i, ∃ t, hist t i = ((looks k i).term, (looks k i).leader)

/-- No false alarm: with one leader a term, though the servers are asked one after the other
while leaders change, the check returns a server that led in the last term seen, unless no
connected server led whenever it was asked. -/
theorem checkOneLeader_safe (ω : Nat → RangeOrder Int) {looks : Nat → Fin n → Look}
    (h : ∀ k, Regular (looks k)) {hist : History n} (hsafe : ElectionSafety hist)
    (hanswers : AnswersFrom hist looks) :
    (∃ k, k < 10 ∧ FirstSeen looks k ∧ ∃ i, checkOneLeader ω looks = .leader i ∧
      Top (looks k) i ∧ ∃ t, hist t i = ((looks k i).term, true)) ∨
    ((∀ k, k < 10 → ∀ i, ¬ Seen (looks k) i) ∧
      checkOneLeader ω looks = .fatal "expected one leader, got none") := by
  have hled : ∀ k i, Seen (looks k) i → ∃ t, hist t i = ((looks k i).term, true) := by
    intro k i hi
    obtain ⟨t, ht⟩ := hanswers k i
    exact ⟨t, by rw [ht, hi.2]⟩
  rcases checkOneLeader_cases ω h with
    ⟨k, -, -, hclash, -⟩ | ⟨k, hk, hfirst, -, i, htop, hleader⟩ | hnone
  · obtain ⟨i, j, hne, hi, hj, hterm⟩ := hclash
    obtain ⟨t, ht⟩ := hled k i hi
    obtain ⟨u, hu⟩ := hled k j hj
    exact absurd (hsafe t u i j _ ht (by rw [hu, hterm])) hne
  · exact Or.inl ⟨k, hk, hfirst, i, hleader, htop, hled k i htop.1⟩
  · exact Or.inr hnone

/-- The leadership passes from one server to the other while the check asks them in turn. -/
def handover : History 2 := fun t i =>
  if t = 0 then (1, decide (i.val = 0)) else (2, decide (i.val = 1))

def handoverLooks : Nat → Fin 2 → Look := fun _ i =>
  if i.val = 0 then ⟨true, true, 1, true⟩ else ⟨true, true, 2, true⟩

theorem handover_safe : ElectionSafety handover ∧
    ∃ i, checkOneLeader (fun _ => RangeOrder.stored Int) handoverLooks = .leader i := by
  have hregular : ∀ k, Regular (handoverLooks k) := by
    intro k
    constructor
    · intro i _
      by_cases hi : i.val = 0 <;> simp [handoverLooks, hi]
    · intro i _
      by_cases hi : i.val = 0 <;> simp [handoverLooks, hi]
  have hsafe : ElectionSafety handover := by
    intro t u i j term hi hj
    have hbound := i.isLt
    have hbound' := j.isLt
    apply Fin.ext
    by_cases ht : t = 0 <;> by_cases hu : u = 0 <;> simp [handover, ht, hu] at hi hj <;> omega
  have hanswers : AnswersFrom handover handoverLooks := by
    intro k i
    by_cases hi : i.val = 0
    · exact ⟨0, by simp [handover, handoverLooks, hi]⟩
    · exact ⟨1, by have := i.isLt; simp [handover, handoverLooks, hi]; omega⟩
  refine ⟨hsafe, ?_⟩
  rcases checkOneLeader_safe (fun _ => RangeOrder.stored Int) hregular hsafe hanswers with
    ⟨k, -, -, i, hi, -⟩ | ⟨hnone, -⟩
  · exact ⟨i, hi⟩
  · exact absurd ⟨rfl, rfl⟩ (hnone 0 (by decide) ⟨0, Nat.zero_lt_two⟩)

/-! ## Agreement on the term -/

theorem agreeOnTerm_found {looks : Fin n → Look}
    (hup : ∀ i, (looks i).connected = true → (looks i).up = true) (is : List (Fin n)) (term : Int)
    (hterm : term ≠ -1) :
    (agreeOnTerm looks is term = some (.ok term) ∧
      ∀ i ∈ is, (looks i).connected = true → (looks i).term = term) ∨
    (agreeOnTerm looks is term = some (.error "servers disagree on term") ∧
      ∃ i ∈ is, (looks i).connected = true ∧ (looks i).term ≠ term) := by
  induction is with
  | nil => exact Or.inl ⟨rfl, by simp⟩
  | cons i is ih =>
    rw [agreeOnTerm]
    by_cases hconnected : (looks i).connected = true
    · by_cases hsame : (looks i).term = term
      · simpa [hconnected, hup i hconnected, hterm, hsame] using ih
      · right
        simp [hconnected, hup i hconnected, hterm, hsame, Ne.symm hsame]
    · simpa [hconnected] using ih

/-- `checkTerms` returns the term of all connected servers, -1 if there is none, and fails
exactly if two of them answered with different terms. -/
theorem checkTerms_cases {looks : Fin n → Look}
    (hup : ∀ i, (looks i).connected = true → (looks i).up = true)
    (hterm : ∀ i, (looks i).connected = true → (looks i).term ≠ -1) :
    (∃ term, checkTerms looks = some (.ok term) ∧
      (∀ i, (looks i).connected = true → (looks i).term = term) ∧
      (term = -1 → ∀ i, (looks i).connected = false)) ∨
    (checkTerms looks = some (.error "servers disagree on term") ∧
      ∃ i j, (looks i).connected = true ∧ (looks j).connected = true ∧
        (looks i).term ≠ (looks j).term) := by
  have hlist : ∀ is : List (Fin n), (∃ term, agreeOnTerm looks is (-1) = some (.ok term) ∧
      (∀ i ∈ is, (looks i).connected = true → (looks i).term = term) ∧
      (term = -1 → ∀ i ∈ is, (looks i).connected = false)) ∨
      (agreeOnTerm looks is (-1) = some (.error "servers disagree on term") ∧
      ∃ i j, (looks i).connected = true ∧ (looks j).connected = true ∧
        (looks i).term ≠ (looks j).term) := by
    intro is
    induction is with
    | nil => exact Or.inl ⟨-1, rfl, by simp⟩
    | cons i is ih =>
      rw [agreeOnTerm]
      by_cases hconnected : (looks i).connected = true
      · have hi := hterm i hconnected
        rcases agreeOnTerm_found hup is _ hi with ⟨hok, hall⟩ | ⟨herr, j, -, hj, hne⟩
        · left
          refine ⟨(looks i).term, by simp [hconnected, hup i hconnected, hok], ?_, ?_⟩
          · intro j hj
            rcases List.mem_cons.mp hj with rfl | hj
            · exact fun _ => rfl
            · exact hall j hj
          · intro he
            exact absurd he hi
        · right
          exact ⟨by simp [hconnected, hup i hconnected, herr], j, i, hj, hconnected, hne⟩
      · simpa [hconnected] using ih
  simpa [checkTerms] using hlist (List.finRange n)

end RaftTest
