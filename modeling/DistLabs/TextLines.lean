import Mathlib.Data.List.Perm.Basic
import Mathlib.Data.List.Sort

/-!
# Lines of text and sorting them

The lines of a text, the text of given lines, and what the command `sort` makes
of several files. The order of lines is that of some locale: any total order.
Two sorted texts are equal just when their lines are the same up to order.
-/
namespace TextLines

variable {α : Type}

/-- The order in which a locale sorts lines. -/
structure Collation (α : Type) where
  le : List α → List α → Prop
  decidable : DecidableRel le
  trans : ∀ a b c, le a b → le b c → le a c
  antisymm : ∀ a b, le a b → le b a → a = b
  total : ∀ a b, le a b ∨ le b a

instance (c : Collation α) : DecidableRel c.le := c.decidable

instance (c : Collation α) : IsTrans (List α) c.le := ⟨c.trans⟩

instance (c : Collation α) : Std.Antisymm c.le := ⟨c.antisymm⟩

instance (c : Collation α) : Std.Total c.le := ⟨c.total⟩

theorem Collation.sort_eq_iff (c : Collation α) (ls ls' : List (List α)) :
    ls.insertionSort c.le = ls'.insertionSort c.le ↔ ls.Perm ls' := by
  constructor
  · intro h
    exact (List.perm_insertionSort c.le ls).symm.trans (h ▸ List.perm_insertionSort c.le ls')
  · intro h
    apply List.Perm.eq_of_pairwise' (r := c.le)
    · exact List.pairwise_insertionSort c.le ls
    · exact List.pairwise_insertionSort c.le ls'
    · exact ((List.perm_insertionSort c.le ls).trans h).trans
        (List.perm_insertionSort c.le ls').symm

variable [DecidableEq α] (nl : α)

/-- The lines of a text; the last one may lack its newline. -/
def lines : List α → List (List α)
  | [] => []
  | a :: s => if a = nl then [] :: lines s else (a :: (lines s).headD []) :: (lines s).tail

def unlines (ls : List (List α)) : List α := ls.flatMap (· ++ [nl])

@[simp] theorem lines_nil : lines nl [] = [] := rfl

theorem lines_newline (s : List α) : lines nl (nl :: s) = [] :: lines nl s := if_pos rfl

theorem lines_cons {a : α} (h : a ≠ nl) (s : List α) :
    lines nl (a :: s) = (a :: (lines nl s).headD []) :: (lines nl s).tail := if_neg h

theorem lines_newline_ne_nil (s : List α) : lines nl (s ++ [nl]) ≠ [] := by
  cases s with
  | nil => simp [lines_newline]
  | cons b s => by_cases hb : b = nl <;> simp [lines, hb]

/-- A text that ends with a newline does not run into the next one. -/
theorem lines_append (s t : List α) :
    lines nl (s ++ nl :: t) = lines nl (s ++ [nl]) ++ lines nl t := by
  induction s with
  | nil => rw [List.nil_append, List.nil_append, lines_newline, lines_newline]; rfl
  | cons a s ih =>
    by_cases ha : a = nl
    · subst ha
      rw [List.cons_append, List.cons_append, lines_newline, lines_newline, ih]
      rfl
    · rw [List.cons_append, List.cons_append, lines_cons nl ha, lines_cons nl ha, ih]
      obtain ⟨l, ls, hl⟩ := List.exists_cons_of_ne_nil (lines_newline_ne_nil nl s)
      rw [hl]
      rfl

theorem lines_of_notMem {l : List α} (h : nl ∉ l) : lines nl (l ++ [nl]) = [l] := by
  induction l with
  | nil => exact lines_newline nl []
  | cons a l ih =>
    have ha : a ≠ nl := fun he => h (he ▸ List.mem_cons_self)
    rw [List.cons_append, lines_cons nl ha, ih fun hm => h (List.mem_cons_of_mem a hm)]
    rfl

theorem notMem_of_mem_lines {s l : List α} (h : l ∈ lines nl s) : nl ∉ l := by
  induction s generalizing l with
  | nil => simp at h
  | cons a s ih =>
    by_cases ha : a = nl
    · subst ha
      rw [lines_newline] at h
      rcases List.mem_cons.mp h with rfl | h
      · exact List.not_mem_nil
      · exact ih h
    · rw [lines_cons nl ha] at h
      rcases List.mem_cons.mp h with rfl | h
      · cases hs : lines nl s with
        | nil => simpa using Ne.symm ha
        | cons l ls =>
          have hl : nl ∉ l := ih (by simp [hs])
          simp [Ne.symm ha, hl]
      · exact ih (List.mem_of_mem_tail h)

theorem lines_unlines {ls : List (List α)} (h : ∀ l ∈ ls, nl ∉ l) :
    lines nl (unlines nl ls) = ls := by
  induction ls with
  | nil => rfl
  | cons l ls ih =>
    have htail := ih fun l hl => h l (List.mem_cons_of_mem _ hl)
    calc lines nl (unlines nl (l :: ls))
        = lines nl (l ++ nl :: unlines nl ls) := by simp [unlines]
      _ = lines nl (l ++ [nl]) ++ lines nl (unlines nl ls) := lines_append nl l _
      _ = l :: ls := by rw [lines_of_notMem nl (h l List.mem_cons_self), htail]; rfl

/-- The lines of texts that end with a newline each, one after the other. -/
theorem lines_flatMap {β : Type} (f : β → List α) (bs : List β) :
    lines nl (bs.flatMap fun b => f b ++ [nl]) = bs.flatMap fun b => lines nl (f b ++ [nl]) := by
  induction bs with
  | nil => rfl
  | cons b bs ih =>
    rw [List.flatMap_cons, List.flatMap_cons, List.append_assoc, List.singleton_append,
      lines_append, ih]

/-- The command `sort` on several files: all their lines, in order. -/
def sortFiles (c : Collation α) (files : List (List α)) : List α :=
  unlines nl ((files.flatMap (lines nl)).insertionSort c.le)

/-- The sorted text keeps the lines and forgets all else. -/
theorem sortFiles_eq_iff (c : Collation α) (files files' : List (List α)) :
    sortFiles nl c files = sortFiles nl c files' ↔
      (files.flatMap (lines nl)).Perm (files'.flatMap (lines nl)) := by
  have hnl : ∀ fs : List (List α),
      ∀ l ∈ (fs.flatMap (lines nl)).insertionSort c.le, nl ∉ l := by
    intro fs l hl
    obtain ⟨f, -, hf⟩ := List.mem_flatMap.mp ((List.perm_insertionSort c.le _).mem_iff.mp hl)
    exact notMem_of_mem_lines nl hf
  rw [← c.sort_eq_iff]
  constructor
  · intro h
    rw [← lines_unlines nl (hnl files), ← lines_unlines nl (hnl files')]
    exact congrArg (lines nl) h
  · exact congrArg (unlines nl)

end TextLines
