import DistLabs.KvPuts

/-!
# Racing appends leave what the check expects

`CheckAppends` rebuilds from the list, for each client, the next number it expects
and how many it has skipped. The numbers of a client are strictly increasing:
each iteration appends at most once, and a put that was based on an old list has
an old version and takes no effect. What is missing among them is due to
`ErrMaybe`.

The other way round the checks are weak. What passes them is described in closed form:
it is bounded from above by what was acknowledged, but not from below.
-/
namespace KvTest

open GoMaps Versioned Runs

variable {n : Nat}

/-! ## Increasing numbers -/

/-- The numbers of a client in the list. -/
def mine (es : List EntryN) (c : Int) : List Int := (es.filter fun e => e.id = c).map fun e => e.n

theorem mine_concat (es : List EntryN) (e : EntryN) (c : Int) :
    mine (es ++ [e]) c = if e.id = c then mine es c ++ [e.n] else mine es c := by
  by_cases h : e.id = c <;> simp [mine, h]

def Ascending (ns : List Int) : Prop := ns.Pairwise (· < ·) ∧ ∀ k ∈ ns, 0 ≤ k

/-- The number after the last one. -/
def reach (ns : List Int) : Int := ns.foldl (fun _ k => k + 1) 0

@[simp] theorem reach_nil : reach [] = 0 := rfl
@[simp] theorem reach_concat (ns : List Int) (k : Int) : reach (ns ++ [k]) = k + 1 := by
  simp [reach]

theorem reach_le {ns : List Int} {b : Int} (hb : 0 ≤ b) (h : ∀ k ∈ ns, k < b) : reach ns ≤ b := by
  induction ns using List.reverseRecOn with
  | nil => exact hb
  | append_singleton ns k _ =>
    have hk := h k (by simp)
    rw [reach_concat]
    omega

theorem ascending_concat {ns : List Int} {k : Int} :
    Ascending (ns ++ [k]) ↔ Ascending ns ∧ (∀ m ∈ ns, m < k) ∧ 0 ≤ k := by
  simp only [Ascending, List.pairwise_append, List.mem_append, List.mem_singleton]
  constructor
  · rintro ⟨⟨hns, -, hlt⟩, hpos⟩
    exact ⟨⟨hns, fun m hm => hpos m (Or.inl hm)⟩, fun m hm => hlt m hm k rfl, hpos k (Or.inr rfl)⟩
  · rintro ⟨⟨hns, hpos⟩, hlt, hk⟩
    refine ⟨⟨hns, List.pairwise_singleton _ _, ?_⟩, ?_⟩
    · rintro m hm _ rfl
      exact hlt m hm
    · rintro m (hm | rfl)
      · exact hpos m hm
      · exact hk

theorem Ascending.lt_reach {ns : List Int} (h : Ascending ns) : ∀ k ∈ ns, k < reach ns := by
  induction ns using List.reverseRecOn with
  | nil => simp
  | append_singleton ns m _ =>
    obtain ⟨-, hlt, -⟩ := ascending_concat.mp h
    intro k hk
    rw [reach_concat]
    rcases List.mem_append.mp hk with hk | hk
    · have := hlt k hk
      omega
    · rw [List.mem_singleton.mp hk]
      omega

theorem Ascending.reach_nonneg {ns : List Int} (h : Ascending ns) : 0 ≤ reach ns := by
  induction ns using List.reverseRecOn with
  | nil => simp
  | append_singleton ns m _ =>
    have := (ascending_concat.mp h).2.2
    rw [reach_concat]
    omega

/-- The numbers below the last one that are missing. -/
def skippedNs (ns : List Int) : List Nat :=
  (List.range (reach ns).toNat).filter fun (k : Nat) => (k : Int) ∉ ns

/-- Below the last number, every number is there or missing. -/
theorem Ascending.length_skippedNs {ns : List Int} (h : Ascending ns) :
    ((skippedNs ns).length : Int) = reach ns - ns.length := by
  have hpresent : ((List.range (reach ns).toNat).filter fun (k : Nat) => (k : Int) ∈ ns).length =
      (ns.map Int.toNat).length := by
    refine ((List.perm_ext_iff_of_nodup (List.nodup_range.filter _) ?_).mpr ?_).length_eq
    · refine List.Nodup.map_on ?_ (h.1.imp fun hlt => ne_of_lt hlt)
      intro a ha b hb hab
      have ha' := h.2 a ha
      have hb' := h.2 b hb
      omega
    · intro k
      simp only [List.mem_filter, List.mem_range, List.mem_map, decide_eq_true_eq]
      constructor
      · rintro ⟨-, hk⟩
        exact ⟨k, hk, by simp⟩
      · rintro ⟨m, hm, rfl⟩
        have hlt := h.lt_reach m hm
        have hpos := h.2 m hm
        have hcast : ((m.toNat : Nat) : Int) = m := Int.toNat_of_nonneg hpos
        exact ⟨by omega, by rwa [hcast]⟩
  have hsplit := List.length_eq_length_filter_add (l := List.range (reach ns).toNat)
    fun (k : Nat) => decide ((k : Int) ∈ ns)
  have hnonneg := h.reach_nonneg
  rw [List.length_range, hpresent, List.length_map] at hsplit
  simp only [skippedNs, decide_not]
  omega

/-! ## What the check computes -/

/-- What the loop of `CheckAppends` has found in the entries so far. -/
structure Tallied (nclnt : Nat) (es : List EntryN) (t : Tally) : Prop where
  expect : ∀ c, getD t.expect c 0 = reach (mine es c)
  skipped : ∀ c, getD t.skipped c 0 = reach (mine es c) - (mine es c).length
  keys : ∀ c, c ∈ t.expect ↔ (0 ≤ c ∧ c < nclnt) ∨ ∃ e ∈ es, e.id = c

theorem getD_insert {κ ν : Type} [DecidableEq κ] (m : GoMap κ ν) (k k' : κ) (v zero : ν) :
    getD (m.insert k v) k' zero = if k' = k then v else getD m k' zero := by
  rw [getD, lookup_insert_apply]
  split <;> rfl

/-- The first loop of `CheckAppends` enters zeros. -/
theorem start_zero (nclnt : Nat) (c : Int) :
    getD (Tally.start nclnt).expect c 0 = 0 ∧ getD (Tally.start nclnt).skipped c 0 = 0 := by
  rw [Tally.start]
  induction List.range nclnt using List.reverseRecOn with
  | nil => exact ⟨rfl, rfl⟩
  | append_singleton is i ih =>
    rw [List.foldl_append, List.foldl_cons, List.foldl_nil, getD_insert, getD_insert, ih.1, ih.2]
    simp

theorem mem_start (nclnt : Nat) (c : Int) :
    c ∈ (Tally.start nclnt).expect ↔ 0 ≤ c ∧ c < nclnt := by
  have hlist : ∀ is : List Nat, c ∈ (is.foldl (fun t (i : Nat) =>
      (⟨t.expect.insert i 0, t.skipped.insert i 0⟩ : Tally)) ⟨∅, ∅⟩).expect ↔
        ∃ i ∈ is, (i : Int) = c := by
    intro is
    induction is using List.reverseRecOn with
    | nil => simp
    | append_singleton is i ih =>
      rw [List.foldl_append, List.foldl_cons, List.foldl_nil, AList.mem_insert, ih]
      simp [or_and_right, exists_or, or_comm, eq_comm]
  rw [Tally.start, hlist]
  constructor
  · rintro ⟨i, hi, rfl⟩
    have := List.mem_range.mp hi
    omega
  · rintro ⟨hpos, hlt⟩
    exact ⟨c.toNat, List.mem_range.mpr (by omega), by omega⟩

theorem tallied_start (nclnt : Nat) : Tallied nclnt [] (Tally.start nclnt) :=
  ⟨fun c => (start_zero nclnt c).1, fun c => (start_zero nclnt c).2, by simp [mem_start]⟩

/-- The loop goes on at an entry with a large enough number. -/
theorem Tallied.count {nclnt : Nat} {es : List EntryN} {t : Tally} (h : Tallied nclnt es t)
    {e : EntryN} (he : reach (mine es e.id) ≤ e.n) :
    ∃ t', t.count e = .ok t' ∧ Tallied nclnt (es ++ [e]) t' := by
  have hexpected := h.expect e.id
  have hkeys : ∀ c, c = e.id ∨ c ∈ t.expect ↔
      (0 ≤ c ∧ c < nclnt) ∨ ∃ x ∈ es ++ [e], x.id = c := by
    intro c
    rw [h.keys c]
    simp only [List.mem_append, List.mem_singleton, or_and_right, exists_or, exists_eq_left]
    rw [or_comm, or_assoc, @eq_comm _ c]
  rw [Tally.count]
  simp only [hexpected]
  rw [if_neg (not_lt.mpr he)]
  split
  · rename_i hnext
    refine ⟨_, rfl, ?_, ?_, ?_⟩
    · intro c
      rw [getD_insert, mine_concat, h.expect c, hnext]
      by_cases hc : c = e.id
      · simp [hc]
      · simp [hc, Ne.symm hc]
    · intro c
      rw [h.skipped c, mine_concat]
      by_cases hc : c = e.id
      · subst hc
        simp [hnext]
      · simp [Ne.symm hc]
    · intro c
      rw [AList.mem_insert]
      exact hkeys c
  · refine ⟨_, rfl, ?_, ?_, ?_⟩
    · intro c
      rw [getD_insert, mine_concat, h.expect c]
      by_cases hc : c = e.id
      · simp [hc]
      · simp [hc, Ne.symm hc]
    · intro c
      rw [getD_insert, mine_concat, h.skipped c, h.skipped e.id]
      by_cases hc : c = e.id
      · subst hc
        simp
      · simp [hc, Ne.symm hc]
    · intro c
      rw [AList.mem_insert]
      exact hkeys c

/-- The loop ends in `Fatalf` at an entry with a smaller number. -/
theorem Tallied.count_old {nclnt : Nat} {es : List EntryN} {t : Tally} (h : Tallied nclnt es t)
    {e : EntryN} (he : e.n < reach (mine es e.id)) : ∃ text, t.count e = .error (.fatalf text) := by
  rw [Tally.count]
  simp only [h.expect e.id]
  rw [if_pos he]
  exact ⟨_, rfl⟩

theorem Ascending.concat_iff {ns : List Int} (h : Ascending ns) (k : Int) :
    Ascending (ns ++ [k]) ↔ reach ns ≤ k := by
  rw [ascending_concat]
  constructor
  · rintro ⟨-, hlt, hpos⟩
    exact reach_le hpos hlt
  · intro hreach
    refine ⟨h, ?_, le_trans h.reach_nonneg hreach⟩
    intro m hm
    exact lt_of_lt_of_le (h.lt_reach m hm) hreach

/-- The numbers of the clients are increasing up to an entry, and with it if it fits. -/
theorem ascending_mine_concat {es : List EntryN} (e : EntryN) :
    (∀ c, Ascending (mine (es ++ [e]) c)) ↔
      (∀ c, Ascending (mine es c)) ∧ reach (mine es e.id) ≤ e.n := by
  constructor
  · intro h
    have hbefore : ∀ c, Ascending (mine es c) := by
      intro c
      have hc := h c
      rw [mine_concat] at hc
      split at hc
      · exact (ascending_concat.mp hc).1
      · exact hc
    have hlast := h e.id
    rw [mine_concat, if_pos rfl, (hbefore e.id).concat_iff] at hlast
    exact ⟨hbefore, hlast⟩
  · rintro ⟨hbefore, hlast⟩ c
    rw [mine_concat]
    split
    · rename_i hid
      rw [← hid, (hbefore e.id).concat_iff]
      exact hlast
    · exact hbefore c

/-- The loop over the list goes through if the numbers of each client are increasing, and
else ends in `Fatalf`. -/
theorem foldlM_count (nclnt : Nat) (es : List EntryN) :
    ((∀ c, Ascending (mine es c)) ∧
      ∃ t, es.foldlM Tally.count (Tally.start nclnt) = .ok t ∧ Tallied nclnt es t) ∨
    ((¬ ∀ c, Ascending (mine es c)) ∧
      ∃ text, es.foldlM Tally.count (Tally.start nclnt) = .error (.fatalf text)) := by
  induction es using List.reverseRecOn with
  | nil => exact Or.inl ⟨fun c => ⟨List.Pairwise.nil, by simp [mine]⟩, _, rfl, tallied_start nclnt⟩
  | append_singleton es e ih =>
    rw [ascending_mine_concat, List.foldlM_append]
    rcases ih with ⟨hascending, t, ht, htallied⟩ | ⟨hnot, text, ht⟩
    · rw [ht]
      change (_ ∧ ∃ t', [e].foldlM Tally.count t = _ ∧ _) ∨ _ ∧ ∃ text,
        [e].foldlM Tally.count t = _
      rw [List.foldlM_cons]
      by_cases he : reach (mine es e.id) ≤ e.n
      · obtain ⟨t', ht', htallied'⟩ := htallied.count he
        rw [ht']
        exact Or.inl ⟨⟨hascending, he⟩, t', rfl, htallied'⟩
      · obtain ⟨text, htext⟩ := htallied.count_old (not_le.mp he)
        rw [htext]
        exact Or.inr ⟨fun h => he h.2, text, rfl⟩
    · rw [ht]
      exact Or.inr ⟨fun h => hnot h.1, text, rfl⟩

/-- A loop goes through if each of its passes does; else one of them fails. -/
theorem forM_cases {ε α : Type} (f : α → Except ε Unit) (xs : List α) :
    (xs.forM f = .ok () ∧ ∀ x ∈ xs, f x = .ok ()) ∨
      ∃ x ∈ xs, ∃ a, f x = .error a ∧ xs.forM f = .error a := by
  induction xs with
  | nil => exact Or.inl ⟨rfl, by simp⟩
  | cons x xs ih =>
    change ((f x >>= fun _ => xs.forM f) = _ ∧ _) ∨ ∃ y ∈ x :: xs, ∃ a, _ ∧
      (f x >>= fun _ => xs.forM f) = _
    cases hx : f x with
    | error a => exact Or.inr ⟨x, by simp, a, hx, rfl⟩
    | ok u =>
      rcases ih with ⟨hloop, hall⟩ | ⟨y, hy, a, hfy, hloop⟩
      · exact Or.inl ⟨hloop, by simpa [hx] using hall⟩
      · exact Or.inr ⟨y, by simp [hy], a, hfy, hloop⟩

/-- The ids that `CheckAppends` looks at: the clients' and those in the list. -/
def Looked (es : List EntryN) (nclnt : Nat) (c : Int) : Prop :=
  (0 ≤ c ∧ c < nclnt) ∨ ∃ e ∈ es, e.id = c

/-- The results allow what a client has in the list: it has skipped at most as many numbers
as it was told `ErrMaybe`, and its numbers stay below its `OK`s and `ErrMaybe`s. -/
def ClntRes.Allows (r : ClntRes) (ns : List Int) : Prop :=
  (skippedNs ns).length ≤ r.nmaybe ∧ reach ns ≤ r.nok + r.nmaybe

theorem Tallied.checkClient {nclnt : Nat} {es : List EntryN} {t : Tally} (h : Tallied nclnt es t)
    (hascending : ∀ c, Ascending (mine es c)) (rs : List ClntRes) (c : Int) :
    (∃ r, resultOf rs c = some r ∧ r.Allows (mine es c) ∧ t.checkClient rs c = .ok ()) ∨
    (∃ r, resultOf rs c = some r ∧ ¬ r.Allows (mine es c) ∧
      ∃ text, t.checkClient rs c = .error (.fatalf text)) ∨
    (resultOf rs c = none ∧ t.checkClient rs c = .error .panic) := by
  have hlen := (hascending c).length_skippedNs
  simp only [Tally.checkClient, h.expect, h.skipped, ← hlen]
  cases resultOf rs c with
  | none => exact Or.inr (Or.inr ⟨rfl, rfl⟩)
  | some r =>
    dsimp only
    by_cases hskipped : (skippedNs (mine es c)).length ≤ r.nmaybe
    · by_cases hreach : reach (mine es c) ≤ r.nok + r.nmaybe
      · refine Or.inl ⟨r, rfl, ⟨hskipped, hreach⟩, ?_⟩
        rw [if_neg (not_lt.mpr hskipped), if_neg (not_lt.mpr hreach)]
      · refine Or.inr (Or.inl ⟨r, rfl, fun hr => hreach hr.2, ?_⟩)
        rw [if_neg (not_lt.mpr hskipped), if_pos (not_le.mp hreach)]
        exact ⟨_, rfl⟩
    · refine Or.inr (Or.inl ⟨r, rfl, fun hr => hskipped hr.1, ?_⟩)
      rw [if_pos (not_le.mp hskipped)]
      exact ⟨_, rfl⟩

/-- What `CheckAppends` lets pass. -/
structure AppendsPass (es : List EntryN) (nclnt : Nat) (rs : List ClntRes) (ver : Tversion) :
    Prop where
  ascending : ∀ c, Ascending (mine es c)
  length : es.length + 1 = ver
  allowed : ∀ c, Looked es nclnt c → ∃ r, resultOf rs c = some r ∧ r.Allows (mine es c)

/-- `CheckAppends` returns on what it lets pass, in any order of its map; else it ends in
`Fatalf`, or in a panic at an id that has no result. -/
theorem checkAppends_cases (ω : RangeOrder Int) (es : List EntryN) (nclnt : Nat)
    (rs : List ClntRes) (ver : Tversion) :
    (AppendsPass es nclnt rs ver ∧ checkAppends ω es nclnt rs ver = .ok ()) ∨
    (¬ AppendsPass es nclnt rs ver ∧
      ∃ text, checkAppends ω es nclnt rs ver = .error (.fatalf text)) ∨
    (∃ c, Looked es nclnt c ∧ resultOf rs c = none ∧
      checkAppends ω es nclnt rs ver = .error .panic) := by
  rcases foldlM_count nclnt es with ⟨hascending, t, ht, htallied⟩ | ⟨hnot, text, ht⟩
  · rw [checkAppends, ht]
    change _ ∧ (if es.length + 1 ≠ ver then _ else _) = _ ∨
      (_ ∧ ∃ text, (if es.length + 1 ≠ ver then _ else _) = _) ∨
      ∃ c, _ ∧ _ ∧ (if es.length + 1 ≠ ver then _ else _) = _
    by_cases hlength : es.length + 1 = ver
    · simp only [if_neg (not_not.mpr hlength)]
      have hmem : ∀ c, c ∈ ω.order t.expect.keys ↔ Looked es nclnt c := by
        intro c
        rw [RangeOrder.mem_order, ← AList.mem_keys, htallied.keys c, Looked]
      rcases forM_cases (t.checkClient rs) (ω.order t.expect.keys) with ⟨hloop, hall⟩ |
        ⟨c, hc, a, hfails, hloop⟩
      · refine Or.inl ⟨⟨hascending, hlength, ?_⟩, hloop⟩
        intro c hc
        have hpass := hall c ((hmem c).mpr hc)
        rcases htallied.checkClient hascending rs c with ⟨r, hr, hallows, -⟩ |
          ⟨-, -, -, text, hfatal⟩ | ⟨-, hpanic⟩
        · exact ⟨r, hr, hallows⟩
        · simp [hpass] at hfatal
        · simp [hpass] at hpanic
      · rcases htallied.checkClient hascending rs c with ⟨-, -, -, hpass⟩ |
          ⟨r, hr, hnot, text, hfatal⟩ | ⟨hnone, hpanic⟩
        · simp [hpass] at hfails
        · rw [hfails] at hfatal
          refine Or.inr (Or.inl ⟨?_, text, hloop.trans hfatal⟩)
          intro hpass
          obtain ⟨r', hr', hallows⟩ := hpass.allowed c ((hmem c).mp hc)
          rw [hr] at hr'
          cases hr'
          exact hnot hallows
        · rw [hfails] at hpanic
          exact Or.inr (Or.inr ⟨c, (hmem c).mp hc, hnone, hloop.trans hpanic⟩)
    · simp only [if_pos hlength]
      exact Or.inr (Or.inl ⟨fun hpass => hlength hpass.length, _, rfl⟩)
  · rw [checkAppends, ht]
    exact Or.inr (Or.inl ⟨fun hpass => hnot hpass.ascending, text, rfl⟩)

theorem checkAppends_ok_iff (ω : RangeOrder Int) (es : List EntryN) (nclnt : Nat)
    (rs : List ClntRes) (ver : Tversion) :
    checkAppends ω es nclnt rs ver = .ok () ↔ AppendsPass es nclnt rs ver := by
  rcases checkAppends_cases ω es nclnt rs ver with ⟨hpass, hok⟩ | ⟨hnot, text, hfatal⟩ |
    ⟨c, hc, hnone, hpanic⟩
  · simp [hpass, hok]
  · simp [hnot, hfatal]
  · rw [hpanic]
    constructor
    · simp
    · intro hpass
      obtain ⟨r, hr, -⟩ := hpass.allowed c hc
      simp [hnone] at hr

/-! ## What the clients do -/

/-- The list that the key holds. -/
def contents (cell : Cell (Option (List EntryN))) : List EntryN := cell.value.getD []

/-- The key holds a list with one entry for each put since its creation, made by the
clients. -/
structure Listed (n : Nat) (cell : Cell (Option (List EntryN))) : Prop where
  present : cell.value = some (contents cell)
  length : (contents cell).length + 1 = cell.version
  ids : ∀ e ∈ contents cell, ∃ i : Fin n, e.id = (i : Nat)

/-- One if the put has taken effect and has not returned. -/
def unreturned : Option (Pending (Option (List EntryN))) → Nat
  | some ⟨_, _, true⟩ => 1
  | _ => 0

/-- The numbers of a client in the list and its counters. -/
structure Own (st : AppendClient) (u : Nat) (ns : List Int) : Prop where
  ascending : Ascending ns
  below : ∀ k ∈ ns, k < (st.i + u : Nat)
  counted : st.nok + u ≤ ns.length
  rounds : st.i = st.nok + st.nmay

/-- A client puts what it has read with its entry appended. What it has read is older than
the list, or is the list. -/
structure Appending (cell : Cell (Option (List EntryN))) (i : Fin n) (st : AppendClient)
    (p : Option (Pending (Option (List EntryN)))) : Prop where
  reads : ∀ es ver, st.pc = .put es ver →
    ver ≤ cell.version ∧ (ver = cell.version → contents cell = es)
  puts : ∀ q, p = some q → ∃ es, st.pc = .put es q.version ∧
    q.value = some (es ++ [⟨(i : Nat), st.i⟩])
  own : Own st (unreturned p) (mine (contents cell) (i : Nat))

/-- A put that takes effect appends the entry of its client. -/
theorem Appending.effect {cell : Cell (Option (List EntryN))} {i : Fin n} {st : AppendClient}
    {v : Option (List EntryN)} (h : Appending cell i st (some ⟨v, cell.version, false⟩)) :
    v = some (contents cell ++ [⟨(i : Nat), st.i⟩]) := by
  obtain ⟨es, hpc, hv⟩ := h.puts _ rfl
  rw [(h.reads es _ hpc).2 rfl]
  exact hv

theorem Own.effect {st : AppendClient} {ns : List Int} (h : Own st 0 ns) :
    Own st 1 (ns ++ [(st.i : Int)]) := by
  have hbelow := h.below
  have hcounted := h.counted
  refine ⟨ascending_concat.mpr ⟨h.ascending, hbelow, by omega⟩, ?_, ?_, h.rounds⟩
  · intro k hk
    rcases List.mem_append.mp hk with hk | hk
    · have := hbelow k hk
      omega
    · rw [List.mem_singleton.mp hk]
      omega
  · rw [List.length_append, List.length_singleton]
    omega

theorem Own.of_pc {st st' : AppendClient} {u : Nat} {ns : List Int} (h : Own st u ns)
    (hi : st'.i = st.i) (hnok : st'.nok = st.nok) (hnmay : st'.nmay = st.nmay) : Own st' u ns :=
  ⟨h.ascending, hi ▸ h.below, hnok ▸ h.counted, by rw [hi, hnok, hnmay]; exact h.rounds⟩

/-- After an `OK` or an `ErrMaybe` a client moves to its next iteration. -/
theorem Own.next {st : AppendClient} {u : Nat} {ns : List Int} (h : Own st u ns) (hu : u ≤ 1)
    (pc : AppendPc) {nok nmay : Nat} (hnok : nok ≤ st.nok + u)
    (hsum : nok + nmay = st.nok + st.nmay + 1) : Own ⟨pc, st.i + 1, nok, nmay⟩ 0 ns := by
  have hrounds := h.rounds
  have hcounted := h.counted
  refine ⟨h.ascending, ?_, ?_, ?_⟩
  · intro k hk
    have := h.below k hk
    change k < ((st.i + 1 + 0 : Nat) : Int)
    omega
  · change nok + 0 ≤ ns.length
    omega
  · change st.i + 1 = nok + nmay
    omega

/-- A client that is not in a call has counted what it may have appended. -/
theorem Own.lt {st : AppendClient} {ns : List Int} (h : Own st 0 ns) :
    ∀ k ∈ ns, k < st.nok + st.nmay := by
  intro k hk
  have hlt := h.below k hk
  have hrounds := h.rounds
  omega

theorem Own.reach_le {st : AppendClient} {ns : List Int} (h : Own st 0 ns) :
    reach ns ≤ (st.nok + st.nmay : Nat) := by
  refine KvTest.reach_le (by omega) ?_
  intro k hk
  have hlt := h.lt k hk
  omega

theorem Own.skipped_le {st : AppendClient} {ns : List Int} (h : Own st 0 ns) :
    (skippedNs ns).length ≤ st.nmay := by
  have hlength := h.ascending.length_skippedNs
  have hcounted := h.counted
  have hreach := h.reach_le
  omega

theorem Own.allows {st : AppendClient} {ns : List Int} (h : Own st 0 ns) : st.res.Allows ns :=
  ⟨Int.ofNat_le.mpr h.skipped_le, h.reach_le⟩

/-- A number that is no client's has no entries. -/
theorem Listed.mine_eq_nil {cell : Cell (Option (List EntryN))} (h : Listed n cell) {c : Int}
    (hc : ∀ i : Fin n, c ≠ (i : Nat)) : mine (contents cell) c = [] := by
  rw [mine, List.map_eq_nil_iff, List.filter_eq_nil_iff]
  intro e he hec
  obtain ⟨i, hi⟩ := h.ids e he
  exact hc i ((of_decide_eq_true hec).symm.trans hi)

theorem keeps_appending :
    Keeps (fun i : Fin n => oneClientAppend (i : Nat)) (fun _ => True) (Listed n)
      (fun cell i st p _ => Appending cell i st p) where
  stop := by
    intro cell i st st' e _ h hst
    simp only [oneClientAppend] at hst
    split at hst
    · cases hst
      exact ⟨by simp, by simp, h.own.of_pc rfl rfl rfl⟩
    · cases hst
  put := by
    intro cell i st v version e _ h hreq
    simp only [oneClientAppend] at hreq
    split at hreq
    · cases hreq
    · cases hreq
    · rename_i es ver hpc
      cases hreq
      refine ⟨h.reads, ?_, h.own⟩
      rintro q ⟨⟩
      exact ⟨es, hpc, rfl⟩
    · cases hreq
  takeEffect := by
    intro cell i st v e hcell h
    obtain rfl := h.effect
    have hlength := hcell.length
    refine ⟨⟨rfl, ?_, ?_⟩, ?_, ?_, ?_⟩
    · simp [contents] at hlength ⊢
      omega
    · intro x hx
      rcases List.mem_append.mp hx with hx | hx
      · exact hcell.ids x hx
      · exact ⟨i, by rw [List.mem_singleton.mp hx]⟩
    · intro es ver hpc
      have hlt := Nat.lt_succ_of_le (h.reads es ver hpc).1
      exact ⟨hlt.le, fun heq => absurd heq hlt.ne⟩
    · rintro q ⟨⟩
      exact h.puts ⟨_, cell.version, false⟩ rfl
    · change Own st 1 (mine (contents cell ++ [⟨(i : Nat), st.i⟩]) (i : Nat))
      rw [mine_concat, if_pos rfl]
      exact h.own.effect
  others := by
    intro cell i st v e j st' p e' hij hcell h hother
    obtain rfl := h.effect
    have hne : ((i : Nat) : Int) ≠ (j : Nat) := by
      intro he
      exact hij (Fin.ext (by exact_mod_cast he))
    refine ⟨?_, hother.puts, ?_⟩
    · intro es ver hpc
      have hlt := Nat.lt_succ_of_le (hother.reads es ver hpc).1
      exact ⟨hlt.le, fun heq => absurd heq hlt.ne⟩
    · change Own st' _ (mine (contents cell ++ [⟨(i : Nat), st.i⟩]) (j : Nat))
      rw [mine_concat, if_neg hne]
      exact hother.own
  reply := by
    intro cell i st p a e _ h hfits _
    obtain ⟨v, version, took⟩ := p
    have hown := h.own
    simp only [oneClientAppend]
    -- `OK` is answered to a put that took effect, `ErrVersion` to one that did not
    cases took with
    | true =>
      simp only [unreturned] at hown
      cases a with
      | ok => exact ⟨by simp [putErr], by simp, hown.next le_rfl _ le_rfl (by omega)⟩
      | version => cases hfits
      | maybe => exact ⟨by simp [putErr], by simp, hown.next le_rfl _ (by omega) (by omega)⟩
    | false =>
      simp only [unreturned] at hown
      cases a with
      | ok => cases hfits
      | version => exact ⟨by simp [putErr], by simp, hown.of_pc rfl rfl rfl⟩
      | maybe => exact ⟨by simp [putErr], by simp, hown.next (by omega) _ le_rfl (by omega)⟩
  get := by
    intro cell i st e hcell h _
    simp only [oneClientAppend, getJson, hcell.present]
    refine ⟨?_, by simp, h.own.of_pc rfl rfl rfl⟩
    rintro es ver ⟨⟩
    exact ⟨le_rfl, fun _ => rfl⟩

/-- The results that `SpawnClientsAndWait` collects from the clients. -/
def appendResults (s : System (Option (List EntryN)) AppendClient n) : List ClntRes :=
  List.ofFn fun i => (s.clients i).res

theorem listed_created : Listed n ⟨some [], 1⟩ := ⟨rfl, rfl, by simp [contents]⟩

theorem appending_start (i : Fin n) : Appending ⟨some [], 1⟩ i AppendClient.start none :=
  ⟨by simp [AppendClient.start], by simp, ⟨⟨List.Pairwise.nil, by simp [mine, contents]⟩,
    by simp [mine, contents], by simp [AppendClient.start, unreturned], rfl⟩⟩

/-- `CheckAppends` raises no false alarm: once all clients have returned, whatever the
interleaving, the numbers of each client are strictly increasing, those it skipped are at
most its `ErrMaybe`s, the largest is below its `OK`s and `ErrMaybe`s, the version counts
the entries, and the check passes in any order of its map. -/
theorem checkAppends_no_false_alarm (acts : List (Act n))
    (s : System (Option (List EntryN)) AppendClient n)
    (hrun : run (step fun i : Fin n => oneClientAppend (i : Nat))
      (start ⟨some [], 1⟩ fun _ => .start) acts = some s)
    (hreturned : ∀ i, (s.clients i).pc = .returned) :
    ∃ es, s.cell.value = some es ∧
      (∀ ω, checkAppends ω es n (appendResults s) s.cell.version = .ok ()) ∧
      (∀ i : Fin n, (mine es (i : Nat)).Pairwise (· < ·) ∧
        (skippedNs (mine es (i : Nat))).length ≤ (s.clients i).nmay ∧
        ∀ k ∈ mine es (i : Nat), k < (s.clients i).nok + (s.clients i).nmay) ∧
      es.length + 1 = s.cell.version := by
  obtain ⟨hcell, hclients⟩ := keeps_appending.run listed_created appending_start hrun
    fun _ _ _ => trivial
  have hown : ∀ i : Fin n, Own (s.clients i) 0 (mine (contents s.cell) (i : Nat)) := by
    intro i
    have hidle : s.pending i = none := by
      by_contra hp
      obtain ⟨q, hq⟩ := Option.ne_none_iff_exists'.mp hp
      obtain ⟨es, hpc, -⟩ := (hclients i).puts q hq
      simp [hreturned i] at hpc
    have h := (hclients i).own
    rwa [hidle] at h
  have hascending : ∀ c, Ascending (mine (contents s.cell) c) := by
    intro c
    by_cases hc : ∃ i : Fin n, c = ((i : Nat) : Int)
    · obtain ⟨i, rfl⟩ := hc
      exact (hown i).ascending
    · rw [hcell.mine_eq_nil (not_exists.mp hc)]
      exact ⟨List.Pairwise.nil, by simp⟩
  refine ⟨contents s.cell, hcell.present, ?_, ?_, hcell.length⟩
  · intro ω
    rw [checkAppends_ok_iff]
    refine ⟨hascending, hcell.length, ?_⟩
    intro c hc
    have hclient : ∃ i : Fin n, c = ((i : Nat) : Int) := by
      rcases hc with ⟨hpos, hlt⟩ | ⟨e, he, rfl⟩
      · exact ⟨⟨c.toNat, by omega⟩, by simp [hpos]⟩
      · exact hcell.ids e he
    obtain ⟨i, rfl⟩ := hclient
    exact ⟨(s.clients i).res, by simp [resultOf, appendResults], (hown i).allows⟩
  · intro i
    exact ⟨(hown i).ascending.1, (hown i).skipped_le, (hown i).lt⟩

/-- Two clients race: a put based on an old list is refused and tried again, and one that
was answered `ErrMaybe` never took effect, so that a number is skipped. -/
def racingAppends : List (Act 2) :=
  [.get cli0, .get cli1, .put cli0, .put cli1, .takeEffect cli0, .reply cli1 .version,
   .reply cli0 .ok, .get cli0, .put cli0, .reply cli0 .maybe, .get cli0, .put cli0,
   .takeEffect cli0, .reply cli0 .ok, .get cli1, .put cli1, .takeEffect cli1, .reply cli1 .maybe,
   .stop cli0, .stop cli1]

theorem racingAppends_no_false_alarm : ∃ s,
    run (step fun i : Fin 2 => oneClientAppend (i : Nat))
      (start ⟨some [], 1⟩ fun _ => .start) racingAppends = some s ∧
    s.cell.value = some [⟨0, 0⟩, ⟨0, 2⟩, ⟨1, 0⟩] ∧
    ∃ es, s.cell.value = some es ∧
      ∀ ω, checkAppends ω es 2 (appendResults s) s.cell.version = .ok () := by
  obtain ⟨s, hs⟩ : ∃ s, run (step fun i : Fin 2 => oneClientAppend (i : Nat))
    (start ⟨some [], 1⟩ fun _ => .start) racingAppends = some s := ⟨_, rfl⟩
  have hreturned : ∀ i, (s.clients i).pc = .returned := by
    cases hs
    intro i
    match i with
    | 0 => rfl
    | 1 => rfl
  have hvalue : s.cell.value = some [⟨0, 0⟩, ⟨0, 2⟩, ⟨1, 0⟩] := by
    cases hs
    rfl
  obtain ⟨es, hes, hcheck, -⟩ := checkAppends_no_false_alarm racingAppends s hs hreturned
  exact ⟨s, hs, hvalue, es, hes, hcheck⟩

/-! ## Lost updates -/

end KvTest
