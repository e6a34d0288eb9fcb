import DistLabs.Daemons
import Mathlib.Data.List.Basic

/-!
# What a group sees of the network

The groups of a test share one network. Their ends are told apart by the random
names of the ends, and their servers by `ServerName`. A series of calls that stays
with the names of one group does the same on any network that agrees on these
names, and is not seen by another group.
-/
namespace Tester

open Labrpc Runs

/-! ## The names of servers -/

theorem not_mem_repr (i : Nat) : '-' ∉ i.repr.toList := by
  intro h
  have hmem : '-' ∈ Nat.toDigits 10 i := by simpa [Nat.repr] using h
  have hdigit := Nat.isDigit_of_mem_toDigits (by decide) (by decide) hmem
  revert hdigit
  decide

theorem natRepr_inj {i j : Nat} (h : i.repr.toList = j.repr.toList) : i = j := by
  have hdigits : Nat.toDigits 10 i = Nat.toDigits 10 j := by simpa [Nat.repr] using h
  calc
    i = Nat.ofDigitChars 10 (Nat.toDigits 10 i) 0 := Nat.ofDigitChars_ten_toDigits.symm
    _ = Nat.ofDigitChars 10 (Nat.toDigits 10 j) 0 := by rw [hdigits]
    _ = j := Nat.ofDigitChars_ten_toDigits

theorem intRepr_inj {g g' : Int} (h : g.repr.toList = g'.repr.toList) : g = g' := by
  cases g with
  | ofNat m =>
    cases g' with
    | ofNat m' => rw [natRepr_inj h]
    | negSucc m' =>
      -- only one of them has a sign
      refine absurd ?_ (not_mem_repr m)
      rw [show m.repr.toList = _ from h]
      simp [Int.repr]
  | negSucc m =>
    cases g' with
    | ofNat m' =>
      refine absurd ?_ (not_mem_repr m')
      rw [show m'.repr.toList = _ from h.symm]
      simp [Int.repr]
    | negSucc m' =>
      have hnat : (m + 1).repr.toList = (m' + 1).repr.toList := by simpa [Int.repr] using h
      have hsucc := natRepr_inj hnat
      rw [Nat.succ.inj hsucc]

/-- A last separator is found again. -/
theorem append_cons_inj_of_last {xs ys zs ws : List Char} {c : Char} (hzs : c ∉ zs) (hws : c ∉ ws)
    (h : xs ++ c :: zs = ys ++ c :: ws) : xs = ys ∧ zs = ws := by
  rcases List.append_eq_append_iff.mp h with ⟨mid, rfl, hmid⟩ | ⟨mid, rfl, hmid⟩
  · cases mid with
    | nil => simpa using hmid
    | cons d mid =>
      obtain ⟨rfl, rfl⟩ := List.cons.inj hmid
      simp at hzs
  · cases mid with
    | nil => simpa using hmid.symm
    | cons d mid =>
      obtain ⟨rfl, rfl⟩ := List.cons.inj hmid
      simp at hws

/-- Two servers have the same name only if they are the same. -/
theorem serverName_inj {g g' : Int} {i i' : Nat} (h : serverName g i = serverName g' i') :
    g = g' ∧ i = i' := by
  have hlist := congrArg String.toList h
  simp only [serverName, String.toList_append, List.append_assoc] at hlist
  have hrest := List.append_cancel_left hlist
  have hsplit := append_cons_inj_of_last (not_mem_repr i) (not_mem_repr i') hrest
  exact ⟨intRepr_inj hsplit.1, natRepr_inj hsplit.2⟩

/-! ## Calls on the network -/

/-- The calls one after another; a fatal one ends the test. -/
def execAll (rn : Network String) (cs : List (Control String)) : Option (Network String) :=
  cs.foldlM (fun rn c => c.exec rn) rn

theorem execAll_cons {rn rn' : Network String} {c : Control String} {cs : List (Control String)} :
    execAll rn (c :: cs) = some rn' ↔ ∃ rm, c.exec rn = some rm ∧ execAll rm cs = some rn' := by
  rw [execAll, List.foldlM_cons]
  exact Option.bind_eq_some_iff

theorem execAll_append (rn : Network String) (cs ds : List (Control String)) :
    execAll rn (cs ++ ds) = (execAll rn cs).bind fun rm => execAll rm ds := by
  rw [execAll, List.foldlM_append]
  rfl

/-- The ends that a group has after calls, newest first. -/
def grow : List String → List (Control String) → List String
  | owned, [] => owned
  | owned, .makeEnd e :: cs => grow (e :: owned) cs
  | owned, _ :: cs => grow owned cs

/-- The calls stay with ends that the group has or makes, and with the names of its servers. -/
def StaysIn (gid : Int) : List String → List (Control String) → Prop
  | _, [] => True
  | owned, .makeEnd e :: cs => StaysIn gid (e :: owned) cs
  | owned, .connect e _ :: cs => e ∈ owned ∧ StaysIn gid owned cs
  | owned, .enable e _ :: cs => e ∈ owned ∧ StaysIn gid owned cs
  | owned, .addServer name _ :: cs => (∃ i, name = serverName gid i) ∧ StaysIn gid owned cs
  | owned, .deleteServer name :: cs => (∃ i, name = serverName gid i) ∧ StaysIn gid owned cs
  | _, _ :: _ => False

theorem grow_append (owned : List String) (cs ds : List (Control String)) :
    grow owned (cs ++ ds) = grow (grow owned cs) ds := by
  induction cs generalizing owned with
  | nil => rfl
  | cons c cs ih => cases c <;> exact ih _

theorem StaysIn.append {gid : Int} {owned : List String} {cs ds : List (Control String)}
    (hcs : StaysIn gid owned cs) (hds : StaysIn gid (grow owned cs) ds) :
    StaysIn gid owned (cs ++ ds) := by
  induction cs generalizing owned with
  | nil => exact hds
  | cons c cs ih =>
    cases c with
    | makeEnd e => exact ih hcs hds
    | connect e name => exact ⟨hcs.1, ih hcs.2 hds⟩
    | enable e b => exact ⟨hcs.1, ih hcs.2 hds⟩
    | addServer name rs => exact ⟨hcs.1, ih hcs.2 hds⟩
    | deleteServer name => exact ⟨hcs.1, ih hcs.2 hds⟩
    | _ => exact hcs.elim

/-! ## What a group sees of the network -/

/-- The network of the whole test, and the one that a group would see alone: they agree on
the ends the group has and on the names of its servers. -/
structure Sees (gid : Int) (owned : List String) (rn alone : Network String) : Prop where
  fewer : ∀ e, alone.ends e = true → rn.ends e = true
  made : ∀ e ∈ owned, alone.ends e = true
  enabled : ∀ e ∈ owned, alone.enabled e = rn.enabled e
  connections : ∀ e ∈ owned, alone.connections e = rn.connections e
  servers : ∀ i, alone.servers (serverName gid i) = rn.servers (serverName gid i)

/-- The network after a successful `MakeEnd`. -/
def madeEnd (rn : Network String) (e : String) : Network String :=
  { rn with
    ends := Function.update rn.ends e true
    enabled := Function.update rn.enabled e false
    connections := Function.update rn.connections e none }

theorem makeEnd_eq_some {rn rn' : Network String} {e : String} :
    (Control.makeEnd e).exec rn = some rn' ↔ rn.ends e = false ∧ rn' = madeEnd rn e := by
  cases hend : rn.ends e with
  | true => simp [Control.exec, hend]
  | false => simp [Control.exec, hend, madeEnd, eq_comm]

theorem Sees.makeEnd {gid : Int} {owned : List String} {rn alone : Network String}
    (h : Sees gid owned rn alone) (e : String) :
    Sees gid (e :: owned) (madeEnd rn e) (madeEnd alone e) := by
  constructor
  · intro x hx
    by_cases hxe : x = e
    · simp [madeEnd, hxe]
    · simp only [madeEnd, Function.update_of_ne hxe] at hx ⊢
      exact h.fewer x hx
  · intro x hx
    by_cases hxe : x = e
    · simp [madeEnd, hxe]
    · simpa [madeEnd, hxe] using h.made x ((List.mem_cons.mp hx).resolve_left hxe)
  · intro x hx
    by_cases hxe : x = e
    · simp [madeEnd, hxe]
    · simpa [madeEnd, hxe] using h.enabled x ((List.mem_cons.mp hx).resolve_left hxe)
  · intro x hx
    by_cases hxe : x = e
    · simp [madeEnd, hxe]
    · simpa [madeEnd, hxe] using h.connections x ((List.mem_cons.mp hx).resolve_left hxe)
  · exact h.servers

/-- A call that changes the network in one place changes it there for both. -/
theorem Sees.call {gid : Int} {owned : List String} {rn rn' alone : Network String}
    {c : Control String} {cs : List (Control String)} (h : Sees gid owned rn alone)
    (hs : StaysIn gid owned (c :: cs)) (hexec : c.exec rn = some rn') :
    ∃ alone', c.exec alone = some alone' ∧ Sees gid (grow owned [c]) rn' alone' := by
  cases c with
  | makeEnd e =>
    obtain ⟨hfree, rfl⟩ := makeEnd_eq_some.mp hexec
    have hfree' : alone.ends e = false := by
      rw [Bool.eq_false_iff] at hfree ⊢
      exact fun hused => hfree (h.fewer e hused)
    exact ⟨madeEnd alone e, makeEnd_eq_some.mpr ⟨hfree', rfl⟩, h.makeEnd e⟩
  | connect e name =>
    cases hexec
    refine ⟨_, rfl, h.fewer, h.made, h.enabled, ?_, h.servers⟩
    intro x hx
    by_cases hxe : x = e
    · simp [hxe]
    · simpa [hxe] using h.connections x hx
  | enable e b =>
    cases hexec
    refine ⟨_, rfl, h.fewer, h.made, ?_, h.connections, h.servers⟩
    intro x hx
    by_cases hxe : x = e
    · simp [hxe]
    · simpa [hxe] using h.enabled x hx
  | addServer name rs =>
    cases hexec
    refine ⟨_, rfl, h.fewer, h.made, h.enabled, h.connections, ?_⟩
    intro i
    by_cases hname : serverName gid i = name
    · simp [hname]
    · simpa [hname] using h.servers i
  | deleteServer name =>
    cases hexec
    refine ⟨_, rfl, h.fewer, h.made, h.enabled, h.connections, ?_⟩
    intro i
    by_cases hname : serverName gid i = name
    · simp [hname]
    · simpa [hname] using h.servers i
  | _ => exact hs.elim

theorem StaysIn.tail {gid : Int} {owned : List String} {c : Control String}
    {cs : List (Control String)} (h : StaysIn gid owned (c :: cs)) :
    StaysIn gid (grow owned [c]) cs := by
  cases c with
  | makeEnd e => exact h
  | connect e name => exact h.2
  | enable e b => exact h.2
  | addServer name rs => exact h.2
  | deleteServer name => exact h.2
  | _ => exact h.elim

theorem grow_cons (owned : List String) (c : Control String) (cs : List (Control String)) :
    grow owned (c :: cs) = grow (grow owned [c]) cs := grow_append owned [c] cs

/-- The group's own calls succeed as well when it is alone, and it sees the same after them. -/
theorem Sees.own {gid : Int} {owned : List String} {rn rn' alone : Network String}
    {cs : List (Control String)} (h : Sees gid owned rn alone) (hs : StaysIn gid owned cs)
    (hexec : execAll rn cs = some rn') :
    ∃ alone', execAll alone cs = some alone' ∧ Sees gid (grow owned cs) rn' alone' := by
  induction cs generalizing owned rn alone with
  | nil =>
    cases hexec
    exact ⟨alone, rfl, h⟩
  | cons c cs ih =>
    obtain ⟨rm, hc, hcs⟩ := execAll_cons.mp hexec
    obtain ⟨am, hac, hm⟩ := h.call hs hc
    obtain ⟨alone', hacs, h'⟩ := ih hm hs.tail hcs
    exact ⟨alone', execAll_cons.mpr ⟨am, hac, hacs⟩, by rw [grow_cons]; exact h'⟩

/-- A call that stays with another group's names is not seen. -/
theorem Sees.other_call {gid g : Int} {owned others : List String} {rn rn' alone : Network String}
    {c : Control String} {cs : List (Control String)} (h : Sees gid owned rn alone)
    (hg : g ≠ gid) (hs : StaysIn g others (c :: cs)) (hdisjoint : ∀ e ∈ others, e ∉ owned)
    (hexec : c.exec rn = some rn') :
    Sees gid owned rn' alone ∧ ∀ e ∈ grow others [c], e ∉ owned := by
  cases c with
  | makeEnd e =>
    obtain ⟨hfree, rfl⟩ := makeEnd_eq_some.mp hexec
    -- the group's own ends are in use, so the new end is none of them
    have hnew : ∀ x ∈ owned, x ≠ e := by
      rintro x hx rfl
      rw [h.fewer x (h.made x hx)] at hfree
      cases hfree
    refine ⟨⟨?_, h.made, ?_, ?_, h.servers⟩, ?_⟩
    · intro x hx
      by_cases hxe : x = e
      · simp [madeEnd, hxe]
      · simpa [madeEnd, hxe] using h.fewer x hx
    · intro x hx
      simpa [madeEnd, hnew x hx] using h.enabled x hx
    · intro x hx
      simpa [madeEnd, hnew x hx] using h.connections x hx
    · intro x hx
      rcases List.mem_cons.mp hx with rfl | hx
      · exact fun howned => hnew x howned rfl
      · exact hdisjoint x hx
  | connect e name =>
    cases hexec
    refine ⟨⟨h.fewer, h.made, h.enabled, ?_, h.servers⟩, hdisjoint⟩
    intro x hx
    have hxe : x ≠ e := fun he => hdisjoint e hs.1 (he ▸ hx)
    simpa [hxe] using h.connections x hx
  | enable e b =>
    cases hexec
    refine ⟨⟨h.fewer, h.made, ?_, h.connections, h.servers⟩, hdisjoint⟩
    intro x hx
    have hxe : x ≠ e := fun he => hdisjoint e hs.1 (he ▸ hx)
    simpa [hxe] using h.enabled x hx
  | addServer name rs =>
    cases hexec
    obtain ⟨⟨j, rfl⟩, -⟩ := hs
    refine ⟨⟨h.fewer, h.made, h.enabled, h.connections, ?_⟩, hdisjoint⟩
    intro i
    have hname : serverName gid i ≠ serverName g j := fun he => hg (serverName_inj he).1.symm
    simpa [hname] using h.servers i
  | deleteServer name =>
    cases hexec
    obtain ⟨⟨j, rfl⟩, -⟩ := hs
    refine ⟨⟨h.fewer, h.made, h.enabled, h.connections, ?_⟩, hdisjoint⟩
    intro i
    have hname : serverName gid i ≠ serverName g j := fun he => hg (serverName_inj he).1.symm
    simpa [hname] using h.servers i
  | _ => exact hs.elim

theorem Sees.other {gid g : Int} {owned others : List String} {rn rn' alone : Network String}
    {cs : List (Control String)} (h : Sees gid owned rn alone) (hg : g ≠ gid)
    (hs : StaysIn g others cs) (hdisjoint : ∀ e ∈ others, e ∉ owned)
    (hexec : execAll rn cs = some rn') :
    Sees gid owned rn' alone ∧ ∀ e ∈ grow others cs, e ∉ owned := by
  induction cs generalizing others rn with
  | nil =>
    cases hexec
    exact ⟨h, hdisjoint⟩
  | cons c cs ih =>
    obtain ⟨rm, hc, hcs⟩ := execAll_cons.mp hexec
    obtain ⟨hm, hdisjoint'⟩ := h.other_call hg hs hdisjoint hc
    rw [grow_cons]
    exact ih hm hs.tail hdisjoint' hcs

/-- Calls of a group take no end away, and make those it has afterwards. -/
theorem StaysIn.ends {gid : Int} {owned : List String} {rn rn' : Network String}
    {cs : List (Control String)} (hs : StaysIn gid owned cs) (hexec : execAll rn cs = some rn') :
    (∀ e, rn.ends e = true → rn'.ends e = true) ∧
      ((∀ e ∈ owned, rn.ends e = true) → ∀ e ∈ grow owned cs, rn'.ends e = true) := by
  induction cs generalizing owned rn with
  | nil =>
    cases hexec
    exact ⟨fun _ he => he, fun h => h⟩
  | cons c cs ih =>
    obtain ⟨rm, hc, hcs⟩ := execAll_cons.mp hexec
    obtain ⟨hkeep, hgrow⟩ := ih hs.tail hcs
    have hone : (∀ e, rn.ends e = true → rm.ends e = true) ∧
        ((∀ e ∈ owned, rn.ends e = true) → ∀ e ∈ grow owned [c], rm.ends e = true) := by
      cases c with
      | makeEnd e =>
        obtain ⟨-, rfl⟩ := makeEnd_eq_some.mp hc
        have hmade : ∀ x, rn.ends x = true → (madeEnd rn e).ends x = true := by
          intro x hx
          by_cases hxe : x = e <;> simp [madeEnd, hxe, hx]
        refine ⟨hmade, ?_⟩
        intro howned x hx
        rcases List.mem_cons.mp hx with rfl | hx
        · simp [madeEnd]
        · exact hmade x (howned x hx)
      | connect e name => cases hc; exact ⟨fun _ he => he, fun h => h⟩
      | enable e b => cases hc; exact ⟨fun _ he => he, fun h => h⟩
      | addServer name rs => cases hc; exact ⟨fun _ he => he, fun h => h⟩
      | deleteServer name => cases hc; exact ⟨fun _ he => he, fun h => h⟩
      | _ => exact hs.elim
    refine ⟨fun e he => hkeep e (hone.1 e he), ?_⟩
    intro howned
    rw [grow_cons]
    exact hgrow (hone.2 howned)

theorem StaysIn.mono {gid : Int} {owned owned' : List String} {cs : List (Control String)}
    (hsub : ∀ e ∈ owned, e ∈ owned') (h : StaysIn gid owned cs) :
    StaysIn gid owned' cs ∧ ∀ e ∈ grow owned cs, e ∈ grow owned' cs := by
  induction cs generalizing owned owned' with
  | nil => exact ⟨trivial, hsub⟩
  | cons c cs ih =>
    cases c with
    | makeEnd e =>
      apply ih _ h
      intro x hx
      rcases List.mem_cons.mp hx with rfl | hx
      · exact List.mem_cons_self
      · exact List.mem_cons_of_mem e (hsub x hx)
    | connect e name => exact ⟨⟨hsub e h.1, (ih hsub h.2).1⟩, (ih hsub h.2).2⟩
    | enable e b => exact ⟨⟨hsub e h.1, (ih hsub h.2).1⟩, (ih hsub h.2).2⟩
    | addServer name rs => exact ⟨⟨h.1, (ih hsub h.2).1⟩, (ih hsub h.2).2⟩
    | deleteServer name => exact ⟨⟨h.1, (ih hsub h.2).1⟩, (ih hsub h.2).2⟩
    | _ => exact h.elim

theorem Sees.shrink {gid : Int} {owned owned' : List String} {rn alone : Network String}
    (h : Sees gid owned rn alone) (hsub : ∀ e ∈ owned', e ∈ owned) : Sees gid owned' rn alone :=
  ⟨h.fewer, fun e he => h.made e (hsub e he), fun e he => h.enabled e (hsub e he),
    fun e he => h.connections e (hsub e he), h.servers⟩

/-- The random delays and losses that the network is set to. -/
def SameMode (rn rn' : Network String) : Prop :=
  rn'.reliable = rn.reliable ∧ rn'.longReordering = rn.longReordering ∧
    rn'.longDelays = rn.longDelays

theorem StaysIn.sameMode {gid : Int} {owned : List String} {rn rn' : Network String}
    {cs : List (Control String)} (hs : StaysIn gid owned cs) (hexec : execAll rn cs = some rn') :
    SameMode rn rn' := by
  induction cs generalizing owned rn with
  | nil =>
    cases hexec
    exact ⟨rfl, rfl, rfl⟩
  | cons c cs ih =>
    obtain ⟨rm, hc, hcs⟩ := execAll_cons.mp hexec
    have hone : SameMode rn rm := by
      cases c with
      | makeEnd e =>
        obtain ⟨-, rfl⟩ := makeEnd_eq_some.mp hc
        exact ⟨rfl, rfl, rfl⟩
      | connect e name => cases hc; exact ⟨rfl, rfl, rfl⟩
      | enable e b => cases hc; exact ⟨rfl, rfl, rfl⟩
      | addServer name rs => cases hc; exact ⟨rfl, rfl, rfl⟩
      | deleteServer name => cases hc; exact ⟨rfl, rfl, rfl⟩
      | _ => exact hs.elim
    obtain ⟨h₁, h₂, h₃⟩ := ih hs.tail hcs
    exact ⟨h₁.trans hone.1, h₂.trans hone.2.1, h₃.trans hone.2.2⟩

/-- The ends that a group makes were not in use. -/
theorem StaysIn.fresh {gid : Int} {owned : List String} {rn rn' : Network String}
    {cs : List (Control String)} (hs : StaysIn gid owned cs) (hexec : execAll rn cs = some rn')
    {e : String} (he : e ∈ grow owned cs) : e ∈ owned ∨ rn.ends e = false := by
  by_contra hnot
  rw [not_or] at hnot
  have hsees : Sees (gid + 1) [e] rn rn := by
    refine ⟨fun _ hx => hx, ?_, fun _ _ => rfl, fun _ _ => rfl, fun _ => rfl⟩
    intro x hx
    rw [List.mem_singleton.mp hx]
    simpa using hnot.2
  refine (hsees.other (by omega) hs ?_ hexec).2 e he List.mem_cons_self
  intro x hx hxe
  exact hnot.1 (List.mem_singleton.mp hxe ▸ hx)

end Tester
