import DistLabs.ServerGrp
import Mathlib.Data.List.Pairwise

/-!
# The connected flags describe the network

The ends of a group form a matrix: `linked i j` says whether the current end from
server `i` to server `j` is enabled. `MakeEnd` refuses a name in use, so the ends
in the matrix are different, and each operation is known by the entries it
writes. As long as `Partition` is not used, and a server is started only while
it is off the network, an entry is on exactly when both flags are, and the ends
that `StartServer` has replaced stay off.
-/
namespace Tester

open Labrpc Runs

variable {n : Nat}

/-! ## Loops over ends -/

/-- The network after a loop that calls `Enable` for each of the names. -/
def enableAll (rn : Network String) (names : List String) (enabled : Bool) : Network String :=
  names.foldl (fun rn e => enable rn e enabled) rn

theorem enableAll_enabled (rn : Network String) (names : List String) (b : Bool) (e : String) :
    (enableAll rn names b).enabled e = if e ∈ names then b else rn.enabled e := by
  induction names generalizing rn with
  | nil => rfl
  | cons x names ih =>
    change (enableAll (enable rn x b) names b).enabled e = _
    rw [ih]
    by_cases he : e ∈ names
    · simp [he]
    · by_cases hx : e = x <;> simp [he, hx, enable]

theorem enableAll_true_enabled (rn : Network String) (names : List String) (e : String) :
    (enableAll rn names true).enabled e = true ↔ e ∈ names ∨ rn.enabled e = true := by
  rw [enableAll_enabled]
  by_cases he : e ∈ names <;> simp [he]

theorem enableAll_false_enabled (rn : Network String) (names : List String) (e : String) :
    (enableAll rn names false).enabled e = true ↔ e ∉ names ∧ rn.enabled e = true := by
  rw [enableAll_enabled]
  by_cases he : e ∈ names <;> simp [he]

theorem enableAll_append (rn : Network String) (xs ys : List String) (b : Bool) :
    enableAll rn (xs ++ ys) b = enableAll (enableAll rn xs b) ys b := List.foldl_append

@[simp] theorem enableAll_ends (rn : Network String) (names : List String) (b : Bool) :
    (enableAll rn names b).ends = rn.ends := by
  induction names generalizing rn with
  | nil => rfl
  | cons x names ih => exact ih (enable rn x b)

theorem foldl_enable_if {α : Type} (rn : Network String) (c : α → Bool) (name : α → String)
    (targets : List α) :
    targets.foldl (fun rn j => if c j then enable rn (name j) true else rn) rn =
      enableAll rn ((targets.filter c).map name) true := by
  rw [enableAll, List.foldl_map, List.foldl_filter]

theorem foldl_enable {α : Type} (rn : Network String) (name : α → String) (b : Bool)
    (peers : List α) :
    peers.foldl (fun rn j => enable rn (name j) b) rn = enableAll rn (peers.map name) b := by
  rw [enableAll, List.foldl_map]

/-- What a series of `MakeEnd` and `Connect` calls does: the names are new and different,
the new ends are disabled, and the other ends are left alone. -/
structure Made (names : List String) (rn rn' : Network String) : Prop where
  nodup : names.Nodup
  fresh : ∀ e ∈ names, rn.ends e = false
  ends : ∀ e, rn'.ends e = true ↔ rn.ends e = true ∨ e ∈ names
  enabled : ∀ e, rn'.enabled e = if e ∈ names then false else rn.enabled e

theorem Made.nothing {rn rn' : Network String} (hends : rn'.ends = rn.ends)
    (henabled : rn'.enabled = rn.enabled) : Made [] rn rn' :=
  ⟨List.nodup_nil, by simp, by simp [hends], by simp [henabled]⟩

theorem Made.append {xs ys : List String} {rn rn' rn'' : Network String} (h : Made xs rn rn')
    (h' : Made ys rn' rn'') : Made (xs ++ ys) rn rn'' := by
  -- a name made later was not in use, so it is none of the earlier ones
  have hnew : ∀ e ∈ ys, rn.ends e = false ∧ e ∉ xs := by
    intro e he
    have hunused := h'.fresh e he
    have hends := h.ends e
    rw [hunused] at hends
    simpa using hends
  constructor
  · refine List.nodup_append.mpr ⟨h.nodup, h'.nodup, ?_⟩
    rintro a ha b hb rfl
    exact (hnew a hb).2 ha
  · intro e he
    rcases List.mem_append.mp he with hx | hy
    · exact h.fresh e hx
    · exact (hnew e hy).1
  · intro e
    rw [h'.ends, h.ends, List.mem_append, or_assoc]
  · intro e
    rw [h'.enabled, h.enabled]
    by_cases hy : e ∈ ys <;> simp [hy]

theorem Made.foldlM {α : Type} {f : Network String → α → Option (Network String)}
    {names : α → List String} (hf : ∀ a rn rn', f rn a = some rn' → Made (names a) rn rn')
    (as : List α) {rn rn' : Network String} (h : as.foldlM f rn = some rn') :
    Made (as.flatMap names) rn rn' := by
  induction as generalizing rn with
  | nil =>
    cases h
    exact .nothing rfl rfl
  | cons a as ih =>
    rw [List.foldlM_cons] at h
    obtain ⟨rm, hm, h⟩ := Option.bind_eq_some_iff.mp h
    exact (hf a rn rm hm).append (ih h)

theorem made_of_makeEnd {rn rn' : Network String} {e : String}
    (h : (Control.makeEnd e).exec rn = some rn') : Made [e] rn rn' := by
  rw [Control.exec] at h
  split at h
  · cases h
  · rename_i hfree
    cases h
    refine ⟨List.nodup_singleton e, by simpa using hfree, ?_, ?_⟩
    · intro x
      by_cases hx : x = e <;> simp [hx]
    · intro x
      by_cases hx : x = e <;> simp [hx]

/-- The ends that a call of `makeServer` makes. -/
def EndCall.made (endNames : Fin n → String) : EndCall n → List String
  | .makeEnd j => [endNames j]
  | .connect _ => []

theorem flatMap_made (endNames : Fin n → String) :
    (makeServer n).flatMap (EndCall.made endNames) = List.ofFn endNames := by
  rw [makeServer, List.flatMap_assoc, List.ofFn_eq_map, List.map_eq_flatMap]
  rfl

theorem made_of_makeEnds {gid : Int} {endNames : Fin n → String} {rn rn' : Network String}
    (h : ServerGrp.makeEnds gid endNames rn = some rn') :
    Made (List.ofFn endNames) rn rn' := by
  rw [← flatMap_made]
  refine Made.foldlM ?_ _ h
  intro c rn rn' hc
  cases c with
  | makeEnd j => exact made_of_makeEnd hc
  | connect j =>
    cases hc
    exact .nothing rfl rfl

/-! ## The matrix of ends -/

namespace ServerGrp

/-- The current end from `i` to `j` is enabled. -/
def linked (sg : ServerGrp n) (i j : Fin n) : Bool := sg.net.enabled ((sg.srvs i).endNames j)

/-- The current ends of the group are different ends. -/
def Distinct (sg : ServerGrp n) : Prop :=
  ∀ a b a' b', (sg.srvs a).endNames b = (sg.srvs a').endNames b' ↔ a = a' ∧ b = b'

/-- The ends between `i` and the servers of a list, outgoing ends first. -/
def endsOf (sg : ServerGrp n) (i : Fin n) (peers : List (Fin n)) : List String :=
  peers.map (sg.srvs i).endNames ++ peers.map fun j => (sg.srvs j).endNames i

theorem mem_endsOf {sg : ServerGrp n} (h : sg.Distinct) (i a b : Fin n) (peers : List (Fin n)) :
    (sg.srvs a).endNames b ∈ sg.endsOf i peers ↔ (a = i ∧ b ∈ peers) ∨ (b = i ∧ a ∈ peers) := by
  rw [endsOf, List.mem_append, List.mem_map, List.mem_map]
  constructor
  · rintro (⟨j, hj, he⟩ | ⟨j, hj, he⟩)
    · obtain ⟨rfl, rfl⟩ := (h _ _ _ _).mp he
      exact Or.inl ⟨rfl, hj⟩
    · obtain ⟨rfl, rfl⟩ := (h _ _ _ _).mp he
      exact Or.inr ⟨rfl, hj⟩
  · rintro (⟨rfl, hb⟩ | ⟨rfl, ha⟩)
    · exact Or.inl ⟨b, hb, rfl⟩
    · exact Or.inr ⟨a, ha, rfl⟩

theorem not_mem_endsOf {sg : ServerGrp n} {e : String}
    (he : ∀ a b, (sg.srvs a).endNames b ≠ e) (i : Fin n) (peers : List (Fin n)) :
    e ∉ sg.endsOf i peers := by
  intro h
  rw [endsOf, List.mem_append, List.mem_map, List.mem_map] at h
  rcases h with ⟨j, -, hj⟩ | ⟨j, -, hj⟩
  · exact he i j hj
  · exact he j i hj

/-- `connect` enables the ends between `i` and those of the targets that are on the net. -/
theorem connect_eq (sg : ServerGrp n) (i : Fin n) (targets : List (Fin n)) :
    sg.connect i targets = { sg with
      connected := Function.update sg.connected i true
      net := enableAll sg.net
        (sg.endsOf i (targets.filter (Function.update sg.connected i true))) true } := by
  rw [endsOf, enableAll_append, ← foldl_enable_if, ← foldl_enable_if]
  rfl

theorem disconnect_eq (sg : ServerGrp n) (i : Fin n) (peers : List (Fin n)) :
    sg.disconnect i peers = { sg with
      connected := Function.update sg.connected i false
      net := enableAll sg.net (sg.endsOf i peers) false } := by
  rw [endsOf, enableAll_append, ← foldl_enable, ← foldl_enable]
  rfl

@[simp] theorem connect_srvs (sg : ServerGrp n) (i : Fin n) (targets : List (Fin n)) :
    (sg.connect i targets).srvs = sg.srvs := rfl

@[simp] theorem disconnect_srvs (sg : ServerGrp n) (i : Fin n) (peers : List (Fin n)) :
    (sg.disconnect i peers).srvs = sg.srvs := rfl

@[simp] theorem connect_connected (sg : ServerGrp n) (i : Fin n) (targets : List (Fin n)) :
    (sg.connect i targets).connected = Function.update sg.connected i true := rfl

@[simp] theorem disconnect_connected (sg : ServerGrp n) (i : Fin n) (peers : List (Fin n)) :
    (sg.disconnect i peers).connected = Function.update sg.connected i false := rfl

theorem connect_linked {sg : ServerGrp n} (h : sg.Distinct) (i : Fin n) (targets : List (Fin n))
    (a b : Fin n) : (sg.connect i targets).linked a b = true ↔
      (a = i ∧ b ∈ targets ∧ Function.update sg.connected i true b = true) ∨
      (b = i ∧ a ∈ targets ∧ Function.update sg.connected i true a = true) ∨
      sg.linked a b = true := by
  rw [connect_eq, linked, enableAll_true_enabled, mem_endsOf h, List.mem_filter, List.mem_filter,
    or_assoc]
  rfl

theorem disconnect_linked {sg : ServerGrp n} (h : sg.Distinct) (i : Fin n) (peers : List (Fin n))
    (a b : Fin n) : (sg.disconnect i peers).linked a b = true ↔
      ¬ ((a = i ∧ b ∈ peers) ∨ (b = i ∧ a ∈ peers)) ∧ sg.linked a b = true := by
  rw [disconnect_eq, linked, enableAll_false_enabled, mem_endsOf h]
  rfl

/-! ## The names of the ends -/

/-- The current ends are known to the network and different from each other and from the
replaced ones. -/
structure Named (sg : ServerGrp n) : Prop where
  distinct : sg.Distinct
  made : ∀ a b, sg.net.ends ((sg.srvs a).endNames b) = true
  replaced : ∀ e ∈ sg.former, sg.net.ends e = true ∧ ∀ a b, (sg.srvs a).endNames b ≠ e

/-- Operations that make no ends keep their names apart. -/
theorem Named.of_ends {sg sg' : ServerGrp n} (h : sg.Named) (hends : sg'.net.ends = sg.net.ends)
    (hrows : ∀ a, (sg'.srvs a).endNames = (sg.srvs a).endNames) (hformer : sg'.former = sg.former) :
    sg'.Named := by
  constructor
  · intro a b a' b'
    rw [hrows, hrows]
    exact h.distinct a b a' b'
  · intro a b
    rw [hrows, hends]
    exact h.made a b
  · intro e he
    rw [hformer] at he
    simp only [hrows, hends]
    exact h.replaced e he

theorem Named.connect {sg : ServerGrp n} (h : sg.Named) (i : Fin n) (targets : List (Fin n)) :
    (sg.connect i targets).Named := by
  rw [connect_eq]
  exact h.of_ends (enableAll_ends _ _ _) (fun _ => rfl) rfl

theorem Named.disconnect {sg : ServerGrp n} (h : sg.Named) (i : Fin n) (peers : List (Fin n)) :
    (sg.disconnect i peers).Named := by
  rw [disconnect_eq]
  exact h.of_ends (enableAll_ends _ _ _) (fun _ => rfl) rfl

/-- The ends, their names and the flags are the same. -/
structure SameWiring (sg sg' : ServerGrp n) : Prop where
  ends : sg'.net.ends = sg.net.ends
  enabled : sg'.net.enabled = sg.net.enabled
  rows : ∀ a, (sg'.srvs a).endNames = (sg.srvs a).endNames
  connected : sg'.connected = sg.connected
  former : sg'.former = sg.former

/-- `ShutdownServer` has the effect of `DisconnectAll` on the wiring. -/
theorem sameWiring_of_shutdownServer {gid : Int} {sg sg' : ServerGrp n} {i : Fin n} {p : Stored}
    (h : sg.shutdownServer gid i p = some sg') : SameWiring (sg.disconnectAll i) sg' := by
  cases h
  refine ⟨rfl, rfl, ?_, rfl, rfl⟩
  intro a
  by_cases ha : a = i
  · subst ha
    simp only [Function.update_self]
    split <;> rfl
  · simp only [Function.update_of_ne ha]
    rfl

/-- What `StartServer` changes in the wiring: a new row of ends, all disabled. -/
structure NewRow (i : Fin n) (endNames : Fin n → String) (sg sg' : ServerGrp n) : Prop where
  made : Made (List.ofFn endNames) sg.net sg'.net
  row : (sg'.srvs i).endNames = endNames
  rows : ∀ a, a ≠ i → (sg'.srvs a).endNames = (sg.srvs a).endNames
  connected : sg'.connected = sg.connected
  former : sg'.former = sg.former ++ List.ofFn (sg.srvs i).endNames

theorem newRow_of_startServer {gid : Int} {sg sg' : ServerGrp n} {i : Fin n}
    {endNames : Fin n → String} {daemon : Option Nat}
    (h : sg.startServer gid i endNames daemon = some sg') : NewRow i endNames sg sg' := by
  obtain ⟨net, hnet, h⟩ := Option.bind_eq_some_iff.mp h
  have hmade := made_of_makeEnds hnet
  cases daemon with
  | none =>
    cases h
    refine ⟨hmade, by simp, ?_, rfl, rfl⟩
    intro a ha
    simp [ha]
  | some k =>
    -- `AddServer` leaves the ends alone
    cases h
    refine ⟨⟨hmade.nodup, hmade.fresh, hmade.ends, hmade.enabled⟩, by simp, ?_, rfl, rfl⟩
    intro a ha
    simp [ha]

/-- An end the network knows is none of the new ones. -/
theorem NewRow.not_new {i : Fin n} {endNames : Fin n → String} {sg sg' : ServerGrp n}
    (h : NewRow i endNames sg sg') {e : String} (he : sg.net.ends e = true) :
    e ∉ List.ofFn endNames := by
  intro hmem
  rw [h.made.fresh e hmem] at he
  cases he

theorem NewRow.enabled_old {i : Fin n} {endNames : Fin n → String} {sg sg' : ServerGrp n}
    (h : NewRow i endNames sg sg') {e : String} (he : sg.net.ends e = true) :
    sg'.net.enabled e = sg.net.enabled e := by
  rw [h.made.enabled, if_neg (h.not_new he)]

theorem Named.newRow {i : Fin n} {endNames : Fin n → String} {sg sg' : ServerGrp n}
    (h : sg.Named) (hr : NewRow i endNames sg sg') : sg'.Named := by
  have hinj : Function.Injective endNames := List.nodup_ofFn.mp hr.made.nodup
  have hnew : ∀ {e : String}, sg.net.ends e = true → ∀ b, endNames b ≠ e := by
    rintro e he b rfl
    exact hr.not_new he (List.mem_ofFn.mpr ⟨b, rfl⟩)
  constructor
  · intro a b a' b'
    by_cases ha : a = i
    · by_cases ha' : a' = i
      · rw [ha, ha', hr.row, hinj.eq_iff]
        simp
      · rw [ha, hr.row, hr.rows a' ha']
        exact ⟨fun he => absurd he (hnew (h.made a' b') b), fun he => absurd he.1.symm ha'⟩
    · by_cases ha' : a' = i
      · rw [ha', hr.row, hr.rows a ha]
        exact ⟨fun he => absurd he.symm (hnew (h.made a b) b'), fun he => absurd he.1 ha⟩
      · rw [hr.rows a ha, hr.rows a' ha']
        exact h.distinct a b a' b'
  · intro a b
    by_cases ha : a = i
    · rw [ha, hr.row]
      exact (hr.made.ends _).mpr (Or.inr (List.mem_ofFn.mpr ⟨b, rfl⟩))
    · rw [hr.rows a ha]
      exact (hr.made.ends _).mpr (Or.inl (h.made a b))
  · -- the ends replaced now are those of the old row
    have hknown : ∀ e ∈ sg'.former, sg.net.ends e = true ∧
        ∀ a b, a ≠ i → (sg.srvs a).endNames b ≠ e := by
      intro e he
      rw [hr.former, List.mem_append, List.mem_ofFn] at he
      rcases he with he | ⟨j, rfl⟩
      · exact ⟨(h.replaced e he).1, fun a b _ => (h.replaced e he).2 a b⟩
      · exact ⟨h.made i j, fun a b ha hab => ha ((h.distinct a b i j).mp hab).1⟩
    intro e he
    obtain ⟨hends, hother⟩ := hknown e he
    refine ⟨(hr.made.ends e).mpr (Or.inl hends), ?_⟩
    intro a b
    by_cases ha : a = i
    · rw [ha, hr.row]
      exact hnew hends b
    · rw [hr.rows a ha]
      exact hother a b ha

/-- What each `StartServer` keeps, `StartSrvs` keeps. -/
theorem startSrvs_keeps {gid : Int} {endNames : Fin n → Fin n → String}
    {daemons : Fin n → Option Nat} {P : ServerGrp n → Prop}
    (keep : ∀ sg i sg', P sg → sg.startServer gid i (endNames i) (daemons i) = some sg' → P sg')
    (servers : List (Fin n)) {sg sg' : ServerGrp n} (h : P sg)
    (hs : sg.startSrvs gid endNames daemons servers = some sg') : P sg' := by
  rw [startSrvs] at hs
  induction servers generalizing sg with
  | nil =>
    cases hs
    exact h
  | cons i servers ih =>
    rw [List.foldlM_cons] at hs
    obtain ⟨next, hnext, hrest⟩ := Option.bind_eq_some_iff.mp hs
    exact ih (keep sg i next h hnext) hrest

theorem Named.makeSrvGrp {gid : Int} {rn : Network String} {endNames : Fin n → Fin n → String}
    {sg : ServerGrp n} (h : makeSrvGrp gid rn endNames = some sg) :
    sg.Named ∧ ∀ i j, sg.linked i j = false := by
  obtain ⟨net, hnet, rfl⟩ := Option.map_eq_some_iff.mp h
  have hmade : Made ((all n).flatMap fun i => List.ofFn (endNames i)) rn net :=
    Made.foldlM (fun i _ _ hi => made_of_makeEnds hi) _ hnet
  have hmem : ∀ i j, endNames i j ∈ (all n).flatMap fun i => List.ofFn (endNames i) := by
    intro i j
    exact List.mem_flatMap.mpr ⟨i, List.mem_finRange i, List.mem_ofFn.mpr ⟨j, rfl⟩⟩
  refine ⟨⟨?_, ?_, ?_⟩, ?_⟩
  · intro a b a' b'
    obtain ⟨hrow, hrows⟩ := List.nodup_flatMap.mp hmade.nodup
    have hsymm : Std.Symm (Function.onFun List.Disjoint fun i => List.ofFn (endNames i)) :=
      ⟨fun _ _ hd _ hx hy => hd hy hx⟩
    constructor
    · intro he
      have ha : a = a' := by
        by_contra hne
        have hdisj := hrows.forall (List.mem_finRange a) (List.mem_finRange a') hne
        exact hdisj (List.mem_ofFn.mpr ⟨b, rfl⟩) (List.mem_ofFn.mpr ⟨b', he.symm⟩)
      subst ha
      exact ⟨rfl, List.nodup_ofFn.mp (hrow a (List.mem_finRange a)) he⟩
    · rintro ⟨rfl, rfl⟩
      rfl
  · intro a b
    exact (hmade.ends _).mpr (Or.inr (hmem a b))
  · simp
  · intro i j
    exact (hmade.enabled _).trans (if_pos (hmem i j))

/-! ## Flags and ends agree -/

/-- An end is enabled exactly when both of its servers are meant to be on the network, and
the replaced ends are off. -/
structure Wired (sg : ServerGrp n) : Prop extends Named sg where
  flags : ∀ a b, sg.linked a b = (sg.connected a && sg.connected b)
  dead : ∀ e ∈ sg.former, sg.net.enabled e = false

/-- A loop over current ends does not reach the replaced ones. -/
theorem Wired.dead_enableAll {sg : ServerGrp n} (h : sg.Wired) (i : Fin n)
    (peers : List (Fin n)) (b : Bool) :
    ∀ e ∈ sg.former, (enableAll sg.net (sg.endsOf i peers) b).enabled e = false := by
  intro e he
  rw [enableAll_enabled, if_neg (not_mem_endsOf (h.replaced e he).2 i peers)]
  exact h.dead e he

theorem Wired.connectOne {sg : ServerGrp n} (h : sg.Wired) (i : Fin n) :
    (sg.connectOne i).Wired := by
  refine ⟨h.toNamed.connect i (all n), ?_, ?_⟩
  · intro a b
    have hall : ∀ j, j ∈ all n := List.mem_finRange
    rw [Bool.eq_iff_iff, ServerGrp.connectOne, connect_linked h.distinct, h.flags,
      connect_connected]
    by_cases ha : a = i <;> by_cases hb : b = i <;> simp +contextual [hall, ha, hb]
  · rw [ServerGrp.connectOne, connect_eq]
    exact h.dead_enableAll i _ true

theorem Wired.disconnectAll {sg : ServerGrp n} (h : sg.Wired) (i : Fin n) :
    (sg.disconnectAll i).Wired := by
  refine ⟨h.toNamed.disconnect i (all n), ?_, ?_⟩
  · intro a b
    have hall : ∀ j, j ∈ all n := List.mem_finRange
    rw [Bool.eq_iff_iff, ServerGrp.disconnectAll, disconnect_linked h.distinct, h.flags,
      disconnect_connected]
    by_cases ha : a = i <;> by_cases hb : b = i <;> simp [hall, ha, hb]
  · rw [ServerGrp.disconnectAll, disconnect_eq]
    exact h.dead_enableAll i _ false

theorem Wired.connectAll {sg : ServerGrp n} (h : sg.Wired) : sg.connectAll.Wired := by
  rw [ServerGrp.connectAll]
  generalize all n = servers
  induction servers generalizing sg with
  | nil => exact h
  | cons i servers ih => exact ih (h.connectOne i)

theorem Wired.shutdownServer {gid : Int} {sg sg' : ServerGrp n} (h : sg.Wired) {i : Fin n}
    {p : Stored} (hs : sg.shutdownServer gid i p = some sg') : sg'.Wired := by
  have hd := h.disconnectAll i
  have hw := sameWiring_of_shutdownServer hs
  refine ⟨hd.toNamed.of_ends hw.ends hw.rows hw.former, ?_, ?_⟩
  · intro a b
    rw [linked, hw.rows, hw.enabled, hw.connected]
    exact hd.flags a b
  · rw [hw.former, hw.enabled]
    exact hd.dead

theorem Wired.newRow {i : Fin n} {endNames : Fin n → String} {sg sg' : ServerGrp n}
    (h : sg.Wired) (hoff : sg.connected i = false) (hr : NewRow i endNames sg sg') : sg'.Wired := by
  refine ⟨h.toNamed.newRow hr, ?_, ?_⟩
  · intro a b
    rw [linked, hr.connected]
    by_cases ha : a = i
    · rw [ha, hr.row, hoff, hr.made.enabled, if_pos (List.mem_ofFn.mpr ⟨b, rfl⟩)]
      rfl
    · rw [hr.rows a ha, hr.enabled_old (h.made a b)]
      exact h.flags a b
  · intro e he
    rw [hr.former, List.mem_append, List.mem_ofFn] at he
    rcases he with he | ⟨j, rfl⟩
    · rw [hr.enabled_old (h.replaced e he).1]
      exact h.dead e he
    · -- the server was off the network, and so were the ends it gives up
      rw [hr.enabled_old (h.made i j)]
      have hflags := h.flags i j
      rwa [hoff, Bool.false_and] at hflags

theorem Wired.startServers {gid : Int} {sg sg' : ServerGrp n} (h : sg.Wired)
    {endNames : Fin n → Fin n → String} {daemons : Fin n → Option Nat}
    (hoff : ∀ i, sg.connected i = false)
    (hs : sg.startServers gid endNames daemons = some sg') : sg'.Wired := by
  obtain ⟨started, hstarted, rfl⟩ := Option.map_eq_some_iff.mp hs
  refine Wired.connectAll ?_
  refine (startSrvs_keeps (P := fun sg => sg.Wired ∧ ∀ i, sg.connected i = false) ?_ (all n)
    ⟨h, hoff⟩ hstarted).1
  rintro sg i sg' ⟨hw, hoff⟩ hs
  have hr := newRow_of_startServer hs
  exact ⟨hw.newRow (hoff i) hr, fun j => hr.connected ▸ hoff j⟩

end ServerGrp

/-- The operation is not `Partition`, and it starts only servers that are off the network. -/
def GrpOp.Orderly (sg : ServerGrp n) : GrpOp n → Prop
  | .partition _ _ => False
  | .startServer i _ _ => sg.connected i = false
  | .startServers _ _ => ∀ i, sg.connected i = false
  | _ => True

theorem ServerGrp.Wired.step {gid : Int} {sg sg' : ServerGrp n} {op : GrpOp n} (h : sg.Wired)
    (hop : op.Orderly sg) (hs : op.step gid sg = some sg') : sg'.Wired := by
  cases op with
  | connectOne i =>
    cases hs
    exact h.connectOne i
  | connectAll =>
    cases hs
    exact h.connectAll
  | disconnectAll i =>
    cases hs
    exact h.disconnectAll i
  | partition p1 p2 => exact hop.elim
  | shutdownServer i p => exact h.shutdownServer hs
  | startServer i endNames daemon => exact h.newRow hop (ServerGrp.newRow_of_startServer hs)
  | startServers endNames daemons => exact h.startServers hop hs

/-- Whatever the network was like when the group was made, after any operations but
`Partition` that start servers only while they are off the network, an end is enabled
exactly when both of its servers are connected, and the replaced ends are disabled. -/
theorem connected_describes_network (gid : Int) (rn : Network String)
    (endNames : Fin n → Fin n → String) (ops : List (GrpOp n)) (sg₀ sg : ServerGrp n)
    (hmake : ServerGrp.makeSrvGrp gid rn endNames = some sg₀)
    (hrun : run (GrpOp.step gid) sg₀ ops = some sg)
    (hops : Obeys (GrpOp.step gid) sg₀ (fun sg op => op.Orderly sg) ops) :
    (∀ i j, sg.net.enabled ((sg.srvs i).endNames j) = true ↔
      sg.connected i = true ∧ sg.connected j = true) ∧
    ∀ e ∈ sg.former, sg.net.enabled e = false := by
  have hstart : sg₀.Wired := by
    obtain ⟨hnamed, hoff⟩ := ServerGrp.Named.makeSrvGrp hmake
    obtain ⟨net, -, rfl⟩ := Option.map_eq_some_iff.mp hmake
    exact ⟨hnamed, hoff, by simp⟩
  have hwired : sg.Wired := by
    refine run_induction_of_obeys (P := fun _ sg => sg.Wired) hstart ?_ hrun hops
    intro ops sg op sg' _ hw hop hs
    exact hw.step hop hs
  refine ⟨?_, hwired.dead⟩
  intro i j
  rw [← Bool.and_eq_true, ← hwired.flags i j]
  rfl

def pair {α : Type} (a b : α) : Fin 2 → α := fun j => if j.val = 0 then a else b

def first : Fin 2 := ⟨0, Nat.zero_lt_two⟩

/-- Two servers are started; the first is shut down, restarted and connected again. -/
def restartedFirst : List (GrpOp 2) :=
  [.startServers (pair (pair "a" "b") (pair "c" "d")) (fun _ => some 0),
   .shutdownServer first ⟨makePersister, none⟩, .startServer first (pair "e" "f") none,
   .connectOne first]

theorem restartedFirst_describes_network : ∃ sg₀ sg : ServerGrp 2,
    ServerGrp.makeSrvGrp 0 (makeNetwork String)
      (pair (pair "p" "q") (pair "r" "s")) = some sg₀ ∧
    run (GrpOp.step 0) sg₀ restartedFirst = some sg ∧ "a" ∈ sg.former ∧
    (∀ i j, sg.net.enabled ((sg.srvs i).endNames j) = true ↔
      sg.connected i = true ∧ sg.connected j = true) ∧
    ∀ e ∈ sg.former, sg.net.enabled e = false := by
  obtain ⟨sg₀, hmake⟩ : ∃ sg₀ : ServerGrp 2, ServerGrp.makeSrvGrp 0 (makeNetwork String)
      (pair (pair "p" "q") (pair "r" "s")) = some sg₀ := ⟨_, rfl⟩
  obtain ⟨sg, hrun⟩ : ∃ sg, run (GrpOp.step 0) sg₀ restartedFirst = some sg := by
    cases hmake
    exact ⟨_, rfl⟩
  have hformer : "a" ∈ sg.former := by
    cases hmake
    cases hrun
    decide
  have hops : Obeys (GrpOp.step 0) sg₀ (fun sg op => op.Orderly sg) restartedFirst := by
    cases hmake
    refine .cons (fun _ => rfl) fun s₁ h₁ => .cons trivial fun s₂ h₂ => ?_
    cases h₁
    cases h₂
    exact .cons rfl fun s₃ h₃ => .cons trivial fun s₄ h₄ => .of_forall (by simp)
  exact ⟨sg₀, sg, hmake, hrun, hformer,
    connected_describes_network 0 _ _ restartedFirst sg₀ sg hmake hrun hops⟩

end Tester
