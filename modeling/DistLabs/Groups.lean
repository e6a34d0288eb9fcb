import DistLabs.Connections
import DistLabs.NetCalls

/-!
# Many groups on one network

A test may have many groups of servers, all on one network: their ends are told apart
by the random names of the ends, and their servers by `ServerName`. An operation of
a group is a series of calls on the network that stay with the group's own names.
So a group does not notice the others: what a run makes of it is what the run would
have made of it with the operations on the other groups left out.
-/
namespace Tester

open Labrpc Runs

variable {n : Nat}

/-! ## Operations as calls on the network -/

/-- The ends of the servers of a group and of those they have replaced. -/
def ServerGrp.owned (sg : ServerGrp n) : List String :=
  sg.former ++ (ServerGrp.all n).flatMap fun i => List.ofFn (sg.srvs i).endNames

theorem ServerGrp.mem_owned {sg : ServerGrp n} {e : String} :
    e ∈ sg.owned ↔ e ∈ sg.former ∨ ∃ i j, (sg.srvs i).endNames j = e := by
  simp [ServerGrp.owned, ServerGrp.all, List.mem_ofFn]

/-- On any network the operation makes these calls, stays with the names of the group, and
leaves the rest of the group like this. -/
structure Emits (gid : Int) (f : ServerGrp n → Option (ServerGrp n)) (sg : ServerGrp n)
    (cs : List (Control String)) (rest : ServerGrp n) : Prop where
  eq : ∀ net, f { sg with net := net } = (execAll net cs).map fun net => { rest with net := net }
  stays : StaysIn gid sg.owned cs
  owns : ∀ e ∈ rest.owned, e ∈ grow sg.owned cs

/-- The operation is a series of calls that depends on the group only. -/
def IsCalls (gid : Int) (f : ServerGrp n → Option (ServerGrp n)) : Prop :=
  ∀ sg, ∃ cs rest, Emits gid f sg cs rest

theorem IsCalls.none_at {gid : Int} : IsCalls gid fun sg : ServerGrp n => some sg := by
  intro sg
  exact ⟨[], sg, fun _ => rfl, trivial, fun _ he => he⟩

theorem IsCalls.bind {gid : Int} {f g : ServerGrp n → Option (ServerGrp n)} (hf : IsCalls gid f)
    (hg : IsCalls gid g) : IsCalls gid fun sg => (f sg).bind g := by
  intro sg
  obtain ⟨cs, mid, hcs⟩ := hf sg
  obtain ⟨ds, rest, hds⟩ := hg mid
  obtain ⟨hstays, hgrow⟩ := hds.stays.mono hcs.owns
  refine ⟨cs ++ ds, rest, ?_, hcs.stays.append hstays, ?_⟩
  · intro net
    rw [hcs.eq, execAll_append]
    cases execAll net cs with
    | none => rfl
    | some rm => exact hds.eq rm
  · intro e he
    rw [grow_append]
    exact hgrow e (hds.owns e he)

theorem IsCalls.foldlM {α : Type} {gid : Int} {f : ServerGrp n → α → Option (ServerGrp n)}
    (hf : ∀ a, IsCalls gid fun sg => f sg a) (as : List α) :
    IsCalls gid fun sg => as.foldlM f sg := by
  induction as with
  | nil => exact IsCalls.none_at
  | cons a as ih => exact (hf a).bind ih

theorem IsCalls.foldl {α : Type} {gid : Int} {f : ServerGrp n → α → ServerGrp n}
    (hf : ∀ a, IsCalls gid fun sg => some (f sg a)) (as : List α) :
    IsCalls gid fun sg => some (as.foldl f sg) := by
  induction as with
  | nil => exact IsCalls.none_at
  | cons a as ih => exact (hf a).bind ih

theorem execAll_enable (rn : Network String) (names : List String) (b : Bool) :
    execAll rn (names.map fun e => .enable e b) = some (enableAll rn names b) := by
  induction names generalizing rn with
  | nil => rfl
  | cons e names ih => exact ih (enable rn e b)

theorem staysIn_enable (gid : Int) (b : Bool) {owned names : List String}
    (h : ∀ e ∈ names, e ∈ owned) : StaysIn gid owned (names.map fun e => .enable e b) ∧
      grow owned (names.map fun e => .enable e b) = owned := by
  induction names with
  | nil => exact ⟨trivial, rfl⟩
  | cons e names ih =>
    obtain ⟨hstays, hgrow⟩ := ih fun x hx => h x (List.mem_cons_of_mem e hx)
    exact ⟨⟨h e List.mem_cons_self, hstays⟩, hgrow⟩

theorem ServerGrp.endsOf_owned (sg : ServerGrp n) (i : Fin n) (peers : List (Fin n)) :
    ∀ e ∈ sg.endsOf i peers, e ∈ sg.owned := by
  intro e he
  rw [ServerGrp.mem_owned]
  rcases List.mem_append.mp he with he | he
  · obtain ⟨j, -, hj⟩ := List.mem_map.mp he
    exact Or.inr ⟨i, j, hj⟩
  · obtain ⟨j, -, hj⟩ := List.mem_map.mp he
    exact Or.inr ⟨j, i, hj⟩

/-- An operation on the flag of a server that enables or disables ends of the group. -/
theorem isCalls_enableAll (gid : Int) (i : Fin n) (flag b : Bool)
    (names : ServerGrp n → List String)
    (hnames : ∀ sg, ∀ e ∈ names sg, e ∈ sg.owned)
    (hnet : ∀ sg net, names { sg with net := net } = names sg) :
    IsCalls gid fun sg => some { sg with
      connected := Function.update sg.connected i flag
      net := enableAll sg.net (names sg) b } := by
  intro sg
  obtain ⟨hstays, hgrow⟩ := staysIn_enable gid b (hnames sg)
  refine ⟨_, { sg with connected := Function.update sg.connected i flag }, ?_, hstays, ?_⟩
  · intro net
    rw [execAll_enable, hnet]
    rfl
  · rw [hgrow]
    exact fun e he => he

theorem isCalls_connect (gid : Int) (i : Fin n) (targets : List (Fin n)) :
    IsCalls gid fun sg => some (sg.connect i targets) := by
  simp only [ServerGrp.connect_eq]
  exact isCalls_enableAll gid i true true
    (fun sg => sg.endsOf i (targets.filter (Function.update sg.connected i true)))
    (fun sg => sg.endsOf_owned i _) fun _ _ => rfl

theorem isCalls_disconnect (gid : Int) (i : Fin n) (peers : List (Fin n)) :
    IsCalls gid fun sg => some (sg.disconnect i peers) := by
  simp only [ServerGrp.disconnect_eq]
  exact isCalls_enableAll gid i false false (fun sg => sg.endsOf i peers)
    (fun sg => sg.endsOf_owned i _) fun _ _ => rfl

theorem isCalls_partition (gid : Int) (p1 p2 : List (Fin n)) :
    IsCalls gid fun sg => some (sg.partition p1 p2) := by
  have hside : ∀ (p p' : List (Fin n)), IsCalls gid fun sg : ServerGrp n =>
      some (p.foldl (fun sg i => (sg.disconnect i p').connect i p) sg) := by
    intro p p'
    refine IsCalls.foldl (fun i => ?_) p
    have hone := (isCalls_disconnect gid i p').bind (isCalls_connect gid i p)
    exact hone
  exact (hside p1 p2).bind (hside p2 p1)

theorem isCalls_connectAll (gid : Int) : IsCalls gid fun sg : ServerGrp n => some sg.connectAll :=
  IsCalls.foldl (fun i => isCalls_connect gid i (ServerGrp.all n)) (ServerGrp.all n)

theorem isCalls_shutdownServer (gid : Int) (i : Fin n) (p : Stored) :
    IsCalls gid fun sg => sg.shutdownServer gid i p := by
  have hdelete : IsCalls gid fun sg : ServerGrp n =>
      ((Control.deleteServer (serverName gid i)).exec sg.net).map fun net =>
        { sg with
          net := net
          srvs := Function.update sg.srvs i
            (if (sg.srvs i).dc.isSome then { sg.srvs i with saved := some p, dc := none }
              else sg.srvs i) } := by
    intro sg
    refine ⟨[.deleteServer (serverName gid i)], { sg with
      srvs := Function.update sg.srvs i
        (if (sg.srvs i).dc.isSome then { sg.srvs i with saved := some p, dc := none }
          else sg.srvs i) }, fun _ => rfl, ⟨⟨i, rfl⟩, trivial⟩, ?_⟩
    intro e he
    rw [ServerGrp.mem_owned] at he
    change e ∈ sg.owned
    rw [ServerGrp.mem_owned]
    refine he.imp_right ?_
    rintro ⟨a, b, hab⟩
    refine ⟨a, b, ?_⟩
    by_cases ha : a = i
    · subst ha
      simp only [Function.update_self] at hab
      split at hab <;> exact hab
    · simpa [ha] using hab
  exact (isCalls_disconnect gid i (ServerGrp.all n)).bind hdelete

/-! ## New ends -/

/-- The calls of `makeServer` for given names. -/
def makeEndsCalls (gid : Int) (endNames : Fin n → String) : List (Control String) :=
  (makeServer n).map fun c => c.control gid endNames

theorem execAll_makeEnds (gid : Int) (endNames : Fin n → String) (rn : Network String) :
    ServerGrp.makeEnds gid endNames rn = execAll rn (makeEndsCalls gid endNames) := by
  rw [ServerGrp.makeEnds, execAll, makeEndsCalls, List.foldlM_map]

theorem staysIn_makeEnds (gid : Int) (endNames : Fin n → String) (owned : List String) :
    StaysIn gid owned (makeEndsCalls gid endNames) ∧
      ∀ e, e ∈ grow owned (makeEndsCalls gid endNames) ↔ e ∈ owned ∨ ∃ j, endNames j = e := by
  have hlist : ∀ (js : List (Fin n)) (owned : List String),
      StaysIn gid owned ((js.flatMap fun j => [EndCall.makeEnd j, EndCall.connect j]).map
        fun c => c.control gid endNames) ∧
      ∀ e, e ∈ grow owned ((js.flatMap fun j => [EndCall.makeEnd j, EndCall.connect j]).map
        fun c => c.control gid endNames) ↔ e ∈ owned ∨ ∃ j ∈ js, endNames j = e := by
    intro js
    induction js with
    | nil => exact fun owned => ⟨trivial, by simp [grow]⟩
    | cons j js ih =>
      intro owned
      obtain ⟨hstays, hgrow⟩ := ih (endNames j :: owned)
      refine ⟨⟨List.mem_cons_self, hstays⟩, ?_⟩
      intro e
      refine (hgrow e).trans ?_
      simp only [List.mem_cons, exists_eq_or_imp]
      rw [or_assoc, or_left_comm, eq_comm]
  obtain ⟨hstays, hgrow⟩ := hlist (List.finRange n) owned
  refine ⟨hstays, fun e => (hgrow e).trans ?_⟩
  simp

theorem isCalls_startServer (gid : Int) (i : Fin n) (endNames : Fin n → String)
    (daemon : Option Nat) : IsCalls gid fun sg => sg.startServer gid i endNames daemon := by
  intro sg
  have hends := staysIn_makeEnds gid endNames sg.owned
  have howns : ∀ e ∈ ServerGrp.owned { sg with
        srvs := Function.update sg.srvs i
          ⟨some ((sg.srvs i).saved.getD ⟨makePersister, none⟩), endNames, daemon⟩
        former := sg.former ++ List.ofFn (sg.srvs i).endNames },
      e ∈ grow sg.owned (makeEndsCalls gid endNames) := by
    intro e he
    rw [hends.2, ServerGrp.mem_owned]
    rcases ServerGrp.mem_owned.mp he with he | ⟨a, b, hab⟩
    · rcases List.mem_append.mp he with he | he
      · exact Or.inl (Or.inl he)
      · obtain ⟨b, hb⟩ := List.mem_ofFn.mp he
        exact Or.inl (Or.inr ⟨i, b, hb⟩)
    · by_cases ha : a = i
      · subst ha
        exact Or.inr ⟨b, by simpa using hab⟩
      · exact Or.inl (Or.inr ⟨a, b, by simpa [ha] using hab⟩)
  cases daemon with
  | none =>
    refine ⟨makeEndsCalls gid endNames, _, ?_, hends.1, howns⟩
    intro net
    rw [ServerGrp.startServer, execAll_makeEnds]
    cases execAll net (makeEndsCalls gid endNames) <;> rfl
  | some k =>
    have hadd : StaysIn gid (grow sg.owned (makeEndsCalls gid endNames))
        [.addServer (serverName gid i) k] := ⟨⟨i, rfl⟩, trivial⟩
    refine ⟨makeEndsCalls gid endNames ++ [.addServer (serverName gid i) k], { sg with
        srvs := Function.update sg.srvs i
          ⟨some ((sg.srvs i).saved.getD ⟨makePersister, none⟩), endNames, some k⟩
        former := sg.former ++ List.ofFn (sg.srvs i).endNames }, ?_, hends.1.append hadd, ?_⟩
    · intro net
      rw [ServerGrp.startServer, execAll_makeEnds, execAll_append]
      cases execAll net (makeEndsCalls gid endNames) <;> rfl
    · rw [grow_append]
      exact howns

theorem isCalls_step (gid : Int) (op : GrpOp n) : IsCalls gid fun sg => op.step gid sg := by
  cases op with
  | connectOne i => exact isCalls_connect gid i (ServerGrp.all n)
  | connectAll => exact isCalls_connectAll gid
  | disconnectAll i => exact isCalls_disconnect gid i (ServerGrp.all n)
  | partition p1 p2 => exact isCalls_partition gid p1 p2
  | shutdownServer i p => exact isCalls_shutdownServer gid i p
  | startServer i endNames daemon => exact isCalls_startServer gid i endNames daemon
  | startServers endNames daemons =>
    have hstart : IsCalls gid fun sg : ServerGrp n =>
        sg.startSrvs gid endNames daemons (ServerGrp.all n) :=
      IsCalls.foldlM (fun srv => isCalls_startServer gid srv (endNames srv) (daemons srv)) _
    have hboth := hstart.bind (isCalls_connectAll gid)
    simpa only [GrpOp.step, ServerGrp.startServers, Option.map_eq_bind, Function.comp_def]
      using hboth

theorem makeSrvGrp_eq (gid : Int) (endNames : Fin n → Fin n → String) (rn : Network String) :
    ServerGrp.makeSrvGrp gid rn endNames =
      (execAll rn ((ServerGrp.all n).flatMap fun i => makeEndsCalls gid (endNames i))).map
        fun rn => ⟨rn, fun i => ⟨none, endNames i, none⟩, fun _ => false, []⟩ := by
  rw [ServerGrp.makeSrvGrp, execAll, foldlM_flatMap]
  simp only [execAll_makeEnds]
  rfl

theorem staysIn_makeSrvGrp (gid : Int) (endNames : Fin n → Fin n → String) (is : List (Fin n))
    (owned : List String) :
    StaysIn gid owned (is.flatMap fun i => makeEndsCalls gid (endNames i)) ∧
      ∀ e, e ∈ grow owned (is.flatMap fun i => makeEndsCalls gid (endNames i)) ↔
        e ∈ owned ∨ ∃ i ∈ is, ∃ j, endNames i j = e := by
  induction is generalizing owned with
  | nil => exact ⟨trivial, by simp [grow]⟩
  | cons i is ih =>
    obtain ⟨hrow, hrowgrow⟩ := staysIn_makeEnds gid (endNames i) owned
    obtain ⟨hstays, hgrow⟩ := ih (grow owned (makeEndsCalls gid (endNames i)))
    rw [List.flatMap_cons]
    refine ⟨hrow.append hstays, ?_⟩
    intro e
    rw [grow_append, hgrow, hrowgrow]
    simp only [List.mem_cons, exists_eq_or_imp]
    rw [or_assoc]

/-! ## The groups of a test -/

/-- A group of some size; its network is that of the test. -/
structure AnyGroup where
  size : Nat
  grp : ServerGrp size

structure Groups where
  net : Network String
  grps : Int → Option AnyGroup

def newGroups (rn : Network String) : Groups := ⟨rn, fun _ => none⟩

/-- An operation of the test. What it does to a group it says for each size, with `none` for
an index out of range. -/
inductive GroupsOp where
  | makeGroup (gid : Int) (nsrv : Nat) (endNames : Fin nsrv → Fin nsrv → String)
  | group (gid : Int) (op : ∀ n, Option (GrpOp n))
  | shutdown (gid : Int) (ps : Nat → Stored)
  | exitGroup (gid : Int) (ps : Nat → Stored)
  | setReliable (yes : Bool)
  | setLongReordering (yes : Bool)
  | setLongDelays (yes : Bool)

/-- The group's part of the state, without the network. -/
def AnyGroup.put (sg : ServerGrp n) : AnyGroup := ⟨n, { sg with net := makeNetwork String }⟩

/-- An operation on the group that `lookupGroup` finds; a missing group is a nil pointer. -/
def Groups.onGroup (s : Groups) (gid : Int)
    (f : ∀ n, ServerGrp n → Option (ServerGrp n)) : Option Groups :=
  match s.grps gid with
  | none => none
  | some g => (f g.size { g.grp with net := s.net }).map fun sg =>
    ⟨sg.net, Function.update s.grps gid (some (.put sg))⟩

def ServerGrp.shutdown (gid : Int) (ps : Nat → Stored) (sg : ServerGrp n) : Option (ServerGrp n) :=
  (ServerGrp.all n).foldlM (fun sg srv => sg.shutdownServer gid srv (ps srv)) sg

def Groups.step (s : Groups) : GroupsOp → Option Groups
  | .makeGroup gid nsrv endNames =>
    (ServerGrp.makeSrvGrp gid s.net endNames).map fun sg : ServerGrp nsrv =>
      ⟨sg.net, Function.update s.grps gid (some (.put sg))⟩
  | .group gid op => s.onGroup gid fun n sg => (op n).bind fun op => op.step gid sg
  | .shutdown gid ps => s.onGroup gid fun _ sg => sg.shutdown gid ps
  | .exitGroup gid ps => (s.onGroup gid fun _ sg => sg.shutdown gid ps).map fun s =>
    { s with grps := Function.update s.grps gid none }
  | .setReliable yes => some { s with net := { s.net with reliable := yes } }
  | .setLongReordering yes => some { s with net := { s.net with longReordering := yes } }
  | .setLongDelays yes => some { s with net := { s.net with longDelays := yes } }

/-- The group that an operation is about, if any. -/
def GroupsOp.gid : GroupsOp → Option Int
  | .makeGroup gid _ _ => some gid
  | .group gid _ => some gid
  | .shutdown gid _ => some gid
  | .exitGroup gid _ => some gid
  | _ => none

/-- The operation is on the group, or on the network as a whole. -/
def GroupsOp.concerns (gid : Int) (op : GroupsOp) : Bool := op.gid.all (· = gid)

def ownedBy (g : Option AnyGroup) : List String := g.elim [] fun g => g.grp.owned

/-- What an operation on a group does: calls that depend on the group only, and a new state
of the group. -/
structure Does (op : GroupsOp) (g : Int) (old : Option AnyGroup) (cs : List (Control String))
    (new : Option AnyGroup) : Prop where
  stays : StaysIn g (ownedBy old) cs
  owns : ∀ e ∈ ownedBy new, e ∈ grow (ownedBy old) cs
  step : ∀ t : Groups, t.grps g = old → t.step op =
    (execAll t.net cs).map fun net => ⟨net, Function.update t.grps g new⟩

theorem Groups.onGroup_calls {gid : Int} {f : ∀ n, ServerGrp n → Option (ServerGrp n)}
    {g : AnyGroup} (hf : IsCalls gid (f g.size)) :
    ∃ cs new, StaysIn gid (ownedBy (some g)) cs ∧
      (∀ e ∈ ownedBy (some new), e ∈ grow (ownedBy (some g)) cs) ∧
      ∀ t : Groups, t.grps gid = some g → t.onGroup gid f =
        (execAll t.net cs).map fun net => ⟨net, Function.update t.grps gid (some new)⟩ := by
  obtain ⟨cs, rest, hemits⟩ := hf g.grp
  refine ⟨cs, .put rest, hemits.stays, hemits.owns, ?_⟩
  intro t ht
  rw [Groups.onGroup, ht]
  dsimp only
  rw [hemits.eq, Option.map_map]
  rfl

theorem isCalls_shutdown (gid : Int) (ps : Nat → Stored) (n : Nat) :
    IsCalls gid fun sg : ServerGrp n => sg.shutdown gid ps :=
  IsCalls.foldlM (fun srv => isCalls_shutdownServer gid srv (ps srv)) _

theorem Groups.exists_group {s s' : Groups} {gid : Int}
    {f : ∀ n, ServerGrp n → Option (ServerGrp n)} (h : s.onGroup gid f = some s') :
    ∃ g sg, s.grps gid = some g ∧ f g.size { g.grp with net := s.net } = some sg := by
  rw [Groups.onGroup] at h
  cases hg : s.grps gid with
  | none => simp [hg] at h
  | some g =>
    rw [hg] at h
    obtain ⟨sg, hsg, -⟩ := Option.map_eq_some_iff.mp h
    exact ⟨g, sg, rfl, hsg⟩

theorem does_of_step {s s' : Groups} {op : GroupsOp} {g : Int} (hg : op.gid = some g)
    (h : s.step op = some s') : ∃ cs new, Does op g (s.grps g) cs new := by
  cases op with
  | makeGroup gid nsrv endNames =>
    obtain rfl : gid = g := Option.some.inj hg
    have hends := staysIn_makeSrvGrp gid endNames (ServerGrp.all nsrv)
    have hnone : ∀ e ∈ ([] : List String), e ∈ ownedBy (s.grps gid) := by simp
    have hmono := (hends []).1.mono hnone
    refine ⟨_, some (.put ⟨s.net, fun i => ⟨none, endNames i, none⟩, fun _ => false, []⟩),
      hmono.1, ?_, ?_⟩
    · intro e he
      apply hmono.2
      rw [(hends []).2]
      rcases ServerGrp.mem_owned.mp he with he | ⟨i, j, hij⟩
      · cases he
      · exact Or.inr ⟨i, List.mem_finRange i, j, hij⟩
    · intro t ht
      rw [Groups.step, makeSrvGrp_eq, Option.map_map]
      rfl
  | group gid op =>
    obtain rfl : gid = g := Option.some.inj hg
    obtain ⟨g, sg, hgrp, hop⟩ := Groups.exists_group (s := s)
      (f := fun n sg => (op n).bind fun op => op.step gid sg) h
    obtain ⟨op', hop', -⟩ := Option.bind_eq_some_iff.mp hop
    have hcalls : IsCalls gid
        fun sg : ServerGrp g.size => (op g.size).bind fun op => op.step gid sg := by
      rw [hop']
      exact isCalls_step gid op'
    obtain ⟨cs, new, hstays, howns, hstep⟩ := Groups.onGroup_calls
      (f := fun n sg => (op n).bind fun op => op.step gid sg) hcalls
    rw [hgrp]
    exact ⟨cs, some new, hstays, howns, hstep⟩
  | shutdown gid ps =>
    obtain rfl : gid = g := Option.some.inj hg
    obtain ⟨g, -, hgrp, -⟩ := Groups.exists_group (s := s) (f := fun _ sg => sg.shutdown gid ps) h
    obtain ⟨cs, new, hstays, howns, hstep⟩ := Groups.onGroup_calls
      (f := fun _ sg => sg.shutdown gid ps) (isCalls_shutdown gid ps g.size)
    rw [hgrp]
    exact ⟨cs, some new, hstays, howns, hstep⟩
  | exitGroup gid ps =>
    obtain rfl : gid = g := Option.some.inj hg
    obtain ⟨s₁, h, -⟩ := Option.map_eq_some_iff.mp h
    obtain ⟨g, -, hgrp, -⟩ := Groups.exists_group h
    obtain ⟨cs, new, hstays, -, hstep⟩ := Groups.onGroup_calls
      (f := fun _ sg => sg.shutdown gid ps) (isCalls_shutdown gid ps g.size)
    rw [hgrp]
    refine ⟨cs, none, hstays, by simp [ownedBy], ?_⟩
    intro t ht
    rw [Groups.step, hstep t ht, Option.map_map]
    congr 1
    funext net
    simp
  | setReliable yes => cases hg
  | setLongReordering yes => cases hg
  | setLongDelays yes => cases hg

/-! ## A group alone -/

/-- The test, and the test without the other groups. -/
structure Alone (gid : Int) (s t : Groups) : Prop where
  same : t.grps gid = s.grps gid
  sees : Sees gid (ownedBy (s.grps gid)) s.net t.net
  apart : ∀ g, g ≠ gid → ∀ e ∈ ownedBy (s.grps g), e ∉ ownedBy (s.grps gid) ∧ s.net.ends e = true
  mode : SameMode s.net t.net

theorem Alone.start (gid : Int) (rn : Network String) :
    Alone gid (newGroups rn) (newGroups rn) where
  same := rfl
  sees :=
    ⟨fun _ he => he, by simp [newGroups, ownedBy], fun _ _ => rfl, fun _ _ => rfl, fun _ => rfl⟩
  apart := by simp [newGroups, ownedBy]
  mode := ⟨rfl, rfl, rfl⟩

/-- An operation on the group itself. -/
theorem Alone.own {gid : Int} {s s' t : Groups} {op : GroupsOp} (h : Alone gid s t)
    (hgid : op.gid = some gid) (hstep : s.step op = some s') :
    ∃ t', t.step op = some t' ∧ Alone gid s' t' := by
  obtain ⟨cs, new, hdoes⟩ := does_of_step hgid hstep
  rw [hdoes.step s rfl] at hstep
  obtain ⟨net, hexec, rfl⟩ := Option.map_eq_some_iff.mp hstep
  obtain ⟨alone, halone, hsees⟩ := h.sees.own hdoes.stays hexec
  have hmode := hdoes.stays.sameMode hexec
  have hmode' := hdoes.stays.sameMode halone
  refine ⟨⟨alone, Function.update t.grps gid new⟩, ?_, ?_, ?_, ?_, ?_⟩
  · rw [hdoes.step t h.same, halone]
    rfl
  · simp
  · simpa using hsees.shrink hdoes.owns
  · intro g hg e he
    simp only [Function.update_of_ne hg, Function.update_self] at he ⊢
    obtain ⟨hnot, hends⟩ := h.apart g hg e he
    refine ⟨?_, (hdoes.stays.ends hexec).1 e hends⟩
    intro hnew
    rcases hdoes.stays.fresh hexec (hdoes.owns e hnew) with hold | hfree
    · exact hnot hold
    · rw [hends] at hfree
      cases hfree
  · exact ⟨hmode'.1.trans (h.mode.1.trans hmode.1.symm),
      hmode'.2.1.trans (h.mode.2.1.trans hmode.2.1.symm),
      hmode'.2.2.trans (h.mode.2.2.trans hmode.2.2.symm)⟩

/-- An operation on another group. -/
theorem Alone.other {gid g : Int} {s s' t : Groups} {op : GroupsOp} (h : Alone gid s t)
    (hg : g ≠ gid) (hgid : op.gid = some g) (hstep : s.step op = some s') : Alone gid s' t := by
  obtain ⟨cs, new, hdoes⟩ := does_of_step hgid hstep
  rw [hdoes.step s rfl] at hstep
  obtain ⟨net, hexec, rfl⟩ := Option.map_eq_some_iff.mp hstep
  obtain ⟨hsees, hdisjoint⟩ :=
    h.sees.other hg hdoes.stays (fun e he => (h.apart g hg e he).1) hexec
  obtain ⟨hkeep, hgrow⟩ := hdoes.stays.ends hexec
  have hmode := hdoes.stays.sameMode hexec
  refine ⟨?_, ?_, ?_, ?_⟩
  · simpa [Ne.symm hg] using h.same
  · simpa [Ne.symm hg] using hsees
  · intro g' hg' e he
    simp only [Function.update_of_ne (Ne.symm hg)]
    by_cases hsame : g' = g
    · subst hsame
      simp only [Function.update_self] at he
      exact ⟨hdisjoint e (hdoes.owns e he),
        hgrow (fun x hx => (h.apart g' hg' x hx).2) e (hdoes.owns e he)⟩
    · simp only [Function.update_of_ne hsame] at he
      exact ⟨(h.apart g' hg' e he).1, hkeep e (h.apart g' hg' e he).2⟩
  · exact ⟨h.mode.1.trans hmode.1.symm, h.mode.2.1.trans hmode.2.1.symm,
      h.mode.2.2.trans hmode.2.2.symm⟩

/-- A setting of the network. -/
theorem Alone.setting {gid : Int} {s s' t : Groups} {op : GroupsOp} (h : Alone gid s t)
    (hgid : op.gid = none) (hstep : s.step op = some s') :
    ∃ t', t.step op = some t' ∧ Alone gid s' t' := by
  have hsees := h.sees
  cases op with
  | setReliable yes =>
    cases hstep
    exact ⟨_, rfl, h.same,
      ⟨hsees.fewer, hsees.made, hsees.enabled, hsees.connections, hsees.servers⟩, h.apart,
      rfl, h.mode.2.1, h.mode.2.2⟩
  | setLongReordering yes =>
    cases hstep
    exact ⟨_, rfl, h.same,
      ⟨hsees.fewer, hsees.made, hsees.enabled, hsees.connections, hsees.servers⟩, h.apart,
      h.mode.1, rfl, h.mode.2.2⟩
  | setLongDelays yes =>
    cases hstep
    exact ⟨_, rfl, h.same,
      ⟨hsees.fewer, hsees.made, hsees.enabled, hsees.connections, hsees.servers⟩, h.apart,
      h.mode.1, h.mode.2.1, rfl⟩
  | makeGroup gid nsrv endNames => cases hgid
  | group gid op => cases hgid
  | shutdown gid ps => cases hgid
  | exitGroup gid ps => cases hgid

theorem Alone.of_run {gid : Int} {rn : Network String} {ops : List GroupsOp} {s : Groups}
    (h : run Groups.step (newGroups rn) ops = some s) :
    ∃ t, run Groups.step (newGroups rn) (ops.filter (·.concerns gid)) = some t ∧ Alone gid s t := by
  refine run_induction (P := fun ops s => ∃ t,
    run Groups.step (newGroups rn) (ops.filter (·.concerns gid)) = some t ∧ Alone gid s t) ?_ ?_ h
  · exact ⟨newGroups rn, rfl, Alone.start gid rn⟩
  · rintro ops s op s' _ ⟨t, hrun, halone⟩ hstep
    have hkept : op.concerns gid = true → ∀ t', t.step op = some t' →
        run Groups.step (newGroups rn) ((ops ++ [op]).filter (·.concerns gid)) = some t' := by
      intro hconcerns t' ht'
      rw [List.filter_append, List.filter_singleton, hconcerns]
      exact run_concat_eq_some.mpr ⟨t, hrun, ht'⟩
    cases hgid : op.gid with
    | none =>
      obtain ⟨t', ht', halone'⟩ := halone.setting hgid hstep
      exact ⟨t', hkept (by simp [GroupsOp.concerns, hgid]) t' ht', halone'⟩
    | some g =>
      by_cases hg : g = gid
      · subst hg
        obtain ⟨t', ht', halone'⟩ := halone.own hgid hstep
        exact ⟨t', hkept (by simp [GroupsOp.concerns, hgid]) t' ht', halone'⟩
      · refine ⟨t, ?_, halone.other hg hgid hstep⟩
        rw [List.filter_append, List.filter_singleton]
        simpa [GroupsOp.concerns, hgid, hg] using hrun

/-- A group of a test with many groups ends up as it would alone: with the operations on the
other groups left out, the run succeeds as well and leaves the group with the same
servers, the same connections and the same flags. -/
theorem group_runs_alone (gid : Int) (rn : Network String) (ops : List GroupsOp) (s : Groups)
    (h : run Groups.step (newGroups rn) ops = some s) :
    ∃ t, run Groups.step (newGroups rn) (ops.filter (·.concerns gid)) = some t ∧
      t.grps gid = s.grps gid ∧
      (∀ g, s.grps gid = some g → ∀ e ∈ g.grp.owned, t.net.ends e = s.net.ends e ∧
        t.net.enabled e = s.net.enabled e ∧ t.net.connections e = s.net.connections e) ∧
      (∀ i, t.net.servers (serverName gid i) = s.net.servers (serverName gid i)) ∧
      SameMode s.net t.net := by
  obtain ⟨t, hrun, halone⟩ := Alone.of_run h
  refine ⟨t, hrun, halone.same, ?_, halone.sees.servers, halone.mode⟩
  intro g hg e he
  have howned : e ∈ ownedBy (s.grps gid) := by rw [hg]; exact he
  have hmade := halone.sees.made e howned
  exact ⟨hmade.trans (halone.sees.fewer e hmade).symm, halone.sees.enabled e howned,
    halone.sees.connections e howned⟩

/-- Two groups of one server each; the second is started, and leaves again. -/
def twoGroups : List GroupsOp :=
  [.makeGroup 0 1 fun _ _ => "a",
    .group 0 fun _ => some (.startServers (fun _ _ => "b") fun _ => some 0),
    .makeGroup 1 1 fun _ _ => "c", .setReliable false,
    .group 1 fun _ => some (.startServers (fun _ _ => "d") fun _ => some 1),
    .group 0 fun _ => some .connectAll, .exitGroup 1 fun _ => ⟨makePersister, none⟩]

theorem twoGroups_run_alone : ∃ s t,
    run Groups.step (newGroups (makeNetwork String)) twoGroups = some s ∧
    run Groups.step (newGroups (makeNetwork String)) (twoGroups.filter (·.concerns 0)) = some t ∧
    t.grps 0 = s.grps 0 ∧ t.net.servers (serverName 0 0) = s.net.servers (serverName 0 0) := by
  obtain ⟨s, hs⟩ : ∃ s, run Groups.step (newGroups (makeNetwork String)) twoGroups = some s :=
    ⟨_, rfl⟩
  obtain ⟨t, ht, hgrps, -, hservers, -⟩ := group_runs_alone 0 (makeNetwork String) twoGroups s hs
  exact ⟨s, t, hs, ht, hgrps, hservers 0⟩

end Tester
