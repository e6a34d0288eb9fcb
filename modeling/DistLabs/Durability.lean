import DistLabs.Daemons
import DistLabs.LabrpcDelivery
import Mathlib.Logic.Relation

/-!
# Acknowledged implies durable

A positive reply is released only if its server was still registered after the
handler had returned. The registered incarnation of a server is its latest, and
has not been checkpointed yet, so the checkpoint that the next incarnation
starts from comes after every `Save` of the handler.
-/
namespace Tester

open Runs Labrpc

variable {n : Nat} {gid : Int}

/-- The server may be registered on the network. -/
def Task.listed : Task n → Bool
  | .idle | .disconnecting _ => true
  | _ => false

/-- `StartServer` has not made the new incarnation yet. -/
def Task.offline : Task n → Bool
  | .makingEnds _ _ | .installed | .spawned => true
  | _ => false

/-- What can happen to a group. The steps of `StartServer` and `ShutdownServer` that
touch neither persisters nor registrations are all a `switch` from one task to another. -/
inductive Group.Effect (gid : Int) (g : Group n) : Group n → Prop
  | net (a : Labrpc.Action String) (lab : State String) (hlab : Labrpc.step g.lab a = some lab)
      (hservers : lab.net.servers = g.lab.net.servers) : Effect gid g { g with lab := lab }
  | save (k : Nat) (caller : Option Nat) (data : Persister) (inc : Incarnation n)
      (hinc : g.incs[k]? = some inc) (hruns : runsIn g.lab k caller = true) :
      Effect gid g { g with
        incs := g.incs.set k { inc with persister := ⟨data, some g.saves.length⟩ }
        saves := g.saves ++ [⟨inc.srv, k, caller, data⟩] }
  | switch (i : Fin n) (t : Task n) (hfrom : g.tasks i ≠ .checkpointed) (hto : t ≠ .checkpointed)
      (hlisted : (g.tasks i).listed = true → t.listed = true ∨ (g.srvs i).dc = none)
      (hoffline : t.offline = true → (g.tasks i).offline = true ∨ (g.srvs i).dc = none) :
      Effect gid g (g.setTask i t)
  | install (i : Fin n) (endNames : Fin n → String) (hoffline : (g.tasks i).offline = true) :
      Effect gid g ((g.setSrv i
        ⟨some ((g.srvs i).saved.getD ⟨makePersister, none⟩), endNames, none⟩).setTask i .installed)
  | init (i : Fin n) (saved : Stored) (htask : g.tasks i = .spawned)
      (hsaved : (g.srvs i).saved = some saved) :
      Effect gid g
        { (g.setSrv i { g.srvs i with dc := some g.incs.length }).setTask i .inited with
          incs := g.incs ++ [⟨i, saved, saved, true⟩] }
  | addServer (i : Fin n) (k : Nat) (htask : g.tasks i = .inited) (hdc : (g.srvs i).dc = some k)
      (lab : State String) (hlab : Labrpc.step g.lab
        (.control (.addServer (serverName gid i) k)) = some lab) :
      Effect gid g { g.setTask i .idle with lab := lab }
  | deleteServer (i : Fin n) (todo : List (Fin n × Fin n)) (htask : g.tasks i = .disconnecting todo)
      (lab : State String) (hlab : Labrpc.step g.lab
        (.control (.deleteServer (serverName gid i))) = some lab) :
      Effect gid g { g.setTask i .deleted with lab := lab }
  | checkpoint (i : Fin n) (k : Nat) (inc : Incarnation n) (htask : g.tasks i = .deleted)
      (hdc : (g.srvs i).dc = some k) (hinc : g.incs[k]? = some inc) :
      Effect gid g
        ((g.setSrv i { g.srvs i with saved := some inc.persister }).setTask i .checkpointed)
  | kill (i : Fin n) (k : Nat) (inc : Incarnation n) (htask : g.tasks i = .checkpointed)
      (hdc : (g.srvs i).dc = some k) (hinc : g.incs[k]? = some inc) :
      Effect gid g { (g.setSrv i { g.srvs i with dc := none }).setTask i .idle with
        incs := g.incs.set k { inc with alive := false } }

theorem exec_servers {rn rn' : Network String} {c : Control String} (h : c.exec rn = some rn')
    (hc : registers c = false) : rn'.servers = rn.servers := by
  cases c <;> simp only [Control.exec, registers, Bool.true_eq_false] at h hc <;> grind

theorem step_servers {s t : State String} {a : Labrpc.Action String}
    (h : Labrpc.step s a = some t) (ha : ∀ c, a = .control c → registers c = false) :
    t.net.servers = s.net.servers := by
  cases a with
  | control c =>
    obtain ⟨net, hnet, rfl⟩ := Option.map_eq_some_iff.mp h
    exact exec_servers hnet (ha c rfl)
  | take endname svcMeth args =>
    cases h
    rfl
  | thread r m =>
    simp only [Labrpc.step] at h
    split at h
    · cases h
    · obtain ⟨req', -, rfl⟩ := Option.map_eq_some_iff.mp h
      rfl

/-- A call of the group on the network is a step of the network. -/
theorem control_step {g g' : Group n} {c : Control String} (h : g.control c = some g') :
    ∃ lab, Labrpc.step g.lab (.control c) = some lab ∧ g' = { g with lab := lab } := by
  obtain ⟨net, hnet, rfl⟩ := Option.map_eq_some_iff.mp h
  exact ⟨_, by simp [Labrpc.step, hnet], rfl⟩

/-- A step is one such effect; a call on an end also ticks off the call in the task. -/
theorem effects_of_step {g g' : Group n} {a : Act n} (h : g.step gid a = some g') :
    Relation.ReflTransGen (Group.Effect gid) g g' := by
  cases a with
  | net a =>
    apply Relation.ReflTransGen.single
    cases a with
    | control c =>
      simp only [Group.step] at h
      obtain ⟨hreg, h⟩ := Option.ite_none_left_eq_some.mp h
      obtain ⟨lab, hlab, rfl⟩ := control_step h
      exact .net _ lab hlab (step_servers hlab (by simpa using hreg))
    | take endname svcMeth args =>
      simp only [Group.step] at h
      obtain ⟨lab, hlab, rfl⟩ := Option.map_eq_some_iff.mp h
      exact .net _ lab hlab (step_servers hlab (by simp))
    | thread r m =>
      simp only [Group.step] at h
      obtain ⟨lab, hlab, rfl⟩ := Option.map_eq_some_iff.mp h
      exact .net _ lab hlab (step_servers hlab (by simp))
  | save k caller data =>
    apply Relation.ReflTransGen.single
    simp only [Group.step] at h
    split at h
    · cases h
    · rename_i inc hinc
      obtain ⟨hruns, h⟩ := Option.ite_none_right_eq_some.mp h
      cases h
      exact .save k caller data inc hinc (Bool.and_eq_true_iff.mp hruns).2
  | startServer i endNames =>
    apply Relation.ReflTransGen.single
    simp only [Group.step] at h
    split at h
    · rename_i htask hdc
      cases h
      exact .switch i _ (by simp [htask]) (by simp) (fun _ => Or.inr hdc) (fun _ => Or.inr hdc)
    · cases h
  | call i =>
    simp only [Group.step, Group.call] at h
    split at h
    · rename_i endNames c todo htask
      obtain ⟨lab, hlab, rfl⟩ := control_step h
      have hreg : registers (c.control gid endNames) = false := by cases c <;> rfl
      refine .tail (.single (.net _ lab hlab (step_servers hlab (by simpa using hreg)))) ?_
      refine .switch i _ ?_ ?_ ?_ ?_ <;> simp [htask, Task.listed, Task.offline]
    · rename_i j peer todo htask
      obtain ⟨lab, hlab, rfl⟩ := control_step h
      refine .tail (.single (.net _ lab hlab (step_servers hlab (by simp [registers])))) ?_
      refine .switch i _ ?_ ?_ ?_ ?_ <;> simp [htask, Task.listed, Task.offline]
    · cases h
  | install i =>
    apply Relation.ReflTransGen.single
    simp only [Group.step] at h
    split at h
    · rename_i endNames htask
      cases h
      exact .install i endNames (by simp [htask, Task.offline])
    · cases h
  | runDaemon i ok =>
    apply Relation.ReflTransGen.single
    simp only [Group.step] at h
    split at h
    · rename_i htask
      cases h
      refine .switch i _ ?_ ?_ ?_ ?_ <;> cases ok <;> simp [htask, Task.listed, Task.offline]
    · cases h
  | init i =>
    apply Relation.ReflTransGen.single
    simp only [Group.step] at h
    split at h
    · rename_i saved htask hsaved
      cases h
      exact .init i saved htask hsaved
    · cases h
  | addServer i =>
    apply Relation.ReflTransGen.single
    simp only [Group.step] at h
    split at h
    · rename_i k htask hdc
      obtain ⟨lab, hlab, rfl⟩ := control_step h
      exact .addServer i k htask hdc lab hlab
    · cases h
  | shutdownServer i =>
    apply Relation.ReflTransGen.single
    simp only [Group.step] at h
    split at h
    · rename_i htask
      cases h
      refine .switch i _ ?_ ?_ ?_ ?_ <;> simp [htask, Task.listed, Task.offline]
    · cases h
  | deleteServer i =>
    apply Relation.ReflTransGen.single
    simp only [Group.step] at h
    split at h
    · rename_i htask
      obtain ⟨lab, hlab, rfl⟩ := control_step h
      exact .deleteServer i [] htask lab hlab
    · cases h
  | checkpointPersister i =>
    apply Relation.ReflTransGen.single
    simp only [Group.step] at h
    split at h
    · rename_i htask hdc
      cases h
      refine .switch i _ ?_ ?_ ?_ ?_ <;> simp [htask, Task.listed, Task.offline]
    · rename_i k htask hdc
      split at h
      · cases h
      · rename_i inc hinc
        cases h
        exact .checkpoint i k inc htask hdc hinc
    · cases h
  | kill i =>
    apply Relation.ReflTransGen.single
    simp only [Group.step] at h
    split at h
    · rename_i k htask hdc
      split at h
      · cases h
      · rename_i inc hinc
        cases h
        exact .kill i k inc htask hdc hinc
    · cases h

/-! ## Servers and their incarnations -/

/-- The server of each incarnation. -/
def Group.home (g : Group n) : List (Fin n) := g.incs.map Incarnation.srv

/-- The incarnation that the tester talks to is the latest of its server; a registered
server is up, and its `ShutdownServer` has not got past `DeleteServer`. -/
structure Placed (gid : Int) (g : Group n) : Prop where
  latest : ∀ i k, (g.srvs i).dc = some k →
    g.home[k]? = some i ∧ ∀ k', g.home[k']? = some i → k' ≤ k
  registered : ∀ name k, g.lab.net.servers name = some k →
    ∃ i : Fin n, name = serverName gid i ∧ (g.srvs i).dc = some k ∧ (g.tasks i).listed = true
  offline : ∀ i, (g.tasks i).offline = true → (g.srvs i).dc = none

theorem step_control_servers {s t : State String} {c : Control String} {rn : Network String}
    (hc : c.exec s.net = some rn) (h : Labrpc.step s (.control c) = some t) :
    t.net.servers = rn.servers := by
  obtain ⟨net, hnet, rfl⟩ := Option.map_eq_some_iff.mp h
  rw [hc] at hnet
  cases hnet
  rfl

theorem Placed.start (endNames : Fin n → Fin n → String) :
    Placed gid (makeSrvGrp endNames) where
  latest := by
    intro i k hdc
    cases hdc
  registered := by
    intro name k hname
    cases hname
  offline := fun _ _ => rfl

/-- A step of one server that leaves the registrations alone. -/
theorem Placed.of_server {g g' : Group n} (h : Placed gid g) (i : Fin n)
    (hsrvs : ∀ j, j ≠ i → g'.srvs j = g.srvs j) (htasks : ∀ j, j ≠ i → g'.tasks j = g.tasks j)
    (hhome : ∀ (j : Fin n) (k : Nat), j ≠ i → (g'.home[k]? = some j ↔ g.home[k]? = some j))
    (hservers : g'.lab.net.servers = g.lab.net.servers)
    (hlatest : ∀ k, (g'.srvs i).dc = some k →
      g'.home[k]? = some i ∧ ∀ k', g'.home[k']? = some i → k' ≤ k)
    (hregistered : ∀ k, (g.srvs i).dc = some k → (g.tasks i).listed = true →
      (g'.srvs i).dc = some k ∧ (g'.tasks i).listed = true)
    (hoffline : (g'.tasks i).offline = true → (g'.srvs i).dc = none) : Placed gid g' where
  latest := by
    intro j k hdc
    by_cases hj : j = i
    · subst hj
      exact hlatest k hdc
    · rw [hsrvs j hj] at hdc
      simpa only [hhome j _ hj] using h.latest j k hdc
  registered := by
    intro name k hname
    rw [hservers] at hname
    obtain ⟨j, rfl, hdc, hlisted⟩ := h.registered name k hname
    refine ⟨j, rfl, ?_⟩
    by_cases hj : j = i
    · subst hj
      exact hregistered k hdc hlisted
    · rw [hsrvs j hj, htasks j hj]
      exact ⟨hdc, hlisted⟩
  offline := by
    intro j hj'
    by_cases hj : j = i
    · subst hj
      exact hoffline hj'
    · rw [htasks j hj] at hj'
      rw [hsrvs j hj]
      exact h.offline j hj'

@[simp] theorem setTask_tasks (g : Group n) (i : Fin n) (t : Task n) :
    (g.setTask i t).tasks = Function.update g.tasks i t := rfl
@[simp] theorem setTask_srvs (g : Group n) (i : Fin n) (t : Task n) :
    (g.setTask i t).srvs = g.srvs := rfl
@[simp] theorem setTask_home (g : Group n) (i : Fin n) (t : Task n) :
    (g.setTask i t).home = g.home := rfl
@[simp] theorem setSrv_tasks (g : Group n) (i : Fin n) (srv : Server n) :
    (g.setSrv i srv).tasks = g.tasks := rfl
@[simp] theorem setSrv_srvs (g : Group n) (i : Fin n) (srv : Server n) :
    (g.setSrv i srv).srvs = Function.update g.srvs i srv := rfl
@[simp] theorem setSrv_home (g : Group n) (i : Fin n) (srv : Server n) :
    (g.setSrv i srv).home = g.home := rfl

/-- A step of one server that changes the registration of its own name. -/
theorem Placed.of_registration {g : Group n} (h : Placed gid g) {i : Fin n} {t : Task n}
    {lab : State String} (hoffline : t.offline = false)
    (hother : ∀ name, name ≠ serverName gid i →
      lab.net.servers name = g.lab.net.servers name)
    (hself : ∀ k, lab.net.servers (serverName gid i) = some k →
      (g.srvs i).dc = some k ∧ t.listed = true) :
    Placed gid { g.setTask i t with lab := lab } where
  latest := h.latest
  registered := by
    intro name k hname
    by_cases hn : name = serverName gid i
    · subst hn
      obtain ⟨hdc, hlisted⟩ := hself k hname
      exact ⟨i, rfl, hdc, by simpa using hlisted⟩
    · obtain ⟨j, rfl, hdc, hlisted⟩ := h.registered name k (by rw [← hother name hn]; exact hname)
      have hj : j ≠ i := fun he => hn (by rw [he])
      exact ⟨j, rfl, hdc, by simpa [hj] using hlisted⟩
  offline := by
    intro j hj
    by_cases hji : j = i
    · subst hji
      simp [hoffline] at hj
    · exact h.offline j (by simpa [hji] using hj)

theorem Placed.effect {g g' : Group n} (h : Placed gid g) (he : g.Effect gid g') :
    Placed gid g' := by
  cases he with
  | net a lab hlab hservers =>
    exact ⟨h.latest, fun name k hname => h.registered name k (by rw [← hservers]; exact hname),
      h.offline⟩
  | save k caller data inc hinc hruns =>
    have hhome := map_set_of_eq (f := Incarnation.srv)
      (b := { inc with persister := ⟨data, some g.saves.length⟩ }) hinc rfl
    exact ⟨fun i k hdc => by rw [Group.home, hhome]; exact h.latest i k hdc, h.registered,
      h.offline⟩
  | switch i t hfrom hto hlisted hoffline =>
    refine h.of_server i (fun _ _ => rfl) (fun j hj => by simp [hj]) (fun _ _ _ => Iff.rfl) rfl
      (fun k hdc => h.latest i k hdc) ?_ ?_
    · intro k hdc hl
      refine ⟨hdc, ?_⟩
      rcases hlisted hl with ht | hnone
      · simpa using ht
      · rw [hnone] at hdc
        cases hdc
    · intro ht
      rcases hoffline (by simpa using ht) with hoff | hnone
      · exact h.offline i hoff
      · exact hnone
  | install i endNames hoffline =>
    have hnone := h.offline i hoffline
    refine h.of_server i (fun j hj => by simp [hj]) (fun j hj => by simp [hj])
      (fun _ _ _ => Iff.rfl) rfl ?_ ?_ ?_
    · intro k hdc
      simp at hdc
    · intro k hdc
      rw [hnone] at hdc
      cases hdc
    · intro _
      simp
  | init i saved htask hsaved =>
    have hhome : ({ (g.setSrv i { g.srvs i with dc := some g.incs.length }).setTask i .inited with
        incs := g.incs ++ [⟨i, saved, saved, true⟩] } : Group n).home = g.home ++ [i] := by
      simp [Group.home]
    have hlen : g.incs.length = g.home.length := by simp [Group.home]
    have hnone := h.offline i (by simp [htask, Task.offline])
    refine h.of_server i (fun j hj => by simp [hj]) (fun j hj => by simp [hj]) ?_ rfl ?_ ?_ ?_
    · intro j k hj
      rw [hhome]
      constructor
      · intro hk
        rcases getElem?_concat_cases hk with hk | ⟨-, rfl⟩
        · exact hk
        · exact absurd rfl hj
      · intro hk
        exact getElem?_concat_of_some hk i
    · intro k hdc
      obtain rfl : g.incs.length = k := by simpa using hdc
      rw [hhome, hlen]
      refine ⟨List.getElem?_concat_length, ?_⟩
      intro k' hk'
      obtain ⟨hlt, -⟩ := List.getElem?_eq_some_iff.mp hk'
      rw [List.length_append, List.length_singleton] at hlt
      omega
    · intro k hdc
      rw [hnone] at hdc
      cases hdc
    · intro ht
      simp [Task.offline] at ht
  | addServer i k htask hdc lab hlab =>
    have hservers := step_control_servers rfl hlab
    refine h.of_registration rfl (fun name hn => by simp [hservers, hn]) ?_
    intro k' hk'
    obtain rfl : k = k' := by simpa [hservers] using hk'
    exact ⟨hdc, rfl⟩
  | deleteServer i todo htask lab hlab =>
    have hservers := step_control_servers rfl hlab
    refine h.of_registration rfl (fun name hn => by simp [hservers, hn]) ?_
    intro k' hk'
    simp [hservers] at hk'
  | checkpoint i k inc htask hdc hinc =>
    refine h.of_server i (fun j hj => by simp [hj]) (fun j hj => by simp [hj])
      (fun _ _ _ => Iff.rfl) rfl ?_ ?_ ?_
    · intro k' hdc'
      exact h.latest i k' (by simpa using hdc')
    · intro k' _ hlisted
      simp [htask, Task.listed] at hlisted
    · intro ht
      simp [Task.offline] at ht
  | kill i k inc htask hdc hinc =>
    have hhome : ({ (g.setSrv i { g.srvs i with dc := none }).setTask i .idle with
        incs := g.incs.set k { inc with alive := false } } : Group n).home = g.home :=
      map_set_of_eq hinc rfl
    refine h.of_server i (fun j hj => by simp [hj]) (fun j hj => by simp [hj])
      (fun _ _ _ => by rw [hhome]) rfl ?_ ?_ ?_
    · intro k' hdc'
      simp at hdc'
    · intro k' _ hlisted
      simp [htask, Task.listed] at hlisted
    · intro _
      simp

/-! ## Which `Save` a persister holds -/

/-- The contents were written by the given `Save` or a later one. -/
def Stored.Since (st : Stored) (m : Nat) : Prop := ∃ k, st.writer = some k ∧ m ≤ k

/-- The contents are those of the `Save` that is said to have written them, a `Save` of
this server. -/
def Wrote (saves : List (SaveCall n)) (i : Fin n) (st : Stored) : Prop :=
  ∀ m, st.writer = some m → ∃ save, saves[m]? = some save ∧ save.srv = i ∧ save.data = st.data

theorem Wrote.concat {saves : List (SaveCall n)} {i : Fin n} {st : Stored}
    (h : Wrote saves i st) (save : SaveCall n) : Wrote (saves ++ [save]) i st := by
  intro m hm
  obtain ⟨save', hget, hsave⟩ := h m hm
  exact ⟨save', getElem?_concat_of_some hget save, hsave⟩

/-- A persister holds the last `Save` of its program, and copies keep what they copy. -/
structure Stamped (g : Group n) : Prop where
  owner : ∀ (m : Nat) save, g.saves[m]? = some save → ∃ inc, g.incs[save.inc]? = some inc ∧
    inc.srv = save.srv ∧ inc.persister.Since m
  wrote : ∀ (k : Nat) inc, g.incs[k]? = some inc →
    Wrote g.saves inc.srv inc.initial ∧ Wrote g.saves inc.srv inc.persister
  saved : ∀ i st, (g.srvs i).saved = some st → Wrote g.saves i st

theorem Stamped.start (endNames : Fin n → Fin n → String) : Stamped (makeSrvGrp endNames) where
  owner := by simp [makeSrvGrp]
  wrote := by simp [makeSrvGrp]
  saved := by
    intro i st hst
    cases hst

/-- A step that makes no `Save` and no incarnation, and saves only what `Wrote` allows. -/
theorem Stamped.of_saved {g g' : Group n} (h : Stamped g) (hsaves : g'.saves = g.saves)
    (hincs : g'.incs = g.incs)
    (hsaved : ∀ i st, (g'.srvs i).saved = some st → Wrote g.saves i st) : Stamped g' where
  owner := by
    rw [hsaves, hincs]
    exact h.owner
  wrote := by
    rw [hsaves, hincs]
    exact h.wrote
  saved := by
    rw [hsaves]
    exact hsaved

/-- A step that changes one server only. -/
theorem Stamped.saved_of_server {g g' : Group n} (h : Stamped g) (i : Fin n)
    (hother : ∀ j, j ≠ i → g'.srvs j = g.srvs j)
    (hi : ∀ st, (g'.srvs i).saved = some st → Wrote g.saves i st) (j : Fin n) (st : Stored)
    (hst : (g'.srvs j).saved = some st) : Wrote g.saves j st := by
  by_cases hj : j = i
  · subst hj
    exact hi st hst
  · rw [hother j hj] at hst
    exact h.saved j st hst

theorem Stamped.effect {g g' : Group n} (hp : Placed gid g) (h : Stamped g)
    (he : g.Effect gid g') : Stamped g' := by
  cases he with
  | net a lab hlab hservers => exact h.of_saved rfl rfl h.saved
  | switch i t hfrom hto hlisted hoffline => exact h.of_saved rfl rfl h.saved
  | addServer i k htask hdc lab hlab => exact h.of_saved rfl rfl h.saved
  | deleteServer i todo htask lab hlab => exact h.of_saved rfl rfl h.saved
  | save k caller data inc hinc hruns =>
    refine ⟨?_, ?_, fun i st hst => (h.saved i st hst).concat _⟩
    · intro m save hm
      rcases getElem?_concat_cases hm with hm | ⟨rfl, rfl⟩
      · obtain ⟨inc', hinc', hsrv, hsince⟩ := h.owner m save hm
        have hle := (List.getElem?_eq_some_iff.mp hm).1
        refine exists_getElem?_set hinc hinc' ?_ ⟨hsrv, hsince⟩
        rintro rfl
        exact ⟨hsrv, _, rfl, Nat.le_of_lt hle⟩
      · exact ⟨_, getElem?_set_of_some hinc _, rfl, _, rfl, Nat.le_refl _⟩
    · intro k' inc' hinc'
      rcases getElem?_set_cases hinc' with ⟨rfl, rfl⟩ | ⟨-, hinc'⟩
      · refine ⟨(h.wrote k' inc hinc).1.concat _, ?_⟩
        intro m hm
        cases hm
        exact ⟨_, List.getElem?_concat_length, rfl, rfl⟩
      · exact ⟨(h.wrote k' inc' hinc').1.concat _, (h.wrote k' inc' hinc').2.concat _⟩
  | install i endNames hoffline =>
    refine h.of_saved rfl rfl (h.saved_of_server i (fun j hj => by simp [hj]) ?_)
    intro st hst
    cases hsaved : (g.srvs i).saved with
    | none =>
      obtain rfl : (⟨makePersister, none⟩ : Stored) = st := by simpa [hsaved] using hst
      intro m hm
      cases hm
    | some st' =>
      obtain rfl : st' = st := by simpa [hsaved] using hst
      exact h.saved i st' hsaved
  | init i saved htask hsaved =>
    refine ⟨?_, ?_, h.saved_of_server i (fun j hj => by simp [hj]) ?_⟩
    · intro m save hm
      obtain ⟨inc, hinc, hsrv, hsince⟩ := h.owner m save hm
      exact ⟨inc, getElem?_concat_of_some hinc _, hsrv, hsince⟩
    · intro k inc hinc
      rcases getElem?_concat_cases hinc with hinc | ⟨-, rfl⟩
      · exact h.wrote k inc hinc
      · exact ⟨h.saved i saved hsaved, h.saved i saved hsaved⟩
    · intro st hst
      exact h.saved i st (by simpa using hst)
  | checkpoint i k inc htask hdc hinc =>
    refine h.of_saved rfl rfl (h.saved_of_server i (fun j hj => by simp [hj]) ?_)
    intro st hst
    obtain rfl : inc.persister = st := by simpa using hst
    have hsrv : inc.srv = i := by simpa [Group.home, hinc] using (hp.latest i k hdc).1
    rw [← hsrv]
    exact (h.wrote k inc hinc).2
  | kill i k inc htask hdc hinc =>
    refine ⟨?_, ?_, h.saved_of_server i (fun j hj => by simp [hj]) ?_⟩
    · intro m save hm
      obtain ⟨inc', hinc', hsrv, hsince⟩ := h.owner m save hm
      refine exists_getElem?_set hinc hinc' ?_ ⟨hsrv, hsince⟩
      rintro rfl
      exact ⟨hsrv, hsince⟩
    · intro k' inc' hinc'
      rcases getElem?_set_cases hinc' with ⟨rfl, rfl⟩ | ⟨-, hinc'⟩
      · exact h.wrote k' inc hinc
      · exact h.wrote k' inc' hinc'
    · intro st hst
      exact h.saved i st (by simpa using hst)

/-! ## What a checkpoint keeps -/

/-- The incarnation that made the `Save` has been checkpointed. -/
def Group.Checkpointed (g : Group n) (save : SaveCall n) : Prop :=
  ¬ ((g.srvs save.srv).dc = some save.inc ∧ g.tasks save.srv ≠ .checkpointed)

/-- Every later incarnation started from, and holds, the `Save` or a later one, and so
does the saved persister from the checkpoint on. -/
structure Durable (g : Group n) (m : Nat) (save : SaveCall n) : Prop where
  later : ∀ (k : Nat) inc, g.incs[k]? = some inc → inc.srv = save.srv → save.inc < k →
    inc.initial.Since m ∧ inc.persister.Since m
  saved : g.Checkpointed save → ∃ st, (g.srvs save.srv).saved = some st ∧ st.Since m

/-- A step that leaves the incarnations alone, and neither ends nor undoes a checkpoint. -/
theorem Durable.of_same {g g' : Group n} {m : Nat} {save : SaveCall n} (h : Durable g m save)
    (hincs : g'.incs = g.incs) (hsrvs : g'.srvs = g.srvs)
    (htask : g.tasks save.srv = .checkpointed ↔ g'.tasks save.srv = .checkpointed) :
    Durable g' m save where
  later := by
    rw [hincs]
    exact h.later
  saved := by
    rw [Group.Checkpointed, hsrvs, ne_eq, ← htask]
    exact h.saved

theorem update_task_iff {g : Group n} {i j : Fin n} {t : Task n} (hfrom : g.tasks i ≠ .checkpointed)
    (hto : t ≠ .checkpointed) :
    g.tasks j = .checkpointed ↔ Function.update g.tasks i t j = .checkpointed := by
  by_cases hj : j = i
  · subst hj
    simp [hfrom, hto]
  · simp [hj]

/-- A step of one server, with what it owes to its own `Save`s. -/
theorem Durable.of_server {g g' : Group n} {m : Nat} {save : SaveCall n} (h : Durable g m save)
    (i : Fin n) (hsrvs : ∀ j, j ≠ i → g'.srvs j = g.srvs j)
    (htasks : ∀ j, j ≠ i → g'.tasks j = g.tasks j)
    (hlater : ∀ (k : Nat) inc, g'.incs[k]? = some inc → inc.srv = save.srv → save.inc < k →
      inc.initial.Since m ∧ inc.persister.Since m)
    (hsaved : save.srv = i → ∃ st, (g'.srvs i).saved = some st ∧ st.Since m) :
    Durable g' m save where
  later := hlater
  saved := by
    intro hck
    by_cases hi : save.srv = i
    · rw [hi]
      exact hsaved hi
    · rw [Group.Checkpointed, hsrvs _ hi, htasks _ hi] at hck
      rw [hsrvs _ hi]
      exact h.saved hck

theorem Durable.effect {g g' : Group n} {m : Nat} {save : SaveCall n} (hp : Placed gid g)
    (hs : Stamped g) (hm : g.saves[m]? = some save) (h : Durable g m save)
    (he : g.Effect gid g') : Durable g' m save := by
  cases he with
  | net a lab hlab hservers => exact h.of_same rfl rfl Iff.rfl
  | switch i t hfrom hto hlisted hoffline => exact h.of_same rfl rfl (update_task_iff hfrom hto)
  | addServer i k htask hdc lab hlab =>
    exact h.of_same rfl rfl (update_task_iff (by simp [htask]) (by simp))
  | deleteServer i todo htask lab hlab =>
    exact h.of_same rfl rfl (update_task_iff (by simp [htask]) (by simp))
  | save k caller data inc hinc hruns =>
    refine ⟨?_, h.saved⟩
    intro k' inc' hinc' hsrv hlt
    rcases getElem?_set_cases hinc' with ⟨rfl, rfl⟩ | ⟨-, hinc'⟩
    · have hle := (List.getElem?_eq_some_iff.mp hm).1
      exact ⟨(h.later k' inc hinc hsrv hlt).1, _, rfl, Nat.le_of_lt hle⟩
    · exact h.later k' inc' hinc' hsrv hlt
  | install i endNames hoffline =>
    refine h.of_server i (fun j hj => by simp [hj]) (fun j hj => by simp [hj]) h.later ?_
    rintro rfl
    obtain ⟨st, hst, hsince⟩ := h.saved (by simp [Group.Checkpointed, hp.offline _ hoffline])
    exact ⟨st, by simp [hst], hsince⟩
  | init i saved htask hsaved =>
    -- the server was offline, so the checkpoint is in its saved persister
    have hnone : save.srv = i → g.Checkpointed save := by
      rintro rfl
      simp [Group.Checkpointed, hp.offline save.srv (by simp [htask, Task.offline])]
    refine h.of_server i (fun j hj => by simp [hj]) (fun j hj => by simp [hj]) ?_ ?_
    · intro k inc hinc hsrv hlt
      rcases getElem?_concat_cases hinc with hinc | ⟨-, rfl⟩
      · exact h.later k inc hinc hsrv hlt
      · obtain ⟨st, hst, hsince⟩ := h.saved (hnone hsrv.symm)
        obtain rfl : saved = st := by simpa [← hsrv, hsaved] using hst
        exact ⟨hsince, hsince⟩
    · rintro rfl
      obtain ⟨st, hst, hsince⟩ := h.saved (hnone rfl)
      exact ⟨st, by simpa using hst, hsince⟩
  | checkpoint i k inc htask hdc hinc =>
    refine h.of_server i (fun j hj => by simp [hj]) (fun j hj => by simp [hj]) h.later ?_
    rintro rfl
    refine ⟨inc.persister, by simp, ?_⟩
    obtain ⟨inc', hinc', hsrv, hsince⟩ := hs.owner m save hm
    obtain ⟨hhome, hlatest⟩ := hp.latest save.srv k hdc
    have hle : save.inc ≤ k := hlatest save.inc (by simp [Group.home, hinc', hsrv])
    rcases Nat.lt_or_eq_of_le hle with hlt | heq
    · exact (h.later k inc hinc (by simpa [Group.home, hinc] using hhome) hlt).2
    · rw [heq, hinc] at hinc'
      cases hinc'
      exact hsince
  | kill i k inc htask hdc hinc =>
    refine h.of_server i (fun j hj => by simp [hj]) (fun j hj => by simp [hj]) ?_ ?_
    · intro k' inc' hinc' hsrv hlt
      rcases getElem?_set_cases hinc' with ⟨rfl, rfl⟩ | ⟨-, hinc'⟩
      · exact h.later k' inc hinc hsrv hlt
      · exact h.later k' inc' hinc' hsrv hlt
    · rintro rfl
      obtain ⟨st, hst, hsince⟩ := h.saved (by simp [Group.Checkpointed, htask])
      exact ⟨st, by simpa using hst, hsince⟩

/-! ## Acknowledged `Save`s -/

/-- A handler saves in the incarnation it was dispatched to, and the `Save`s of a handler
whose positive reply is on its way are durable. -/
structure Acked (g : Group n) : Prop where
  callers : ∀ (m : Nat) save r, g.saves[m]? = some save → save.caller = some r →
    ∃ req tgt, g.lab.reqs[r]? = some req ∧ req.target = some tgt ∧ tgt.server = save.inc ∧
      req.handler ≠ .idle
  durable : ∀ (r : Nat) req rep, g.lab.reqs[r]? = some req → req.carried = some rep →
    rep.ok = true → ∀ (m : Nat) save, g.saves[m]? = some save → save.caller = some r →
      Durable g m save

/-- What holds in every reachable state of a group. -/
structure Inv (gid : Int) (g : Group n) : Prop where
  reachable : ∃ as, run Labrpc.step (start String) as = some g.lab
  placed : Placed gid g
  stamped : Stamped g
  acked : Acked g

/-- A registered incarnation is the latest of its server and not checkpointed yet. -/
theorem Inv.durable_of_registered {g : Group n} (h : Inv gid g) {m k : Nat} {save : SaveCall n}
    {name : String} (hm : g.saves[m]? = some save) (hk : g.lab.net.servers name = some k)
    (hinc : k = save.inc) : Durable g m save := by
  subst hinc
  obtain ⟨i, -, hdc, hlisted⟩ := h.placed.registered name save.inc hk
  obtain ⟨hhome, hlatest⟩ := h.placed.latest i save.inc hdc
  obtain ⟨inc, hinc, hsrv, -⟩ := h.stamped.owner m save hm
  obtain rfl : save.srv = i := by simpa [Group.home, hinc, hsrv] using hhome
  constructor
  · intro k' inc' hinc' hsrv' hlt
    have hle := hlatest k' (by simp [Group.home, hinc', hsrv'])
    omega
  · intro hck
    refine absurd ⟨hdc, ?_⟩ hck
    intro htask
    simp [htask, Task.listed] at hlisted

/-- A step of the network keeps the `Save`s acknowledged before durable, and finds those
it acknowledges itself in a registered incarnation. -/
theorem Inv.acked_net {g g' : Group n} (h : Inv gid g) (he : g.Effect gid g')
    {a : Labrpc.Action String} (hlab : Labrpc.step g.lab a = some g'.lab)
    (hsaves : g'.saves = g.saves) : Acked g' := by
  obtain ⟨as, has⟩ := h.reachable
  constructor
  · intro m save r hm hcaller
    rw [hsaves] at hm
    obtain ⟨req, tgt, hreq, htgt, hserver, hidle⟩ := h.acked.callers m save r hm hcaller
    have hlt := (List.getElem?_eq_some_iff.mp hreq).1
    obtain ⟨req', hreq'⟩ : ∃ req', g'.lab.reqs[r]? = some req' :=
      ⟨_, List.getElem?_eq_getElem (Nat.lt_of_lt_of_le hlt (step_reqs_length hlab).1)⟩
    rcases step_request hlab hreq' with ⟨hr, -⟩ | ⟨_, _, _, -, rfl, -⟩ | ⟨mv, req₀, -, hreq₀, hmv⟩
    · rw [hreq] at hr
      cases hr
      exact ⟨req, tgt, hreq', htgt, hserver, hidle⟩
    · exact absurd hlt (Nat.lt_irrefl _)
    · rw [hreq] at hreq₀
      cases hreq₀
      obtain ⟨htarget, hidle'⟩ := (Delivery.of_run has hreq).target_settled hmv hidle
      exact ⟨req', tgt, hreq', htarget.trans htgt, hserver, hidle'⟩
  · intro r req' rep hreq' hrep hok m save hm hcaller
    rw [hsaves] at hm
    refine Durable.effect h.placed h.stamped hm ?_ he
    rcases step_request hlab hreq' with ⟨hr, -⟩ | ⟨_, _, _, -, -, rfl⟩ | ⟨mv, req, -, hreq, hmv⟩
    · exact h.acked.durable r req' rep hr hrep hok m save hm hcaller
    · cases hrep
    · rcases hmv.carried_cases with hsame | hneg | ⟨tgt, htgt, hserver⟩
      · exact h.acked.durable r req rep hreq (hsame ▸ hrep) hok m save hm hcaller
      · rw [hneg rep hrep] at hok
        cases hok
      · -- the last look found the server registered
        obtain ⟨req₀, tgt₀, hreq₀, htgt₀, hinc, -⟩ := h.acked.callers m save r hm hcaller
        rw [hreq] at hreq₀
        cases hreq₀
        rw [htgt] at htgt₀
        cases htgt₀
        exact h.durable_of_registered hm hserver hinc

/-- A step that leaves the network and the `Save`s alone. -/
theorem Inv.acked_same {g g' : Group n} (h : Inv gid g) (he : g.Effect gid g')
    (hlab : g'.lab = g.lab) (hsaves : g'.saves = g.saves) : Acked g' := by
  constructor
  · rw [hlab, hsaves]
    exact h.acked.callers
  · rw [hlab, hsaves]
    intro r req rep hreq hrep hok m save hm hcaller
    exact (h.acked.durable r req rep hreq hrep hok m save hm hcaller).effect h.placed h.stamped
      hm he

theorem runsIn_some {lab : State String} {k r : Nat} (h : runsIn lab k (some r) = true) :
    ∃ req tgt, lab.reqs[r]? = some req ∧ req.handler = .running ∧ req.target = some tgt ∧
      tgt.server = k := by
  simp only [runsIn] at h
  split at h
  · cases h
  · rename_i req hreq
    simp only [Bool.and_eq_true, beq_iff_eq, Option.map_eq_some_iff] at h
    obtain ⟨hrun, tgt, htgt, hk⟩ := h
    exact ⟨req, tgt, hreq, hrun, htgt, hk⟩

/-- A `Save` of a handler comes before its reply. -/
theorem Inv.acked_save {g g' : Group n} (h : Inv gid g) (he : g.Effect gid g') {k : Nat}
    {caller : Option Nat} {save : SaveCall n} (hruns : runsIn g.lab k caller = true)
    (hlab : g'.lab = g.lab) (hsaves : g'.saves = g.saves ++ [save]) (hinc : save.inc = k)
    (hcaller : save.caller = caller) : Acked g' := by
  obtain ⟨as, has⟩ := h.reachable
  constructor
  · intro m save' r hm hr
    rw [hsaves] at hm
    rw [hlab]
    rcases getElem?_concat_cases hm with hm | ⟨-, rfl⟩
    · exact h.acked.callers m save' r hm hr
    · rw [← hcaller, hr] at hruns
      obtain ⟨req, tgt, hreq, hrun, htgt, hk⟩ := runsIn_some hruns
      exact ⟨req, tgt, hreq, htgt, hk.trans hinc.symm, by simp [hrun]⟩
  · intro r req rep hreq hrep hok m save' hm hr
    rw [hsaves] at hm
    rw [hlab] at hreq
    rcases getElem?_concat_cases hm with hm | ⟨-, rfl⟩
    · exact (h.acked.durable r req rep hreq hrep hok m save' hm hr).effect h.placed h.stamped hm he
    · rw [← hcaller, hr] at hruns
      obtain ⟨req₀, -, hreq₀, hrun, -⟩ := runsIn_some hruns
      rw [hreq] at hreq₀
      cases hreq₀
      exact absurd hrun ((Delivery.of_run has hreq).not_running hrep hok)

theorem Inv.start (endNames : Fin n → Fin n → String) : Inv gid (makeSrvGrp endNames) where
  reachable := ⟨[], rfl⟩
  placed := Placed.start endNames
  stamped := Stamped.start endNames
  acked := ⟨by simp [makeSrvGrp], by simp [makeSrvGrp, Labrpc.start]⟩

theorem Inv.effect {g g' : Group n} (h : Inv gid g) (he : g.Effect gid g') : Inv gid g' := by
  have hplaced := h.placed.effect he
  have hstamped := h.stamped.effect h.placed he
  have hnet : ∀ a, Labrpc.step g.lab a = some g'.lab → g'.saves = g.saves → Inv gid g' := by
    intro a hlab hsaves
    obtain ⟨as, has⟩ := h.reachable
    exact ⟨⟨as ++ [a], run_concat_eq_some.mpr ⟨g.lab, has, hlab⟩⟩, hplaced, hstamped,
      h.acked_net he hlab hsaves⟩
  have hsame : g'.lab = g.lab → g'.saves = g.saves → Inv gid g' := by
    intro hlab hsaves
    exact ⟨hlab ▸ h.reachable, hplaced, hstamped, h.acked_same he hlab hsaves⟩
  cases he with
  | net a lab hlab hservers => exact hnet a hlab rfl
  | addServer i k htask hdc lab hlab => exact hnet _ hlab rfl
  | deleteServer i todo htask lab hlab => exact hnet _ hlab rfl
  | save k caller data inc hinc hruns =>
    exact ⟨h.reachable, hplaced, hstamped,
      h.acked_save (.save k caller data inc hinc hruns) hruns rfl rfl rfl rfl⟩
  | switch i t hfrom hto hlisted hoffline => exact hsame rfl rfl
  | install i endNames hoffline => exact hsame rfl rfl
  | init i saved htask hsaved => exact hsame rfl rfl
  | checkpoint i k inc htask hdc hinc => exact hsame rfl rfl
  | kill i k inc htask hdc hinc => exact hsame rfl rfl

theorem Inv.of_run {endNames : Fin n → Fin n → String} {acts : List (Act n)} {g : Group n}
    (h : run (Group.step gid) (makeSrvGrp endNames) acts = some g) : Inv gid g := by
  refine run_induction (P := fun _ g => Inv gid g) (Inv.start endNames) ?_ h
  intro acts g a g' _ hinv hstep
  have heffects := effects_of_step hstep
  clear hstep
  induction heffects with
  | refl => exact hinv
  | tail _ he ih => exact ih.effect he

/-- Acknowledged implies durable: whenever a request is answered positively, each later
incarnation of the server of a `Save` that its handler made started from the contents of
that `Save` or of a later one of the same server. -/
theorem acknowledged_durable (gid : Int) (endNames : Fin n → Fin n → String)
    (acts : List (Act n)) (g : Group n)
    (h : run (Group.step gid) (makeSrvGrp endNames) acts = some g)
    (r : Nat) (req : Request String) (hreq : g.lab.reqs[r]? = some req)
    (rep : ReplyMsg) (hrep : rep ∈ req.answers) (hok : rep.ok = true)
    (m : Nat) (save : SaveCall n) (hm : g.saves[m]? = some save) (hcaller : save.caller = some r)
    (k : Nat) (inc : Incarnation n) (hk : g.incs[k]? = some inc) (hsrv : inc.srv = save.srv)
    (hlater : save.inc < k) :
    ∃ m' save', inc.initial.writer = some m' ∧ m ≤ m' ∧ g.saves[m']? = some save' ∧
      save'.srv = save.srv ∧ inc.initial.data = save'.data := by
  have hinv := Inv.of_run h
  obtain ⟨as, has⟩ := hinv.reachable
  have hcarried := (Delivery.of_run has hreq).carried_answer hrep
  obtain ⟨⟨m', hwriter, hle⟩, -⟩ :=
    (hinv.acked.durable r req rep hreq hcarried hok m save hm hcaller).later k inc hk hsrv hlater
  obtain ⟨save', hm', hsrv', hdata⟩ := (hinv.stamped.wrote k inc hk).1 m' hwriter
  exact ⟨m', save', hwriter, hle, hm', hsrv'.trans hsrv, hdata.symm⟩

/-- A server is started, answers a request whose handler saved, and is restarted. -/
def answeredAndRestarted : List (Act 1) :=
  [.startServer 0 (fun _ => "a"), .call 0, .call 0, .install 0, .runDaemon 0 true, .init 0,
   .addServer 0, .net (.control (.makeEnd "c")),
   .net (.control (.connect "c" (some (serverName 0 0)))), .net (.control (.enable "c" true)),
   .net (.take "c" "KV.Put" []), .net (.thread 0 .readEndnameInfo), .net (.thread 0 .spawn),
   .net (.thread 0 .dispatch), .save 0 (some 0) ⟨[1], [2]⟩,
   .net (.thread 0 (.handlerReturn ⟨true, [9]⟩)), .net (.thread 0 .receive),
   .net (.thread 0 .recheck), .net (.thread 0 .release), .net (.thread 0 .send),
   .shutdownServer 0, .call 0, .call 0, .deleteServer 0, .checkpointPersister 0, .kill 0,
   .startServer 0 (fun _ => "b"), .call 0, .call 0, .install 0, .runDaemon 0 true, .init 0]

theorem answeredAndRestarted_durable : ∃ g inc save,
    run (Group.step 0) (makeSrvGrp fun _ _ => "e") answeredAndRestarted = some g ∧
      g.incs[1]? = some inc ∧ g.saves[0]? = some save ∧
      ∃ m' save', inc.initial.writer = some m' ∧ 0 ≤ m' ∧ g.saves[m']? = some save' ∧
        save'.srv = save.srv ∧ inc.initial.data = save'.data := by
  obtain ⟨g, hg⟩ : ∃ g, run (Group.step 0) (makeSrvGrp fun _ _ => "e") answeredAndRestarted =
    some g := ⟨_, rfl⟩
  obtain ⟨req, hreq, hans⟩ : ∃ req, g.lab.reqs[0]? = some req ∧ req.answers = [⟨true, [9]⟩] := by
    cases hg
    exact ⟨_, rfl, rfl⟩
  obtain ⟨save, hsave, hcaller, hsrv, hsinc⟩ : ∃ save, g.saves[0]? = some save ∧
      save.caller = some 0 ∧ save.srv = 0 ∧ save.inc = 0 := by
    cases hg
    exact ⟨_, rfl, rfl, rfl, rfl⟩
  obtain ⟨inc, hinc, hhome⟩ : ∃ inc, g.incs[1]? = some inc ∧ inc.srv = 0 := by
    cases hg
    exact ⟨_, rfl, rfl⟩
  refine ⟨g, inc, save, hg, hinc, hsave, ?_⟩
  exact acknowledged_durable 0 _ answeredAndRestarted g hg 0 req hreq ⟨true, [9]⟩ (by simp [hans])
    rfl 0 save hsave hcaller 1 inc hinc (hhome.trans hsrv.symm) (by omega)

end Tester
