import DistLabs.Fairness
import DistLabs.KvTest

/-!
# Spawning the clients of a test and waiting for them

`SpawnClientsAndWait` starts the clients, tells them over the channel `done` to stop,
and then takes the result of each from a channel of its own. No channel has a buffer:
a send and its receive are one step. A client looks at `done` with a `select` that has
a default, so it stops only if it looks while the sender waits, and else does another
piece of its work.

What the clients' function does between two looks is left open: a piece of work is a loop
like that of `OnePut` or the inner one of `OneClientAppend`, which takes any number of
further tries, perhaps for ever, and ends with any result so far, or in `Fatalf`, which
ends the goroutine there.
-/
namespace KvTest

open Runs Fairness

/-- Where a client is in `runClient` and the function it runs. -/
inductive ClientPc where
  | making
  | selecting
  | working
  | sending
  | deleting
  | ended
  | failed
  deriving DecidableEq

/-- The client has not received from `done`. -/
def ClientPc.unstopped : ClientPc → Bool
  | .making | .selecting | .working | .failed => true
  | .sending | .deleting | .ended => false

structure SpawnedClient where
  pc : ClientPc
  res : ClntRes
  deriving DecidableEq

/-- Where `SpawnClientsAndWait` is; `waiting` is a send on `done` that nobody has received. -/
inductive MainPc where
  | spawning
  | sleeping
  | signalling (i : Nat)
  | waiting (i : Nat)
  | collecting
  | returned
  deriving DecidableEq

structure Spawn where
  main : MainPc
  clients : List SpawnedClient
  rs : List ClntRes
  deriving DecidableEq

def Spawn.start : Spawn := ⟨.spawning, [], []⟩

/-- The main goroutine goes on, a client receives from `done`, or a client goes on. -/
inductive SpawnAct where
  | main
  | done (c : Nat)
  | make (c : Nat)
  | proceed (c : Nat)
  | retry (c : Nat)
  | work (c : Nat) (res : ClntRes)
  | fail (c : Nat)
  | delete (c : Nat)
  deriving DecidableEq

/-- A client at one place goes on to another. -/
def Spawn.move (s : Spawn) (c : Nat) (src : ClientPc) (f : SpawnedClient → SpawnedClient) :
    Option Spawn :=
  match s.clients[c]? with
  | some x => if x.pc = src then some { s with clients := s.clients.set c (f x) } else none
  | none => none

def MainPc.waits : MainPc → Bool
  | .waiting _ => true
  | _ => false

def Spawn.step (nclnt : Nat) (s : Spawn) : SpawnAct → Option Spawn
  | .main =>
    match s.main with
    | .spawning =>
      if s.clients.length < nclnt then
        some { s with clients := s.clients ++ [⟨.making, ⟨0, 0⟩⟩] }
      else some { s with main := .sleeping }
    | .sleeping => some { s with main := .signalling 0 }
    | .signalling i =>
      if i < nclnt then some { s with main := .waiting i }
      else some { s with main := .collecting }
    | .waiting _ => none
    | .collecting =>
      if s.rs.length < nclnt then
        match s.clients[s.rs.length]? with
        | some x => (s.move s.rs.length .sending fun x => { x with pc := .deleting }).map fun s =>
            { s with rs := s.rs ++ [x.res] }
        | none => none
      else some { s with main := .returned }
    | .returned => none
  | .done c =>
    match s.main with
    | .waiting i => (s.move c .selecting fun x => { x with pc := .sending }).map fun s =>
        { s with main := .signalling (i + 1) }
    | _ => none
  | .make c => s.move c .making fun x => { x with pc := .selecting }
  | .proceed c =>
    if s.main.waits then none else s.move c .selecting fun x => { x with pc := .working }
  | .retry c => s.move c .working id
  | .work c res => s.move c .working fun _ => ⟨.selecting, res⟩
  | .fail c => s.move c .working fun x => { x with pc := .failed }
  | .delete c => s.move c .deleting fun x => { x with pc := .ended }

/-! ## What a step can do -/

/-- The steps that a client takes alone. -/
inductive ClientStep (main : MainPc) : SpawnedClient → SpawnedClient → Prop where
  | make (res : ClntRes) : ClientStep main ⟨.making, res⟩ ⟨.selecting, res⟩
  | proceed (hmain : main.waits = false) (res : ClntRes) :
    ClientStep main ⟨.selecting, res⟩ ⟨.working, res⟩
  | retry (res : ClntRes) : ClientStep main ⟨.working, res⟩ ⟨.working, res⟩
  | work (res res' : ClntRes) : ClientStep main ⟨.working, res⟩ ⟨.selecting, res'⟩
  | fail (res : ClntRes) : ClientStep main ⟨.working, res⟩ ⟨.failed, res⟩
  | delete (res : ClntRes) : ClientStep main ⟨.deleting, res⟩ ⟨.ended, res⟩

/-- The client that takes the step alone. -/
def SpawnAct.alone : SpawnAct → Option Nat
  | .main | .done _ => none
  | .make c | .proceed c | .retry c | .work c _ | .fail c | .delete c => some c

inductive Spawn.Steps (nclnt : Nat) (s : Spawn) : SpawnAct → Spawn → Prop where
  | spawn (hmain : s.main = .spawning) (hlt : s.clients.length < nclnt) :
    Steps nclnt s .main { s with clients := s.clients ++ [⟨.making, ⟨0, 0⟩⟩] }
  | sleep (hmain : s.main = .spawning) (hge : nclnt ≤ s.clients.length) :
    Steps nclnt s .main { s with main := .sleeping }
  | wake (hmain : s.main = .sleeping) : Steps nclnt s .main { s with main := .signalling 0 }
  | send (i : Nat) (hmain : s.main = .signalling i) (hlt : i < nclnt) :
    Steps nclnt s .main { s with main := .waiting i }
  | sent (i : Nat) (hmain : s.main = .signalling i) (hge : nclnt ≤ i) :
    Steps nclnt s .main { s with main := .collecting }
  | done (i c : Nat) (res : ClntRes) (hmain : s.main = .waiting i)
    (hx : s.clients[c]? = some ⟨.selecting, res⟩) :
    Steps nclnt s (.done c)
      { s with main := .signalling (i + 1), clients := s.clients.set c ⟨.sending, res⟩ }
  | receive (res : ClntRes) (hmain : s.main = .collecting) (hlt : s.rs.length < nclnt)
    (hx : s.clients[s.rs.length]? = some ⟨.sending, res⟩) :
    Steps nclnt s .main
      { s with clients := s.clients.set s.rs.length ⟨.deleting, res⟩, rs := s.rs ++ [res] }
  | finish (hmain : s.main = .collecting) (hge : nclnt ≤ s.rs.length) :
    Steps nclnt s .main { s with main := .returned }
  | client (a : SpawnAct) (c : Nat) (x y : SpawnedClient) (ha : a.alone = some c)
    (hx : s.clients[c]? = some x) (hgoes : ClientStep s.main x y) :
    Steps nclnt s a { s with clients := s.clients.set c y }

theorem Spawn.move_eq_some {s s' : Spawn} {c : Nat} {src : ClientPc}
    {f : SpawnedClient → SpawnedClient} (h : s.move c src f = some s') :
    ∃ res, s.clients[c]? = some ⟨src, res⟩ ∧
      s' = { s with clients := s.clients.set c (f ⟨src, res⟩) } := by
  unfold Spawn.move at h
  cases hx : s.clients[c]? with
  | none => simp [hx] at h
  | some x =>
    simp only [hx] at h
    obtain ⟨hpc, hs'⟩ := Option.ite_none_right_eq_some.mp h
    subst hpc
    exact ⟨x.res, rfl, (Option.some.inj hs').symm⟩

theorem Spawn.steps_of_step {nclnt : Nat} {s s' : Spawn} {a : SpawnAct}
    (hstep : s.step nclnt a = some s') : Spawn.Steps nclnt s a s' := by
  cases a with
  | main =>
    rw [Spawn.step] at hstep
    split at hstep
    · rename_i hmain
      split at hstep
      · cases hstep
        exact .spawn hmain ‹_›
      · cases hstep
        exact .sleep hmain (by omega)
    · cases hstep
      exact .wake ‹_›
    · rename_i i hmain
      split at hstep
      · cases hstep
        exact .send i hmain ‹_›
      · cases hstep
        exact .sent i hmain (by omega)
    · cases hstep
    · rename_i hmain
      split at hstep
      · split at hstep
        · rename_i hlt _ x hx
          obtain ⟨t, ht, rfl⟩ := Option.map_eq_some_iff.mp hstep
          obtain ⟨res, hres, rfl⟩ := Spawn.move_eq_some ht
          cases hx.symm.trans hres
          exact .receive res hmain hlt hx
        · cases hstep
      · cases hstep
        exact .finish hmain (by omega)
    · cases hstep
  | done c =>
    rw [Spawn.step] at hstep
    split at hstep
    · rename_i i hmain
      obtain ⟨t, ht, rfl⟩ := Option.map_eq_some_iff.mp hstep
      obtain ⟨res, hx, rfl⟩ := Spawn.move_eq_some ht
      exact .done i c res hmain hx
    · cases hstep
  | make c =>
    obtain ⟨res, hx, rfl⟩ := Spawn.move_eq_some hstep
    exact .client _ c _ _ rfl hx (.make res)
  | proceed c =>
    obtain ⟨hmain, hstep⟩ := Option.ite_none_left_eq_some.mp hstep
    obtain ⟨res, hx, rfl⟩ := Spawn.move_eq_some hstep
    exact .client _ c _ _ rfl hx (.proceed (by simpa using hmain) res)
  | retry c =>
    obtain ⟨res, hx, rfl⟩ := Spawn.move_eq_some hstep
    exact .client _ c _ _ rfl hx (.retry res)
  | work c res' =>
    obtain ⟨res, hx, rfl⟩ := Spawn.move_eq_some hstep
    exact .client _ c _ _ rfl hx (.work res res')
  | fail c =>
    obtain ⟨res, hx, rfl⟩ := Spawn.move_eq_some hstep
    exact .client _ c _ _ rfl hx (.fail res)
  | delete c =>
    obtain ⟨res, hx, rfl⟩ := Spawn.move_eq_some hstep
    exact .client _ c _ _ rfl hx (.delete res)

/-! ## The invariant -/

/-- How many clients have received from `done`. -/
def MainPc.signalled (nclnt : Nat) : MainPc → Nat
  | .spawning | .sleeping => 0
  | .signalling i | .waiting i => i
  | .collecting | .returned => nclnt

def SpawnedClient.closed (x : SpawnedClient) : Nat := if x.pc.unstopped then 0 else 1

/-- A client that has received from `done` offers its result, until that is in `rs`. -/
def Spawn.Settled (s : Spawn) (c : Nat) (x : SpawnedClient) : Prop :=
  if c < s.rs.length then (x.pc = .deleting ∨ x.pc = .ended) ∧ s.rs[c]? = some x.res
  else x.pc = .sending

structure Spawn.Inv (nclnt : Nat) (s : Spawn) : Prop where
  spawned : s.clients.length ≤ nclnt ∧ (s.main ≠ .spawning → s.clients.length = nclnt)
  signals : (s.clients.map SpawnedClient.closed).sum = s.main.signalled nclnt
  bound : s.main.signalled nclnt ≤ nclnt ∧ ∀ i, s.main = .waiting i → i < nclnt
  settled : ∀ c x, s.clients[c]? = some x → x.pc.unstopped = false → s.Settled c x
  results : s.rs.length ≤ nclnt ∧ (s.main ≠ .collecting → s.main ≠ .returned → s.rs = []) ∧
    (s.main = .returned → s.rs.length = nclnt)

theorem Spawn.Inv.start (nclnt : Nat) : Spawn.start.Inv nclnt := by
  constructor <;> simp [Spawn.start, MainPc.signalled]

theorem closed_open {x : SpawnedClient} (h : x.pc.unstopped = true) : x.closed = 0 := by
  simp [SpawnedClient.closed, h]

theorem closed_closed {x : SpawnedClient} (h : x.pc.unstopped = false) : x.closed = 1 := by
  simp [SpawnedClient.closed, h]

theorem ClientStep.closed {main : MainPc} {x y : SpawnedClient} (h : ClientStep main x y) :
    y.closed = x.closed := by
  cases h <;> rfl

theorem ClientStep.settled {main : MainPc} {x y : SpawnedClient} (h : ClientStep main x y)
    {s : Spawn} {c : Nat} (hy : y.pc.unstopped = false)
    (hx : x.pc.unstopped = false → s.Settled c x) : s.Settled c y := by
  cases h with
  | delete res =>
    have hold := hx rfl
    unfold Spawn.Settled at hold ⊢
    split
    · rename_i hlt
      rw [if_pos hlt] at hold
      exact ⟨Or.inr rfl, hold.2⟩
    · rename_i hge
      rw [if_neg hge] at hold
      cases hold
  | _ => cases hy

theorem Spawn.Inv.step {nclnt : Nat} {s s' : Spawn} {a : SpawnAct} (h : s.Inv nclnt)
    (hstep : Spawn.Steps nclnt s a s') : s'.Inv nclnt := by
  obtain ⟨hspawned, hsignals, hbound, hsettled, hresults⟩ := h
  cases hstep with
  | spawn hmain hlt =>
    rw [hmain] at hsignals
    refine ⟨⟨by simpa using Nat.succ_le_of_lt hlt, fun hne => absurd hmain hne⟩, ?_, hbound, ?_,
      hresults⟩
    · simpa [hmain, SpawnedClient.closed, ClientPc.unstopped] using hsignals
    · intro c x hx hopen
      rcases getElem?_concat_cases hx with hx | ⟨-, rfl⟩
      · exact hsettled c x hx hopen
      · cases hopen
  | sleep hmain hge =>
    rw [hmain] at hsignals
    have hempty : s.rs = [] := hresults.2.1 (by simp [hmain]) (by simp [hmain])
    have hlen := hspawned.1
    exact ⟨⟨hlen, fun _ => Nat.le_antisymm hlen hge⟩, hsignals, ⟨Nat.zero_le _, by simp⟩, hsettled,
      by simp [hempty]⟩
  | wake hmain =>
    rw [hmain] at hsignals
    have hempty : s.rs = [] := hresults.2.1 (by simp [hmain]) (by simp [hmain])
    have hlen := hspawned.2 (by simp [hmain])
    exact ⟨⟨hspawned.1, fun _ => hlen⟩, hsignals, ⟨Nat.zero_le _, by simp⟩, hsettled,
      by simp [hempty]⟩
  | send i hmain hlt =>
    rw [hmain] at hsignals
    have hempty : s.rs = [] := hresults.2.1 (by simp [hmain]) (by simp [hmain])
    have hlen := hspawned.2 (by simp [hmain])
    refine ⟨⟨hspawned.1, fun _ => hlen⟩, hsignals, ⟨Nat.le_of_lt hlt, ?_⟩, hsettled,
      by simp [hempty]⟩
    intro j hj
    cases hj
    exact hlt
  | sent i hmain hge =>
    rw [hmain] at hsignals hbound
    have hempty : s.rs = [] := hresults.2.1 (by simp [hmain]) (by simp [hmain])
    have hlen := hspawned.2 (by simp [hmain])
    obtain rfl : i = nclnt := Nat.le_antisymm hbound.1 hge
    exact ⟨⟨hspawned.1, fun _ => hlen⟩, hsignals, ⟨Nat.le_refl _, by simp⟩, hsettled,
      by simp [hempty]⟩
  | done i c res hmain hx =>
    rw [hmain] at hsignals
    have hempty : s.rs = [] := hresults.2.1 (by simp [hmain]) (by simp [hmain])
    have hlen := hspawned.2 (by simp [hmain])
    have hlt := hbound.2 i hmain
    have hsum := sum_map_set (f := SpawnedClient.closed) (b := ⟨.sending, res⟩) hx
    refine ⟨by simpa using ⟨hspawned.1, hlen⟩, ?_, ⟨hlt, by simp⟩, ?_, by simp [hempty]⟩
    · rw [closed_open rfl, closed_closed rfl] at hsum
      simp only [MainPc.signalled] at hsignals ⊢
      omega
    · intro c' y hy hopen
      rcases getElem?_set_cases hy with ⟨rfl, rfl⟩ | ⟨-, hy⟩
      · simp [Spawn.Settled, hempty]
      · exact hsettled c' y hy hopen
  | receive res hmain hlt hx =>
    have hsum := sum_map_set (f := SpawnedClient.closed) (b := ⟨.deleting, res⟩) hx
    refine ⟨by simpa using hspawned, ?_, hbound, ?_, ?_⟩
    · rw [closed_closed rfl, closed_closed rfl] at hsum
      dsimp only
      omega
    · intro c y hy hopen
      unfold Spawn.Settled
      rw [List.length_append, List.length_singleton]
      rcases getElem?_set_cases hy with ⟨rfl, rfl⟩ | ⟨hne, hy⟩
      · simp
      · have hold := hsettled c y hy hopen
        unfold Spawn.Settled at hold
        by_cases hc : c < s.rs.length
        · rw [if_pos hc] at hold
          rw [if_pos (by omega)]
          exact ⟨hold.1, getElem?_concat_of_some hold.2 res⟩
        · rw [if_neg hc] at hold
          rwa [if_neg (by omega)]
    · simp only [List.length_append, List.length_singleton, hmain]
      exact ⟨hlt, by simp⟩
  | finish hmain hge =>
    rw [hmain] at hsignals
    have hlen := hspawned.2 (by simp [hmain])
    have hrs := hresults.1
    exact ⟨⟨hspawned.1, fun _ => hlen⟩, hsignals, ⟨Nat.le_refl _, by simp⟩, hsettled,
      ⟨hrs, by simp, fun _ => Nat.le_antisymm hrs hge⟩⟩
  | client _ c x y _ hx hgoes =>
    have hsum := sum_map_set (f := SpawnedClient.closed) (b := y) hx
    have hclosed := hgoes.closed
    refine ⟨by simpa using hspawned, ?_, hbound, ?_, hresults⟩
    · dsimp only
      omega
    · intro c' z hz hopen
      rcases getElem?_set_cases hz with ⟨rfl, rfl⟩ | ⟨-, hz⟩
      · exact hgoes.settled hopen (hsettled c' x hx)
      · exact hsettled c' z hz hopen

/-! ## Coming to an end -/

/-- How many steps the main goroutine has left. -/
def Spawn.left (nclnt : Nat) (s : Spawn) : Nat :=
  match s.main with
  | .spawning => 3 * nclnt + 5 + (nclnt - s.clients.length)
  | .sleeping => 3 * nclnt + 4
  | .signalling i => 2 * (nclnt - i) + nclnt + 3
  | .waiting i => 2 * (nclnt - i) + nclnt + 2
  | .collecting => nclnt - s.rs.length + 1
  | .returned => 0

/-- A step of the main goroutine brings it closer to its end; the others leave it where it is. -/
theorem Spawn.Steps.left {nclnt : Nat} {s s' : Spawn} {a : SpawnAct}
    (hstep : Spawn.Steps nclnt s a s') (h : s.Inv nclnt) :
    (a.alone = none ∧ s'.left nclnt < s.left nclnt) ∨
      (a.alone ≠ none ∧ s'.left nclnt = s.left nclnt ∧ s'.main = s.main) := by
  have hbound := h.bound
  cases hstep with
  | client a c x y ha hx hgoes => exact Or.inr ⟨by simp [ha], by simp [Spawn.left], rfl⟩
  | done i c res hmain hx =>
    have hlt := hbound.2 i hmain
    refine Or.inl ⟨rfl, ?_⟩
    simp only [Spawn.left, hmain]
    omega
  | spawn hmain hlt =>
    refine Or.inl ⟨rfl, ?_⟩
    simp only [Spawn.left, hmain, List.length_append, List.length_singleton]
    omega
  | sleep hmain hge | wake hmain | send i hmain hlt | sent i hmain hge | finish hmain hge =>
    refine Or.inl ⟨rfl, ?_⟩
    simp only [Spawn.left, hmain]
    omega
  | receive res hmain hlt hx =>
    refine Or.inl ⟨rfl, ?_⟩
    simp only [Spawn.left, hmain, List.length_append, List.length_singleton]
    omega

/-- The goroutines; a receive from `done` is a step of two of them. -/
inductive Thread where
  | main
  | client (c : Nat)

def TakenBy : Thread → Spawn → SpawnAct → Prop
  | .main, _, a => a.alone = none
  | .client c, _, a => a.alone = some c ∨ a = .done c

theorem SpawnedClient.closed_le (x : SpawnedClient) : x.closed ≤ 1 := by
  unfold SpawnedClient.closed
  split <;> omega

theorem Spawn.Inv.exists_open {nclnt : Nat} {s : Spawn} (h : s.Inv nclnt) {i : Nat}
    (hmain : s.main = .waiting i) :
    ∃ (c : Nat) (x : SpawnedClient), s.clients[c]? = some x ∧ x.pc.unstopped = true := by
  have hlt := h.bound.2 i hmain
  have hlen := h.spawned.2 (by simp [hmain])
  have hsignals := h.signals
  simp only [hmain, MainPc.signalled] at hsignals
  by_contra hall
  have hone : ∀ x ∈ s.clients, x.closed = 1 := by
    intro x hx
    obtain ⟨c, hc⟩ := List.getElem?_of_mem hx
    apply closed_closed
    by_contra hopen
    exact hall ⟨c, x, hc, by simpa using hopen⟩
  have hfull := (sum_map_eq_length_iff SpawnedClient.closed_le s.clients).2.mpr hone
  omega

theorem Spawn.Inv.closed_of_collecting {nclnt : Nat} {s : Spawn} (h : s.Inv nclnt)
    (hmain : s.main = .collecting ∨ s.main = .returned) :
    ∀ x ∈ s.clients, x.pc.unstopped = false := by
  have hlen : s.clients.length = nclnt := by
    apply h.spawned.2
    rcases hmain with hmain | hmain <;> simp [hmain]
  have hsignals := h.signals
  have hfull : (s.clients.map SpawnedClient.closed).sum = s.clients.length := by
    rcases hmain with hmain | hmain <;> simp only [hmain, MainPc.signalled] at hsignals <;> omega
  intro x hx
  have hone := (sum_map_eq_length_iff SpawnedClient.closed_le s.clients).2.mp hfull x hx
  by_contra hopen
  rw [closed_open (by simpa using hopen)] at hone
  omega

theorem Spawn.Inv.enabled_main {nclnt : Nat} {s : Spawn} (h : s.Inv nclnt)
    (hwaits : s.main.waits = false) (hmain : s.main ≠ .returned) :
    Enabled (Spawn.step nclnt) (TakenBy .main) s := by
  refine ⟨.main, rfl, ?_⟩
  rw [Spawn.step]
  split
  · split <;> rfl
  · rfl
  · split <;> rfl
  · rename_i i hi
    simp [hi, MainPc.waits] at hwaits
  · rename_i hcollecting
    split
    · rename_i hlt
      -- the next client has received from done, so it offers its result
      have hlen := h.spawned.2 (by simp [hcollecting])
      obtain ⟨x, hx⟩ : ∃ x, s.clients[s.rs.length]? = some x :=
        ⟨_, List.getElem?_eq_getElem (by omega)⟩
      have hclosed := h.closed_of_collecting (Or.inl hcollecting) x (List.mem_of_getElem? hx)
      have hsettled := h.settled _ x hx hclosed
      rw [Spawn.Settled, if_neg (Nat.lt_irrefl _)] at hsettled
      simp [hx, Spawn.move, hsettled]
    · rfl
  · exact absurd ‹_› hmain

/-- How far a client is from looking at `done`. -/
def Spawn.toSelect (s : Spawn) (c : Nat) : Nat :=
  match s.clients[c]? with
  | some ⟨.making, _⟩ => 2
  | some ⟨.working, _⟩ => 1
  | _ => 0

/-- The main goroutine waits, with so many steps left, and the client has not received. -/
def Spawn.Waits (nclnt left i c : Nat) (s : Spawn) : Prop :=
  s.left nclnt = left ∧ s.main = .waiting i ∧ ∃ x, s.clients[c]? = some x ∧ x.pc.unstopped = true

/-- While the main goroutine waits, a client that has not received from `done` does not move
away from the place where it does; it comes closer unless it is at work. -/
theorem Spawn.Steps.waits {nclnt left i c : Nat} {s s' : Spawn} {a : SpawnAct}
    (hstep : Spawn.Steps nclnt s a s') (h : s.Inv nclnt) (hwaits : s.Waits nclnt left i c) :
    s'.left nclnt < left ∨ (s'.Waits nclnt left i c ∧ s'.toSelect c ≤ s.toSelect c ∧
      (a.alone = some c → s.toSelect c ≠ 1 → s'.toSelect c < s.toSelect c)) := by
  obtain ⟨rfl, hmain, x, hx, hopen⟩ := hwaits
  cases hstep with
  | client a d y z ha hy hgoes =>
    right
    by_cases hdc : d = c
    · subst hdc
      cases hx.symm.trans hy
      have hz := getElem?_set_of_some hx z
      cases hgoes with
      | proceed hnot res => simp [hmain, MainPc.waits] at hnot
      | delete res => cases hopen
      | make res | retry res | work res res' | fail res =>
        refine ⟨⟨by simp [Spawn.left], hmain, _, hz, rfl⟩, ?_, ?_⟩ <;>
          simp [Spawn.toSelect, hx, hz]
    · have hkept : (s.clients.set d z)[c]? = s.clients[c]? := List.getElem?_set_ne hdc
      refine ⟨⟨by simp [Spawn.left], hmain, x, by rw [hkept]; exact hx, hopen⟩, ?_, ?_⟩
      · simp [Spawn.toSelect, hkept]
      · intro hac
        exact absurd (Option.some.inj (ha.symm.trans hac)) hdc
  | done j d res hj hd =>
    left
    have hlt := h.bound.2 j hj
    simp only [Spawn.left, hj]
    omega
  | _ => simp_all

theorem Spawn.Waits.enabled {nclnt left i c : Nat} {s : Spawn}
    (hwaits : s.Waits nclnt left i c) (hnofail : ∀ x, s.clients[c]? = some x → x.pc ≠ .failed)
    (hidle : s.toSelect c ≠ 1) : Enabled (Spawn.step nclnt) (TakenBy (.client c)) s := by
  obtain ⟨-, hmain, x, hx, hopen⟩ := hwaits
  have hx' := hnofail x hx
  obtain ⟨pc, res⟩ := x
  cases pc with
  | making => exact ⟨.make c, Or.inl rfl, by simp [Spawn.step, Spawn.move, hx]⟩
  | selecting => exact ⟨.done c, Or.inr rfl, by simp [Spawn.step, Spawn.move, hx, hmain]⟩
  | working => simp [Spawn.toSelect, hx] at hidle
  | failed => exact absurd rfl hx'
  | sending => cases hopen
  | deleting => cases hopen
  | ended => cases hopen

/-- What has been collected when the call returns. -/
theorem Spawn.Inv.of_returned {nclnt : Nat} {s : Spawn} (h : s.Inv nclnt)
    (hmain : s.main = .returned) :
    s.clients.length = nclnt ∧ s.rs = s.clients.map SpawnedClient.res ∧
      ∀ x ∈ s.clients, x.pc = .deleting ∨ x.pc = .ended := by
  have hlen := h.spawned.2 (by simp [hmain])
  have hrs := h.results.2.2 hmain
  have hsettled : ∀ (c : Nat) (x : SpawnedClient), s.clients[c]? = some x →
      (x.pc = .deleting ∨ x.pc = .ended) ∧ s.rs[c]? = some x.res := by
    intro c x hx
    have hclosed := h.closed_of_collecting (Or.inr hmain) x (List.mem_of_getElem? hx)
    have hset := h.settled c x hx hclosed
    have hlt : c < s.clients.length := (List.getElem?_eq_some_iff.mp hx).1
    rwa [Spawn.Settled, if_pos (by omega)] at hset
  refine ⟨hlen, ?_, ?_⟩
  · apply List.ext_getElem?
    intro c
    rw [List.getElem?_map]
    cases hx : s.clients[c]? with
    | none =>
      have := List.getElem?_eq_none_iff.mp hx
      exact List.getElem?_eq_none_iff.mpr (by omega)
    | some x => exact (hsettled c x hx).2
  · intro x hx
    obtain ⟨c, hc⟩ := List.getElem?_of_mem hx
    exact (hsettled c x hc).1

section Behaviors

variable {nclnt : Nat}

theorem spawn_inv (b : Behavior (Spawn.step nclnt) Spawn.start) (t : Nat) :
    (b.state t).Inv nclnt := by
  obtain ⟨as, has⟩ := b.reached t
  refine run_induction (P := fun _ s => s.Inv nclnt) (Spawn.Inv.start nclnt) ?_ has
  intro _ s a s' _ hs hstep
  exact hs.step (Spawn.steps_of_step hstep)

theorem left_antitone (b : Behavior (Spawn.step nclnt) Spawn.start) {t u : Nat} (htu : t ≤ u) :
    (b.state u).left nclnt < (b.state t).left nclnt ∨
      ((b.state u).left nclnt = (b.state t).left nclnt ∧ (b.state u).main = (b.state t).main) := by
  have hkeep := b.always (P := fun s => s.Inv nclnt ∧ (s.left nclnt < (b.state t).left nclnt ∨
    (s.left nclnt = (b.state t).left nclnt ∧ s.main = (b.state t).main))) ?_ htu
    ⟨spawn_inv b t, Or.inr ⟨rfl, rfl⟩⟩
  · exact hkeep.2
  · rintro s a s' ⟨hs, hle⟩ hstep
    have hsteps := Spawn.steps_of_step hstep
    refine ⟨hs.step hsteps, ?_⟩
    rcases hsteps.left hs with ⟨-, hlt⟩ | ⟨-, heq, hsame⟩
    · left
      omega
    · rwa [heq, hsame]

theorem waits_antitone (b : Behavior (Spawn.step nclnt) Spawn.start) {left i c t u : Nat}
    (hwaits : (b.state t).Waits nclnt left i c) (htu : t ≤ u) :
    (b.state u).left nclnt < left ∨
      ((b.state u).Waits nclnt left i c ∧ (b.state u).toSelect c ≤ (b.state t).toSelect c) := by
  have hkeep := b.always (P := fun s => s.Inv nclnt ∧ (s.left nclnt < left ∨
    (s.Waits nclnt left i c ∧ s.toSelect c ≤ (b.state t).toSelect c))) ?_ htu
    ⟨spawn_inv b t, Or.inr ⟨hwaits, Nat.le_refl _⟩⟩
  · exact hkeep.2
  · rintro s a s' ⟨hs, hw⟩ hstep
    have hsteps := Spawn.steps_of_step hstep
    refine ⟨hs.step hsteps, ?_⟩
    rcases hw with hlt | ⟨hw, hle⟩
    · left
      rcases hsteps.left hs with ⟨-, hless⟩ | ⟨-, heq, -⟩ <;> omega
    · rcases hsteps.waits hs hw with hlt | ⟨hw', hle', -⟩
      · exact Or.inl hlt
      · exact Or.inr ⟨hw', by omega⟩

/-- What the client has left to do before the main goroutine goes on. -/
def Spawn.toDone (nclnt left c : Nat) (s : Spawn) : Nat :=
  if s.left nclnt = left then s.toSelect c + 1 else 0

theorem Spawn.Waits.toDone {left i c : Nat} {s : Spawn} (h : s.Waits nclnt left i c) :
    s.toDone nclnt left c = s.toSelect c + 1 := if_pos h.1

theorem toDone_of_lt {left c : Nat} {s : Spawn} (h : s.left nclnt < left) :
    s.toDone nclnt left c = 0 := if_neg (Nat.ne_of_lt h)

/-- Every piece of work ends: no client tries again for ever between two looks at `done`. -/
def WorkEnds (b : Behavior (Spawn.step nclnt) Spawn.start) : Prop :=
  ∀ (t c : Nat) (res : ClntRes), (b.state t).clients[c]? = some ⟨.working, res⟩ →
    ∃ u, t ≤ u ∧ ∀ res', (b.state u).clients[c]? ≠ some ⟨.working, res'⟩

theorem working_of_toSelect {s : Spawn} {c : Nat} (h : s.toSelect c = 1) :
    ∃ res, s.clients[c]? = some ⟨.working, res⟩ := by
  unfold Spawn.toSelect at h
  split at h
  · simp at h
  · exact ⟨_, ‹_›⟩
  · simp at h

theorem WorkEnds.leaves {b : Behavior (Spawn.step nclnt) Spawn.start} (hwork : WorkEnds b)
    {left i c w : Nat} (hw : (b.state w).Waits nclnt left i c)
    (hworking : (b.state w).toSelect c = 1) :
    ∃ v, w ≤ v ∧ (b.state v).toDone nclnt left c < (b.state w).toDone nclnt left c := by
  obtain ⟨res, hres⟩ := working_of_toSelect hworking
  obtain ⟨v, hwv, hidle⟩ := hwork w c res hres
  refine ⟨v, hwv, ?_⟩
  rw [hw.toDone, hworking]
  rcases waits_antitone b hw hwv with hlt | ⟨hv, hle⟩
  · rw [toDone_of_lt hlt]
    exact Nat.succ_pos _
  · have hone : (b.state v).toSelect c ≠ 1 := by
      intro hone
      obtain ⟨res', hres'⟩ := working_of_toSelect hone
      exact hidle res' hres'
    rw [hv.toDone]
    omega

/-- A send on `done` is received: some client has not stopped yet, and it comes to its `select`
while the sender waits. -/
theorem done_received {b : Behavior (Spawn.step nclnt) Spawn.start}
    (fair : ∀ th, b.WeakFair (TakenBy th)) (hwork : WorkEnds b)
    (hnofail : ∀ (t c : Nat) (x : SpawnedClient), (b.state t).clients[c]? = some x → x.pc ≠ .failed)
    {u i : Nat} (hmain : (b.state u).main = .waiting i) :
    ∃ v, u ≤ v ∧ (b.state v).left nclnt < (b.state u).left nclnt := by
  obtain ⟨c, x, hx, hopen⟩ := (spawn_inv b u).exists_open hmain
  obtain ⟨left, hleft⟩ : ∃ left, left = (b.state u).left nclnt := ⟨_, rfl⟩
  have hwaits : (b.state u).Waits nclnt left i c := ⟨hleft.symm, hmain, x, hx, hopen⟩
  have hleaves : ∀ w, u ≤ w → (b.state w).toDone nclnt left c ≠ 0 →
      ∃ v, w ≤ v ∧ (b.state v).toDone nclnt left c < (b.state w).toDone nclnt left c := by
    intro w huw hzero
    have hw : (b.state w).Waits nclnt left i c := by
      rcases waits_antitone b hwaits huw with hlt | ⟨hw, -⟩
      · exact absurd (toDone_of_lt hlt) hzero
      · exact hw
    have hstays : ∀ v, w ≤ v → (b.state v).toDone nclnt left c = (b.state w).toDone nclnt left c →
        (b.state v).Waits nclnt left i c := by
      intro v hwv hsame
      rcases waits_antitone b hw hwv with hlt | ⟨hv, -⟩
      · rw [toDone_of_lt hlt] at hsame
        exact absurd hsame.symm hzero
      · exact hv
    by_cases hworking : (b.state w).toSelect c = 1
    · exact hwork.leaves hw hworking
    have hidle : ∀ v, w ≤ v → (b.state v).toDone nclnt left c = (b.state w).toDone nclnt left c →
        (b.state v).toSelect c ≠ 1 := by
      intro v hwv hsame
      have hv := (hstays v hwv hsame).toDone
      rw [hsame, hw.toDone] at hv
      omega
    refine (fair (.client c)).lowers (f := Spawn.toDone nclnt left c) ?_ ?_ ?_
    · intro v hwv
      rcases waits_antitone b hw hwv with hlt | ⟨hv, hle⟩
      · rw [toDone_of_lt hlt]
        exact Nat.zero_le _
      · rw [hv.toDone, hw.toDone]
        omega
    · intro v hwv hsame
      exact (hstays v hwv hsame).enabled (hnofail v c) (hidle v hwv hsame)
    · intro v a hwv hsame htaken hstep
      have hv := hstays v hwv hsame
      have hsteps := Spawn.steps_of_step hstep
      rw [← hsame, hv.toDone]
      rcases hsteps.waits (spawn_inv b v) hv with hlt | ⟨hv', -, hcloser⟩
      · rw [toDone_of_lt hlt]
        exact Nat.succ_pos _
      · rcases htaken with halone | rfl
        · have := hcloser halone (hidle v hwv hsame)
          rw [hv'.toDone]
          omega
        · -- a receive is a step of the main goroutine, too
          rcases hsteps.left (spawn_inv b v) with ⟨-, hless⟩ | ⟨hne, -⟩
          · rw [toDone_of_lt (by have := hv.1; omega)]
            exact Nat.succ_pos _
          · exact absurd rfl hne
  obtain ⟨v, huv, hzero⟩ := b.eventually_zero (f := Spawn.toDone nclnt left c) hleaves
  refine ⟨v, huv, ?_⟩
  rcases waits_antitone b hwaits huv with hlt | ⟨hv, -⟩
  · omega
  · rw [hv.toDone] at hzero
    omega

/-- The main goroutine always comes closer to its return. -/
theorem left_falls {b : Behavior (Spawn.step nclnt) Spawn.start}
    (fair : ∀ th, b.WeakFair (TakenBy th)) (hwork : WorkEnds b)
    (hnofail : ∀ (t c : Nat) (x : SpawnedClient),
      (b.state t).clients[c]? = some x → x.pc ≠ .failed)
    {u : Nat} (hzero : (b.state u).left nclnt ≠ 0) :
    ∃ v, u ≤ v ∧ (b.state v).left nclnt < (b.state u).left nclnt := by
  by_cases hwaits : (b.state u).main.waits = true
  · cases hmain : (b.state u).main with
    | waiting i => exact done_received fair hwork hnofail hmain
    | _ => simp [hmain, MainPc.waits] at hwaits
  · have hmain : ∀ v, u ≤ v → (b.state v).left nclnt = (b.state u).left nclnt →
        (b.state v).main = (b.state u).main := by
      intro v huv hsame
      rcases left_antitone b huv with hlt | ⟨-, heq⟩
      · omega
      · exact heq
    have hnot : (b.state u).main ≠ .returned := by
      intro hreturned
      simp [Spawn.left, hreturned] at hzero
    refine (fair .main).lowers (f := fun s => s.left nclnt) ?_ ?_ ?_
    · intro v huv
      rcases left_antitone b huv with hlt | ⟨heq, -⟩ <;> omega
    · intro v huv hsame
      refine (spawn_inv b v).enabled_main ?_ ?_
      · rw [hmain v huv hsame]
        simpa using hwaits
      · rw [hmain v huv hsame]
        exact hnot
    · intro v a huv hsame htaken hstep
      rcases (Spawn.steps_of_step hstep).left (spawn_inv b v) with ⟨-, hlt⟩ | ⟨hne, -⟩
      · omega
      · exact absurd htaken hne

/-- `SpawnClientsAndWait` returns, however the clients' work interleaves, if every goroutine that
can go on does, every piece of work ends and no client fails; and then `rs` holds the result of
each client at its place, and no client works any more. -/
theorem spawnClientsAndWait_returns {b : Behavior (Spawn.step nclnt) Spawn.start}
    (fair : ∀ th, b.WeakFair (TakenBy th)) (hwork : WorkEnds b)
    (hnofail : ∀ (t c : Nat) (x : SpawnedClient),
      (b.state t).clients[c]? = some x → x.pc ≠ .failed) :
    ∃ t, ∀ u, t ≤ u → (b.state u).main = .returned ∧ (b.state u).clients.length = nclnt ∧
      (b.state u).rs = (b.state u).clients.map SpawnedClient.res ∧
      ∀ x ∈ (b.state u).clients, x.pc = .deleting ∨ x.pc = .ended := by
  have hleaves : ∀ u, 0 ≤ u → (b.state u).left nclnt ≠ 0 →
      ∃ v, u ≤ v ∧ (b.state v).left nclnt < (b.state u).left nclnt :=
    fun u _ hzero => left_falls fair hwork hnofail hzero
  obtain ⟨t, -, hzero⟩ := b.eventually_zero (f := fun s => s.left nclnt) hleaves
  refine ⟨t, ?_⟩
  intro u htu
  have hleft : (b.state u).left nclnt = 0 := by
    rcases left_antitone b htu with hlt | ⟨heq, -⟩ <;> omega
  have hmain : (b.state u).main = .returned := by
    cases hmain : (b.state u).main <;> simp [Spawn.left, hmain] at hleft
    rfl
  exact ⟨hmain, (spawn_inv b u).of_returned hmain⟩

end Behaviors

/-- Two clients: one has to try again, and the other receives from `done` first. -/
def twoClients : List SpawnAct :=
  [.main, .main, .main, .main, .make 0, .make 1, .proceed 0, .proceed 1, .retry 0, .main,
   .work 1 ⟨2, 0⟩, .done 1, .main, .retry 0, .work 0 ⟨3, 1⟩, .done 0, .main, .main, .main,
   .delete 0, .delete 1, .main]

theorem twoClients_run :
    run (Spawn.step 2) Spawn.start twoClients = some
      ⟨.returned, [⟨.ended, ⟨3, 1⟩⟩, ⟨.ended, ⟨2, 0⟩⟩], [⟨3, 1⟩, ⟨2, 0⟩]⟩ := by
  decide

theorem twoClients_returns :
    ∃ b : Behavior (Spawn.step 2) Spawn.start, (∀ th, b.WeakFair (TakenBy th)) ∧ WorkEnds b ∧
      ∃ t, (b.state t).main = .returned ∧
        (b.state t).rs = (b.state t).clients.map SpawnedClient.res := by
  have hlast : ∀ x ∈ ([⟨.ended, ⟨3, 1⟩⟩, ⟨.ended, ⟨2, 0⟩⟩] : List SpawnedClient),
      x.pc = .ended := by decide
  have hlater : ∀ t, 22 ≤ t → ∀ x ∈ ((Behavior.ofRun _ twoClients twoClients_run).state t).clients,
      x.pc = .ended := by
    intro t ht x hx
    rw [Behavior.ofRun_state twoClients_run (by simpa [twoClients] using ht)] at hx
    exact hlast x hx
  have hfair : ∀ th, (Behavior.ofRun _ twoClients twoClients_run).WeakFair (TakenBy th) := by
    intro th
    apply Behavior.ofRun_weakFair
    rintro ⟨a, -, hstep⟩
    obtain ⟨s', hs'⟩ := Option.isSome_iff_exists.mp hstep
    cases Spawn.steps_of_step hs' with
    | client a c x y ha hx hgoes =>
      have hpc := hlast x (List.mem_of_getElem? hx)
      cases hgoes <;> cases hpc
    | _ => contradiction
  have hwork : WorkEnds (Behavior.ofRun _ twoClients twoClients_run) := by
    intro t c res _
    refine ⟨t + 22, by omega, ?_⟩
    intro res' hc
    cases hlater (t + 22) (by omega) _ (List.mem_of_getElem? hc)
  have hearly : ∀ t, t < 22 → ∀ x ∈ ((Behavior.ofRun _ twoClients twoClients_run).state t).clients,
      x.pc ≠ .failed := by decide
  obtain ⟨t, ht⟩ := spawnClientsAndWait_returns hfair hwork (by
    intro t c x hx
    by_cases hlt : t < 22
    · exact hearly t hlt x (List.mem_of_getElem? hx)
    · rw [hlater t (by omega) x (List.mem_of_getElem? hx)]
      decide)
  obtain ⟨hmain, -, hrs, -⟩ := ht t (Nat.le_refl t)
  exact ⟨_, hfair, hwork, t, hmain, hrs⟩

end KvTest
