import DistLabs.Daemons
import DistLabs.DemuxCalls

/-!
# Checkpointing a daemon

The service socket of a daemon while `CheckpointPersister` runs. One goroutine
accepts connections, and waits for the first message of a connection before it
accepts the next one. Each connection has a `DemuxSrv`, whose steps are those of
`Demux`; what its client sends is up to the client.

`CheckpointPersister` closes the client to the tester, then the listener of the
service socket, and then copies the persister. Nothing in it reaches the
connections that were accepted before: `DemuxSrv.Close` has no caller.
-/
namespace Tester

open Runs

/-- `rpcs.l`, which is nil until `listen` has its socket. -/
inductive Listener where
  | unset
  | open
  | closed
  deriving DecidableEq

/-- The loop of `listen`: in `Accept`, or in `NewDemuxSrv` for a connection, or over. -/
inductive ListenPc where
  | accepting
  | making (c : Nat)
  | returned
  deriving DecidableEq

inductive CheckpointPc where
  | idle
  | called
  | rpccClosed
  | rpcsClosed
  | copied (p : Persister)
  deriving DecidableEq

/-- The service socket of a daemon; `running` has the goroutines, by connection and
position, whose request has been dispatched. -/
structure DaemonSrv where
  l : Listener
  listen : ListenPc
  conns : List Demux.State
  running : List (Nat × Nat)
  persister : Persister
  checkpoint : CheckpointPc

namespace DaemonSrv

/-- The daemon once `Init` has brought a persister and `NewRPCSrv` has started `listen`. -/
def start (p : Persister) : DaemonSrv where
  l := .unset
  listen := .accepting
  conns := []
  running := []
  persister := p
  checkpoint := .idle

inductive Act where
  | bind
  | accept (init : Demux.Bytes)
  | acceptFail
  | newDemuxSrv (c : Nat)
  | request (c : Nat) (f : Demux.Frame)
  | readCall (c : Nat)
  | readFail (c : Nat) (eof : Bool)
  | dispatch (c g : Nat)
  | handled (c g : Nat) (rep : Demux.Bytes) (ok : Bool)
  | writeCall (c g : Nat) (delivered : Bool)
  | save (p : Persister)
  | checkpointPersister
  | closeRpcc
  | closeRpcs
  | copy

def setConn (ds : DaemonSrv) (c : Nat) (k : Demux.State) : DaemonSrv :=
  { ds with conns := ds.conns.set c k }

/-- A step of the `DemuxSrv` of a connection. -/
def onConn (ds : DaemonSrv) (c : Nat) (a : Demux.Action) : Option DaemonSrv :=
  match ds.conns[c]? with
  | none => none
  | some k => (k.server a).map (ds.setConn c)

/-- The goroutine that a reader started for a request. -/
def goroutine (ds : DaemonSrv) (c g : Nat) : Option Demux.Go :=
  ds.conns[c]?.bind fun k => k.gos[g]?

def step (ds : DaemonSrv) : Act → Option DaemonSrv
  | .bind => if ds.l = .unset then some { ds with l := .open } else none
  | .accept init =>
    if ds.l = .open ∧ ds.listen = .accepting then
      some { ds with
        conns := ds.conns ++ [Demux.start init]
        listen := .making ds.conns.length }
    else none
  | .acceptFail =>
    if ds.l ≠ .unset ∧ ds.listen = .accepting then some { ds with listen := .returned } else none
  | .newDemuxSrv c =>
    -- a failed read of the first message ends the process
    if ds.listen = .making c then
      (ds.onConn c .srvInit).map fun ds' => { ds' with listen := .accepting }
    else none
  | .request c f => ds.conns[c]?.map fun k => ds.setConn c { k with c2s := k.c2s ++ [f] }
  | .readCall c => ds.onConn c .srvReadCall
  | .readFail c eof => ds.onConn c (.srvReadFail eof)
  | .dispatch c g =>
    match ds.goroutine c g with
    | none => none
    | some go =>
      if go.result = none ∧ (c, g) ∉ ds.running then
        some { ds with running := (c, g) :: ds.running }
      else none
  | .handled c g rep ok =>
    if (c, g) ∈ ds.running then ds.onConn c (.serveRequest g rep ok) else none
  | .writeCall c g delivered => ds.onConn c (.srvWriteCall g delivered)
  | .save p => some { ds with persister := p }
  | .checkpointPersister =>
    if ds.checkpoint = .idle then some { ds with checkpoint := .called } else none
  | .closeRpcc =>
    if ds.checkpoint = .called then some { ds with checkpoint := .rpccClosed } else none
  | .closeRpcs =>
    -- without a listener this is a nil dereference
    if ds.checkpoint = .rpccClosed ∧ ds.l ≠ .unset then
      some { ds with l := .closed, checkpoint := .rpcsClosed }
    else none
  | .copy =>
    if ds.checkpoint = .rpcsClosed then some { ds with checkpoint := .copied ds.persister }
    else none

/-- A request is dispatched to a handler, or a reply is written. -/
def Act.serves : Act → Bool
  | .dispatch _ _ => true
  | .writeCall _ _ _ => true
  | _ => false

/-- Nothing is left to run on the connection: its reader has returned, and every goroutine
it started has written its reply. -/
def Finished (k : Demux.State) : Prop :=
  k.srvReader = .stopped ∧ ∀ go ∈ k.gos, go.written = true

instance (k : Demux.State) : Decidable (Finished k) := inferInstanceAs (Decidable (_ ∧ _))

/-! ## What a step does -/

theorem onConn_eq_some {ds ds' : DaemonSrv} {c : Nat} {a : Demux.Action} :
    ds.onConn c a = some ds' ↔
      ∃ k k', ds.conns[c]? = some k ∧ k.server a = some k' ∧ ds' = ds.setConn c k' := by
  unfold onConn
  cases hk : ds.conns[c]? with
  | none => simp
  | some k => simp [Option.map_eq_some_iff, eq_comm (a := ds')]

theorem goroutine_eq_some {ds : DaemonSrv} {c g : Nat} {go : Demux.Go} :
    ds.goroutine c g = some go ↔ ∃ k, ds.conns[c]? = some k ∧ k.gos[g]? = some go :=
  Option.bind_eq_some_iff

/-- The connection and the step of its `DemuxSrv`, for the steps that are no more than that. -/
def Act.server : Act → Option (Nat × Demux.Action)
  | .readCall c => some (c, .srvReadCall)
  | .readFail c eof => some (c, .srvReadFail eof)
  | .handled c g rep ok => some (c, .serveRequest g rep ok)
  | .writeCall c g delivered => some (c, .srvWriteCall g delivered)
  | _ => none

theorem Act.server_ne_srvClose (act : Act) (c : Nat) : act.server ≠ some (c, .srvClose) := by
  cases act <;> simp [Act.server]

/-- The steps, sorted by what they change: the connection of a step of its `DemuxSrv` is
replaced, a new connection is the last one, and all others leave the connections alone. -/
inductive Steps (ds : DaemonSrv) : Act → DaemonSrv → Prop where
  | bind (hl : ds.l = .unset) : Steps ds .bind { ds with l := .open }
  | accept (init : Demux.Bytes) (hl : ds.l = .open) (hpc : ds.listen = .accepting) :
      Steps ds (.accept init) { ds with
        conns := ds.conns ++ [Demux.start init]
        listen := .making ds.conns.length }
  | acceptFail (hpc : ds.listen = .accepting) :
      Steps ds .acceptFail { ds with listen := .returned }
  | newDemuxSrv (c : Nat) (k k' : Demux.State) (hpc : ds.listen = .making c)
      (hk : ds.conns[c]? = some k) (hk' : k.server .srvInit = some k') :
      Steps ds (.newDemuxSrv c) { ds.setConn c k' with listen := .accepting }
  | request (c : Nat) (f : Demux.Frame) (k : Demux.State) (hk : ds.conns[c]? = some k) :
      Steps ds (.request c f) (ds.setConn c { k with c2s := k.c2s ++ [f] })
  | conn (act : Act) (c : Nat) (a : Demux.Action) (k k' : Demux.State)
      (ha : act.server = some (c, a)) (hk : ds.conns[c]? = some k) (hk' : k.server a = some k') :
      Steps ds act (ds.setConn c k')
  | dispatch (c g : Nat) (k : Demux.State) (go : Demux.Go) (hk : ds.conns[c]? = some k)
      (hgo : k.gos[g]? = some go) (hres : go.result = none) :
      Steps ds (.dispatch c g) { ds with running := (c, g) :: ds.running }
  | save (p : Persister) : Steps ds (.save p) { ds with persister := p }
  | checkpointPersister : Steps ds .checkpointPersister { ds with checkpoint := .called }
  | closeRpcc : Steps ds .closeRpcc { ds with checkpoint := .rpccClosed }
  | closeRpcs : Steps ds .closeRpcs { ds with l := .closed, checkpoint := .rpcsClosed }
  | copy (hpc : ds.checkpoint = .rpcsClosed) :
      Steps ds .copy { ds with checkpoint := .copied ds.persister }

theorem steps_onConn {ds ds' : DaemonSrv} {act : Act} {c : Nat} {a : Demux.Action}
    (ha : act.server = some (c, a)) (h : ds.onConn c a = some ds') : Steps ds act ds' := by
  obtain ⟨k, k', hk, hk', rfl⟩ := onConn_eq_some.mp h
  exact .conn act c a k k' ha hk hk'

theorem steps_of_step {ds ds' : DaemonSrv} {act : Act} (h : ds.step act = some ds') :
    Steps ds act ds' := by
  cases act with
  | bind =>
    obtain ⟨hl, h⟩ := Option.ite_none_right_eq_some.mp h
    cases h
    exact .bind hl
  | accept init =>
    obtain ⟨⟨hl, hpc⟩, h⟩ := Option.ite_none_right_eq_some.mp h
    cases h
    exact .accept init hl hpc
  | acceptFail =>
    obtain ⟨⟨-, hpc⟩, h⟩ := Option.ite_none_right_eq_some.mp h
    cases h
    exact .acceptFail hpc
  | newDemuxSrv c =>
    obtain ⟨hpc, h⟩ := Option.ite_none_right_eq_some.mp h
    obtain ⟨ds₁, h₁, rfl⟩ := Option.map_eq_some_iff.mp h
    obtain ⟨k, k', hk, hk', rfl⟩ := onConn_eq_some.mp h₁
    exact .newDemuxSrv c k k' hpc hk hk'
  | request c f =>
    obtain ⟨k, hk, rfl⟩ := Option.map_eq_some_iff.mp h
    exact .request c f k hk
  | readCall c => exact steps_onConn rfl h
  | readFail c eof => exact steps_onConn rfl h
  | dispatch c g =>
    simp only [step] at h
    split at h
    · cases h
    · rename_i go hgo
      obtain ⟨k, hk, hgo⟩ := goroutine_eq_some.mp hgo
      obtain ⟨⟨hres, -⟩, h⟩ := Option.ite_none_right_eq_some.mp h
      cases h
      exact .dispatch c g k go hk hgo hres
  | handled c g rep ok =>
    obtain ⟨-, h⟩ := Option.ite_none_right_eq_some.mp h
    exact steps_onConn rfl h
  | writeCall c g delivered => exact steps_onConn rfl h
  | save p =>
    cases h
    exact .save p
  | checkpointPersister =>
    obtain ⟨-, h⟩ := Option.ite_none_right_eq_some.mp h
    cases h
    exact .checkpointPersister
  | closeRpcc =>
    obtain ⟨-, h⟩ := Option.ite_none_right_eq_some.mp h
    cases h
    exact .closeRpcc
  | closeRpcs =>
    obtain ⟨-, h⟩ := Option.ite_none_right_eq_some.mp h
    cases h
    exact .closeRpcs
  | copy =>
    obtain ⟨hpc, h⟩ := Option.ite_none_right_eq_some.mp h
    cases h
    exact .copy hpc

/-! ## Connections that are finished -/

/-- Every reply that was written is the result of a handler. -/
def Answered (k : Demux.State) : Prop :=
  ∀ go ∈ k.gos, go.written = true → go.result ≠ none

theorem answered_of_server {k k' : Demux.State} {a : Demux.Action} (h : Answered k)
    (hk : k.server a = some k') : Answered k' := by
  cases Demux.steps_server hk with
  | srvReadCall f rest hr hs =>
    intro go hgo hw
    rcases List.mem_append.mp hgo with hgo | hgo
    · exact h go hgo hw
    · rw [List.mem_singleton.mp hgo] at hw
      cases hw
  | serveRequest g rep ok go hg hres =>
    intro go' hgo' _
    rcases List.mem_or_eq_of_mem_set hgo' with hgo' | rfl
    · exact h go' hgo' ‹_›
    · simp
  | srvWriteCall g delivered go rep ok hg hres hw =>
    intro go' hgo' hw'
    rcases List.mem_or_eq_of_mem_set hgo' with hgo' | rfl
    · exact h go' hgo' hw'
    · simp [hres]
  | _ => exact h

/-- What holds of every daemon: only the connection that `listen` is busy with waits for
its first message, replies are written after their handler has returned, and the listener
is closed before the persister is copied. -/
structure Wired (ds : DaemonSrv) : Prop where
  making : ∀ c k, ds.conns[c]? = some k → k.srvReader = .init → ds.listen = .making c
  answered : ∀ k ∈ ds.conns, Answered k
  closed : ds.checkpoint = .rpcsClosed → ds.l = .closed

theorem init_of_server {k k' : Demux.State} {a : Demux.Action} (hk : k.server a = some k')
    (h : k'.srvReader = .init) : k.srvReader = .init ∧ a ≠ .srvInit := by
  cases Demux.steps_server hk with
  | srvInit f rest hr hs => cases h
  | srvReadFail eof hr => cases h
  | closers a closers ha => rcases ha with rfl | ⟨c, rfl | rfl⟩ <;> exact ⟨h, nofun⟩
  | _ => exact ⟨h, nofun⟩

theorem Wired.setConn {ds : DaemonSrv} (h : ds.Wired) {c : Nat} {k k' : Demux.State}
    (hk : ds.conns[c]? = some k) (hinit : k'.srvReader = .init → k.srvReader = .init)
    (hans : Answered k') : (ds.setConn c k').Wired where
  making := by
    intro c' k₁ hk₁ h₁
    rcases getElem?_set_cases hk₁ with ⟨rfl, rfl⟩ | ⟨-, hk₁⟩
    · exact h.making c' k hk (hinit h₁)
    · exact h.making c' k₁ hk₁ h₁
  answered := by
    intro k₁ hk₁
    rcases List.mem_or_eq_of_mem_set hk₁ with hk₁ | rfl
    · exact h.answered k₁ hk₁
    · exact hans
  closed := h.closed

theorem Wired.step {ds ds' : DaemonSrv} {act : Act} (h : ds.Wired)
    (hstep : ds.step act = some ds') : ds'.Wired := by
  cases steps_of_step hstep with
  | bind hl =>
    refine ⟨h.making, h.answered, ?_⟩
    intro hpc
    have hclosed := h.closed hpc
    rw [hl] at hclosed
    cases hclosed
  | accept init hl hpc =>
    refine ⟨?_, ?_, h.closed⟩
    · intro c k hk hinit
      rcases getElem?_concat_cases hk with hk | ⟨rfl, rfl⟩
      · have hmaking := h.making c k hk hinit
        rw [hpc] at hmaking
        cases hmaking
      · rfl
    · intro k hk
      rcases List.mem_append.mp hk with hk | hk
      · exact h.answered k hk
      · rw [List.mem_singleton.mp hk]
        intro go hgo
        cases hgo
  | acceptFail hpc =>
    refine ⟨?_, h.answered, h.closed⟩
    intro c k hk hinit
    have hmaking := h.making c k hk hinit
    rw [hpc] at hmaking
    cases hmaking
  | newDemuxSrv c k k' hpc hk hk' =>
    have hset := h.setConn hk (fun hinit => (init_of_server hk' hinit).1)
      (answered_of_server (h.answered k (List.mem_of_getElem? hk)) hk')
    refine ⟨?_, hset.answered, hset.closed⟩
    intro c' k₁ hk₁ hinit
    rcases getElem?_set_cases hk₁ with ⟨rfl, rfl⟩ | ⟨hne, hk₁⟩
    · exact absurd rfl (init_of_server hk' hinit).2
    · have hmaking := h.making c' k₁ hk₁ hinit
      rw [hpc] at hmaking
      cases hmaking
      exact absurd rfl hne
  | request c f k hk => exact h.setConn hk id (h.answered k (List.mem_of_getElem? hk))
  | conn act c a k k' ha hk hk' =>
    exact h.setConn hk (fun hinit => (init_of_server hk' hinit).1)
      (answered_of_server (h.answered k (List.mem_of_getElem? hk)) hk')
  | dispatch | save => exact ⟨h.making, h.answered, h.closed⟩
  | checkpointPersister | closeRpcc | copy => exact ⟨h.making, h.answered, nofun⟩
  | closeRpcs => exact ⟨h.making, h.answered, fun _ => rfl⟩

theorem Wired.start (p : Persister) : (DaemonSrv.start p).Wired where
  making := by
    intro c k hk
    simp [DaemonSrv.start] at hk
  answered := by
    intro k hk
    cases hk
  closed := by
    intro hpc
    cases hpc

theorem Wired.of_run {p : Persister} {acts : List Act} {ds : DaemonSrv}
    (h : run DaemonSrv.step (DaemonSrv.start p) acts = some ds) : ds.Wired := by
  refine run_induction (P := fun _ ds => ds.Wired) (Wired.start p) ?_ h
  intro _ ds act ds' _ hds hstep
  exact hds.step hstep

/-- No connection has anything left to run, and no new one is accepted. -/
structure Silent (ds : DaemonSrv) : Prop where
  closed : ds.l = .closed
  finished : ∀ k ∈ ds.conns, Finished k
  answered : ∀ k ∈ ds.conns, Answered k

/-- The `DemuxSrv` of a finished connection takes no step. -/
theorem Finished.no_steps {k k' : Demux.State} {a : Demux.Action} (hf : Finished k)
    (hans : Answered k) (hk : k.server a = some k') : a = .srvClose := by
  cases Demux.steps_server hk with
  | srvInit f rest hr hs | srvReadCall f rest hr hs | srvReadFail eof hr =>
    rw [hf.1] at hr
    cases hr
  | serveRequest g rep ok go hg hres =>
    have hmem := List.mem_of_getElem? hg
    exact absurd hres (hans go hmem (hf.2 go hmem))
  | srvWriteCall g delivered go rep ok hg hres hw =>
    rw [hf.2 go (List.mem_of_getElem? hg)] at hw
    cases hw
  | srvClose => rfl
  | closers a closers ha => rcases ha with rfl | ⟨c, rfl | rfl⟩ <;> cases hk
  | _ => cases hk

theorem Silent.step {ds ds' : DaemonSrv} {act : Act} (h : ds.Silent)
    (hstep : ds.step act = some ds') : ds'.Silent ∧ act.serves = false := by
  cases steps_of_step hstep with
  | bind hl | accept init hl hpc =>
    rw [h.closed] at hl
    cases hl
  | newDemuxSrv c k k' hpc hk hk' =>
    have hmem := List.mem_of_getElem? hk
    cases (h.finished k hmem).no_steps (h.answered k hmem) hk'
  | request c f k hk =>
    have hmem := List.mem_of_getElem? hk
    refine ⟨⟨h.closed, ?_, ?_⟩, rfl⟩
    · intro k₁ hk₁
      rcases List.mem_or_eq_of_mem_set hk₁ with hk₁ | rfl
      · exact h.finished k₁ hk₁
      · exact h.finished k hmem
    · intro k₁ hk₁
      rcases List.mem_or_eq_of_mem_set hk₁ with hk₁ | rfl
      · exact h.answered k₁ hk₁
      · exact h.answered k hmem
  | conn act c a k k' ha hk hk' =>
    have hmem := List.mem_of_getElem? hk
    rw [(h.finished k hmem).no_steps (h.answered k hmem) hk'] at ha
    exact absurd ha (act.server_ne_srvClose c)
  | dispatch c g k go hk hgo hres =>
    have hmem := List.mem_of_getElem? hk
    have hgmem := List.mem_of_getElem? hgo
    exact absurd hres (h.answered k hmem go hgmem ((h.finished k hmem).2 go hgmem))
  | acceptFail | save | checkpointPersister | closeRpcc | copy =>
    exact ⟨⟨h.closed, h.finished, h.answered⟩, rfl⟩
  | closeRpcs => exact ⟨⟨rfl, h.finished, h.answered⟩, rfl⟩

theorem Silent.of_run {ds ds' : DaemonSrv} {acts : List Act} (h : ds.Silent)
    (hrun : run DaemonSrv.step ds acts = some ds') : ∀ act ∈ acts, act.serves = false := by
  refine (run_induction (P := fun acts ds => ds.Silent ∧ ∀ act ∈ acts, act.serves = false)
    ⟨h, nofun⟩ ?_ hrun).2
  intro acts ds₁ act ds₂ _ hds₁ hstep
  obtain ⟨hsilent, hact⟩ := hds₁.1.step hstep
  refine ⟨hsilent, ?_⟩
  intro act' hact'
  rcases List.mem_append.mp hact' with hact' | hact'
  · exact hds₁.2 act' hact'
  · rw [List.mem_singleton.mp hact']
    exact hact

/-! ## Connections that are not -/

/-- Some continuation dispatches a request or writes a reply. -/
def CanServe (ds : DaemonSrv) : Prop :=
  ∃ acts ds', run step ds acts = some ds' ∧ ∃ act ∈ acts, act.serves = true

theorem CanServe.now {ds ds' : DaemonSrv} {act : Act} (h : ds.step act = some ds')
    (hact : act.serves = true) : ds.CanServe :=
  ⟨[act], ds', by simp [h], act, by simp, hact⟩

theorem CanServe.later {ds ds' : DaemonSrv} {act : Act} (h : ds.step act = some ds')
    (hserve : ds'.CanServe) : ds.CanServe := by
  obtain ⟨acts, ds'', hrun, act', hmem, hact'⟩ := hserve
  exact ⟨act :: acts, ds'', by simp [h, hrun], act', List.mem_cons_of_mem _ hmem, hact'⟩

theorem setConn_getElem? {ds : DaemonSrv} {c : Nat} {k : Demux.State}
    (hk : ds.conns[c]? = some k) (k' : Demux.State) : (ds.setConn c k').conns[c]? = some k' :=
  getElem?_set_of_some hk k'

theorem onConn_of_server {ds : DaemonSrv} {c : Nat} {a : Demux.Action} {k k' : Demux.State}
    (hk : ds.conns[c]? = some k) (hk' : k.server a = some k') :
    ds.onConn c a = some (ds.setConn c k') := onConn_eq_some.mpr ⟨k, k', hk, hk', rfl⟩

/-- A goroutine whose handler has returned can write its reply. -/
theorem canServe_of_result {ds : DaemonSrv} {c g : Nat} {k : Demux.State} {go : Demux.Go}
    {rep : Demux.Bytes} {ok : Bool} (hk : ds.conns[c]? = some k) (hgo : k.gos[g]? = some go)
    (hres : go.result = some (rep, ok)) (hw : go.written = false) : ds.CanServe := by
  have hstep : ds.step (.writeCall c g true) = some (ds.setConn c { k with
      gos := k.gos.set g { go with written := true }
      s2c := k.s2c ++ [⟨go.tag, rep, ok, some g⟩] }) :=
    onConn_of_server hk (by simp [Demux.State.server, hgo, hres, hw])
  exact .now hstep rfl

/-- A goroutine that has not written its reply can be dispatched, or its handler can
return. -/
theorem canServe_of_unwritten {ds : DaemonSrv} {c g : Nat} {k : Demux.State} {go : Demux.Go}
    (hk : ds.conns[c]? = some k) (hgo : k.gos[g]? = some go) (hw : go.written = false) :
    ds.CanServe := by
  cases hres : go.result with
  | some result => exact canServe_of_result hk hgo hres hw
  | none =>
    by_cases hrunning : (c, g) ∈ ds.running
    · have hstep : ds.step (.handled c g [] true) = some (ds.setConn c { k with
          gos := k.gos.set g { go with result := some ([], true) } }) := by
        rw [step, if_pos hrunning]
        exact onConn_of_server hk (by simp [Demux.State.server, hgo, hres])
      refine .later hstep (canServe_of_result (setConn_getElem? hk _)
        (getElem?_set_of_some hgo _) rfl hw)
    · have hstep : ds.step (.dispatch c g) =
          some { ds with running := (c, g) :: ds.running } := by
        simp [step, goroutine, hk, hgo, hres, hrunning]
      exact .now hstep rfl

/-- A client can always send one more request. -/
theorem request_arrives {ds : DaemonSrv} {c : Nat} {k : Demux.State}
    (hk : ds.conns[c]? = some k) : ∃ k₁ f rest,
      ds.step (.request c ⟨0, [], true, none⟩) = some (ds.setConn c k₁) ∧
      k₁.srvReader = k.srvReader ∧ k₁.c2s = f :: rest := by
  obtain ⟨f, rest, hc2s⟩ : ∃ f rest, k.c2s ++ [⟨0, [], true, none⟩] = f :: rest :=
    List.exists_cons_of_ne_nil (by simp)
  exact ⟨{ k with c2s := k.c2s ++ [⟨0, [], true, none⟩] }, f, rest, by simp [step, hk], rfl, hc2s⟩

/-- A request that reaches a connection whose reader is running is served. -/
theorem canServe_of_reading {ds : DaemonSrv} {c : Nat} {k : Demux.State}
    (hk : ds.conns[c]? = some k) (hr : k.srvReader = .reading) : ds.CanServe := by
  obtain ⟨k₁, f, rest, hrequest, hr₁, hc2s⟩ := request_arrives hk
  rw [hr] at hr₁
  have hk₁ := setConn_getElem? hk k₁
  have hread : (ds.setConn c k₁).step (.readCall c) = some ((ds.setConn c k₁).setConn c
      { k₁ with c2s := rest, gos := k₁.gos ++ [⟨f.tag, f.data, none, false, f.origin⟩] }) :=
    onConn_of_server hk₁ (by simp only [Demux.State.server, hr₁, hc2s])
  have hgo : (k₁.gos ++ [(⟨f.tag, f.data, none, false, f.origin⟩ : Demux.Go)])[k₁.gos.length]? =
      some ⟨f.tag, f.data, none, false, f.origin⟩ := List.getElem?_concat_length
  exact .later hrequest (.later hread (canServe_of_unwritten (setConn_getElem? hk₁ _) hgo rfl))

/-- A connection that `NewDemuxSrv` waits on can still start its reader. -/
theorem canServe_of_init {ds : DaemonSrv} {c : Nat} {k : Demux.State}
    (hk : ds.conns[c]? = some k) (hr : k.srvReader = .init) (hpc : ds.listen = .making c) :
    ds.CanServe := by
  obtain ⟨k₁, f, rest, hrequest, hr₁, hc2s⟩ := request_arrives hk
  rw [hr] at hr₁
  have hk₁ := setConn_getElem? hk k₁
  have hinit : (ds.setConn c k₁).onConn c .srvInit =
      some ((ds.setConn c k₁).setConn c { k₁ with srvReader := .reading, c2s := rest }) :=
    onConn_of_server hk₁ (by simp only [Demux.State.server, hr₁, hc2s])
  have hmake : (ds.setConn c k₁).step (.newDemuxSrv c) = some { (ds.setConn c k₁).setConn c
      { k₁ with srvReader := .reading, c2s := rest } with listen := .accepting } := by
    rw [step, if_pos (show (ds.setConn c k₁).listen = .making c from hpc), hinit]
    rfl
  exact .later hrequest (.later hmake (canServe_of_reading (setConn_getElem? hk₁ _) rfl))

theorem canServe_of_not_finished {ds : DaemonSrv} (h : ds.Wired) {k : Demux.State}
    (hk : k ∈ ds.conns) (hf : ¬ Finished k) : ds.CanServe := by
  obtain ⟨c, hc⟩ := List.getElem?_of_mem hk
  cases hr : k.srvReader with
  | init => exact canServe_of_init hc hr (h.making c k hc hr)
  | reading => exact canServe_of_reading hc hr
  | stopped =>
    obtain ⟨go, hgo, hw⟩ : ∃ go ∈ k.gos, go.written = false := by
      by_contra hall
      refine hf ⟨hr, ?_⟩
      intro go hgo
      exact Bool.eq_true_of_not_eq_false fun hw => hall ⟨go, hgo, hw⟩
    obtain ⟨g, hg⟩ := List.getElem?_of_mem hgo
    exact canServe_of_unwritten hc hg hw

/-- After the copy of `CheckpointPersister` nothing is dispatched or replied any more, in
any continuation, exactly if every connection accepted so far was finished by then. -/
theorem checkpoint_silent_iff (p : Persister) (acts : List Act) (ds copied : DaemonSrv)
    (hrun : run step (start p) acts = some ds) (hcopy : ds.step .copy = some copied) :
    (∀ more ds', run step copied more = some ds' → ∀ act ∈ more, act.serves = false) ↔
      ∀ k ∈ ds.conns, Finished k := by
  have hwired := Wired.of_run hrun
  obtain ⟨hpc, hcopied⟩ := Option.ite_none_right_eq_some.mp hcopy
  cases hcopied
  constructor
  · intro hsilent k hk
    by_contra hf
    obtain ⟨more, ds', hmore, act, hact, hserves⟩ :=
      canServe_of_not_finished (hwired.step hcopy) hk hf
    rw [hsilent more ds' hmore act hact] at hserves
    cases hserves
  · intro hfinished more ds' hmore
    have hsilent : Silent { ds with checkpoint := .copied ds.persister } :=
      ⟨hwired.closed hpc, hfinished, hwired.answered⟩
    exact hsilent.of_run hmore

/-- One client connects, has a request answered and hangs up, and the daemon is
checkpointed. -/
def servedClient : List Act :=
  [.bind, .accept [], .newDemuxSrv 0, .request 0 ⟨1, [], true, none⟩, .readCall 0,
    .dispatch 0 0, .save ⟨[1], []⟩, .handled 0 0 [1] true, .writeCall 0 0 true,
    .readFail 0 true, .checkpointPersister, .closeRpcc, .closeRpcs]

theorem servedClient_silent : ∃ ds copied, run step (start makePersister) servedClient = some ds ∧
    ds.step .copy = some copied ∧
    ∀ more ds', run step copied more = some ds' → ∀ act ∈ more, act.serves = false := by
  obtain ⟨ds, hds⟩ : ∃ ds, run step (start makePersister) servedClient = some ds := ⟨_, rfl⟩
  have hpc : ds.checkpoint = .rpcsClosed := by
    cases hds
    rfl
  have hcopy : ds.step .copy = some { ds with checkpoint := .copied ds.persister } := if_pos hpc
  have hfinished : ∀ k ∈ ds.conns, Finished k := by
    cases hds
    decide
  exact ⟨ds, _, hds, hcopy,
    (checkpoint_silent_iff makePersister servedClient ds _ hds hcopy).mpr hfinished⟩

/-- A request on the first connection, from its arrival to its reply. -/
def lateRequest : List Act :=
  [.request 0 ⟨1, [], true, none⟩, .readCall 0, .dispatch 0 0, .save ⟨[1], []⟩,
    .handled 0 0 [1] true, .writeCall 0 0 true]

/-- The persister is copied while it is empty; a request on an old connection is then
dispatched, its handler saves, and the reply that reports what was saved goes out. -/
theorem late_request_answered : ∃ copied ds,
    run step (start makePersister) [.bind, .accept [], .newDemuxSrv 0, .checkpointPersister,
      .closeRpcc, .closeRpcs, .copy] = some copied ∧
    copied.checkpoint = .copied makePersister ∧
    run step copied lateRequest = some ds ∧ (∃ act ∈ lateRequest, act.serves = true) ∧
    ds.persister = ⟨[1], []⟩ ∧ ds.conns.map Demux.State.s2c = [[⟨1, [1], true, some 0⟩]] :=
  ⟨_, _, rfl, rfl, rfl, ⟨.dispatch 0 0, by simp [lateRequest], rfl⟩, rfl, rfl⟩

end DaemonSrv

end Tester
