import DistLabs.Connections
import DistLabs.GoMaps

/-!
# The ends of a client

A `Clnt` makes its end to a server at the first `Call`, and enables it if its
policy `srvs` allows the server. `ConnectAll`, `ConnectTo` and `DisconnectAll` set
the policy and go over the ends made so far. Each of them holds the client's
mutex, so they are steps; the random name of a new end and the order of a range
loop are given with the step.

`ConnectTo` enables ends but disables none: an end follows the policy as long as
no `ConnectTo` takes a server away that the client has called.
-/
namespace Tester

open GoMaps Labrpc Runs

/-- `srvs` is `none` where the source has `nil`: then all servers are allowed. -/
structure Clnt where
  net : Network String
  ends : GoMap String String
  srvs : Option (List String)

def makeClntTo (net : Network String) (srvs : Option (List String)) : Clnt := ⟨net, ∅, srvs⟩

def makeClient (net : Network String) : Clnt := makeClntTo net none

def allowedL (srvs : Option (List String)) (server : String) : Bool :=
  match srvs with
  | none => true
  | some srvs => srvs.any fun n => n = server

namespace Clnt

/-- The end to a server, made under the given name if there is none. -/
def makeEnd (clnt : Clnt) (server name : String) : Option Clnt :=
  match clnt.ends.lookup server with
  | some _ => some clnt
  | none =>
    ((Control.makeEnd name).exec clnt.net).bind fun net =>
    ((Control.connect name (some server)).exec net).map fun net =>
      { clnt with
        net := if allowedL clnt.srvs server then enable net name true else enable net name false
        ends := clnt.ends.insert server name }

/-- What a range loop over the ends visits: servers with the names of their ends. -/
def rangeEnds (clnt : Clnt) (ω : RangeOrder String) : List (String × String) :=
  (ω.order clnt.ends.keys).filterMap fun server =>
    (clnt.ends.lookup server).map fun e => (server, e)

def connectAll (clnt : Clnt) (ω : RangeOrder String) : Clnt :=
  { clnt with
    net := (clnt.rangeEnds ω).foldl (fun rn se => enable rn se.2 true) clnt.net
    srvs := none }

def connectTo (clnt : Clnt) (ω : RangeOrder String) (srvs : Option (List String)) : Clnt :=
  let clnt := { clnt with srvs := srvs }
  { clnt with
    net := (clnt.rangeEnds ω).foldl (fun rn se =>
      if allowedL clnt.srvs se.1 then enable rn se.2 true else rn) clnt.net }

def disconnectAll (clnt : Clnt) (ω : RangeOrder String) : Clnt :=
  { clnt with
    net := (clnt.rangeEnds ω).foldl (fun rn se => enable rn se.2 false) clnt.net
    srvs := some [] }

end Clnt

inductive ClntOp where
  | call (server name : String)
  | connectAll (ω : RangeOrder String)
  | connectTo (ω : RangeOrder String) (srvs : Option (List String))
  | disconnectAll (ω : RangeOrder String)

/-- The request that a `Call` sends once it has its end changes no end. -/
def Clnt.step (clnt : Clnt) : ClntOp → Option Clnt
  | .call server name => clnt.makeEnd server name
  | .connectAll ω => some (clnt.connectAll ω)
  | .connectTo ω srvs => some (clnt.connectTo ω srvs)
  | .disconnectAll ω => some (clnt.disconnectAll ω)

/-! ## What the operations write -/

namespace Clnt

theorem mem_rangeEnds (clnt : Clnt) (ω : RangeOrder String) (server e : String) :
    (server, e) ∈ clnt.rangeEnds ω ↔ clnt.ends.lookup server = some e := by
  rw [rangeEnds, List.mem_filterMap]
  constructor
  · rintro ⟨server', -, h⟩
    obtain ⟨e', he', heq⟩ := Option.map_eq_some_iff.mp h
    cases heq
    exact he'
  · intro h
    refine ⟨server, ?_, by rw [h]; rfl⟩
    rw [ω.mem_order, ← AList.mem_keys, ← AList.lookup_isSome, h]
    rfl

/-- The ends are known to the network and belong to one server each. -/
structure Named (clnt : Clnt) : Prop where
  made : ∀ server e, clnt.ends.lookup server = some e → clnt.net.ends e = true
  distinct : ∀ server server' e, clnt.ends.lookup server = some e →
    clnt.ends.lookup server' = some e → server = server'

/-- Where each end is on exactly if the policy allows its server. -/
def Follows (clnt : Clnt) : Prop :=
  ∀ server e, clnt.ends.lookup server = some e →
    (clnt.net.enabled e = true ↔ allowedL clnt.srvs server = true)

/-- The names that a loop over the ends with a test of the server enables or disables. -/
theorem mem_names {clnt : Clnt} (h : clnt.Named) (ω : RangeOrder String) (p : String → Bool)
    {server e : String} (he : clnt.ends.lookup server = some e) :
    e ∈ ((clnt.rangeEnds ω).filter fun se => p se.1).map Prod.snd ↔ p server = true := by
  rw [List.mem_map]
  constructor
  · rintro ⟨⟨server', e'⟩, hmem, rfl⟩
    obtain ⟨hmem, hp⟩ := List.mem_filter.mp hmem
    rw [h.distinct server server' e' he ((clnt.mem_rangeEnds ω server' e').mp hmem)]
    exact hp
  · intro hp
    exact ⟨(server, e), List.mem_filter.mpr ⟨(clnt.mem_rangeEnds ω server e).mpr he, hp⟩, rfl⟩

theorem connectTo_enabled {clnt : Clnt} (h : clnt.Named) (ω : RangeOrder String)
    (srvs : Option (List String)) {server e : String} (he : clnt.ends.lookup server = some e) :
    (clnt.connectTo ω srvs).net.enabled e = true ↔
      allowedL srvs server = true ∨ clnt.net.enabled e = true := by
  rw [connectTo, foldl_enable_if _ (fun se : String × String => allowedL srvs se.1) Prod.snd,
    enableAll_true_enabled]
  have hnamed : Named { clnt with srvs := srvs } := ⟨h.made, h.distinct⟩
  exact or_congr_left (mem_names hnamed ω _ he)

theorem mem_allNames (clnt : Clnt) (ω : RangeOrder String) {server e : String}
    (he : clnt.ends.lookup server = some e) : e ∈ (clnt.rangeEnds ω).map Prod.snd :=
  List.mem_map.mpr ⟨(server, e), (clnt.mem_rangeEnds ω server e).mpr he, rfl⟩

theorem connectAll_enabled (clnt : Clnt) (ω : RangeOrder String) {server e : String}
    (he : clnt.ends.lookup server = some e) : (clnt.connectAll ω).net.enabled e = true := by
  rw [connectAll, foldl_enable, enableAll_enabled, if_pos (clnt.mem_allNames ω he)]

theorem disconnectAll_enabled (clnt : Clnt) (ω : RangeOrder String) {server e : String}
    (he : clnt.ends.lookup server = some e) : (clnt.disconnectAll ω).net.enabled e = false := by
  rw [disconnectAll, foldl_enable, enableAll_enabled, if_pos (clnt.mem_allNames ω he)]

/-- What a `Call` does to the ends: nothing, or one new end under a name not in use. -/
theorem makeEnd_cases {clnt clnt' : Clnt} {server name : String}
    (h : clnt.makeEnd server name = some clnt') :
    (clnt' = clnt ∧ ∃ e, clnt.ends.lookup server = some e) ∨
    (clnt.ends.lookup server = none ∧ clnt.net.ends name = false ∧
      clnt'.ends = clnt.ends.insert server name ∧ clnt'.srvs = clnt.srvs ∧
      clnt'.net.ends = Function.update clnt.net.ends name true ∧
      clnt'.net.enabled = Function.update clnt.net.enabled name (allowedL clnt.srvs server)) := by
  rw [makeEnd] at h
  split at h
  · rename_i e he
    cases h
    exact Or.inl ⟨rfl, e, he⟩
  · rename_i hnone
    obtain ⟨net, hnet, h⟩ := Option.bind_eq_some_iff.mp h
    rw [Control.exec] at hnet
    obtain ⟨hfree, hnet⟩ := Option.ite_none_left_eq_some.mp hnet
    cases hnet
    cases h
    refine Or.inr ⟨hnone, by simpa using hfree, rfl, rfl, ?_, ?_⟩
    · simp only [enable]
      split <;> rfl
    · simp only [enable]
      split
      · rename_i hallowed
        simp [hallowed]
      · rename_i hallowed
        simp [hallowed]

/-! ## Steps and runs -/

theorem Named.of_ends {clnt clnt' : Clnt} (h : clnt.Named) (hends : clnt'.ends = clnt.ends)
    (hnet : clnt'.net.ends = clnt.net.ends) : clnt'.Named := by
  constructor
  · intro server e he
    rw [hnet]
    rw [hends] at he
    exact h.made server e he
  · intro server server' e he he'
    rw [hends] at he he'
    exact h.distinct server server' e he he'

/-- A name that the network does not know is no server's end. -/
theorem Named.unused {clnt : Clnt} (h : clnt.Named) {name : String}
    (hfree : clnt.net.ends name = false) (server : String) :
    clnt.ends.lookup server ≠ some name := by
  intro hs
  rw [h.made server name hs] at hfree
  cases hfree

theorem Named.call {clnt clnt' : Clnt} {server name : String} (h : clnt.Named)
    (hstep : clnt.step (.call server name) = some clnt') : clnt'.Named := by
  rcases makeEnd_cases hstep with ⟨rfl, -⟩ | ⟨hnone, hfree, hends, -, hnet, -⟩
  · exact h
  · constructor
    · intro s e he
      rw [hends, lookup_insert_apply] at he
      rw [hnet]
      by_cases hs : s = server
      · rw [if_pos hs] at he
        cases he
        simp
      · rw [if_neg hs] at he
        by_cases hen : e = name
        · simp [hen]
        · simpa [hen] using h.made s e he
    · intro s s' e he he'
      rw [hends, lookup_insert_apply] at he he'
      by_cases hs : s = server <;> by_cases hs' : s' = server
      · rw [hs, hs']
      · rw [if_pos hs] at he
        rw [if_neg hs'] at he'
        cases he
        exact absurd he' (h.unused hfree s')
      · rw [if_neg hs] at he
        rw [if_pos hs'] at he'
        cases he'
        exact absurd he (h.unused hfree s)
      · rw [if_neg hs] at he
        rw [if_neg hs'] at he'
        exact h.distinct s s' e he he'

theorem Named.step {clnt clnt' : Clnt} {op : ClntOp} (h : clnt.Named)
    (hstep : clnt.step op = some clnt') : clnt'.Named := by
  cases op with
  | call server name => exact h.call hstep
  | connectAll ω =>
    cases hstep
    exact h.of_ends rfl (by rw [connectAll, foldl_enable, enableAll_ends])
  | connectTo ω srvs =>
    cases hstep
    refine h.of_ends rfl ?_
    rw [connectTo, foldl_enable_if _ (fun se : String × String => allowedL srvs se.1) Prod.snd,
      enableAll_ends]
  | disconnectAll ω =>
    cases hstep
    exact h.of_ends rfl (by rw [disconnectAll, foldl_enable, enableAll_ends])

/-- A `ConnectTo` that leaves the client every server that it has called and may still reach. -/
def KeepsReach (clnt : Clnt) : ClntOp → Prop
  | .connectTo _ srvs => ∀ server e, clnt.ends.lookup server = some e →
    allowedL clnt.srvs server = true → allowedL srvs server = true
  | _ => True

theorem Follows.step {clnt clnt' : Clnt} {op : ClntOp} (hnamed : clnt.Named) (h : clnt.Follows)
    (hkeeps : clnt.KeepsReach op) (hstep : clnt.step op = some clnt') : clnt'.Follows := by
  intro s e he
  cases op with
  | call server name =>
    rcases makeEnd_cases hstep with ⟨rfl, -⟩ | ⟨hnone, hfree, hends, hsrvs, -, henabled⟩
    · exact h s e he
    · rw [hends, lookup_insert_apply] at he
      rw [hsrvs, henabled]
      by_cases hs : s = server
      · rw [if_pos hs] at he
        cases he
        simp [hs]
      · rw [if_neg hs] at he
        have hne : e ≠ name := by
          rintro rfl
          exact hnamed.unused hfree s he
        simpa [hne] using h s e he
  | connectAll ω =>
    cases hstep
    exact iff_of_true (clnt.connectAll_enabled ω he) rfl
  | connectTo ω srvs =>
    cases hstep
    rw [connectTo_enabled hnamed ω srvs he, h s e he]
    exact or_iff_left_of_imp (hkeeps s e he)
  | disconnectAll ω =>
    cases hstep
    rw [clnt.disconnectAll_enabled ω he]
    exact iff_of_false Bool.false_ne_true (by simp [disconnectAll, allowedL])

theorem named_of_run {net : Network String} {srvs : Option (List String)} {ops : List ClntOp}
    {clnt : Clnt} (hrun : run step (makeClntTo net srvs) ops = some clnt) : clnt.Named := by
  refine run_induction (P := fun _ clnt => clnt.Named) ?_ (fun _ _ _ _ _ ih => ih.step) hrun
  constructor
  · intro server e he
    cases he
  · intro server server' e he
    cases he

/-- The client has ends to the servers that it has called, and to no others. -/
theorem called_iff {net : Network String} {srvs : Option (List String)} {ops : List ClntOp}
    {clnt : Clnt} (hrun : run step (makeClntTo net srvs) ops = some clnt) (server : String) :
    (∃ name, .call server name ∈ ops) ↔ ∃ e, clnt.ends.lookup server = some e := by
  refine run_induction (P := fun ops clnt =>
    (∃ name, .call server name ∈ ops) ↔ ∃ e, clnt.ends.lookup server = some e) ?_ ?_ hrun
  · simp [makeClntTo]
  · intro ops clnt op clnt' _ ih hstep
    cases op with
    | call server' name =>
      by_cases hs : server = server'
      · subst hs
        refine iff_of_true ⟨name, by simp⟩ ?_
        rcases makeEnd_cases hstep with ⟨rfl, hsome⟩ | ⟨-, -, hends, -⟩
        · exact hsome
        · exact ⟨name, by rw [hends, lookup_insert_apply, if_pos rfl]⟩
      · have hcalls : (∃ n, .call server n ∈ ops ++ [.call server' name]) ↔
            ∃ n, .call server n ∈ ops := by simp [hs]
        rw [hcalls, ih]
        rcases makeEnd_cases hstep with ⟨rfl, -⟩ | ⟨-, -, hends, -⟩
        · rfl
        · rw [hends, lookup_insert_apply, if_neg hs]
    | connectAll ω =>
      cases hstep
      simpa [connectAll] using ih
    | connectTo ω srvs =>
      cases hstep
      simpa [connectTo] using ih
    | disconnectAll ω =>
      cases hstep
      simpa [disconnectAll] using ih

/-- In every state of the run, the end to each server called so far is enabled exactly if
the policy of the moment allows the server. -/
def FollowsPolicy (start : Clnt) (ops : List ClntOp) : Prop :=
  ∀ pre post clnt, ops = pre ++ post → run step start pre = some clnt →
    ∀ server name, .call server name ∈ pre → ∃ e, clnt.ends.lookup server = some e ∧
      (clnt.net.enabled e = true ↔ allowedL clnt.srvs server = true)

/-- The ends of a client follow its policy exactly if no `ConnectTo` takes a server away
that the client has called and that was allowed until then. -/
theorem followsPolicy_iff (net : Network String) (srvs : Option (List String))
    (ops : List ClntOp) : FollowsPolicy (makeClntTo net srvs) ops ↔
      Obeys step (makeClntTo net srvs) KeepsReach ops := by
  constructor
  · intro hpolicy pre op post clnt hops hrun
    cases op with
    | connectTo ω srvs' =>
      intro server e he hallowed
      obtain ⟨name, hcall⟩ := (called_iff hrun server).mpr ⟨e, he⟩
      -- the end is on before the `ConnectTo`, which leaves it on
      have hbefore : clnt.net.enabled e = true := by
        obtain ⟨e', he', hiff⟩ := hpolicy pre _ clnt hops hrun server name hcall
        rw [he] at he'
        cases he'
        exact hiff.mpr hallowed
      have hstep : run step (makeClntTo net srvs) (pre ++ [.connectTo ω srvs']) =
          some (clnt.connectTo ω srvs') := run_concat_eq_some.mpr ⟨clnt, hrun, rfl⟩
      obtain ⟨e', he', hiff⟩ := hpolicy (pre ++ [.connectTo ω srvs']) post _ (by simp [hops])
        hstep server name (List.mem_append_left _ hcall)
      have hsame : e = e' := Option.some.inj (he.symm.trans he')
      subst hsame
      exact hiff.mp ((connectTo_enabled (named_of_run hrun) ω srvs' he).mpr (Or.inr hbefore))
    | _ => trivial
  · rintro hkeeps pre post clnt rfl hrun server name hcall
    have hfollows : clnt.Follows := by
      refine run_induction_of_obeys (P := fun _ clnt => clnt.Follows) ?_ ?_ hrun hkeeps.left
      · intro server e he
        cases he
      · intro pre clnt op clnt' hrun ih hok hstep
        exact ih.step (named_of_run hrun) hok hstep
    obtain ⟨e, he⟩ := (called_iff hrun server).mp ⟨name, hcall⟩
    exact ⟨e, he, hfollows server e he⟩

/-- A client that has called server 0 is told to connect to server 1 only, and keeps
reaching server 0. -/
theorem connectTo_keeps_reaching : ¬ FollowsPolicy (makeClient (makeNetwork String))
    [.call "server-0-0" "e", .connectTo (.stored String) (some ["server-0-1"])] := by
  intro hpolicy
  obtain ⟨e, he, hiff⟩ := hpolicy _ [] _ (List.append_nil _).symm rfl "server-0-0" "e" (by simp)
  cases he
  exact absurd (hiff.mp rfl) (by decide)

end Clnt

end Tester
