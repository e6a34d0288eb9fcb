import DistLabs.Grouping
import DistLabs.Runs
import Mathlib.Data.List.Lex
import Mathlib.Data.List.TakeWhile

/-!
# Sequential MapReduce

The program `mrsequential`: it maps each input file, sorts what the map calls
emitted, and calls reduce on each maximal run of equal keys. The files it is
given, what the plugin's functions return and the outcome of the unstable sort
are arbitrary. A plugin may keep state of its own, so what a call returns may
depend on how many calls came before.
-/
namespace Mr

open Grouping Runs

/-- A Go string: its bytes, compared lexicographically. -/
abbrev GoString := List (Fin 256)

def text (s : String) : GoString := s.toUTF8.data.toList.map UInt8.toFin

structure KeyValue where
  key : GoString
  value : GoString
  deriving DecidableEq

/-- What `sort.Sort(ByKey(·))` makes of each slice: it may leave elements with equal keys in
any order. -/
structure ByKey where
  sort : List KeyValue → List KeyValue
  perm : ∀ kva, (sort kva).Perm kva
  ordered : ∀ kva, Ordered KeyValue.key (sort kva)

/-- The functions of a plugin; the first argument is the number of calls before. -/
structure Plugin where
  mapf : Nat → GoString → GoString → List KeyValue
  reducef : Nat → GoString → List GoString → GoString

/-- What comes of reading a file. -/
inductive Opened where
  | cannotOpen
  | cannotRead
  | contents (content : GoString)

structure File where
  filename : GoString
  opened : Opened

/-- A file that can be read. -/
structure Input where
  filename : GoString
  contents : GoString

def Input.file (f : Input) : File := ⟨f.filename, .contents f.contents⟩

/-! ## The program -/

/-- One pass of the loop over the input files. -/
def mapFile (p : Plugin) (st : Nat × List KeyValue) (f : File) :
    Except GoString (Nat × List KeyValue) :=
  match f.opened with
  | .cannotOpen => .error (text "cannot open " ++ f.filename)
  | .cannotRead => .error (text "cannot read " ++ f.filename)
  | .contents content => .ok (st.1 + 1, st.2 ++ p.mapf st.1 f.filename content)

/-- The loop `for j < len(intermediate) && intermediate[j].Key == intermediate[i].Key`. -/
def scanStep (l : List KeyValue) (i j : Nat) : Option Nat :=
  if j < l.length ∧ l[j]?.map KeyValue.key = l[i]?.map KeyValue.key then some (j + 1) else none

theorem scanStep_decreases (l : List KeyValue) (i : Nat) (j j' : Nat)
    (h : scanStep l i j = some j') : l.length - j' < l.length - j := by
  obtain ⟨⟨hlt, -⟩, h⟩ := Option.ite_none_right_eq_some.mp h
  cases h
  omega

def boundary (l : List KeyValue) (i : Nat) : Nat :=
  loop (scanStep l i) (fun j => l.length - j) (scanStep_decreases l i) (i + 1)

/-- A line of reduce output. -/
def line (key output : GoString) : GoString := key ++ text " " ++ output ++ text "\n"

/-- A call of `reducef`. -/
structure Call where
  key : GoString
  values : List GoString
  output : GoString

def Call.line (c : Call) : GoString := Mr.line c.key c.output

/-- The grouping loop: its index, the calls made and the text written to `mr-out-0`. -/
structure Reducing where
  i : Nat
  calls : List Call
  ofile : GoString

def Reducing.start : Reducing := ⟨0, [], []⟩

def reduceStep (reducef : Nat → GoString → List GoString → GoString) (l : List KeyValue)
    (st : Reducing) : Option Reducing :=
  match l[st.i]? with
  | none => none
  | some kv =>
    let j := boundary l st.i
    let values := (List.range' st.i (j - st.i)).filterMap fun k => l[k]?.map KeyValue.value
    let c : Call := ⟨kv.key, values, reducef st.calls.length kv.key values⟩
    some ⟨j, st.calls ++ [c], st.ofile ++ c.line⟩

theorem le_boundary (l : List KeyValue) (i : Nat) : i + 1 ≤ boundary l i := by
  refine loop_invariant (I := fun j => i + 1 ≤ j) ?_ (Nat.le_refl _)
  intro j j' hj hstep
  obtain ⟨-, hstep⟩ := Option.ite_none_right_eq_some.mp hstep
  cases hstep
  omega

theorem reduceStep_decreases (reducef : Nat → GoString → List GoString → GoString)
    (l : List KeyValue) (st st' : Reducing) (h : reduceStep reducef l st = some st') :
    l.length - st'.i < l.length - st.i := by
  simp only [reduceStep] at h
  split at h
  · cases h
  · rename_i kv hkv
    cases h
    have hlt := (List.getElem?_eq_some_iff.mp hkv).1
    have hle := le_boundary l st.i
    simp only
    omega

def reduceLoop (reducef : Nat → GoString → List GoString → GoString) (l : List KeyValue) :
    Reducing :=
  loop (reduceStep reducef l) (fun st => l.length - st.i) (reduceStep_decreases reducef l) .start

/-- From the loop over the files on; the text of `mr-out-0`, or that of `log.Fatalf`. -/
def mrsequential (S : ByKey) (p : Plugin) (files : List File) : Except GoString GoString :=
  (files.foldlM (mapFile p) (0, [])).map fun st => (reduceLoop p.reducef (S.sort st.2)).ofile

def main (S : ByKey) (p : Plugin) (files : List File) : Except GoString GoString :=
  if files.length < 1 then .error (text "Usage: mrsequential xxx.so inputfiles...\n")
  else mrsequential S p files

/-! ## What is emitted -/

/-- What the map calls return, in the order of the files. -/
def emitted (mapf : Nat → GoString → GoString → List KeyValue) (inputs : List Input) :
    List KeyValue :=
  inputs.zipIdx.flatMap fun (f, n) => mapf n f.filename f.contents

theorem foldlM_mapFile (p : Plugin) (inputs : List Input) (n : Nat) (kva : List KeyValue) :
    (inputs.map Input.file).foldlM (mapFile p) (n, kva) = .ok (n + inputs.length,
      kva ++ (inputs.zipIdx n).flatMap fun (f, n) => p.mapf n f.filename f.contents) := by
  induction inputs generalizing n kva with
  | nil => simp [pure, Except.pure]
  | cons f inputs ih =>
    change ((inputs.map Input.file).foldlM (mapFile p)
      (n + 1, kva ++ p.mapf n f.filename f.contents)) = _
    rw [ih]
    simp [List.zipIdx_cons, Nat.add_assoc, Nat.add_comm 1]

theorem mrsequential_eq (S : ByKey) (p : Plugin) (inputs : List Input) :
    mrsequential S p (inputs.map Input.file) =
      .ok (reduceLoop p.reducef (S.sort (emitted p.mapf inputs))).ofile := by
  rw [mrsequential, foldlM_mapFile, List.nil_append]
  rfl

/-! ## One pass of the grouping loop -/

theorem loop_scan {l front rest : List KeyValue} {i j : Nat} {k : GoString}
    (hk : l[i]?.map KeyValue.key = some k) (hl : l = front ++ rest) (hj : j = front.length) :
    loop (scanStep l i) (fun j => l.length - j) (scanStep_decreases l i) j =
      j + (rest.takeWhile (KeyValue.key · = k)).length := by
  induction rest generalizing front j with
  | nil =>
    rw [loop_none (by simp [scanStep, hl, hj])]
    rfl
  | cons b rest ih =>
    have hb : l[j]? = some b := by simp [hl, hj]
    have hlt : j < l.length := (List.getElem?_eq_some_iff.mp hb).1
    by_cases hkey : b.key = k
    · have hstep : scanStep l i j = some (j + 1) := by
        rw [scanStep, hb, hk, if_pos ⟨hlt, by simp [hkey]⟩]
      have hl' : l = (front ++ [b]) ++ rest := by simp [hl]
      have hnext := ih (j := j + 1) hl' (by simp [hj])
      rw [loop_some hstep, hnext, List.takeWhile_cons_of_pos (by simp [hkey]), List.length_cons]
      omega
    · have hstep : scanStep l i j = none := by
        rw [scanStep, hb, hk, if_neg (by simp [hkey])]
      rw [loop_none hstep, List.takeWhile_cons_of_neg (by simp [hkey])]
      rfl

/-- The inner loop stops at the end of the run of equal keys. -/
theorem boundary_eq (front rest : List KeyValue) (kv : KeyValue) :
    boundary (front ++ kv :: rest) front.length =
      front.length + (kv :: rest.takeWhile (KeyValue.key · = kv.key)).length := by
  have hk : (front ++ kv :: rest)[front.length]?.map KeyValue.key = some kv.key := by simp
  have hl : front ++ kv :: rest = (front ++ [kv]) ++ rest := by simp
  have hj : front.length + 1 = (front ++ [kv]).length := by simp
  rw [boundary, loop_scan hk hl hj, List.length_cons]
  omega

theorem filterMap_range' {β : Type} (f : KeyValue → β) (front run rest : List KeyValue) :
    ((List.range' front.length run.length).filterMap fun k => (front ++ run ++ rest)[k]?.map f) =
      run.map f := by
  induction run generalizing front with
  | nil => rfl
  | cons a run ih =>
    have hnext := ih (front ++ [a])
    rw [List.length_append, List.length_singleton, List.append_assoc front [a] run,
      List.singleton_append] at hnext
    rw [List.length_cons, List.range'_succ, List.filterMap_cons_some (b := f a) (by simp), hnext,
      List.map_cons]

/-- The loop between two passes: what came before index `i` has been grouped, one call for
each group, and what comes after has greater keys. -/
structure Progress (reducef : Nat → GoString → List GoString → GoString) (l : List KeyValue)
    (st : Reducing) : Prop where
  split : ∃ front rest gs, l = front ++ rest ∧ st.i = front.length ∧
    (∀ a ∈ front, ∀ b ∈ rest, a.key < b.key) ∧ Grouped KeyValue.key front gs ∧
    st.calls.map (fun c => (c.key, c.values)) = gs.map fun g => (g.1, g.2.map KeyValue.value)
  outputs : ∀ n c, st.calls[n]? = some c → c.output = reducef n c.key c.values
  ofile : st.ofile = st.calls.flatMap Call.line

theorem Progress.start (reducef : Nat → GoString → List GoString → GoString)
    (l : List KeyValue) : Progress reducef l .start :=
  ⟨⟨[], l, [], rfl, rfl, by simp, Grouped.nil _, rfl⟩, by simp [Reducing.start], rfl⟩

theorem Progress.step {reducef : Nat → GoString → List GoString → GoString} {l : List KeyValue}
    {st st' : Reducing} (hl : Ordered KeyValue.key l) (h : Progress reducef l st)
    (hstep : reduceStep reducef l st = some st') : Progress reducef l st' := by
  obtain ⟨⟨front, rest, gs, rfl, hi, hlt, hgs, hcalls⟩, houtputs, hofile⟩ := h
  cases rest with
  | nil => simp [reduceStep, hi] at hstep
  | cons kv rest =>
    let run := kv :: rest.takeWhile (KeyValue.key · = kv.key)
    have hrest : kv :: rest = run ++ rest.dropWhile (KeyValue.key · = kv.key) := by
      simp [run, List.takeWhile_append_dropWhile]
    have hrun : ∀ a ∈ run, a.key = kv.key := by
      intro a ha
      rcases List.mem_cons.mp ha with rfl | ha
      · rfl
      · simpa using List.mem_takeWhile_imp ha
    have hvalues : ((List.range' front.length run.length).filterMap
        fun k => (front ++ kv :: rest)[k]?.map KeyValue.value) = run.map KeyValue.value := by
      rw [hrest, ← List.append_assoc]
      exact filterMap_range' KeyValue.value front run _
    have hj : boundary (front ++ kv :: rest) front.length = front.length + run.length :=
      boundary_eq front rest kv
    simp only [reduceStep, hi, List.getElem?_append_right,
      Nat.le_refl, Nat.sub_self, List.getElem?_cons_zero, hj, Nat.add_sub_cancel_left,
      hvalues] at hstep
    cases hstep
    refine ⟨⟨front ++ run, rest.dropWhile (KeyValue.key · = kv.key), gs ++ [(kv.key, run)], ?_, ?_,
      ?_, ?_, ?_⟩, ?_, ?_⟩
    · rw [hrest, List.append_assoc]
    · simp
    · intro a ha b hb
      rcases List.mem_append.mp ha with ha | ha
      · exact hlt a ha b (hrest ▸ List.mem_append_right run hb)
      · rw [hrun a ha]
        exact hl.next_run b hb
    · exact hgs.concat (by simp [run]) hrun fun a ha => hlt a ha kv List.mem_cons_self
    · simp [hcalls]
    · intro n c hc
      rcases getElem?_concat_cases hc with hc | ⟨rfl, rfl⟩
      · exact houtputs n c hc
      · rfl
    · simp [hofile]

/-- The loop ends at the end of the slice, with everything grouped. -/
theorem reduceLoop_grouped (reducef : Nat → GoString → List GoString → GoString)
    {l : List KeyValue} (hl : Ordered KeyValue.key l) :
    Progress reducef l (reduceLoop reducef l) ∧ l.length ≤ (reduceLoop reducef l).i := by
  constructor
  · refine loop_invariant (fun st st' h hstep => h.step hl hstep) (Progress.start reducef l)
  · obtain ⟨n, -, -, hbreak⟩ := loop_breaks (d := reduceStep_decreases reducef l) Reducing.start
    change reduceStep reducef l (reduceLoop reducef l) = none at hbreak
    simp only [reduceStep] at hbreak
    split at hbreak
    · rename_i hnone
      exact List.getElem?_eq_none_iff.mp hnone
    · cases hbreak

/-! ## The calls of reduce -/

/-- The grouping loop has dealt with what the map calls emitted: `reducef` was called once
for each key, in increasing order, with all values of the key, and a line was written for
each call. -/
structure Reduced (reducef : Nat → GoString → List GoString → GoString) (kva : List KeyValue)
    (final : Reducing) : Prop where
  increasing : (final.calls.map Call.key).Pairwise (· < ·)
  keys : ∀ k, k ∈ final.calls.map Call.key ↔ k ∈ kva.map KeyValue.key
  values : ∀ c ∈ final.calls, c.values.Perm ((kva.filter (·.key = c.key)).map KeyValue.value)
  outputs : ∀ n c, final.calls[n]? = some c → c.output = reducef n c.key c.values
  ofile : final.ofile = final.calls.flatMap Call.line

theorem reduceLoop_reduced (reducef : Nat → GoString → List GoString → GoString) (S : ByKey)
    (kva : List KeyValue) : Reduced reducef kva (reduceLoop reducef (S.sort kva)) := by
  obtain ⟨⟨⟨front, rest, gs, hl, hi, -, hgs, hcalls⟩, houtputs, hofile⟩, hend⟩ :=
    reduceLoop_grouped reducef (S.ordered kva)
  obtain rfl : rest = [] := by
    have hlength := congrArg List.length hl
    rw [List.length_append] at hlength
    exact List.eq_nil_of_length_eq_zero (by omega)
  rw [List.append_nil] at hl
  subst hl
  have hkeys : (reduceLoop reducef (S.sort kva)).calls.map Call.key = gs.map Prod.fst := by
    have hfst := congrArg (List.map Prod.fst) hcalls
    rw [List.map_map, List.map_map] at hfst
    exact hfst
  refine ⟨?_, ?_, ?_, houtputs, hofile⟩
  · rw [hkeys]
    exact hgs.increasing
  · intro k
    rw [hkeys, hgs.keys, ((S.perm kva).map KeyValue.key).mem_iff]
  · intro c hc
    have hmem : (c.key, c.values) ∈ gs.map fun g => (g.1, g.2.map KeyValue.value) := by
      rw [← hcalls]
      exact List.mem_map.mpr ⟨c, hc, rfl⟩
    obtain ⟨g, hg, heq⟩ := List.mem_map.mp hmem
    obtain ⟨hkey, hvalues⟩ := Prod.mk.inj heq
    rw [← hvalues, hgs.elems g hg, ← hkey]
    exact ((S.perm kva).filter _).map _

/-- Sequential MapReduce groups without loss or duplication, whatever the files, the plugin
and the sort. -/
theorem mrsequential_groups (S : ByKey) (p : Plugin) (inputs : List Input) :
    ∃ final, (∃ n, BreaksAfter (reduceStep p.reducef (S.sort (emitted p.mapf inputs))) n .start
      final) ∧ Reduced p.reducef (emitted p.mapf inputs) final ∧
      mrsequential S p (inputs.map Input.file) = .ok final.ofile := by
  refine ⟨reduceLoop p.reducef (S.sort (emitted p.mapf inputs)), ?_, ?_, ?_⟩
  · obtain ⟨n, -, hbreaks⟩ := loop_breaks
      (d := reduceStep_decreases p.reducef (S.sort (emitted p.mapf inputs))) Reducing.start
    exact ⟨n, hbreaks⟩
  · exact reduceLoop_reduced p.reducef S _
  · exact mrsequential_eq S p inputs

end Mr
