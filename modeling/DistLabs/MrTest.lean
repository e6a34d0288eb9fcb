import DistLabs.MrApps
import DistLabs.TextLines

/-!
# The tests of distributed MapReduce

`TestWc`, `TestIndexer` and `TestCrashWorker` compare what the workers leave in
the files `mr-out-X` with the output of `mrsequential`, both sorted by lines.
What the coordinator and the workers leave in the directory is arbitrary, in
subdirectories too, and so is how they end. The order in which `find` lists the
files and the locale of `sort` are arbitrary. The commands of the test itself
work, and nobody writes any more once the coordinator has ended.
-/
namespace Mr

open GoMaps TextLines

/-! ## The application that crashes -/

/-- `Map` of `crash.go` and `nocrash.go`, where the call does not crash. -/
def Crash.map (filename contents : GoString) : List KeyValue :=
  [⟨text "a", filename⟩, ⟨text "b", itoa filename.length⟩, ⟨text "c", itoa contents.length⟩,
    ⟨text "d", text "xyzzy"⟩]

def Crash.reduce (_key : GoString) (values : List GoString) : GoString :=
  (text " ").intercalate (values.insertionSort (· ≤ ·))

def nocrash : Plugin := ⟨fun _ => Crash.map, fun _ => Crash.reduce⟩

/-! ## Applications whose output is fixed -/

/-- What a call returns does not depend on the calls before, up to the order of the pairs
map returns, and reduce does not look at the order of the values. -/
structure Plugin.Reproducible (p : Plugin) : Prop where
  mapf : ∀ n n' filename contents, (p.mapf n filename contents).Perm (p.mapf n' filename contents)
  reducef : ∀ n n' k values values', values.Perm values' →
    p.reducef n k values = p.reducef n' k values'

theorem wc_reproducible (u : Unicode) : (wc u).Reproducible := by
  constructor
  · intro n n' filename contents
    exact List.Perm.refl _
  · intro n n' k values values' h
    exact congrArg itoa h.length_eq

theorem indexer_reproducible (u : Unicode) (ω : Nat → RangeOrder GoString) :
    (indexer u ω).Reproducible := by
  constructor
  · intro n n' filename contents
    obtain ⟨ws, hnodup, hmem, hmap⟩ := Indexer.map_eq u (ω n) filename contents
    obtain ⟨ws', hnodup', hmem', hmap'⟩ := Indexer.map_eq u (ω n') filename contents
    have hperm : ws.Perm ws' := (List.perm_ext_iff_of_nodup hnodup hnodup').mpr fun w =>
      (hmem w).trans (hmem' w).symm
    change (Indexer.map u (ω n) filename contents).Perm (Indexer.map u (ω n') filename contents)
    rw [hmap, hmap']
    exact hperm.map _
  · intro n n' k values values' h
    change Indexer.reduce k values = Indexer.reduce k values'
    rw [Indexer.reduce, Indexer.reduce, insertionSort_eq_of_perm h]

theorem nocrash_reproducible : nocrash.Reproducible := by
  constructor
  · intro n n' filename contents
    exact List.Perm.refl _
  · intro n n' k values values' h
    change Crash.reduce k values = Crash.reduce k values'
    rw [Crash.reduce, Crash.reduce, insertionSort_eq_of_perm h]

/-! ## The tests -/

/-- A file below the directory the test has made: the subdirectories on the way to it, and its
name. What `find` prints is cut into lines, so no subdirectory has a line break in its name. -/
structure Path where
  dirs : List String
  name : String
  plain : ∀ d ∈ dirs, '\n' ∉ d.toList
  deriving DecidableEq

/-- A file of the directory itself. -/
def top (name : String) : Path := ⟨[], name, by simp⟩

theorem top_inj {name name' : String} : top name = top name' ↔ name = name' := by simp [top]

/-- The files below the directory. -/
abbrev Dir := GoMap Path GoString

/-- There is a subdirectory of this name. -/
def isDir (dir : Dir) (name : String) : Prop := ∃ path ∈ dir.keys, path.dirs.head? = some name

instance (dir : Dir) (name : String) : Decidable (isDir dir name) :=
  inferInstanceAs (Decidable (∃ path ∈ dir.keys, _))

def newline : Fin 256 := ⟨10, by decide⟩

/-- The file of a reduce task. -/
def outName (r : Nat) : String := "mr-out-" ++ toString r

/-- The names that match the pattern `mr-out-[0-9]`. -/
def outNames : List String := (List.range 10).map outName

def Path.isOut (path : Path) : Bool := outNames.contains path.name

/-- A stable sort by key; one of those Go may use. -/
def ByKey.stable : ByKey where
  sort kva := kva.insertionSort fun a b => a.key ≤ b.key
  perm kva := List.perm_insertionSort _ kva
  ordered kva := by
    have htotal : Std.Total fun a b : KeyValue => a.key ≤ b.key := ⟨fun a b => le_total a.key b.key⟩
    have htrans : IsTrans KeyValue fun a b => a.key ≤ b.key := ⟨fun _ _ _ => le_trans⟩
    exact (List.pairwise_insertionSort _ kva).imp not_lt_of_ge

/-- The locale that compares bytes. -/
def bytewise : Collation (Fin 256) where
  le a b := a ≤ b
  decidable := inferInstance
  trans _ _ _ := le_trans
  antisymm _ _ := le_antisymm
  total := le_total

/-- What the commands a test runs may do: the sort of `mrsequential`, the order in which
`find` lists the directory, the locale; and the name of the directory. -/
structure Commands where
  sorting : ByKey
  find : RangeOrder Path
  locale : Collation (Fin 256)
  tmp : GoString

def Commands.plain : Commands := ⟨.stable, .stored Path, bytewise, text "mr-tmp-x"⟩

/-- How a test ends other than well: with the process or with `t.Fatalf`. -/
inductive Failure where
  | logFatal (msg : GoString)
  | fatal (msg : GoString)
  deriving DecidableEq

def sorted (C : Commands) (files : List GoString) : GoString := sortFiles newline C.locale files

def mkCorrectOutput (C : Commands) (files : List File) (app : GoString) (p : Plugin)
    (out : String) (dir : Dir) : Except Failure Dir :=
  match main C.sorting p files with
  | .error _ => .error (.logFatal (text "mrsequential [" ++
      (text " ").intercalate (app :: files.map File.filename) ++
      text "] failed err exit status 1"))
  | .ok ofile =>
    let dir := dir.insert (top "mr-out-0") ofile
    let dir := dir.insert (top out) (sorted C (dir.lookup (top "mr-out-0")).toList)
    .ok (dir.erase (top "mr-out-0"))

/-- `findFiles(tmp, "mr-out-[0-9]")`; `find` goes into subdirectories. -/
def findOutputs (C : Commands) (dir : Dir) : List Path := (C.find.order dir.keys).filter Path.isOut

def mergeOutput (C : Commands) (out : String) (dir : Dir) : Except Failure Dir :=
  let files := findOutputs C dir
  if files.length < 1 then
    .error (.logFatal (text "reduce created no mr-out-X output files!"))
  else if isDir dir out then
    .error (.logFatal (text ("create " ++ out ++ " failed err open ") ++ C.tmp ++
      text ("/" ++ out ++ ": is a directory")))
  else .ok (dir.insert (top out) (sorted C (files.filterMap dir.lookup)))

/-- `cmp` fails where the files differ or one of them is missing. -/
def runCmp (f₁ f₂ : String) (msg : GoString) (dir : Dir) : Except Failure Unit :=
  if (dir.lookup (top f₁)).isSome ∧ dir.lookup (top f₁) = dir.lookup (top f₂) then .ok ()
  else .error (.fatal msg)

/-- What comes of starting the coordinator and the workers: the errors of `coord.Start`, of each
`worker.Start` and of `coord.Wait`, and the files they leave. -/
structure Job where
  coordStart : Option GoString
  workerStart : List (Option GoString)
  coordWait : Option GoString
  left : Dir

/-- All processes were started, and the coordinator ended well. -/
def Job.ended (job : Job) : Bool :=
  job.coordStart.isNone && job.workerStart.all Option.isNone && job.coordWait.isNone

def startWorker : Option GoString → Except Failure Unit
  | some err => .error (.logFatal (text "mr failed " ++ err))
  | none => .ok ()

/-- `runMR`, and `runMRchan` on which it rests. -/
def runMR (job : Job) (dir : Dir) : Except Failure Dir := do
  match job.coordStart with
  | some err => throw (.logFatal (text "mr failed " ++ err))
  | none => pure ()
  job.workerStart.forM startWorker
  match job.coordWait with
  | some err => throw (.logFatal (text "Wait " ++ err))
  | none => pure (job.left ∪ dir)

/-- A test that compares outputs: the reference application, the files and the message. -/
structure OutputTest where
  app : GoString
  plugin : Plugin
  correct : String
  all : String
  msg : GoString
  reproducible : plugin.Reproducible
  all_ne_correct : all ≠ correct
  correct_notMem : correct ∉ outNames

def OutputTest.run (T : OutputTest) (C : Commands) (files : List File) (job : Job) :
    Except Failure Unit := do
  let dir ← mkCorrectOutput C files T.app T.plugin T.correct ∅
  let dir ← runMR job dir
  let dir ← mergeOutput C T.all dir
  runCmp T.all T.correct T.msg dir

/-- The job has left the files of the test alone: the reference, and the place for the merged
output. -/
def OutputTest.Spared (T : OutputTest) (left : Dir) : Prop :=
  top T.correct ∉ left ∧ ¬ isDir left T.all

def testWc (u : Unicode) : OutputTest where
  app := text "../../mrapps/wc.so"
  plugin := wc u
  correct := "mr-wc-correct.txt"
  all := "mr-wc-all.txt"
  msg := text "incorrect combined reduce output: mr-wc-all.txt vs mr-wc-correct.txt"
  reproducible := wc_reproducible u
  all_ne_correct := by decide
  correct_notMem := by decide

def testIndexer (u : Unicode) (ω : Nat → RangeOrder GoString) : OutputTest where
  app := text "../../mrapps/indexer.so"
  plugin := indexer u ω
  correct := "mr-indexer-correct.txt"
  all := "mr-indexer-all.txt"
  msg := text "incorrect combined reduce output: mr-indexer-all.txt vs mr-indexer-correct.txt"
  reproducible := indexer_reproducible u ω
  all_ne_correct := by decide
  correct_notMem := by decide

def testCrashWorker : OutputTest where
  app := text "../../mrapps/nocrash.so"
  plugin := nocrash
  correct := "mr-crash-correct.txt"
  all := "mr-crash-all.txt"
  msg := text "incorrect combined reduce output: mr-crash-all.txt vs mr-crash-correct.txt"
  reproducible := nocrash_reproducible
  all_ne_correct := by decide
  correct_notMem := by decide

/-! ## The reference output -/

/-- All keys the map calls emit, in increasing order. -/
def keys (p : Plugin) (inputs : List Input) : List GoString :=
  (((emitted p.mapf inputs).map KeyValue.key).dedup).insertionSort (· ≤ ·)

/-- What reduce makes of all values of a key. -/
def output (p : Plugin) (inputs : List Input) (k : GoString) : GoString :=
  p.reducef 0 k (((emitted p.mapf inputs).filter (·.key = k)).map KeyValue.value)

def keyLine (p : Plugin) (inputs : List Input) (k : GoString) : GoString :=
  line k (output p inputs k)

theorem mem_keys (p : Plugin) (inputs : List Input) (k : GoString) :
    k ∈ keys p inputs ↔ k ∈ (emitted p.mapf inputs).map KeyValue.key := by
  rw [keys, (List.perm_insertionSort _ _).mem_iff, List.mem_dedup]

theorem keys_increasing (p : Plugin) (inputs : List Input) :
    (keys p inputs).Pairwise (· < ·) := by
  have hle : (keys p inputs).Pairwise (· ≤ ·) := List.pairwise_insertionSort _ _
  have hne : (keys p inputs).Nodup :=
    (List.perm_insertionSort _ _).nodup_iff.mpr (List.nodup_dedup _)
  exact (hle.and hne).imp fun h => lt_of_le_of_ne h.1 h.2

theorem text_newline : text "\n" = [newline] := by decide

theorem keyLine_eq (p : Plugin) (inputs : List Input) (k : GoString) :
    keyLine p inputs k = (k ++ text " " ++ output p inputs k) ++ [newline] := by
  rw [keyLine, line, text_newline]

/-- The numbers of the calls do not change what is emitted, up to its order. -/
theorem Plugin.Reproducible.emitted_perm {p : Plugin} (hp : p.Reproducible) (calls : Nat → Nat)
    (inputs : List Input) :
    (emitted (fun n => p.mapf (calls n)) inputs).Perm (emitted p.mapf inputs) := by
  apply List.Perm.flatMap_left
  intro fn _
  exact hp.mapf _ _ _ _

/-- The grouping loop on the pairs of some of the keys writes the lines of these keys. -/
theorem Plugin.Reproducible.ofile_eq {p : Plugin} (hp : p.Reproducible) (S : ByKey)
    (calls : Nat → Nat) {inputs : List Input} {kva : List KeyValue} {P : GoString → Bool}
    (hkva : kva.Perm ((emitted p.mapf inputs).filter fun kv => P kv.key)) :
    (reduceLoop (fun n => p.reducef (calls n)) (S.sort kva)).ofile =
      ((keys p inputs).filter P).flatMap (keyLine p inputs) := by
  have hmem : ∀ k, k ∈ (keys p inputs).filter P ↔ k ∈ kva.map KeyValue.key := by
    intro k
    rw [List.mem_filter, mem_keys, (hkva.map KeyValue.key).mem_iff]
    simp only [List.mem_map, List.mem_filter]
    constructor
    · rintro ⟨⟨kv, hkv, rfl⟩, hP⟩
      exact ⟨kv, ⟨hkv, hP⟩, rfl⟩
    · rintro ⟨kv, ⟨hkv, hP⟩, rfl⟩
      exact ⟨⟨kv, hkv, rfl⟩, hP⟩
  have hvalues : ∀ k, P k → ((kva.filter (·.key = k)).map KeyValue.value).Perm
      (((emitted p.mapf inputs).filter (·.key = k)).map KeyValue.value) := by
    intro k hP
    refine ((hkva.filter _).map _).trans (List.Perm.of_eq ?_)
    rw [List.filter_filter]
    congr 1
    apply List.filter_congr
    intro kv _
    by_cases hk : kv.key = k <;> simp [hk, hP]
  have hloop := (reduceLoop_reduced (fun n => p.reducef (calls n)) S kva).ofile_eq
    (fun n k values h => hp.reducef (calls n) 0 k values _ h)
    ((keys_increasing p inputs).sublist List.filter_sublist) hmem
  rw [hloop]
  apply List.flatMap_congr
  intro k hk
  rw [keyLine, output, hp.reducef 0 0 k _ _ (hvalues k (List.mem_filter.mp hk).2)]

theorem OutputTest.main_eq (T : OutputTest) (S : ByKey) {inputs : List Input}
    (hne : inputs ≠ []) : main S T.plugin (inputs.map Input.file) =
      .ok ((keys T.plugin inputs).flatMap (keyLine T.plugin inputs)) := by
  have hlength : ¬(inputs.map Input.file).length < 1 := by
    have hpos := List.length_pos_of_ne_nil hne
    rw [List.length_map]
    omega
  have hall : (emitted T.plugin.mapf inputs).Perm
      ((emitted T.plugin.mapf inputs).filter fun _ => true) :=
    List.Perm.of_eq (List.filter_true _).symm
  have hfile := T.reproducible.ofile_eq S id (P := fun _ => true) hall
  rw [List.filter_true] at hfile
  rw [main, if_neg hlength, mrsequential_eq]
  exact congrArg Except.ok hfile

/-! ## Finding the outputs -/

theorem outNames_nodup : outNames.Nodup := by decide

/-- The texts of the output files that `find` meets. -/
def outputs (dir : Dir) : List GoString := (dir.keys.filter Path.isOut).filterMap dir.lookup

theorem filterMap_findOutputs (C : Commands) (dir : Dir) :
    ((findOutputs C dir).filterMap dir.lookup).Perm (outputs dir) :=
  ((C.find.perm dir.keys).filter _).filterMap _

theorem findOutputs_none (C : Commands) (dir : Dir) :
    (findOutputs C dir).length < 1 ↔ outputs dir = [] := by
  have hlength : (findOutputs C dir).length = (dir.keys.filter Path.isOut).length :=
    ((C.find.perm dir.keys).filter _).length_eq
  rw [hlength, Nat.lt_one_iff, List.length_eq_zero_iff, outputs]
  constructor
  · intro h
    rw [h]
    rfl
  · intro h
    rw [List.eq_nil_iff_forall_not_mem]
    intro path hpath
    have hsome := AList.lookup_isSome.mpr (AList.mem_keys.mpr (List.mem_filter.mp hpath).1)
    rw [List.filterMap_eq_nil_iff.mp h path hpath] at hsome
    cases hsome

/-- The outputs are what stands at the paths of outputs. -/
theorem outputs_perm {dir dir' : Dir}
    (h : ∀ path, path.isOut = true → dir.lookup path = dir'.lookup path) :
    (outputs dir).Perm (outputs dir') := by
  have hkeys : (dir.keys.filter Path.isOut).Perm (dir'.keys.filter Path.isOut) := by
    refine (List.perm_ext_iff_of_nodup (dir.keys_nodup.filter _) (dir'.keys_nodup.filter _)).mpr ?_
    intro path
    rw [List.mem_filter, List.mem_filter, ← AList.mem_keys, ← AList.mem_keys, ← AList.lookup_isSome,
      ← AList.lookup_isSome]
    constructor
    · rintro ⟨hmem, hout⟩
      exact ⟨h path hout ▸ hmem, hout⟩
    · rintro ⟨hmem, hout⟩
      exact ⟨h path hout ▸ hmem, hout⟩
  refine (hkeys.filterMap _).trans (List.Perm.of_eq ?_)
  apply List.filterMap_congr
  intro path hpath
  exact h path (List.mem_filter.mp hpath).2

/-! ## The verdict -/

/-- What the test finds before the job starts: the reference, sorted, and nothing else. -/
theorem OutputTest.mkCorrectOutput_eq (T : OutputTest) (C : Commands) {inputs : List Input}
    (hne : inputs ≠ []) :
    ∃ dir, mkCorrectOutput C (inputs.map Input.file) T.app T.plugin T.correct ∅ = .ok dir ∧
      dir.lookup (top T.correct) =
        some (sorted C [(keys T.plugin inputs).flatMap (keyLine T.plugin inputs)]) ∧
      ∀ path ≠ top T.correct, dir.lookup path = none := by
  have hout : top T.correct ≠ top "mr-out-0" := by
    intro h
    exact T.correct_notMem (by rw [top_inj.mp h]; decide)
  rw [mkCorrectOutput, T.main_eq C.sorting hne]
  refine ⟨_, rfl, ?_, ?_⟩
  · rw [lookup_erase_apply, if_neg hout, AList.lookup_insert, AList.lookup_insert]
    rfl
  · intro path hpath
    rw [lookup_erase_apply]
    by_cases hzero : path = top "mr-out-0"
    · rw [if_pos hzero]
    · rw [if_neg hzero, AList.lookup_insert_ne hpath, AList.lookup_insert_ne hzero]
      rfl

theorem forM_startWorker (starts : List (Option GoString)) :
    starts.forM startWorker = .ok () ↔ starts.all Option.isNone = true := by
  induction starts with
  | nil => simp [List.forM, pure, Except.pure]
  | cons start starts ih =>
    change (startWorker start >>= fun _ => starts.forM startWorker) = _ ↔ _
    cases start with
    | none =>
      rw [List.all_cons, Option.isNone_none, Bool.true_and]
      exact ih
    | some err => simp [startWorker, bind, Except.bind]

/-- The test goes on just when the job has ended well. -/
theorem runMR_cases (job : Job) (dir : Dir) :
    (job.ended = true ∧ runMR job dir = .ok (job.left ∪ dir)) ∨
      (job.ended = false ∧ ∃ failure, runMR job dir = .error failure) := by
  obtain ⟨coordStart, workerStart, coordWait, left⟩ := job
  cases coordStart with
  | some err => exact Or.inr ⟨rfl, _, rfl⟩
  | none =>
    change _ ∧ (workerStart.forM startWorker >>= fun _ => _) = _ ∨ _ ∧ ∃ failure,
      (workerStart.forM startWorker >>= fun _ => _) = _
    cases hstart : workerStart.forM startWorker with
    | error failure =>
      refine Or.inr ⟨?_, failure, rfl⟩
      have hall := mt (forM_startWorker workerStart).mpr (by simp [hstart])
      simp [Job.ended, hall]
    | ok u =>
      have hall := (forM_startWorker workerStart).mp hstart
      cases coordWait with
      | some err => exact Or.inr ⟨by simp [Job.ended], _, rfl⟩
      | none => exact Or.inl ⟨by simp [Job.ended, hall], rfl⟩

/-- What the job finds in the directory is no output. -/
theorem OutputTest.outputs_union (T : OutputTest) {left dir : Dir}
    (hdir : ∀ path ≠ top T.correct, dir.lookup path = none) :
    (outputs (left ∪ dir)).Perm (outputs left) := by
  apply outputs_perm
  intro path hout
  have hne : path ≠ top T.correct := by
    rintro rfl
    exact T.correct_notMem (by simpa [Path.isOut, top] using hout)
  by_cases hleft : path ∈ left
  · exact AList.lookup_union_left hleft
  · rw [AList.lookup_union_right hleft, hdir path hne, AList.lookup_eq_none.mpr hleft]

theorem OutputTest.not_isDir_union (T : OutputTest) {left dir : Dir}
    (hdir : ∀ path ≠ top T.correct, dir.lookup path = none) (hleft : ¬ isDir left T.all) :
    ¬ isDir (left ∪ dir) T.all := by
  rintro ⟨path, hpath, hhead⟩
  rcases AList.mem_union.mp (AList.mem_keys.mpr hpath) with hmem | hmem
  · exact hleft ⟨path, AList.mem_keys.mp hmem, hhead⟩
  · by_cases hne : path = top T.correct
    · rw [hne] at hhead
      cases hhead
    · exact AList.lookup_eq_none.mp (hdir path hne) hmem

/-- The lines of the reference, one or more for each key. -/
def referenceLines (p : Plugin) (inputs : List Input) : List GoString :=
  (keys p inputs).flatMap fun k => lines newline (keyLine p inputs k)

theorem lines_keyLines (p : Plugin) (inputs : List Input) (ks : List GoString) :
    lines newline (ks.flatMap (keyLine p inputs)) =
      ks.flatMap fun k => lines newline (keyLine p inputs k) := by
  simp only [keyLine_eq, funext (keyLine_eq p inputs)]
  exact lines_flatMap newline _ ks

/-- The test reads off the lines of the output files. -/
theorem runCmp_mergeOutput (T : OutputTest) (C : Commands) {inputs : List Input} {dir : Dir}
    (hcorrect : dir.lookup (top T.correct) =
      some (sorted C [(keys T.plugin inputs).flatMap (keyLine T.plugin inputs)]))
    (hfree : ¬ isDir dir T.all) :
    (mergeOutput C T.all dir >>= runCmp T.all T.correct T.msg) =
      if outputs dir = [] then
        .error (.logFatal (text "reduce created no mr-out-X output files!"))
      else if ((outputs dir).flatMap (lines newline)).Perm (referenceLines T.plugin inputs) then
        .ok ()
      else .error (.fatal T.msg) := by
  by_cases hnone : outputs dir = []
  · rw [if_pos hnone, mergeOutput, if_pos ((findOutputs_none C dir).mpr hnone)]
    rfl
  · rw [if_neg hnone, mergeOutput, if_neg fun h => hnone ((findOutputs_none C dir).mp h),
      if_neg hfree]
    have hlines : sorted C ((findOutputs C dir).filterMap dir.lookup) =
        sorted C [(keys T.plugin inputs).flatMap (keyLine T.plugin inputs)] ↔
        ((outputs dir).flatMap (lines newline)).Perm (referenceLines T.plugin inputs) := by
      rw [sorted, sorted, sortFiles_eq_iff, List.flatMap_singleton, lines_keyLines,
        ((filterMap_findOutputs C dir).flatMap_right _).congr_left]
      rfl
    have hne : top T.correct ≠ top T.all := fun h => T.all_ne_correct (top_inj.mp h).symm
    change runCmp T.all T.correct T.msg (dir.insert (top T.all) _) = _
    rw [runCmp, AList.lookup_insert, AList.lookup_insert_ne hne, hcorrect]
    simp [hlines]

/-- The verdict on a job that has ended and leaves the files of the test alone. -/
theorem OutputTest.run_eq (T : OutputTest) (C : Commands) {inputs : List Input}
    (hne : inputs ≠ []) {job : Job} (hspared : T.Spared job.left) (hended : job.ended = true) :
    T.run C (inputs.map Input.file) job =
      if outputs job.left = [] then
        .error (.logFatal (text "reduce created no mr-out-X output files!"))
      else if ((outputs job.left).flatMap (lines newline)).Perm
          (referenceLines T.plugin inputs) then .ok ()
      else .error (.fatal T.msg) := by
  obtain ⟨dir, hdir, hcorrect, hnone⟩ := T.mkCorrectOutput_eq C hne
  have hjob : runMR job dir = .ok (job.left ∪ dir) := by
    rcases runMR_cases job dir with ⟨-, hok⟩ | ⟨hnot, -⟩
    · exact hok
    · simp [hended] at hnot
  have hkept : (job.left ∪ dir).lookup (top T.correct) = dir.lookup (top T.correct) :=
    AList.lookup_union_right hspared.1
  have hverdict := runCmp_mergeOutput T C (hkept.trans hcorrect)
    (T.not_isDir_union hnone hspared.2)
  have hperm : (outputs (job.left ∪ dir)).Perm (outputs job.left) := T.outputs_union hnone
  have hempty : outputs (job.left ∪ dir) = [] ↔ outputs job.left = [] := by
    rw [← List.length_eq_zero_iff, ← List.length_eq_zero_iff, hperm.length_eq]
  simp only [hempty, (hperm.flatMap_right (lines newline)).congr_left] at hverdict
  rw [OutputTest.run, hdir]
  change (runMR job dir >>= fun dir => mergeOutput C T.all dir >>= runCmp T.all T.correct T.msg) = _
  rw [hjob]
  exact hverdict

/-- A test fails if the job does. -/
theorem OutputTest.run_of_not_ended (T : OutputTest) (C : Commands) {inputs : List Input}
    (hne : inputs ≠ []) {job : Job} (hended : job.ended = false) :
    T.run C (inputs.map Input.file) job ≠ .ok () := by
  obtain ⟨dir, hdir, -, -⟩ := T.mkCorrectOutput_eq C hne
  rcases runMR_cases job dir with ⟨hok, -⟩ | ⟨-, failure, hfails⟩
  · simp [hended] at hok
  · rw [OutputTest.run, hdir]
    change (runMR job dir >>= fun dir => mergeOutput C T.all dir >>=
      runCmp T.all T.correct T.msg) ≠ _
    rw [hfails]
    simp [bind, Except.bind]

/-- The tests are exact. However the coordinator and the workers end and whatever files they
leave, as long as they leave those of the test alone, the test passes if and only if all were
started, the coordinator ended well, there is an output file, and the lines of the output files
are those of the reference: for each key that the map calls emit, the key and what reduce makes
of all its values. The verdict depends neither on how the lines are spread over the output files,
in subdirectories too, nor on the order in which the files are found, nor on the locale, nor on
other files. -/
theorem OutputTest.run_ok_iff (T : OutputTest) (inputs : List Input) (hne : inputs ≠ [])
    (job : Job) (hspared : T.Spared job.left) (C : Commands) :
    (T.run C (inputs.map Input.file) job = .ok () ↔ job.ended = true ∧ outputs job.left ≠ [] ∧
      ((outputs job.left).flatMap (lines newline)).Perm (referenceLines T.plugin inputs)) ∧
    (job.ended = true → ∀ C',
      T.run C' (inputs.map Input.file) job = T.run C (inputs.map Input.file) job) := by
  constructor
  · cases hended : job.ended with
    | false => simp [T.run_of_not_ended C hne hended]
    | true =>
      rw [T.run_eq C hne hspared hended]
      by_cases hnone : outputs job.left = []
      · simp [hnone]
      · simp [hnone]
  · intro hended C'
    rw [T.run_eq C' hne hspared hended, T.run_eq C hne hspared hended]

/-- A job that ends well and leaves these files. -/
def Job.leaving (left : Dir) : Job := ⟨none, [none, none, none], none, left⟩

/-- All lines in one file of a subdirectory. -/
theorem oneFile_run_ok : testCrashWorker.run .plain [Input.file ⟨text "pg-x.txt", text "y"⟩]
    (.leaving (AList.singleton ⟨["sub"], "mr-out-7", by decide⟩
      ((keys nocrash [⟨text "pg-x.txt", text "y"⟩]).flatMap
        (keyLine nocrash [⟨text "pg-x.txt", text "y"⟩])))) = .ok () := by
  refine (testCrashWorker.run_ok_iff [⟨text "pg-x.txt", text "y"⟩] (by simp) _ ⟨?_, ?_⟩
    .plain).1.mpr ⟨rfl, List.cons_ne_nil _ _, ?_⟩
  · exact AList.lookup_eq_none.mp rfl
  · rintro ⟨path, hpath, hhead⟩
    obtain rfl := List.mem_singleton.mp hpath
    revert hhead
    decide
  · change (List.flatMap (lines newline) [_]).Perm _
    rw [List.flatMap_singleton, lines_keyLines]
    exact List.Perm.refl _

/-! ## Reduce tasks -/

/-- FNV-1a with 32 bits. -/
def fnv32a (data : GoString) : UInt32 :=
  data.foldl (fun h b => ((h.xor (UInt32.ofNat b.val)).mul (UInt32.ofNat 16777619)))
    (UInt32.ofNat 2166136261)

def ihash (key : GoString) : Nat := ((fnv32a key).land (UInt32.ofNat 0x7fffffff)).toNat

/-- The number of reduce tasks `mrcoordinator` asks for. -/
def nReduce : Nat := 10

/-- The files left by a job as the comment at `ihash` wants it: reduce task `r` has grouped
and reduced the pairs whose keys hash to it. The map calls may have been made by any
workers, which had made any numbers of calls before. -/
structure Reduces (p : Plugin) (inputs : List Input) (n : Nat) (left : Dir) : Prop where
  file : ∀ r < n, ∃ (S : ByKey) (maps reduces : Nat → Nat) (kva : List KeyValue),
    kva.Perm ((emitted (fun i => p.mapf (maps i)) inputs).filter fun kv => ihash kv.key % n = r) ∧
    left.lookup (top (outName r)) =
      some (reduceLoop (fun i => p.reducef (reduces i)) (S.sort kva)).ofile
  only : ∀ path ∈ left, path.isOut = true → ∃ r < n, path = top (outName r)

theorem Reduces.lookup {p : Plugin} {inputs : List Input} {n : Nat} {left : Dir}
    (h : Reduces p inputs n left) (hp : p.Reproducible) {r : Nat} (hr : r < n) :
    left.lookup (top (outName r)) =
      some (((keys p inputs).filter fun k => ihash k % n = r).flatMap (keyLine p inputs)) := by
  obtain ⟨S, maps, reduces, kva, hkva, hfile⟩ := h.file r hr
  have hperm := hkva.trans ((hp.emitted_perm maps inputs).filter _)
  rw [hfile, hp.ofile_eq S reduces (P := fun k => ihash k % n = r) hperm]

theorem isOut_outName {r : Nat} (hr : r < 10) : (top (outName r)).isOut = true := by
  simp only [Path.isOut, List.contains_iff_mem]
  exact List.mem_map_of_mem (List.mem_range.mpr hr)

/-- The output files that are found are those of the first ten tasks. -/
theorem Reduces.outputs_perm {p : Plugin} {inputs : List Input} {n : Nat} {left : Dir}
    (h : Reduces p inputs n left) :
    (outputs left).Perm (((List.range 10).filter (· < n)).filterMap
      fun r => left.lookup (top (outName r))) := by
  have hinj : ∀ r ∈ (List.range 10).filter (· < n), ∀ r' ∈ (List.range 10).filter (· < n),
      top (outName r) = top (outName r') → r = r' := by
    intro r hr r' hr' he
    have hnodup : ((List.range 10).map outName).Nodup := outNames_nodup
    exact List.inj_on_of_nodup_map hnodup (List.mem_filter.mp hr).1 (List.mem_filter.mp hr').1
      (top_inj.mp he)
  have hpaths : (left.keys.filter Path.isOut).Perm
      (((List.range 10).filter (· < n)).map fun r => top (outName r)) := by
    refine (List.perm_ext_iff_of_nodup (left.keys_nodup.filter _)
      ((List.nodup_range.filter _).map_on hinj)).mpr ?_
    intro path
    rw [List.mem_filter, List.mem_map, ← AList.mem_keys]
    constructor
    · rintro ⟨hmem, hout⟩
      obtain ⟨r, hr, rfl⟩ := h.only path hmem hout
      -- a name that matches the pattern is one of ten, perhaps of another task
      obtain ⟨r', hr', hname⟩ := List.mem_map.mp (List.contains_iff_mem.mp hout)
      by_cases hten : r < 10
      · exact ⟨r, List.mem_filter.mpr ⟨List.mem_range.mpr hten, by simpa using hr⟩, rfl⟩
      · refine ⟨r', List.mem_filter.mpr ⟨hr', ?_⟩, by rw [hname]; rfl⟩
        have hlt := List.mem_range.mp hr'
        simp only [decide_eq_true_eq]
        omega
    · rintro ⟨r, hr, rfl⟩
      obtain ⟨hten, hn⟩ := List.mem_filter.mp hr
      obtain ⟨S, maps, reduces, kva, -, hfile⟩ := h.file r (by simpa using hn)
      exact ⟨AList.lookup_isSome.mp (by rw [hfile]; rfl), isOut_outName (List.mem_range.mp hten)⟩
  refine (hpaths.filterMap _).trans (List.Perm.of_eq ?_)
  rw [List.filterMap_map]
  rfl

/-- The lines of the output files are those of the keys that hash to one of the ten. -/
theorem Reduces.lines_outputs {p : Plugin} {inputs : List Input} {n : Nat} {left : Dir}
    (h : Reduces p inputs n left) (hp : p.Reproducible) (hn : 0 < n) :
    ((outputs left).flatMap (lines newline)).Perm
      (((keys p inputs).filter fun k => ihash k % n < 10).flatMap
        fun k => lines newline (keyLine p inputs k)) := by
  have hfiles : (((List.range 10).filter (· < n)).filterMap
      fun r => left.lookup (top (outName r))).flatMap (lines newline) =
      (List.range 10).flatMap fun r => ((keys p inputs).filter fun k => ihash k % n = r).flatMap
        fun k => lines newline (keyLine p inputs k) := by
    rw [List.filterMap_filter, List.filterMap_eq_flatMap_toList, List.flatMap_assoc]
    apply List.flatMap_congr
    intro r _
    by_cases hr : r < n
    · simp [hr, h.lookup hp hr, lines_keyLines]
    · have hempty : ((keys p inputs).filter fun k => ihash k % n = r) = [] := by
        rw [List.filter_eq_nil_iff]
        intro k _ hk
        have hlt := Nat.mod_lt (ihash k) hn
        simp only [decide_eq_true_eq] at hk
        omega
      rw [hempty]
      simp [hr]
  refine (h.outputs_perm.flatMap_right _).trans ?_
  rw [hfiles, ← List.flatMap_assoc]
  exact (Grouping.flatMap_buckets_perm (fun k => ihash k % n) (keys p inputs) 10).flatMap_right _

/-- Each key has a line of its own, so that the lines of some keys only are too few. -/
theorem perm_referenceLines (p : Plugin) (inputs : List Input) (P : GoString → Bool) :
    (((keys p inputs).filter P).flatMap fun k => lines newline (keyLine p inputs k)).Perm
      (referenceLines p inputs) ↔ ∀ k ∈ keys p inputs, P k := by
  constructor
  · intro h k hk
    by_contra hP
    have hsplit := (List.filter_append_perm P (keys p inputs)).flatMap_right
      fun k => lines newline (keyLine p inputs k)
    rw [List.flatMap_append] at hsplit
    have hlength := (hsplit.trans h.symm).length_eq
    rw [List.length_append, Nat.add_eq_left, List.length_eq_zero_iff,
      List.flatMap_eq_nil_iff] at hlength
    have hnil := hlength k (List.mem_filter.mpr ⟨hk, by simpa using hP⟩)
    rw [keyLine_eq] at hnil
    exact lines_newline_ne_nil newline _ hnil
  · intro h
    rw [List.filter_eq_self.mpr h]
    exact List.Perm.refl _

/-- The files of ten reduce tasks, or fewer, pass every test, whichever worker ran which
call; with more tasks, the test passes just when no key belongs to a task whose file the
pattern `mr-out-[0-9]` misses. -/
theorem OutputTest.reduce_tasks_ok (T : OutputTest) (C : Commands) (inputs : List Input)
    (hne : inputs ≠ []) (n : Nat) (hn : 0 < n) (job : Job) (hended : job.ended = true)
    (hleft : Reduces T.plugin inputs n job.left) (hspared : T.Spared job.left) :
    (T.run C (inputs.map Input.file) job = .ok () ↔
      ∀ k ∈ keys T.plugin inputs, ihash k % n < 10) ∧
    (n ≤ nReduce → T.run C (inputs.map Input.file) job = .ok ()) := by
  have hsome : outputs job.left ≠ [] := by
    have hzero := hleft.lookup T.reproducible hn
    have hmem : top (outName 0) ∈ job.left.keys.filter Path.isOut :=
      List.mem_filter.mpr ⟨AList.mem_keys.mp (AList.lookup_isSome.mp (by rw [hzero]; rfl)),
        by decide⟩
    exact List.ne_nil_of_mem (List.mem_filterMap.mpr ⟨_, hmem, hzero⟩)
  have hiff : T.run C (inputs.map Input.file) job = .ok () ↔
      ∀ k ∈ keys T.plugin inputs, ihash k % n < 10 := by
    have hlines := perm_referenceLines T.plugin inputs fun k => ihash k % n < 10
    rw [← (hleft.lines_outputs T.reproducible hn).congr_left] at hlines
    simp only [decide_eq_true_eq] at hlines
    rw [T.run_eq C hne hspared hended, if_neg hsome, ← hlines]
    simp
  refine ⟨hiff, fun hle => hiff.mpr fun k _ => ?_⟩
  exact lt_of_lt_of_le (Nat.mod_lt (ihash k) hn) hle

/-- One file for each of `n` reduce tasks. -/
def taskFiles (file : Nat → GoString) (n : Nat) : Dir :=
  (List.range n).foldl (fun dir r => dir.insert (top (outName r)) (file r)) ∅

theorem taskFiles_succ (file : Nat → GoString) (n : Nat) :
    taskFiles file (n + 1) = (taskFiles file n).insert (top (outName n)) (file n) := by
  simp [taskFiles, List.range_succ]

theorem lookup_taskFiles (file : Nat → GoString) {n r : Nat} (hr : r < n)
    (hnames : ((List.range n).map outName).Nodup) :
    (taskFiles file n).lookup (top (outName r)) = some (file r) := by
  induction n with
  | zero => omega
  | succ n ih =>
    rw [taskFiles_succ]
    by_cases he : r = n
    · rw [he, AList.lookup_insert]
    · have hne : outName r ≠ outName n := fun h => he (List.inj_on_of_nodup_map hnames
        (List.mem_range.mpr hr) (List.mem_range.mpr (Nat.lt_succ_self n)) h)
      rw [AList.lookup_insert_ne fun h => hne (top_inj.mp h)]
      rw [List.range_succ, List.map_append] at hnames
      exact ih (by omega) hnames.of_append_left

theorem mem_taskFiles (file : Nat → GoString) {n : Nat} {path : Path}
    (h : path ∈ taskFiles file n) : ∃ r < n, path = top (outName r) := by
  induction n with
  | zero => exact absurd h (AList.notMem_empty path)
  | succ n ih =>
    rw [taskFiles_succ, AList.mem_insert] at h
    rcases h with rfl | h
    · exact ⟨n, Nat.lt_succ_self n, rfl⟩
    · obtain ⟨r, hr, he⟩ := ih h
      exact ⟨r, by omega, he⟩

/-- The files of a job whose tasks take the pairs as they come. -/
def reduced (p : Plugin) (inputs : List Input) (n : Nat) : Dir :=
  taskFiles (fun r => (reduceLoop p.reducef (ByKey.stable.sort
    ((emitted p.mapf inputs).filter fun kv => ihash kv.key % n = r))).ofile) n

theorem reduced_reduces (p : Plugin) (inputs : List Input) {n : Nat}
    (hnames : ((List.range n).map outName).Nodup) : Reduces p inputs n (reduced p inputs n) := by
  constructor
  · intro r hr
    exact ⟨.stable, id, id, _, List.Perm.refl _, lookup_taskFiles _ hr hnames⟩
  · intro path hpath _
    exact mem_taskFiles _ hpath

def crashInput : List Input := [⟨text "pg-x.txt", text "y"⟩]

theorem spared_reduced {n : Nat} (hn : ∀ r < n, testCrashWorker.correct ≠ outName r) :
    testCrashWorker.Spared (reduced nocrash crashInput n) := by
  constructor
  · intro hmem
    obtain ⟨r, hr, he⟩ := mem_taskFiles _ hmem
    exact hn r hr (top_inj.mp he)
  · rintro ⟨path, hpath, hhead⟩
    obtain ⟨r, -, rfl⟩ := mem_taskFiles _ (AList.mem_keys.mpr hpath)
    cases hhead

/-- The keys `a` to `d` go to four different tasks of four. Of twelve tasks, the one that takes
`d` has a file that is not found. -/
theorem fourTasks_run_ok :
    ([text "a", text "b", text "c", text "d"].map (ihash · % 4) = [0, 1, 2, 3] ∧
      testCrashWorker.run .plain (crashInput.map Input.file)
        (.leaving (reduced nocrash crashInput 4)) = .ok ()) ∧
    ihash (text "d") % 12 = 11 ∧ testCrashWorker.run .plain (crashInput.map Input.file)
        (.leaving (reduced nocrash crashInput 12)) ≠ .ok () := by
  refine ⟨⟨by decide, ?_⟩, by decide, ?_⟩
  · exact (testCrashWorker.reduce_tasks_ok .plain crashInput (by simp [crashInput]) 4 (by decide)
      (.leaving (reduced nocrash crashInput 4)) rfl (reduced_reduces nocrash crashInput (by decide))
      (spared_reduced (by decide))).2 (by decide)
  · intro hok
    have hkeys := (testCrashWorker.reduce_tasks_ok .plain crashInput (by simp [crashInput]) 12
      (by decide) (.leaving (reduced nocrash crashInput 12)) rfl
      (reduced_reduces nocrash crashInput (by decide)) (spared_reduced (by decide))).1.mp hok
    have hd : text "d" ∈ keys nocrash crashInput := by
      rw [mem_keys]
      decide
    exact absurd (hkeys (text "d") hd) (by decide)

end Mr
