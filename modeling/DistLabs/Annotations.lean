import DistLabs.GoMaps
import Mathlib.Data.Fintype.Pi
import Mathlib.Data.List.FinRange

/-!
# Annotations of a test run

The annotations that the tester collects for the visualizer: points, intervals, and
continuous annotations, of which each tag has at most one open. `Annotator` holds
the two globals `annotation` and `finfo` of the source, from the `AnnotateTest`
that starts a test on. The timestamp that a call takes is given with the call.
-/
namespace Porcupine

/-- An annotation as the visualizer takes it; a point in time has no `finish`. -/
structure Annotation where
  tag : String
  start : Int
  finish : Int
  description : String
  details : String
  backgroundColor : String
  deriving DecidableEq

end Porcupine

namespace Tester

open GoMaps

def colorInfo : String := "#FAFAFA"
def colorFault : String := "#B3E5FC"

def tagChecker : String := "$ Checker"
def tagPartition : String := "$ Failure"
def tagInfo : String := "$ Test Info"

structure Continuous where
  start : Int
  desp : String
  details : String
  bgcolor : String

structure Annotation where
  annotations : List Porcupine.Annotation
  continuous : GoMap String Continuous
  finalized : Bool

def mkAnnotation : Annotation := ⟨[], ∅, false⟩

/-- The interval of a continuous annotation that ends at `t`. -/
def Continuous.concretize (cont : Continuous) (tag : String) (t : Int) : Porcupine.Annotation :=
  ⟨tag, cont.start, t, cont.desp, cont.details, cont.bgcolor⟩

namespace Annotation

/-- One pass of the loop of `finalize` over the open annotations. -/
def finalizeTag (an : Annotation) (t : Int) (x : List Porcupine.Annotation) (tag : String) :
    List Porcupine.Annotation :=
  match an.continuous.lookup tag with
  | some cont => x ++ [cont.concretize tag t]
  | none => x

def finalize (an : Annotation) (ω : RangeOrder String) (t : Int) :
    List Porcupine.Annotation × Annotation :=
  ((ω.order an.continuous.keys).foldl (an.finalizeTag t) an.annotations,
    { an with finalized := true })

def clear (_an : Annotation) : Annotation := ⟨[], ∅, false⟩

def annotatePointColor (an : Annotation) (t : Int) (tag desp details bgcolor : String) :
    Annotation :=
  { an with annotations := an.annotations ++ [⟨tag, t, 0, desp, details, bgcolor⟩] }

def annotateIntervalColor (an : Annotation) (t : Int) (tag : String) (start : Int)
    (desp details bgcolor : String) : Annotation :=
  { an with annotations := an.annotations ++ [⟨tag, start, t, desp, details, bgcolor⟩] }

def annotateContinuousColor (an : Annotation) (t : Int) (tag desp details bgcolor : String) :
    Annotation :=
  match an.continuous.lookup tag with
  | none => { an with continuous := an.continuous.insert tag ⟨t, desp, details, bgcolor⟩ }
  | some cont =>
    { an with
      annotations := an.annotations ++ [cont.concretize tag t]
      continuous := an.continuous.insert tag ⟨t, desp, details, bgcolor⟩ }

/-- The branch for a tag with nothing open is empty: what follows it works on the zero value. -/
def annotateContinuousEnd (an : Annotation) (t : Int) (tag : String) : Annotation :=
  let cont := getD an.continuous tag ⟨0, "", "", ""⟩
  { an with
    annotations := an.annotations ++ [cont.concretize tag t]
    continuous := an.continuous.erase tag }

end Annotation

/-! ## What the framework knows -/

structure CheckerBegin where
  ts : Int
  details : String

/-- The state of the `n` servers, as last announced, and the check that was begun. -/
structure FrameworkInfo (n : Nat) where
  connected : Fin n → Bool
  crashed : Fin n → Bool
  ckbegin : CheckerBegin

def mkFrameworkInfo (n : Nat) : FrameworkInfo n := ⟨fun _ => true, fun _ => false, ⟨0, ""⟩⟩

structure Annotator (n : Nat) where
  an : Annotation
  finfo : FrameworkInfo n

def annotateTest (an : Annotation) (t : Int) (desp : String) (n : Nat) : Annotator n :=
  let details := desp ++ " (" ++ toString n ++ " servers)"
  ⟨an.clear.annotatePointColor t tagInfo details details colorInfo, mkFrameworkInfo n⟩

namespace Annotator

variable {n : Nat}

def annotateCheckerBegin (a : Annotator n) (t : Int) (details : String) : Annotator n :=
  { a with finfo := { a.finfo with ckbegin := ⟨t, details⟩ } }

/-- The reset of `ckbegin.ts` at the end is one of a local copy. -/
def annotateCheckerEnd (a : Annotator n) (t : Int) (desp details color : String) : Annotator n :=
  let ckbegin := a.finfo.ckbegin
  if ckbegin.ts = 0 then
    { a with an := a.an.annotatePointColor t tagChecker desp details color }
  else
    { a with
      an := a.an.annotateIntervalColor t tagChecker ckbegin.ts desp
        (ckbegin.details ++ ": " ++ details) color }

/-- A slice of numbers as `%v` prints it. -/
def printInts (ids : List Nat) : String :=
  "[" ++ " ".intercalate (ids.map toString) ++ "]"

/-- The loop of `annotateFault` over the servers. -/
structure FaultScan where
  conn : List Nat
  crashes : List Nat
  builder : String

def FaultScan.next (finfo : FrameworkInfo n) (st : FaultScan) (id : Fin n) : FaultScan :=
  if finfo.crashed id then { st with crashes := st.crashes ++ [id.val] }
  else if finfo.connected id then { st with conn := st.conn ++ [id.val] }
  else { st with builder := st.builder ++ "[" ++ toString id.val ++ "] " }

def faultText (finfo : FrameworkInfo n) : String :=
  let st := (List.finRange n).foldl (FaultScan.next finfo) ⟨[], [], "partition = "⟩
  let text := if st.conn.length > 0 then st.builder ++ printInts st.conn else st.builder
  if st.crashes.length > 0 then text ++ " / crash = " ++ printInts st.crashes else text

def annotateFault (a : Annotator n) (t : Int) : Annotator n :=
  if (∀ id, a.finfo.connected id = true) ∧ ∀ id, a.finfo.crashed id = false then
    { a with an := a.an.annotateContinuousEnd t tagPartition }
  else
    let text := faultText a.finfo
    { a with an :=
        a.an.annotateContinuousColor t tagPartition text text colorFault }

def annotateConnection (a : Annotator n) (t : Int) (connection : Fin n → Bool) : Annotator n :=
  if a.finfo.connected = connection then a
  else annotateFault { a with finfo := { a.finfo with connected := connection } } t

def annotateClearFailure (a : Annotator n) (t : Int) : Annotator n :=
  { an := a.an.annotateContinuousEnd t tagPartition
    finfo := { a.finfo with connected := fun _ => true, crashed := fun _ => false } }

/-- The loop of `AnnotateShutdown` and `AnnotateRestart`: it sets `crashed` for the servers and
finds out whether that changes anything. -/
def setCrashed (crashed : Fin n → Bool) (servers : List (Fin n)) (value : Bool) :
    Bool × (Fin n → Bool) :=
  servers.foldl (fun st id =>
    (if st.2 id = value then st.1 else true, Function.update st.2 id value)) (false, crashed)

def annotateCrashed (a : Annotator n) (t : Int) (servers : List (Fin n)) (value : Bool) :
    Annotator n :=
  let (changed, crashed) := setCrashed a.finfo.crashed servers value
  let a := { a with finfo := { a.finfo with crashed := crashed } }
  if changed then a.annotateFault t else a

def annotateShutdown (a : Annotator n) (t : Int) (servers : List (Fin n)) : Annotator n :=
  a.annotateCrashed t servers true

def annotateShutdownAll (a : Annotator n) (t : Int) : Annotator n :=
  a.annotateShutdown t (List.finRange n)

def annotateRestart (a : Annotator n) (t : Int) (servers : List (Fin n)) : Annotator n :=
  a.annotateCrashed t servers false

def annotateRestartAll (a : Annotator n) (t : Int) : Annotator n :=
  a.annotateRestart t (List.finRange n)

end Annotator

end Tester
