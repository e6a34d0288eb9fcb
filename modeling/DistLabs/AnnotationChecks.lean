import DistLabs.Annotations
import DistLabs.Runs

/-!
# Checks and faults as the tester announces them

`AnnotateCheckerEnd` is meant to use up the `AnnotateCheckerBegin` before it, but
resets a copy: the begin stays, and a later end without a begin of its own is
drawn as an interval from the old one.

The fault annotation is kept up to date by six operations that each skip the
update when they change nothing. After any of them it is open exactly if some
server is disconnected or crashed, and shows which.
-/
namespace Tester

open GoMaps

variable {n : Nat}

/-! ## Checks -/

inductive CheckCall where
  | begun (details : String)
  | ended (desp details color : String)
  deriving DecidableEq

namespace Annotator

/-- A call at a time. -/
def check (a : Annotator n) (c : Int × CheckCall) : Annotator n :=
  match c.2 with
  | .begun details => a.annotateCheckerBegin c.1 details
  | .ended desp details color => a.annotateCheckerEnd c.1 desp details color

def checks (a : Annotator n) (cs : List (Int × CheckCall)) : Annotator n := cs.foldl check a

theorem checks_concat (a : Annotator n) (cs : List (Int × CheckCall)) (c : Int × CheckCall) :
    a.checks (cs ++ [c]) = (a.checks cs).check c := by
  simp [checks]

end Annotator

/-- What an end after these calls should record: an interval from the begin before it, or a
point in time if the call before it is another end or there is none. -/
def checkerMark (cs : List (Int × CheckCall)) (t : Int) (desp details color : String) :
    Porcupine.Annotation :=
  match cs.getLast? with
  | some (ts, .begun begun) => ⟨tagChecker, ts, t, desp, begun ++ ": " ++ details, color⟩
  | _ => ⟨tagChecker, t, 0, desp, details, color⟩

/-- The calls contain a begin. -/
def HasBegun (cs : List (Int × CheckCall)) : Prop := ∃ ts details, (ts, .begun details) ∈ cs

/-- The calls finish with an end. -/
def EndsLast (cs : List (Int × CheckCall)) : Prop :=
  ∃ t desp details color, cs.getLast? = some (t, .ended desp details color)

/-- The most recent begin. -/
def lastBegun (cs : List (Int × CheckCall)) : Option CheckerBegin :=
  cs.foldl (fun b c =>
    match c.2 with
    | .begun details => some ⟨c.1, details⟩
    | .ended _ _ _ => b) none

theorem lastBegun_begun (cs : List (Int × CheckCall)) (ts : Int) (details : String) :
    lastBegun (cs ++ [(ts, .begun details)]) = some ⟨ts, details⟩ := by
  simp [lastBegun]

theorem lastBegun_ended (cs : List (Int × CheckCall)) (t : Int) (desp details color : String) :
    lastBegun (cs ++ [(t, .ended desp details color)]) = lastBegun cs := by
  simp [lastBegun]

theorem mem_of_lastBegun {cs : List (Int × CheckCall)} {b : CheckerBegin}
    (h : lastBegun cs = some b) : (b.ts, .begun b.details) ∈ cs := by
  induction cs using List.reverseRecOn with
  | nil => cases h
  | append_singleton cs c ih =>
    obtain ⟨t, call⟩ := c
    cases call with
    | begun d =>
      rw [lastBegun_begun] at h
      cases h
      simp
    | ended desp d color =>
      rw [lastBegun_ended] at h
      exact List.mem_append_left _ (ih h)

theorem hasBegun_iff (cs : List (Int × CheckCall)) : HasBegun cs ↔ lastBegun cs ≠ none := by
  induction cs using List.reverseRecOn with
  | nil => simp [HasBegun, lastBegun]
  | append_singleton cs c ih =>
    obtain ⟨t, call⟩ := c
    cases call with
    | begun d =>
      rw [lastBegun_begun]
      exact iff_of_true ⟨t, d, by simp⟩ (by simp)
    | ended desp d color =>
      rw [lastBegun_ended, ← ih]
      simp [HasBegun]

/-- The begin that the framework remembers is the most recent one: no end forgets it. -/
theorem ckbegin_checks (a : Annotator n) (cs : List (Int × CheckCall)) :
    (a.checks cs).finfo.ckbegin = (lastBegun cs).getD a.finfo.ckbegin := by
  induction cs using List.reverseRecOn with
  | nil => rfl
  | append_singleton cs c ih =>
    rw [Annotator.checks_concat]
    obtain ⟨t, call⟩ := c
    cases call with
    | begun d =>
      rw [lastBegun_begun]
      rfl
    | ended desp d color =>
      rw [lastBegun_ended, ← ih]
      simp only [Annotator.check, Annotator.annotateCheckerEnd]
      split <;> rfl

theorem ended_without_begin {a : Annotator n} {t : Int} {desp details color : String}
    (h : a.finfo.ckbegin.ts = 0) :
    (a.check (t, .ended desp details color)).an.annotations =
      a.an.annotations ++ [⟨tagChecker, t, 0, desp, details, color⟩] := by
  simp [Annotator.check, Annotator.annotateCheckerEnd, h, Annotation.annotatePointColor]

theorem ended_with_begin {a : Annotator n} {t : Int} {desp details color : String}
    (h : a.finfo.ckbegin.ts ≠ 0) :
    (a.check (t, .ended desp details color)).an.annotations =
      a.an.annotations ++ [⟨tagChecker, a.finfo.ckbegin.ts, t, desp,
        a.finfo.ckbegin.details ++ ": " ++ details, color⟩] := by
  simp [Annotator.check, Annotator.annotateCheckerEnd, h, Annotation.annotateIntervalColor]

/-- An end records what it should unless it follows another end that followed a begin. -/
theorem ended_records_iff {a : Annotator n} (hstart : a.finfo.ckbegin = ⟨0, ""⟩)
    {pre : List (Int × CheckCall)} (hpos : ∀ c ∈ pre, 0 < c.1) {t : Int} (ht : 0 < t)
    (desp details color : String) :
    (a.checks (pre ++ [(t, .ended desp details color)])).an.annotations =
      (a.checks pre).an.annotations ++ [checkerMark pre t desp details color] ↔
    (EndsLast pre → ¬ HasBegun pre) := by
  rw [Annotator.checks_concat, hasBegun_iff]
  have hbegin := ckbegin_checks a pre
  cases hlast : lastBegun pre with
  | none =>
    rw [hlast, hstart] at hbegin
    have hmark : checkerMark pre t desp details color =
        ⟨tagChecker, t, 0, desp, details, color⟩ := by
      rw [checkerMark]
      split
      · rename_i ts begun hget
        obtain ⟨cs, rfl⟩ := List.getLast?_eq_some_iff.mp hget
        rw [lastBegun_begun] at hlast
        cases hlast
      · rfl
    rw [ended_without_begin (by rw [hbegin]; rfl), hmark]
    simp
  | some b =>
    have hb := hpos _ (mem_of_lastBegun hlast)
    rw [hlast, Option.getD_some] at hbegin
    rw [ended_with_begin (by rw [hbegin]; exact ne_of_gt hb), hbegin]
    rcases List.eq_nil_or_concat pre with rfl | ⟨cs, ⟨ts, call⟩, hpre⟩
    · cases hlast
    · rw [List.concat_eq_append] at hpre
      subst hpre
      cases call with
      | begun d =>
        rw [lastBegun_begun] at hlast
        cases hlast
        simp [checkerMark, EndsLast]
      | ended desp' d color' =>
        -- the remembered begin was used up by the end just before
        simp [checkerMark, EndsLast, ne_of_gt ht]

/-- Each begin is used up by one end exactly if no end follows another one once there has been
a begin. -/
theorem checker_begin_consumed_iff (an : Annotation) (t₀ : Int) (test : String) (n : Nat)
    (cs : List (Int × CheckCall)) (hpos : ∀ c ∈ cs, 0 < c.1) :
    (∀ pre t desp details color post, cs = pre ++ (t, .ended desp details color) :: post →
      ((annotateTest an t₀ test n).checks
          (pre ++ [(t, .ended desp details color)])).an.annotations =
        ((annotateTest an t₀ test n).checks pre).an.annotations ++
          [checkerMark pre t desp details color]) ↔
    ∀ pre t desp details color post, cs = pre ++ (t, .ended desp details color) :: post →
      EndsLast pre → ¬ HasBegun pre := by
  have hpositive : ∀ {pre t call post}, cs = pre ++ (t, call) :: post →
      (∀ c ∈ pre, 0 < c.1) ∧ 0 < t := by
    rintro pre t call post rfl
    exact ⟨fun c hc => hpos c (List.mem_append_left _ hc), hpos (t, call) (by simp)⟩
  constructor
  · intro h pre t desp details color post hcs
    obtain ⟨hpre, ht⟩ := hpositive hcs
    exact (ended_records_iff rfl hpre ht desp details color).mp
      (h pre t desp details color post hcs)
  · intro h pre t desp details color post hcs
    obtain ⟨hpre, ht⟩ := hpositive hcs
    exact (ended_records_iff rfl hpre ht desp details color).mpr
      (h pre t desp details color post hcs)

/-- A result without a check, and then a check with its result. -/
theorem checker_point_then_interval :
    ((annotateTest mkAnnotation 1 "Test" 3).checks [(2, .ended "point" "ok" "green"),
      (4, .begun "checking"), (7, .ended "interval" "ok" "green")]).an.annotations =
    ((annotateTest mkAnnotation 1 "Test" 3).checks [(2, .ended "point" "ok" "green"),
      (4, .begun "checking")]).an.annotations ++
      [⟨tagChecker, 4, 7, "interval", "checking: ok", "green"⟩] := by
  refine (checker_begin_consumed_iff mkAnnotation 1 "Test" 3 [(2, .ended "point" "ok" "green"),
    (4, .begun "checking"), (7, .ended "interval" "ok" "green")] (by decide)).mpr ?_
    [(2, .ended "point" "ok" "green"), (4, .begun "checking")] 7 "interval" "ok" "green" [] rfl
  rintro pre t desp details color post hcs ⟨t', desp', details', color', hlast⟩
  rcases pre with _ | ⟨c₁, _ | ⟨c₂, _ | ⟨c₃, pre⟩⟩⟩
  · cases hlast
  · simp at hcs
  · simp only [List.cons_append, List.nil_append, List.cons.injEq] at hcs
    obtain ⟨-, rfl, -⟩ := hcs
    cases hlast
  · simp at hcs

/-- After a check, a second result without a begin is drawn as an interval from the old one. -/
theorem checker_begin_reused : ¬ ∀ pre t desp details color post,
    ([(2, .begun "checking"), (4, .ended "first" "ok" "green"),
      (7, .ended "second" "ok" "green")] : List (Int × CheckCall)) =
        pre ++ (t, .ended desp details color) :: post →
    ((annotateTest mkAnnotation 1 "Test" 3).checks
        (pre ++ [(t, .ended desp details color)])).an.annotations =
      ((annotateTest mkAnnotation 1 "Test" 3).checks pre).an.annotations ++
        [checkerMark pre t desp details color] := by
  intro h
  have hsecond := h [(2, .begun "checking"), (4, .ended "first" "ok" "green")] 7 "second" "ok"
    "green" [] rfl
  exact absurd hsecond (by decide)

/-! ## Faults -/

inductive FaultCall (n : Nat) where
  | connection (connection : Fin n → Bool)
  | shutdown (servers : List (Fin n))
  | shutdownAll
  | restart (servers : List (Fin n))
  | restartAll
  | clearFailure

/-- What the calls say of the servers. -/
structure Announced (n : Nat) where
  connected : Fin n → Bool
  crashed : Fin n → Bool

/-- Connections are announced as a whole, crashes and restarts server by server. -/
def Announced.next (s : Announced n) : FaultCall n → Announced n
  | .connection connection => { s with connected := connection }
  | .shutdown servers => { s with crashed := fun id => s.crashed id || servers.contains id }
  | .shutdownAll => { s with crashed := fun _ => true }
  | .restart servers => { s with crashed := fun id => s.crashed id && !servers.contains id }
  | .restartAll => { s with crashed := fun _ => false }
  | .clearFailure => ⟨fun _ => true, fun _ => false⟩

/-- The last state that the calls of a test have announced. -/
def announced (cs : List (Int × FaultCall n)) : Announced n :=
  cs.foldl (fun s c => s.next c.2) ⟨fun _ => true, fun _ => false⟩

namespace Annotator

/-- A call at a time. -/
def fault (a : Annotator n) (c : Int × FaultCall n) : Annotator n :=
  match c.2 with
  | .connection connection => a.annotateConnection c.1 connection
  | .shutdown servers => a.annotateShutdown c.1 servers
  | .shutdownAll => a.annotateShutdownAll c.1
  | .restart servers => a.annotateRestart c.1 servers
  | .restartAll => a.annotateRestartAll c.1
  | .clearFailure => a.annotateClearFailure c.1

def faults (a : Annotator n) (cs : List (Int × FaultCall n)) : Annotator n := cs.foldl fault a

/-- The text of a state: the disconnected servers one by one, the connected block, and the
crashed servers. -/
def render (singles conn crashes : List Nat) : String :=
  let text := singles.foldl (fun text id => text ++ "[" ++ toString id ++ "] ") "partition = "
  let text := if conn.length > 0 then text ++ printInts conn else text
  if crashes.length > 0 then text ++ " / crash = " ++ printInts crashes else text

variable (finfo : FrameworkInfo n)

def crashes : List (Fin n) := (List.finRange n).filter fun id => finfo.crashed id
def conn : List (Fin n) :=
  (List.finRange n).filter fun id => finfo.connected id && !finfo.crashed id
def singles : List (Fin n) :=
  (List.finRange n).filter fun id => !finfo.connected id && !finfo.crashed id

theorem foldl_next (ids : List (Fin n)) (st : FaultScan) :
    ids.foldl (FaultScan.next finfo) st =
      ⟨st.conn ++ (ids.filter fun id => finfo.connected id && !finfo.crashed id).map Fin.val,
       st.crashes ++ (ids.filter fun id => finfo.crashed id).map Fin.val,
       ((ids.filter fun id => !finfo.connected id && !finfo.crashed id).map Fin.val).foldl
         (fun text id => text ++ "[" ++ toString id ++ "] ") st.builder⟩ := by
  induction ids generalizing st with
  | nil => simp
  | cons id ids ih =>
    rw [List.foldl_cons, ih]
    cases hcrashed : finfo.crashed id <;> cases hconnected : finfo.connected id <;>
      simp [FaultScan.next, hcrashed, hconnected]

theorem faultText_eq : faultText finfo = render ((singles finfo).map Fin.val)
    ((conn finfo).map Fin.val) ((crashes finfo).map Fin.val) := by
  rw [faultText, foldl_next]
  rfl

/-- Every server is in one of the three lists, once. -/
theorem parts_perm : ((singles finfo).map Fin.val ++ (conn finfo).map Fin.val ++
    (crashes finfo).map Fin.val).Perm (List.range n) := by
  have hup := List.filter_append_perm (fun id => finfo.connected id)
    ((List.finRange n).filter fun id => !finfo.crashed id)
  rw [List.filter_filter, List.filter_filter] at hup
  have hall := List.filter_append_perm (fun id => finfo.crashed id) (List.finRange n)
  have hparts : (singles finfo ++ conn finfo ++ crashes finfo).Perm (List.finRange n) := by
    refine (List.Perm.append_right _ (List.perm_append_comm.trans hup)).trans ?_
    exact List.perm_append_comm.trans hall
  have hrange := hparts.map Fin.val
  rwa [List.map_append, List.map_append, List.map_coe_finRange_eq_range] at hrange

variable {finfo}

/-- No server is disconnected or crashed. -/
def Healthy (finfo : FrameworkInfo n) : Prop :=
  (∀ id, finfo.connected id = true) ∧ ∀ id, finfo.crashed id = false

/-- The fault annotation shows the state of the servers. -/
structure Mirrors (a : Annotator n) : Prop where
  closed_iff : a.an.continuous.lookup tagPartition = none ↔ Healthy a.finfo
  text : ∀ cont, a.an.continuous.lookup tagPartition = some cont →
    cont.desp = faultText a.finfo

theorem lookup_annotateContinuousEnd (an : Annotation) (t : Int) (tag : String) :
    (an.annotateContinuousEnd t tag).continuous.lookup tag = none :=
  AList.lookup_erase tag an.continuous

theorem lookup_annotateContinuousColor (an : Annotation) (t : Int)
    (tag desp details bgcolor : String) :
    (an.annotateContinuousColor t tag desp details bgcolor).continuous.lookup tag =
      some ⟨t, desp, details, bgcolor⟩ := by
  unfold Annotation.annotateContinuousColor
  split <;> exact AList.lookup_insert an.continuous

/-- `annotateFault` leaves the right annotation, whatever was there before. -/
theorem annotateFault_mirrors (a : Annotator n) (t : Int) : (a.annotateFault t).Mirrors := by
  rw [annotateFault]
  split
  · rename_i hhealthy
    have hclosed := lookup_annotateContinuousEnd a.an t tagPartition
    constructor
    · exact iff_of_true hclosed hhealthy
    · intro cont hcont
      rw [hclosed] at hcont
      cases hcont
  · rename_i hhealthy
    have hopen := lookup_annotateContinuousColor a.an t tagPartition (faultText a.finfo)
      (faultText a.finfo) colorFault
    constructor
    · exact iff_of_false (by simp [hopen]) hhealthy
    · intro cont hcont
      rw [hopen] at hcont
      cases hcont
      rfl

theorem setCrashed_concat (crashed : Fin n → Bool) (servers : List (Fin n)) (id : Fin n)
    (value : Bool) : setCrashed crashed (servers ++ [id]) value =
      (if (setCrashed crashed servers value).2 id = value then (setCrashed crashed servers value).1
        else true,
       Function.update (setCrashed crashed servers value).2 id value) := by
  simp [setCrashed]

/-- A loop that finds nothing to change changes nothing. -/
theorem setCrashed_unchanged {crashed : Fin n → Bool} {servers : List (Fin n)} {value : Bool}
    (h : (setCrashed crashed servers value).1 = false) :
    (setCrashed crashed servers value).2 = crashed := by
  induction servers using List.reverseRecOn with
  | nil => rfl
  | append_singleton servers id ih =>
    rw [setCrashed_concat] at h ⊢
    by_cases hid : (setCrashed crashed servers value).2 id = value
    · rw [if_pos hid] at h
      rw [ih h] at hid ⊢
      exact Function.update_eq_self_iff.mpr hid.symm
    · rw [if_neg hid] at h
      cases h

/-- The loop sets the servers it is given. -/
theorem setCrashed_apply (crashed : Fin n → Bool) (servers : List (Fin n)) (value : Bool)
    (id : Fin n) : (setCrashed crashed servers value).2 id =
      if servers.contains id then value else crashed id := by
  induction servers using List.reverseRecOn with
  | nil => rfl
  | append_singleton servers id' ih =>
    rw [setCrashed_concat]
    by_cases hid : id = id'
    · simp [hid]
    · simp only [Function.update_of_ne hid, ih]
      simp [hid]

/-- What `finfo` says of the servers. -/
def known (a : Annotator n) : Announced n := ⟨a.finfo.connected, a.finfo.crashed⟩

theorem known_annotateFault (a : Annotator n) (t : Int) : (a.annotateFault t).known = a.known := by
  rw [annotateFault]
  split <;> rfl

theorem known_annotateCrashed (a : Annotator n) (t : Int) (servers : List (Fin n)) (value : Bool) :
    (a.annotateCrashed t servers value).known = ⟨a.known.connected,
      fun id => if servers.contains id then value else a.known.crashed id⟩ := by
  have hset : (a.annotateCrashed t servers value).known =
      ⟨a.finfo.connected, (setCrashed a.finfo.crashed servers value).2⟩ := by
    simp only [annotateCrashed]
    split
    · exact known_annotateFault _ t
    · rfl
  rw [hset, funext (setCrashed_apply a.finfo.crashed servers value)]
  rfl

/-- Every call is noted, also one that changes nothing in the annotations. -/
theorem known_fault (a : Annotator n) (c : Int × FaultCall n) :
    (a.fault c).known = a.known.next c.2 := by
  obtain ⟨t, call⟩ := c
  cases call with
  | connection connection =>
    simp only [fault, annotateConnection]
    split
    · rename_i hsame
      simp [known, Announced.next, hsame]
    · exact known_annotateFault _ t
  | shutdown servers =>
    change (a.annotateCrashed t servers true).known = _
    rw [known_annotateCrashed, Announced.next]
    congr 1
    funext id
    cases servers.contains id <;> simp
  | shutdownAll =>
    change (a.annotateCrashed t (List.finRange n) true).known = _
    rw [known_annotateCrashed, Announced.next]
    simp
  | restart servers =>
    change (a.annotateCrashed t servers false).known = _
    rw [known_annotateCrashed, Announced.next]
    congr 1
    funext id
    cases servers.contains id <;> simp
  | restartAll =>
    change (a.annotateCrashed t (List.finRange n) false).known = _
    rw [known_annotateCrashed, Announced.next]
    simp
  | clearFailure => rfl

theorem known_faults (a : Annotator n) (cs : List (Int × FaultCall n)) :
    (a.faults cs).known = cs.foldl (fun s c => s.next c.2) a.known := by
  induction cs generalizing a with
  | nil => rfl
  | cons c cs ih =>
    change ((a.fault c).faults cs).known = cs.foldl _ (a.known.next c.2)
    rw [ih, known_fault]

theorem Mirrors.annotateCrashed {a : Annotator n} (h : a.Mirrors) (t : Int)
    (servers : List (Fin n)) (value : Bool) : (a.annotateCrashed t servers value).Mirrors := by
  cases hchanged : (setCrashed a.finfo.crashed servers value).1 with
  | true =>
    simp only [Annotator.annotateCrashed, hchanged, if_true]
    exact annotateFault_mirrors _ t
  | false =>
    simp only [Annotator.annotateCrashed, hchanged, setCrashed_unchanged hchanged]
    exact h

theorem Mirrors.fault {a : Annotator n} (h : a.Mirrors) (c : Int × FaultCall n) :
    (a.fault c).Mirrors := by
  obtain ⟨t, call⟩ := c
  cases call with
  | connection connection =>
    simp only [Annotator.fault, annotateConnection]
    split
    · exact h
    · exact annotateFault_mirrors _ t
  | shutdown servers => exact h.annotateCrashed t servers true
  | shutdownAll => exact h.annotateCrashed t _ true
  | restart servers => exact h.annotateCrashed t servers false
  | restartAll => exact h.annotateCrashed t _ false
  | clearFailure =>
    have hclosed := lookup_annotateContinuousEnd a.an t tagPartition
    constructor
    · exact iff_of_true hclosed ⟨fun _ => rfl, fun _ => rfl⟩
    · intro cont hcont
      rw [Annotator.fault, annotateClearFailure, hclosed] at hcont
      cases hcont

theorem Mirrors.annotateTest (an : Annotation) (t : Int) (test : String) (n : Nat) :
    (annotateTest an t test n).Mirrors := by
  constructor
  · exact iff_of_true rfl ⟨fun _ => rfl, fun _ => rfl⟩
  · intro cont hcont
    cases hcont

/-- The fault annotation mirrors the state of the servers after every sequence of calls: the
state that is kept is the last one announced, by whatever calls; the annotation is open exactly
if a server is disconnected or crashed there; and its text shows every server once, among the
crashed ones, in the connected block or by itself. -/
theorem fault_annotation_mirrors (an : Annotation) (t : Int) (test : String) (n : Nat)
    (cs : List (Int × FaultCall n)) :
    let a := (Tester.annotateTest an t test n).faults cs
    let s := announced cs
    (a.finfo.connected = s.connected ∧ a.finfo.crashed = s.crashed) ∧
    ((∃ cont, a.an.continuous.lookup tagPartition = some cont) ↔
      ∃ id, s.connected id = false ∨ s.crashed id = true) ∧
    ∀ cont, a.an.continuous.lookup tagPartition = some cont →
      ∃ singles conn crashes : List Nat, cont.desp = render singles conn crashes ∧
        (singles ++ conn ++ crashes).Perm (List.range n) ∧
        ∀ id : Fin n, (id.val ∈ crashes ↔ s.crashed id = true) ∧
          (id.val ∈ conn ↔ s.crashed id = false ∧ s.connected id = true) ∧
          (id.val ∈ singles ↔ s.crashed id = false ∧ s.connected id = false) := by
  intro a s
  have hknown : a.known = s := known_faults (Tester.annotateTest an t test n) cs
  have hconnected : a.finfo.connected = s.connected := congrArg Announced.connected hknown
  have hcrashed : a.finfo.crashed = s.crashed := congrArg Announced.crashed hknown
  have hmirrors : a.Mirrors := by
    refine List.foldlRecOn cs Annotator.fault (Mirrors.annotateTest an t test n) ?_
    intro a ha c _
    exact ha.fault c
  refine ⟨⟨hconnected, hcrashed⟩, ?_, ?_⟩
  · rw [← Option.ne_none_iff_exists', ne_eq, hmirrors.closed_iff, Healthy, hconnected, hcrashed]
    simp only [not_and_or, not_forall, Bool.not_eq_true, Bool.not_eq_false, exists_or]
  · intro cont hcont
    refine ⟨(singles a.finfo).map Fin.val, (conn a.finfo).map Fin.val,
      (crashes a.finfo).map Fin.val, ?_, parts_perm a.finfo, ?_⟩
    · rw [hmirrors.text cont hcont, faultText_eq]
    · intro id
      rw [← hconnected, ← hcrashed]
      simp [crashes, conn, singles, Fin.val_inj, and_comm]

end Annotator

end Tester
