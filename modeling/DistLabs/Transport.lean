import DistLabs.DemuxCalls
import DistLabs.Framing

/-!
# Frames on a connection

`WriteCall` writes the length of the encoded message as four bytes and then the
message; `ReadCall` reads them back. The bytes that reach the reader are any part
of what was written, from the beginning up to where the connection broke.

`labrpc.Marshall` and `Unmarshall` are a parameter that decodes what it encoded,
except that a slice without bytes may come back as nil.
-/
namespace Demux

open Framing Runs

/-! ## Messages -/

/-- `msg`; a nil slice is `none`. -/
structure Msg where
  tag : Ttag
  data : Option Bytes
  ok : Bool
  deriving DecidableEq

def Msg.bytes (m : Msg) : Bytes := m.data.getD []

/-- The same triple, up to the difference between nil and an empty slice. -/
structure Msg.Same (m m' : Msg) : Prop where
  tag : m.tag = m'.tag
  bytes : m.bytes = m'.bytes
  ok : m.ok = m'.ok

/-- `labrpc.Marshall` and `labrpc.Unmarshall` of messages; an error is that of `Decode`. -/
structure Gob where
  marshall : Msg → Bytes
  unmarshall : Bytes → Except String Msg
  roundTrip : ∀ m, ∃ m', unmarshall (marshall m) = .ok m' ∧ m'.Same m

/-- The four bytes of `uint32(n)`, the lowest first. -/
def putUint32 (n : Nat) : Bytes :=
  [UInt8.ofNat n, UInt8.ofNat (n / 256), UInt8.ofNat (n / 65536), UInt8.ofNat (n / 16777216)]

def uint32 : Bytes → Nat
  | [b₀, b₁, b₂, b₃] => b₀.toNat + 256 * b₁.toNat + 65536 * b₂.toNat + 16777216 * b₃.toNat
  | _ => 0

theorem uint32_putUint32 (n : Nat) (h : n < UInt32.size) : uint32 (putUint32 n) = n := by
  simp only [uint32, putUint32, UInt8.toNat_ofNat']
  simp only [UInt32.size] at h
  omega

/-- `binary.LittleEndian`, for a `uint32`. -/
def littleEndian : Header UInt8 where
  width := 4
  bound := UInt32.size
  encode := putUint32
  decode := uint32
  width_pos := by decide
  length_encode _ := rfl
  decode_encode := uint32_putUint32

/-! ## Reading and writing -/

def writeCall (c : Gob) (wrt : Bytes) (tag : Ttag) (d : Option Bytes) (ok : Bool) : Bytes :=
  let b := c.marshall ⟨tag, d, ok⟩
  wrt ++ putUint32 b.length ++ b

/-- The bytes on the connection after a sequence of calls. -/
def written (c : Gob) (calls : List Msg) : Bytes :=
  calls.foldl (fun wrt m => writeCall c wrt m.tag m.data m.ok) []

inductive ReadErr where
  | EOF
  | ErrUnexpectedEOF
  | shortRead
  deriving DecidableEq

def ReadErr.text : ReadErr → String
  | .EOF => "EOF"
  | .ErrUnexpectedEOF => "unexpected EOF"
  | .shortRead => "short read"

/-- Why `ReadCall` brings no message: an error that it returns, or the end of the process. -/
inductive ReadFail where
  | err (err : ReadErr)
  | fatal (text : String)
  deriving DecidableEq

/-- `io.ReadFull` of `n` bytes: what was read, and what is left. -/
def readFull (rdr : Bytes) (n : Nat) : Except ReadErr (Bytes × Bytes) :=
  if n ≤ rdr.length then .ok (rdr.take n, rdr.drop n)
  else if rdr = [] then .error .EOF
  else .error .ErrUnexpectedEOF

/-- The rest of `ReadCall`, once it has the length. -/
def readBody (c : Gob) (nbyte : Nat) (rdr : Bytes) : Except ReadFail (Msg × Bytes) :=
  match readFull rdr nbyte with
  | .error err => .error (.err err)
  | .ok (b, rdr) =>
    if b.length ≠ nbyte then .error (.err .shortRead)
    else
      match c.unmarshall b with
      | .error err => .error (.fatal ("Unmarshall fatal: decode reply err " ++ err))
      | .ok m => .ok (m, rdr)

def readCall (c : Gob) (rdr : Bytes) : Except ReadFail (Msg × Bytes) :=
  match readFull rdr 4 with
  | .error err => .error (.err err)
  | .ok (header, rdr) => readBody c (uint32 header) rdr

/-- Repeated `ReadCall`: what is left to read, and what was returned. -/
structure Reading where
  rdr : Bytes
  calls : List Msg

def readStep (c : Gob) (st : Reading) : Option Reading :=
  match readCall c st.rdr with
  | .ok (m, rdr) => some ⟨rdr, st.calls ++ [m]⟩
  | .error _ => none

theorem readFull_ok {rdr b rest : Bytes} {n : Nat} (h : readFull rdr n = .ok (b, rest)) :
    n ≤ rdr.length ∧ b = rdr.take n ∧ rest = rdr.drop n := by
  unfold readFull at h
  split at h
  · cases h
    exact ⟨‹_›, rfl, rfl⟩
  · split at h <;> cases h

theorem readBody_le {c : Gob} {nbyte : Nat} {rdr rest : Bytes} {m : Msg}
    (h : readBody c nbyte rdr = .ok (m, rest)) : rest.length ≤ rdr.length := by
  unfold readBody at h
  split at h
  · cases h
  · rename_i b rdr' hbody
    obtain ⟨-, -, rfl⟩ := readFull_ok hbody
    split at h
    · cases h
    · split at h
      · cases h
      · cases h
        rw [List.length_drop]
        exact Nat.sub_le _ _

/-- A call that returns a message has read at least its length. -/
theorem readCall_shorter {c : Gob} {rdr rest : Bytes} {m : Msg}
    (h : readCall c rdr = .ok (m, rest)) : rest.length < rdr.length := by
  unfold readCall at h
  split at h
  · cases h
  · rename_i header rdr' hheader
    obtain ⟨hlength, -, rfl⟩ := readFull_ok hheader
    have hle := readBody_le h
    rw [List.length_drop] at hle
    omega

theorem readStep_decreases (c : Gob) (st st' : Reading) (h : readStep c st = some st') :
    st'.rdr.length < st.rdr.length := by
  unfold readStep at h
  split at h
  · cases h
    exact readCall_shorter ‹_›
  · cases h

def readCalls (c : Gob) (rdr : Bytes) : Reading :=
  loop (readStep c) (fun st => st.rdr.length) (readStep_decreases c) ⟨rdr, []⟩

/-- What ends repeated `ReadCall`. -/
def readEnd (c : Gob) (rdr : Bytes) : Option ReadFail :=
  match readCall c (readCalls c rdr).rdr with
  | .error fail => some fail
  | .ok _ => none

/-- What `DemuxSrv.reader` has done when its loop is over: the requests it started
goroutines for, whether it marked the connection closed, and what it logged. -/
structure SrvRead where
  started : List (Ttag × Option Bytes)
  closed : Bool
  log : List String

def dmxsrvReader (c : Gob) (srvEnd clntEnd : String) (rdr : Bytes) : SrvRead :=
  let started := (readCalls c rdr).calls.map fun m => (m.tag, m.data)
  match readEnd c rdr with
  | some (.err err) =>
    if err = .EOF then ⟨started, true, []⟩
    else
      ⟨started, false,
        [srvEnd ++ ": dmxsrv.reader: clnt " ++ clntEnd ++ " ReadCall err " ++ err.text]⟩
  | some (.fatal text) => ⟨started, false, [text]⟩
  | none => ⟨started, false, []⟩

/-! ## One call -/

theorem readFull_append (a b : Bytes) : readFull (a ++ b) a.length = .ok (a, b) := by
  simp [readFull]

theorem readFull_nil {n : Nat} (hn : 0 < n) : readFull [] n = .error .EOF := by
  rw [readFull, if_neg (by simp; omega), if_pos rfl]

theorem readFull_short {rdr : Bytes} {n : Nat} (hne : rdr ≠ []) (hn : rdr.length < n) :
    readFull rdr n = .error .ErrUnexpectedEOF := by
  rw [readFull, if_neg (by omega), if_neg hne]

theorem readCall_header {c : Gob} {n : Nat} (hn : n < UInt32.size) (rdr : Bytes) :
    readCall c (putUint32 n ++ rdr) = readBody c n rdr := by
  have hheader : readFull (putUint32 n ++ rdr) 4 = .ok (putUint32 n, rdr) :=
    readFull_append (putUint32 n) rdr
  rw [readCall, hheader]
  simp only [uint32_putUint32 n hn]

theorem readCall_frame {c : Gob} {b : Bytes} {m : Msg} (hb : b.length < UInt32.size)
    (hm : c.unmarshall b = .ok m) (rest : Bytes) :
    readCall c (littleEndian.frame b ++ rest) = .ok (m, rest) := by
  change readCall c (putUint32 b.length ++ b ++ rest) = _
  rw [List.append_assoc, readCall_header hb, readBody, readFull_append]
  simp [hm]

theorem readCall_nil (c : Gob) : readCall c [] = .error (.err .EOF) := by
  rw [readCall, readFull_nil (by decide)]

/-- A torn frame is an error, and the wrong one if the whole length was there and no byte
of the body. -/
theorem readCall_torn {c : Gob} {b rest : Bytes} (hb : b.length < UInt32.size) (hne : rest ≠ [])
    (hpart : rest <+: littleEndian.frame b) (hlt : rest.length < 4 + b.length) :
    readCall c rest = .error (.err (if rest.length = 4 then .EOF else .ErrUnexpectedEOF)) := by
  rcases Nat.lt_or_ge rest.length 4 with hshort | hlong
  · rw [readCall, readFull_short hne hshort, if_neg (by omega)]
  · obtain ⟨part, rfl, -⟩ := littleEndian.prefix_frame hpart hlong
    have hlength : (littleEndian.encode b.length ++ part).length = 4 + part.length := by
      rw [List.length_append, littleEndian.length_encode]
      rfl
    rw [hlength] at hlt ⊢
    change readCall c (putUint32 b.length ++ part) = _
    rw [readCall_header hb, readBody]
    by_cases hpart : part = []
    · subst hpart
      rw [readFull_nil (by omega)]
      simp
    · have hpos := List.length_pos_iff.mpr hpart
      rw [readFull_short hpart (by omega), if_neg (by omega)]

/-! ## The loop -/

theorem written_eq (c : Gob) (calls : List Msg) :
    written c calls = littleEndian.stream (calls.map c.marshall) := by
  have hfold : ∀ wrt, calls.foldl (fun wrt m => writeCall c wrt m.tag m.data m.ok) wrt =
      wrt ++ littleEndian.stream (calls.map c.marshall) := by
    induction calls with
    | nil => simp [Header.stream]
    | cons m calls ih =>
      intro wrt
      rw [List.foldl_cons, ih]
      simp [writeCall, Header.stream, Header.frame, littleEndian]
  exact hfold []

/-- The message is what one frame decodes to, and that is the triple that was written. -/
structure Decoded (c : Gob) (m m' : Msg) : Prop where
  body : c.unmarshall (c.marshall m') = .ok m
  same : m.Same m'

theorem readStep_frame {c : Gob} {m m' : Msg} (hsize : (c.marshall m').length < UInt32.size)
    (hm : Decoded c m m') (rest : Bytes) (calls : List Msg) :
    readStep c ⟨littleEndian.frame (c.marshall m') ++ rest, calls⟩ = some ⟨rest, calls ++ [m]⟩ := by
  rw [readStep, readCall_frame hsize hm.body]

/-- Whole frames are read back one by one, up to a rest that brings no message. -/
theorem loop_readStep {c : Gob} {rest : Bytes} {fail : ReadFail}
    (hrest : readCall c rest = .error fail) (calls : List Msg)
    (hsize : ∀ m ∈ calls, (c.marshall m).length < UInt32.size) (before : List Msg) :
    ∃ ms, List.Forall₂ (Decoded c) ms calls ∧
      loop (readStep c) (fun st => st.rdr.length) (readStep_decreases c)
        ⟨littleEndian.stream (calls.map c.marshall) ++ rest, before⟩ = ⟨rest, before ++ ms⟩ := by
  induction calls generalizing before with
  | nil =>
    refine ⟨[], .nil, ?_⟩
    rw [loop_none (by simp [readStep, Header.stream, hrest])]
    simp [Header.stream]
  | cons m calls ih =>
    obtain ⟨m', hbody, hsame⟩ := c.roundTrip m
    have hstep := readStep_frame (hsize m List.mem_cons_self) ⟨hbody, hsame⟩
      (littleEndian.stream (calls.map c.marshall) ++ rest) before
    obtain ⟨ms, hms, hloop⟩ := ih (fun m hm => hsize m (List.mem_cons_of_mem _ hm))
      (before ++ [m'])
    refine ⟨m' :: ms, .cons ⟨hbody, hsame⟩ hms, ?_⟩
    have hstream : littleEndian.stream ((m :: calls).map c.marshall) ++ rest =
        littleEndian.frame (c.marshall m) ++
          (littleEndian.stream (calls.map c.marshall) ++ rest) := by
      simp [Header.stream]
    rw [hstream, loop_some hstep, hloop, List.append_assoc, List.singleton_append]

/-! ## A stream that is cut off -/

/-- Where the frame of the `j`-th call begins. -/
def offset (c : Gob) (calls : List Msg) (j : Nat) : Nat := (written c (calls.take j)).length

theorem offset_eq (c : Gob) (calls : List Msg) (j : Nat) :
    offset c calls j = littleEndian.offset (calls.map c.marshall) j := by
  rw [offset, written_eq, Header.offset, List.map_take]

/-- What `ReadCall` makes of the part of a frame that is left at the cut. -/
theorem readCall_rest {c : Gob} {calls : List Msg}
    (hsize : ∀ m ∈ calls, (c.marshall m).length < UInt32.size) {kept rest : Bytes} {k : Nat}
    (hcut : littleEndian.Cut (calls.map c.marshall) kept k rest) :
    readCall c rest = .error (.err
      (if rest = [] ∨ rest.length = 4 then .EOF else .ErrUnexpectedEOF)) := by
  by_cases hne : rest = []
  · rw [if_pos (Or.inl hne), hne, readCall_nil]
  · obtain ⟨body, hbody, hpart, hlt⟩ := hcut.torn hne
    obtain ⟨m, hm, rfl⟩ := List.mem_map.mp (List.mem_of_getElem? hbody)
    rw [readCall_torn (hsize m hm) hne hpart hlt]
    simp [hne]

/-- The cut determines what is read: the calls before it, and the error. -/
theorem readCalls_cut (c : Gob) {calls : List Msg}
    (hsize : ∀ m ∈ calls, (c.marshall m).length < UInt32.size) (n : Nat) :
    ∃ k rest, littleEndian.Cut (calls.map c.marshall) ((written c calls).take n) k rest ∧
      List.Forall₂ (Decoded c) (readCalls c ((written c calls).take n)).calls (calls.take k) ∧
      readEnd c ((written c calls).take n) =
        some (.err (if rest = [] ∨ rest.length = 4 then .EOF else .ErrUnexpectedEOF)) := by
  obtain ⟨k, rest, hcut⟩ := littleEndian.exists_cut (calls.map c.marshall) n
  rw [← written_eq] at hcut
  have hfail := readCall_rest hsize hcut
  obtain ⟨ms, hms, hloop⟩ := loop_readStep hfail (calls.take k)
    (fun m hm => hsize m (List.mem_of_mem_take hm)) []
  rw [List.map_take, ← hcut.split, List.nil_append] at hloop
  have hcalls : readCalls c ((written c calls).take n) = ⟨rest, ms⟩ := hloop
  refine ⟨k, rest, hcut, ?_, ?_⟩
  · rw [hcalls]
    exact hms
  · rw [readEnd, hcalls, hfail]

/-- Frame streams decode exactly: wherever the bytes that were written are cut off, repeated
`ReadCall` ends, has returned the triples of the frames that are whole, each from the body of
its own frame, and then returns an error. -/
theorem readCalls_exact (c : Gob) (calls : List Msg)
    (hsize : ∀ m ∈ calls, (c.marshall m).length < UInt32.size) (n : Nat) :
    (∃ passes, BreaksAfter (readStep c) passes ⟨(written c calls).take n, []⟩
      (readCalls c ((written c calls).take n))) ∧
    (∃ k, (∀ i, i < k ↔
        i < calls.length ∧ offset c calls (i + 1) ≤ ((written c calls).take n).length) ∧
      List.Forall₂ (Decoded c) (readCalls c ((written c calls).take n)).calls (calls.take k)) ∧
    ∃ err, readEnd c ((written c calls).take n) = some (.err err) := by
  obtain ⟨k, rest, hcut, hcalls, hend⟩ := readCalls_cut c hsize n
  refine ⟨?_, ⟨k, ?_, hcalls⟩, ⟨_, hend⟩⟩
  · obtain ⟨passes, -, hbreaks⟩ := loop_breaks (d := readStep_decreases c)
      (⟨(written c calls).take n, []⟩ : Reading)
    exact ⟨passes, hbreaks⟩
  · intro i
    rw [hcut.whole_iff, List.length_map, offset_eq]

/-- A codec for the examples: the tag, one byte for `ok`, and the data. -/
def plainGob : Gob where
  marshall m := putUint32 m.tag.toNat ++ (if m.ok then 1 else 0) :: m.bytes
  unmarshall b :=
    match b with
    | b₀ :: b₁ :: b₂ :: b₃ :: ok :: data =>
      .ok ⟨UInt32.ofNat (uint32 [b₀, b₁, b₂, b₃]), some data, ok = 1⟩
    | _ => .error "EOF"
  roundTrip := by
    intro m
    refine ⟨⟨m.tag, some m.bytes, m.ok⟩, ?_, rfl, rfl, rfl⟩
    have htag := uint32_putUint32 m.tag.toNat m.tag.toNat_lt
    simp only [putUint32] at htag
    simp only [putUint32, List.cons_append, List.nil_append, htag, UInt32.ofNat_toNat]
    cases hok : m.ok <;> rfl

/-- A request of one byte and a failed reply without data: frames of ten and of nine bytes. -/
def twoCalls : List Msg := [⟨0, some [7], true⟩, ⟨1, none, false⟩]

theorem twoCalls_cut_in_second : ∃ m err,
    (readCalls plainGob ((written plainGob twoCalls).take 14)).calls = [m] ∧
      m.Same ⟨0, some [7], true⟩ ∧
      readEnd plainGob ((written plainGob twoCalls).take 14) = some (.err err) := by
  obtain ⟨-, ⟨k, hk, hcalls⟩, err, hend⟩ := readCalls_exact plainGob twoCalls (by decide) 14
  obtain rfl : k = 1 := by
    have hfirst := (hk 0).mpr (by decide)
    have hsecond := mt (hk 1).mp (by decide)
    omega
  obtain ⟨m, ms, hm, hms, hcons⟩ := List.forall₂_cons_right_iff.mp hcalls
  cases hms
  exact ⟨m, err, hcons, hm.same, hend⟩

/-- The reader marks the connection closed exactly at `io.EOF`. -/
theorem dmxsrvReader_closed_iff (c : Gob) (srvEnd clntEnd : String) (rdr : Bytes) :
    (dmxsrvReader c srvEnd clntEnd rdr).closed = true ↔ readEnd c rdr = some (.err .EOF) := by
  unfold dmxsrvReader
  split
  · rename_i err hend
    by_cases heof : err = .EOF <;> simp [hend, heof]
  · rename_i text hend
    simp [hend]
  · rename_i hend
    simp [hend]

/-- A clean close is told apart from a torn frame exactly if the cut does not lie right behind
the length of a frame. -/
theorem eof_iff_clean_cut (c : Gob) (calls : List Msg)
    (hsize : ∀ m ∈ calls, (c.marshall m).length < UInt32.size)
    (hbody : ∀ m ∈ calls, c.marshall m ≠ []) (srvEnd clntEnd : String) (n : Nat) :
    ((readEnd c ((written c calls).take n) = some (.err .EOF) ↔
        ∃ j ≤ calls.length, ((written c calls).take n).length = offset c calls j) ∧
      ((dmxsrvReader c srvEnd clntEnd ((written c calls).take n)).closed = true →
        ∃ j ≤ calls.length, ((written c calls).take n).length = offset c calls j)) ↔
    ¬ ∃ j < calls.length, ((written c calls).take n).length = offset c calls j + 4 := by
  obtain ⟨k, rest, hcut, -, hend⟩ := readCalls_cut c hsize n
  have hboundary := hcut.boundary_iff
  have hplace := hcut.place_iff (d := 4) (by
    intro body hmem
    obtain ⟨m, hm, rfl⟩ := List.mem_map.mp hmem
    have hpos := List.length_pos_iff.mpr (hbody m hm)
    change 4 < 4 + _
    omega)
  simp only [List.length_map, ← offset_eq] at hboundary hplace
  rw [dmxsrvReader_closed_iff, hend, hboundary, hplace]
  have hinside : rest.length = 4 → k < calls.length := by
    intro hlength
    have hlt := hcut.lt_of_torn (by
      rintro rfl
      cases hlength)
    rwa [List.length_map] at hlt
  by_cases hrest : rest = []
  · simp [hrest]
  · by_cases hlength : rest.length = 4
    · simp [hrest, hlength, hinside hlength]
    · simp [hrest, hlength]

theorem twoCalls_clean_cut :
    readEnd plainGob ((written plainGob twoCalls).take 10) = some (.err .EOF) ∧
      (dmxsrvReader plainGob "server" "client" ((written plainGob twoCalls).take 10)).closed =
        true := by
  have hclean := (eof_iff_clean_cut plainGob twoCalls (by decide) (by decide) "server" "client"
    10).mpr (by decide)
  have hend := hclean.1.mpr ⟨1, by decide⟩
  exact ⟨hend, (dmxsrvReader_closed_iff ..).mpr hend⟩

/-- Of the first frame only the length arrives; the reader takes it for a clean close. -/
theorem torn_after_length :
    readEnd plainGob ((written plainGob twoCalls).take 4) = some (.err .EOF) ∧
      dmxsrvReader plainGob "server" "client" ((written plainGob twoCalls).take 4) =
        ⟨[], true, []⟩ ∧
      ¬ ∃ j ≤ twoCalls.length,
        ((written plainGob twoCalls).take 4).length = offset plainGob twoCalls j := by
  have hfail : readCall plainGob ((written plainGob twoCalls).take 4) = .error (.err .EOF) := rfl
  have hcalls : readCalls plainGob ((written plainGob twoCalls).take 4) =
      ⟨(written plainGob twoCalls).take 4, []⟩ := loop_none (by rw [readStep, hfail])
  have hend : readEnd plainGob ((written plainGob twoCalls).take 4) = some (.err .EOF) := by
    rw [readEnd, hcalls, hfail]
  refine ⟨hend, ?_, by decide⟩
  rw [dmxsrvReader, hend, hcalls]
  rfl

/-! ## The frames of the demultiplexer -/

def Frame.msg (f : Frame) : Msg := ⟨f.tag, some f.data, f.ok⟩

/-- The goroutine that the reader starts for a frame. -/
def Frame.go (f : Frame) : Go := ⟨f.tag, f.data, none, false, f.origin⟩

theorem run_srvReadCall (k : Nat) (s : State) (hr : s.srvReader = .reading)
    (hk : k ≤ s.c2s.length) : run step s (List.replicate k .srvReadCall) = some { s with
      c2s := s.c2s.drop k
      gos := s.gos ++ (s.c2s.take k).map Frame.go } := by
  induction k generalizing s with
  | zero => simp
  | succ k ih =>
    cases hc : s.c2s with
    | nil => simp [hc] at hk
    | cons f rest =>
      have hstep : step s .srvReadCall = some { s with c2s := rest, gos := s.gos ++ [f.go] } := by
        simp only [step, State.server, hr, hc]
        rfl
      rw [hc, List.length_cons] at hk
      have hrest := ih { s with c2s := rest, gos := s.gos ++ [f.go] } hr (Nat.le_of_succ_le_succ hk)
      rw [List.replicate_succ, run_cons, hstep, Option.bind_some, hrest]
      simp

theorem step_srvReadFail (s : State) (hr : s.srvReader = .reading) (eof : Bool) :
    step s (.srvReadFail eof) =
      some { s with srvReader := .stopped, srvClosed := s.srvClosed || eof } := by
  simp only [step, State.server, hr]

/-- A decoded message is the request of the frame that carried it. -/
theorem started_eq {c : Gob} {ms : List Msg} {frames : List Frame}
    (h : List.Forall₂ (Decoded c) ms (frames.map Frame.msg)) :
    (ms.map fun m => (m.tag, m.data)).map (fun r => (r.1, r.2.getD [])) =
      (frames.map Frame.go).map fun go => (go.tag, go.req) := by
  induction frames generalizing ms with
  | nil =>
    cases h
    rfl
  | cons f frames ih =>
    obtain ⟨m, ms, hm, hms, rfl⟩ := List.forall₂_cons_right_iff.mp h
    have hbytes : m.data.getD [] = f.data := hm.same.bytes
    have htag : m.tag = f.tag := hm.same.tag
    simp only [List.map_cons, ih hms, hbytes, htag, Frame.go]

/-- What the server reads from a connection that is cut off is a run of `DemuxSrv` over the
frames that were sent: it reads some of them, in order, and then its read fails. -/
theorem dmxsrvReader_run (c : Gob) (srvEnd clntEnd : String) (s : State)
    (hr : s.srvReader = .reading)
    (hsize : ∀ f ∈ s.c2s, (c.marshall f.msg).length < UInt32.size) (n : Nat) {read : SrvRead}
    (hread : dmxsrvReader c srvEnd clntEnd ((written c (s.c2s.map Frame.msg)).take n) = read) :
    ∃ k t, run step s (List.replicate k .srvReadCall ++ [.srvReadFail read.closed]) = some t ∧
      t.srvReader = .stopped ∧ t.srvClosed = (s.srvClosed || read.closed) ∧
      t.gos.map (fun go => (go.tag, go.req)) =
        s.gos.map (fun go => (go.tag, go.req)) ++ read.started.map fun r => (r.1, r.2.getD []) := by
  have hsize' : ∀ m ∈ s.c2s.map Frame.msg, (c.marshall m).length < UInt32.size := by
    intro m hm
    obtain ⟨f, hf, rfl⟩ := List.mem_map.mp hm
    exact hsize f hf
  obtain ⟨k, rest, hcut, hcalls, hend⟩ := readCalls_cut c hsize' n
  have hk : k ≤ s.c2s.length := by simpa using hcut.le
  have hstarted : read.started =
      (readCalls c ((written c (s.c2s.map Frame.msg)).take n)).calls.map
        fun m => (m.tag, m.data) := by
    rw [← hread, dmxsrvReader, hend]
    simp only
    split <;> rfl
  rw [← List.map_take] at hcalls
  obtain ⟨t, hrun, hreading, hclosed, hgos⟩ :
      ∃ t, run step s (List.replicate k .srvReadCall) = some t ∧ t.srvReader = .reading ∧
        t.srvClosed = s.srvClosed ∧ t.gos = s.gos ++ (s.c2s.take k).map Frame.go :=
    ⟨_, run_srvReadCall k s hr hk, hr, rfl, rfl⟩
  have hfail := step_srvReadFail t hreading read.closed
  refine ⟨k, _, run_concat_eq_some.mpr ⟨t, hrun, hfail⟩, rfl, by rw [hclosed], ?_⟩
  rw [hgos, List.map_append, hstarted, started_eq hcalls]

end Demux
