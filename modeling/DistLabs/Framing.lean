import Mathlib.Data.List.Infix
import Mathlib.Data.List.TakeDrop

/-!
# Length-prefixed frames

A stream of frames, each the length of its body in a header of fixed width and
then the body. A stream that is cut at any place consists of whole frames and of
a rest that is a proper part of the next frame.
-/
namespace Framing

variable {β : Type*}

/-- How a length is written: in a fixed number of bytes, faithfully up to a bound. -/
structure Header (β : Type*) where
  width : Nat
  bound : Nat
  encode : Nat → List β
  decode : List β → Nat
  width_pos : 0 < width
  length_encode : ∀ n, (encode n).length = width
  decode_encode : ∀ n, n < bound → decode (encode n) = n

namespace Header

variable (H : Header β)

def frame (body : List β) : List β := H.encode body.length ++ body

def stream (bodies : List (List β)) : List β := bodies.flatMap H.frame

/-- Where the `j`-th frame begins. -/
def offset (bodies : List (List β)) (j : Nat) : Nat := (H.stream (bodies.take j)).length

@[simp] theorem length_frame (body : List β) :
    (H.frame body).length = H.width + body.length := by
  rw [frame, List.length_append, H.length_encode]

theorem stream_append (as bs : List (List β)) :
    H.stream (as ++ bs) = H.stream as ++ H.stream bs := List.flatMap_append

theorem offset_le (bodies : List (List β)) {i j : Nat} (h : i ≤ j) :
    H.offset bodies i ≤ H.offset bodies j := by
  have htake : bodies.take j = bodies.take i ++ (bodies.drop i).take (j - i) := by
    rw [← List.take_add, Nat.add_sub_cancel' h]
  rw [offset, offset, htake, stream_append, List.length_append]
  exact Nat.le_add_right _ _

theorem offset_succ {bodies : List (List β)} {j : Nat} {body : List β}
    (h : bodies[j]? = some body) :
    H.offset bodies (j + 1) = H.offset bodies j + (H.width + body.length) := by
  rw [offset, List.take_add_one, h, stream_append, List.length_append]
  simp [offset, stream]

/-- A part of a frame that has the whole header. -/
theorem prefix_frame {body rest : List β} (h : rest <+: H.frame body)
    (hlength : H.width ≤ rest.length) :
    ∃ part, rest = H.encode body.length ++ part ∧ part <+: body := by
  have hheader : H.encode body.length <+: rest :=
    List.prefix_of_prefix_length_le (List.prefix_append _ _) h (by rwa [H.length_encode])
  obtain ⟨part, rfl⟩ := hheader
  exact ⟨part, rfl, (List.prefix_append_right_inj _).mp h⟩

/-- What is kept of a stream: `k` whole frames, and a rest that begins the next one. -/
structure Cut (bodies : List (List β)) (kept : List β) (k : Nat) (rest : List β) : Prop where
  le : k ≤ bodies.length
  split : kept = H.stream (bodies.take k) ++ rest
  torn : rest ≠ [] → ∃ body, bodies[k]? = some body ∧ rest <+: H.frame body ∧
    rest.length < H.width + body.length

theorem exists_cut (bodies : List (List β)) (n : Nat) :
    ∃ k rest, H.Cut bodies ((H.stream bodies).take n) k rest := by
  induction bodies generalizing n with
  | nil => exact ⟨0, [], Nat.le_refl 0, by simp [stream], fun h => absurd rfl h⟩
  | cons body bodies ih =>
    have hstream : H.stream (body :: bodies) = H.frame body ++ H.stream bodies := rfl
    rcases Nat.lt_or_ge n (H.frame body).length with hn | hn
    · -- the first frame is torn
      have hkept : (H.stream (body :: bodies)).take n = (H.frame body).take n := by
        rw [hstream, List.take_append_of_le_length hn.le]
      refine ⟨0, (H.frame body).take n, Nat.zero_le _, by simpa [stream] using hkept, ?_⟩
      intro _
      refine ⟨body, rfl, List.take_prefix _ _, ?_⟩
      rw [List.length_take, ← H.length_frame]
      omega
    · obtain ⟨k, rest, hle, hsplit, htorn⟩ := ih (n - (H.frame body).length)
      refine ⟨k + 1, rest, Nat.succ_le_succ hle, ?_, htorn⟩
      rw [hstream, List.take_append, List.take_of_length_le hn, hsplit, List.take_succ_cons]
      simp [stream]

namespace Cut

variable {H} {bodies : List (List β)} {kept rest : List β} {k : Nat}

theorem length_eq (h : H.Cut bodies kept k rest) :
    kept.length = H.offset bodies k + rest.length := by
  rw [h.split, List.length_append, offset]

/-- The next frame, if there is one, is not whole. -/
theorem length_lt (h : H.Cut bodies kept k rest) (hk : k < bodies.length) :
    kept.length < H.offset bodies (k + 1) := by
  have hbody : bodies[k]? = some bodies[k] := List.getElem?_eq_getElem hk
  rw [h.length_eq, H.offset_succ hbody]
  by_cases hrest : rest = []
  · have hwidth := H.width_pos
    rw [hrest, List.length_nil]
    omega
  · obtain ⟨body, hbody', -, hlt⟩ := h.torn hrest
    rw [hbody] at hbody'
    cases hbody'
    omega

theorem lt_of_torn (h : H.Cut bodies kept k rest) (hrest : rest ≠ []) : k < bodies.length := by
  obtain ⟨body, hbody, -, -⟩ := h.torn hrest
  exact (List.getElem?_eq_some_iff.mp hbody).1

/-- The first `k` frames are those that lie inside what is kept. -/
theorem whole_iff (h : H.Cut bodies kept k rest) (i : Nat) :
    i < k ↔ i < bodies.length ∧ H.offset bodies (i + 1) ≤ kept.length := by
  constructor
  · intro hi
    have hle : H.offset bodies (i + 1) ≤ H.offset bodies k := H.offset_le bodies hi
    have hlength := h.length_eq
    have hk := h.le
    exact ⟨by omega, by omega⟩
  · rintro ⟨hi, hle⟩
    by_contra hk
    have hlt := h.length_lt (by omega)
    have hmono : H.offset bodies (k + 1) ≤ H.offset bodies (i + 1) :=
      H.offset_le bodies (by omega)
    omega

/-- Where the cut lies, for a distance from the beginning of a frame that is less than the
length of every frame. -/
theorem place_iff (h : H.Cut bodies kept k rest) {d : Nat}
    (hd : ∀ body ∈ bodies, d < H.width + body.length) :
    (∃ j < bodies.length, kept.length = H.offset bodies j + d) ↔
      k < bodies.length ∧ rest.length = d := by
  have hlength := h.length_eq
  constructor
  · rintro ⟨j, hj, hkept⟩
    have hbody : bodies[j]? = some bodies[j] := List.getElem?_eq_getElem hj
    have hnext := H.offset_succ hbody
    have hlt := hd bodies[j] (List.getElem_mem hj)
    rcases Nat.lt_trichotomy j k with hjk | rfl | hjk
    · have hmono : H.offset bodies (j + 1) ≤ H.offset bodies k := H.offset_le bodies hjk
      omega
    · exact ⟨hj, by omega⟩
    · have hmono : H.offset bodies (k + 1) ≤ H.offset bodies j := H.offset_le bodies hjk
      have hk := h.length_lt (by omega)
      omega
  · rintro ⟨hk, hrest⟩
    exact ⟨k, hk, by omega⟩

/-- The cut lies between two frames, or at an end, exactly if nothing is left over. -/
theorem boundary_iff (h : H.Cut bodies kept k rest) :
    (∃ j ≤ bodies.length, kept.length = H.offset bodies j) ↔ rest = [] := by
  have hlength := h.length_eq
  constructor
  · rintro ⟨j, hj, hkept⟩
    apply List.eq_nil_of_length_eq_zero
    by_cases hk : k < bodies.length
    · rcases Nat.lt_or_ge k j with hjk | hjk
      · have hmono : H.offset bodies (k + 1) ≤ H.offset bodies j := H.offset_le bodies hjk
        have hlt := h.length_lt hk
        omega
      · have hmono := H.offset_le bodies hjk
        omega
    · by_contra hrest
      have hne : rest ≠ [] := by
        rintro rfl
        exact hrest rfl
      exact hk (h.lt_of_torn hne)
  · rintro rfl
    exact ⟨k, h.le, by simpa using hlength⟩

end Cut

end Header

end Framing
