import InstructionCard.Proofs.Frame.InPlace
import InstructionCard.Proofs.Frame.Writing
import InstructionCard.Proofs.Wire.Shortest

/-!
# Received frames written again

A frame is accepted in many forms: with idle bytes in its numbers, with bytes behind the value, cut into blocks at
will, with or without the zero at its end. Written again, the value never takes more room than the frame it came
from: its payload is the shortest one, and the first code byte of the stuffing is there in every form.
-/

set_option autoImplicit false

namespace InstructionCard.Frame

/-- The stuffed part reaches up to the first zero, or to the end of the buffer. -/
theorem length_body_eq_findIdx (buffer : List UInt8) : (body buffer).length = buffer.findIdx (· = 0) := by
  induction buffer with
  | nil => rfl
  | cons byte rest ih =>
    rw [body, List.takeWhile_cons, List.findIdx_cons]
    by_cases zero : byte = 0
    · simp [zero]
    · have later : (rest.takeWhile (· != 0)).length = _ := ih
      simp [zero, later]

/-- The first code byte stands for no byte of the payload. -/
theorem length_unstuff_lt {stuffed : List UInt8} (some : stuffed ≠ []) :
    (unstuff stuffed).bytes.length < stuffed.length := by
  obtain ⟨code, rest, rfl⟩ := List.exists_cons_of_ne_nil some
  rw [unstuff, List.length_cons]
  rcases Nat.lt_or_ge rest.length (code.toNat - 1) with past | covered
  · rw [unstuffAfter_past past]
    exact Nat.succ_pos _
  · rw [unstuffAfter_code _ _ _ covered]
    exact Nat.lt_succ_of_le (length_bytes_unstuffAfter_le (code.toNat - 1) (code != 255) rest)

section

variable {α : Type} [Wire α]

theorem exists_read_of_decode {buffer : List UInt8} {a : α} (h : decode buffer = .ok a) :
    ∃ rest, Wire.read (unstuff (body buffer)).bytes = .ok (a, rest) := by
  unfold decode at h
  dsimp only at h
  split at h
  · cases h
  · split at h
    · next b rest taken =>
      cases h
      exact ⟨rest, taken⟩
    · cases h

variable [LawfulWire α]

/-- A value that is not read from nothing takes a byte. -/
theorem length_write_pos {cause : WireError}
    (needs : (Wire.read [] : Except WireError (α × List UInt8)) = .error cause) (a : α) :
    0 < (Wire.write a).length := by
  refine List.length_pos_iff.2 fun none => ?_
  have whole := Wire.read_write a []
  rw [none, List.nil_append, needs] at whole
  cases whole

/-- **The stuffed part that was read has room for the value and its code byte.** -/
theorem length_write_lt_of_decode [ShortestWire α] {cause : WireError}
    (needs : (Wire.read [] : Except WireError (α × List UInt8)) = .error cause) {buffer : List UInt8} {a : α}
    (h : decode buffer = .ok a) : (Wire.write a).length < (body buffer).length := by
  obtain ⟨rest, taken⟩ := exists_read_of_decode h
  have shortest := Wire.takes_read taken
  have some : body buffer ≠ [] := by
    intro none
    have positive := length_write_pos needs a
    rw [none] at shortest
    exact absurd (Nat.le_trans (Nat.le_add_right _ _) shortest) (Nat.not_le.2 positive)
  exact Nat.lt_of_le_of_lt (Nat.le_trans (Nat.le_add_right _ _) shortest) (length_unstuff_lt some)

end

/-- What was read from a buffer can be written into the space in front of the first zero and that of the zero, and is
read back from there. -/
structure Normalises (α : Type) [Wire α] : Prop where
  readInPlace : ∀ buffer : List UInt8, decodeInPlace (α := α) buffer = (decode buffer, unstuffInPlace buffer)
  writtenInPlace : ∀ (a : α) (size : Nat), encodeInPlace a size = encode a size
  rewritten : ∀ (buffer : List UInt8) (a : α), decode buffer = .ok a → ∀ size, buffer.findIdx (· = 0) + 1 ≤ size →
    ∃ frame, encode a size = .ok frame ∧ decode frame = .ok a

/-- Up to 253 bytes of payload take one code byte and the zero, which no frame they were read from does without. -/
theorem Normalises.of_atMost {α : Type} [Wire α] [LawfulWire α] [ShortestWire α] {most : Nat}
    (bound : Wire.AtMost α most) (short : most ≤ 253) {cause : WireError}
    (needs : (Wire.read [] : Except WireError (α × List UInt8)) = .error cause) : Normalises α where
  readInPlace := decodeInPlace_eq
  writtenInPlace := encodeInPlace_eq
  rewritten buffer a decoded size room := by
    have less := length_write_lt_of_decode needs decoded
    have length : (ofValue a).length = (Wire.write a).length + 2 := length_ofValue (Nat.le_trans (bound a) short)
    rw [← length_body_eq_findIdx] at room
    exact ⟨ofValue a, encode_eq_ok_iff.2 ⟨by omega, rfl⟩, decode_ofValue a⟩

/-- **Received frames can be written again in their own space.** -/
theorem normalises_event_and_config : Normalises Event ∧ Normalises Config :=
  ⟨.of_atMost Wire.atMost_event (by decide) rfl, .of_atMost Wire.atMost_config (by decide) rfl⟩

/-- A frame without a zero at its end, with idle bytes in both numbers, a byte behind the value and an empty block
behind that: nine bytes and the zero that is missing are more than enough for the five that are needed. -/
theorem normalises_idleBytes :
    let buffer : List UInt8 := [4, 1, 133, 128, 2, 128, 2, 7, 1]
    decode buffer = .ok (Event.reread 5 0) ∧ buffer.findIdx (· = 0) = 9 ∧
      ∃ frame, encode (Event.reread 5 0) 10 = .ok frame ∧ frame.length = 5 ∧
        decode frame = .ok (Event.reread 5 0) := by
  intro buffer
  have decoded : decode buffer = .ok (Event.reread 5 0) := by decide
  have first : buffer.findIdx (· = 0) = 9 := by decide
  obtain ⟨frame, encoded, again⟩ := normalises_event_and_config.1.rewritten buffer _ decoded 10 (by rw [first])
  refine ⟨decoded, first, frame, encoded, ?_, again⟩
  rw [(encode_eq_ok_iff.1 encoded).2]
  decide

end InstructionCard.Frame
