import Mathlib.Data.List.TakeWhile
import InstructionCard.Proofs.Frame.Stuffing
import InstructionCard.Proofs.Wire.Length

/-!
# Reading frames

A frame is read back whatever follows it: `decode_ofValue_append`. What stands behind the zero that ends it
is neither looked at nor changed.
-/

set_option autoImplicit false

namespace InstructionCard.Frame

/-! ## The stuffed part -/

theorem body_eq_self {bytes : List UInt8} (zeroFree : ∀ b ∈ bytes, b ≠ 0) : body bytes = bytes :=
  List.takeWhile_eq_self_iff.2 fun b mem => bne_iff_ne.2 (zeroFree b mem)

/-- The part that is unstuffed ends at the first zero. -/
theorem body_append_zero {bytes : List UInt8} (zeroFree : ∀ b ∈ bytes, b ≠ 0) (more : List UInt8) :
    body (bytes ++ 0 :: more) = bytes := by
  rw [body, List.takeWhile_append_of_pos fun b mem => bne_iff_ne.2 (zeroFree b mem),
    List.takeWhile_cons_of_neg (by decide), List.append_nil]

theorem length_body_le (buffer : List UInt8) : (body buffer).length ≤ buffer.length :=
  (List.takeWhile_prefix _).length_le

theorem length_unstuff_le (buffer : List UInt8) : (unstuff (body buffer)).bytes.length ≤ (body buffer).length :=
  length_bytes_unstuffAfter_le 0 false (body buffer)

theorem length_unstuffInPlace (buffer : List UInt8) : (unstuffInPlace buffer).length = buffer.length := by
  have room := Nat.le_trans (length_unstuff_le buffer) (length_body_le buffer)
  rw [unstuffInPlace, List.length_append, List.length_drop]
  omega

/-- **Unstuffing in place keeps what stands behind the stuffed bytes.** -/
theorem drop_unstuffInPlace {buffer : List UInt8} {start : Nat} (behind : (body buffer).length ≤ start) :
    (unstuffInPlace buffer).drop start = buffer.drop start := by
  have room := Nat.le_trans (length_unstuff_le buffer) behind
  rw [unstuffInPlace, List.drop_append, List.drop_eq_nil_of_le room, List.nil_append, List.drop_drop,
    Nat.add_sub_cancel' room]

section

variable {α : Type} [Wire α]

theorem ofValue_eq (a : α) : ofValue a = stuff (Wire.write a) ++ [0] := rfl

theorem stuff_ne_nil (bytes : List UInt8) : stuff bytes ≠ [] := by
  intro none
  have start := unstuff_stuff bytes
  rw [none] at start
  cases start
  cases none

theorem ofValue_append (a : α) (more : List UInt8) :
    ofValue a ++ more = stuff (Wire.write a) ++ 0 :: more := by
  rw [ofValue_eq, List.append_assoc, List.singleton_append]

theorem body_ofValue_append (a : α) (more : List UInt8) : body (ofValue a ++ more) = stuff (Wire.write a) := by
  rw [ofValue_append, body_append_zero (ne_zero_of_mem_stuff _)]

theorem length_ofValue_eq (a : α) : (ofValue a).length = (stuff (Wire.write a)).length + 1 := by
  rw [ofValue_eq, List.length_append, List.length_singleton]

/-- A short value takes two bytes more in a frame. -/
theorem length_ofValue {a : α} (short : (Wire.write a).length ≤ 253) :
    (ofValue a).length = (Wire.write a).length + 2 := by
  rw [length_ofValue_eq, length_stuff short]

/-- A value is encoded as its one frame if the buffer has room for it. -/
theorem encode_eq_ok_iff {a : α} {size : Nat} {frame : List UInt8} :
    encode a size = .ok frame ↔ (ofValue a).length ≤ size ∧ frame = ofValue a := by
  rw [encode]
  by_cases fits : (ofValue a).length ≤ size
  · rw [if_pos fits, Except.ok.injEq]
    exact ⟨fun same => ⟨fits, same.symm⟩, fun both => both.2.symm⟩
  · rw [if_neg fits]
    exact ⟨nofun, fun both => absurd both.1 fits⟩

/-- Lack of room is the only failure. -/
theorem encode_eq_error_iff {a : α} {size : Nat} {e : FrameError} :
    encode a size = .error e ↔ size < (ofValue a).length ∧ e = .wire .bufferFull := by
  rw [encode]
  by_cases fits : (ofValue a).length ≤ size
  · rw [if_pos fits]
    exact ⟨nofun, fun both => absurd both.1 (Nat.not_lt.2 fits)⟩
  · rw [if_neg fits, Except.error.injEq]
    exact ⟨fun same => ⟨Nat.lt_of_not_le fits, same.symm⟩, fun both => both.2.symm⟩

/-! ## Reading -/

variable [LawfulWire α]

/-- A buffer whose stuffed part is that of a frame holds the value of the frame. -/
theorem decode_of_body {a : α} {buffer : List UInt8} (whole : body buffer = stuff (Wire.write a)) :
    decode buffer = .ok a := by
  have some : buffer.isEmpty = false := by
    cases buffer with
    | nil => exact absurd whole.symm (stuff_ne_nil _)
    | cons byte rest => rfl
  have payload : Wire.read (Wire.write a) = .ok (a, []) := by simpa using Wire.read_write a []
  rw [decode, whole, unstuff_stuff, some]
  simp only [payload, Bool.not_true, Bool.or_false, if_neg, Bool.false_eq_true, not_false_iff]

/-- A frame is decoded whatever stands behind its zero. -/
theorem decode_ofValue_append (a : α) (more : List UInt8) : decode (ofValue a ++ more) = .ok a :=
  decode_of_body (body_ofValue_append a more)

theorem decode_ofValue (a : α) : decode (ofValue a) = .ok a := by
  simpa using decode_ofValue_append a []

end

/-! ## Events and settings -/

/-- Fourteen bytes of payload at most, one for the stuffing and the zero. -/
theorem length_ofValue_event_le (event : Event) : (ofValue event).length ≤ 16 := by
  have payload := Wire.atMost_event event
  rw [length_ofValue (Nat.le_trans payload (by decide))]
  omega

theorem length_ofValue_config_le (config : Config) : (ofValue config).length ≤ 17 := by
  have payload := Wire.atMost_config config
  rw [length_ofValue (Nat.le_trans payload (by decide))]
  omega

end InstructionCard.Frame
