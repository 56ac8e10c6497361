import InstructionCard.Proofs.Frame.Decode

/-!
# Torn frames

What reading makes of a frame of which only the first bytes are there. Without the zero at its end it still
reads as the value. Anything shorter is refused: a cut through a block breaks the stuffing, and a cut between
two blocks leaves a payload of which something is missing, and no part of a written value reads as a value.
-/

set_option autoImplicit false

namespace InstructionCard.Frame

section

variable {α : Type} [Wire α]

/-- A cut before the zero falls into the stuffed part. -/
theorem take_ofValue {a : α} {count : Nat} (torn : count ≤ (stuff (Wire.write a)).length) :
    (ofValue a).take count = (stuff (Wire.write a)).take count := by
  rw [ofValue_eq, List.take_append_of_le_length torn]

variable [LawfulWire α]

/-- Nothing but the zero at the end is missing. -/
theorem decode_take_ofValue {a : α} {count : Nat} (enough : (ofValue a).length - 1 ≤ count) :
    decode ((ofValue a).take count) = .ok a := by
  rw [length_ofValue_eq, Nat.add_sub_cancel] at enough
  apply decode_of_body
  rcases Nat.eq_or_lt_of_le enough with rfl | whole
  · rw [take_ofValue (Nat.le_refl _), List.take_length, body_eq_self (ne_zero_of_mem_stuff _)]
  · rw [List.take_of_length_le (by rw [length_ofValue_eq]; omega)]
    simpa using body_ofValue_append a []

/-- The first blocks of a frame hold a payload that stops inside the value. -/
theorem exists_read_eq_error_of_intact {a : α} {start rest : List UInt8}
    (parts : stuff (Wire.write a) = start ++ rest) (some : start ≠ []) (left : rest ≠ [])
    (short : start.length < 255) (intact : (unstuff start).intact = true) :
    ∃ cause, (Wire.read (unstuff start).bytes : Except WireError (α × List UInt8)) = .error cause := by
  obtain ⟨missing, more, payload⟩ := exists_missing_of_intact parts some left short intact
  exact Wire.exists_read_eq_error a payload more

/-- **A torn frame is refused.** -/
theorem exists_decode_take_eq_error {a : α} (short : (ofValue a).length ≤ 256) {count : Nat}
    (torn : count < (ofValue a).length - 1) :
    ∃ cause, (decode ((ofValue a).take count) : Except FrameError α) = .error (.wire cause) := by
  rw [length_ofValue_eq] at short torn
  rw [take_ofValue (by omega)]
  generalize split : (stuff (Wire.write a)).take count = start
  have parts : stuff (Wire.write a) = start ++ (stuff (Wire.write a)).drop count := by
    rw [← split, List.take_append_drop]
  have zeroFree : ∀ b ∈ start, b ≠ 0 := fun b mem =>
    ne_zero_of_mem_stuff _ b (List.mem_of_mem_take (split ▸ mem))
  rw [decode, body_eq_self zeroFree]
  by_cases some : start = []
  · rw [some]
    exact ⟨_, rfl⟩
  cases intact : (unstuff start).intact with
  | false => exact ⟨.badEncoding, by simp⟩
  | true =>
    have left : (stuff (Wire.write a)).drop count ≠ [] := by
      rw [Ne, List.drop_eq_nil_iff]
      omega
    have length : start.length < 255 := by
      rw [← split, List.length_take]
      omega
    obtain ⟨cause, refused⟩ := exists_read_eq_error_of_intact parts some left length intact
    exact ⟨cause, by simp [some, refused]⟩

end

/-- However a frame is cut, it reads as the value it holds or as none. -/
def NeverMistaken (α : Type) [Wire α] : Prop :=
  ∀ (a : α) (size : Nat) (frame : List UInt8), encode a size = .ok frame → ∀ count ≤ frame.length,
    (frame.length - 1 ≤ count → decode (frame.take count) = .ok a) ∧
    (count < frame.length - 1 →
      ∃ cause, (decode (frame.take count) : Except FrameError α) = .error (.wire cause))

/-- In front of a full block every cut is noticed, and a frame of up to 256 bytes has no cut behind one. -/
theorem NeverMistaken.of_length {α : Type} [Wire α] [LawfulWire α]
    (short : ∀ a : α, (ofValue a).length ≤ 256) : NeverMistaken α := by
  intro a size frame encoded count _
  obtain ⟨-, rfl⟩ := encode_eq_ok_iff.1 encoded
  exact ⟨decode_take_ofValue, exists_decode_take_eq_error (short a)⟩

/-- **Torn frames are never mistaken for events or settings.** -/
theorem neverMistaken_event_and_config : NeverMistaken Event ∧ NeverMistaken Config :=
  ⟨.of_length fun event => Nat.le_trans (length_ofValue_event_le event) (by decide),
    .of_length fun config => Nat.le_trans (length_ofValue_config_le config) (by decide)⟩

end InstructionCard.Frame
