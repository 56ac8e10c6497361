import InstructionCard.Proofs.Frame.Log
import InstructionCard.Proofs.Frame.Writing

/-!
# The size of a frame

A frame takes two bytes more than its value on the wire: the code byte of the first block and the zero at the end.
Every zero of the payload gives way to the code byte of the next block, so it makes no difference where zeros stand.
A buffer takes a frame if and only if it has so many bytes.
-/

set_option autoImplicit false

namespace InstructionCard.Frame

/-- The frames of a type are as long as its written values and two bytes, and never longer than `most`. A buffer of
`size` bytes is refused for this reason only. -/
structure ExactSizes (α : Type) [Wire α] (most : Nat) : Prop where
  inPlace : ∀ (a : α) (size : Nat), encodeInPlace a size = encode a size
  succeeds : ∀ (a : α) (size : Nat), (∃ frame, encode a size = .ok frame) ↔ (Wire.write a).length + 2 ≤ size
  length : ∀ (a : α) (size : Nat) (frame : List UInt8), encode a size = .ok frame →
    frame.length = (Wire.write a).length + 2
  same : ∀ (a : α) (size size' : Nat) (frame frame' : List UInt8), encode a size = .ok frame →
    encode a size' = .ok frame' → frame = frame'
  refused : ∀ (a : α) (size : Nat), size < (Wire.write a).length + 2 → ∃ cause,
    encode a size = .error (.wire cause) ∧ cause.message = "The serialize buffer is full"
  bounded : ∀ a : α, (Wire.write a).length + 2 ≤ most
  attained : ∃ a : α, (Wire.write a).length + 2 = most

/-- It is enough to bound the written values. -/
theorem ExactSizes.of_atMost {α : Type} [Wire α] {most : Nat} (bound : Wire.AtMost α most) (short : most ≤ 253)
    (longest : α) (attained : (Wire.write longest).length = most) : ExactSizes α (most + 2) :=
  have size (a : α) : (ofValue a).length = (Wire.write a).length + 2 :=
    length_ofValue (Nat.le_trans (bound a) short)
  { inPlace := encodeInPlace_eq
    succeeds := fun a room => by
      rw [← size]
      exact ⟨fun ⟨_, encoded⟩ => (encode_eq_ok_iff.1 encoded).1, fun fits => ⟨_, encode_eq_ok_iff.2 ⟨fits, rfl⟩⟩⟩
    length := fun a room frame encoded => by rw [(encode_eq_ok_iff.1 encoded).2, size]
    same := fun a room room' frame frame' encoded encoded' => by
      rw [(encode_eq_ok_iff.1 encoded).2, (encode_eq_ok_iff.1 encoded').2]
    refused := fun a room full => ⟨.bufferFull, encode_eq_error_iff.2 ⟨by rwa [size], rfl⟩, rfl⟩
    bounded := fun a => Nat.add_le_add_right (bound a) 2
    attained := ⟨longest, by rw [attained]⟩ }

/-- A late row that was decoded, with a number of five bytes and all six cells of its word. -/
def longestEvent : Event :=
  .rowDecoded 4294967295 (some (Vector.replicate 6 1)) .valid

def longestConfig : Config :=
  ⟨4294967295, 4294967295, 4294967295⟩

/-- **Frames of events and settings have exact sizes.** An event takes sixteen bytes at most and settings
seventeen. So a log with room for sixteen bytes a frame refuses events only when it is full. -/
theorem exactSizes_event_and_config :
    ExactSizes Event 16 ∧ ExactSizes Config 17 ∧
      ∀ limits : Log.Limits, 16 ≤ limits.frame → ∀ (log : Log) (event : Event), log.keep limits event =
        if log.size < limits.capacity then .ok { log with frames := log.frames ++ [ofValue event] }
        else .error .logFull :=
  ⟨.of_atMost Wire.atMost_event (by decide) longestEvent (by decide),
    .of_atMost Wire.atMost_config (by decide) longestConfig (by decide),
    fun _ roomy log event => log.keep_of_short (Nat.le_trans (length_ofValue_event_le event) roomy)⟩

/-- A buffer that is one byte short, and a log with just enough room for a frame of sixteen bytes. -/
theorem exactSizes_longestEvent :
    let limits : Log.Limits := { frame := 16, capacity := 1 }
    (Wire.write longestEvent).length = 14 ∧ (∃ frame, encode longestEvent 16 = .ok frame ∧ frame.length = 16) ∧
      (∃ cause, encode longestEvent 15 = .error (.wire cause) ∧ cause.message = "The serialize buffer is full") ∧
      Log.keep limits {} longestEvent = .ok { frames := [ofValue longestEvent] } := by
  intro limits
  have payload : (Wire.write longestEvent).length = 14 := by decide
  obtain ⟨sizes, -, roomy⟩ := exactSizes_event_and_config
  obtain ⟨frame, encoded⟩ := (sizes.succeeds longestEvent 16).2 (by rw [payload])
  refine ⟨payload, ⟨frame, encoded, ?_⟩, sizes.refused longestEvent 15 (by rw [payload]; decide), ?_⟩
  · rw [sizes.length longestEvent 16 frame encoded, payload]
  · exact roomy limits (by decide) {} longestEvent

end InstructionCard.Frame
