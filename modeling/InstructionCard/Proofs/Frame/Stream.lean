import Mathlib.Data.List.Forall2
import InstructionCard.Proofs.Frame.InPlace

/-!
# Streams of frames

Frames that follow each other in one buffer are read in place, each from just behind the zero that ends the
one before. A call writes over the frame it reads and nothing else, so what the next call starts from is
still there, whatever stands behind the last frame.
-/

set_option autoImplicit false

namespace InstructionCard.Frame

/-- One call on a stream: where it starts, what it answers, and the buffer before and after. -/
structure Reading (α : Type) where
  start : Nat
  before : List UInt8
  answer : Except FrameError α
  after : List UInt8

/-- Where the zero stands that ends the frame at `start`. -/
def terminator (start : Nat) (buffer : List UInt8) : Nat :=
  start + (body (buffer.drop start)).length

section

variable {α : Type} [Wire α]

/-- The call that reads the frame at `start`. -/
def readAt (start : Nat) (buffer : List UInt8) : Reading α where
  start := start
  before := buffer
  answer := decode (buffer.drop start)
  after := buffer.take start ++ unstuffInPlace (buffer.drop start)

/-- As many calls, the first at `start` and every other behind the zero of the frame before. -/
def readStream : Nat → Nat → List UInt8 → List (Reading α)
  | 0, _, _ => []
  | count + 1, start, buffer =>
    let reading := readAt start buffer
    reading :: readStream count (terminator start buffer + 1) reading.after

end

/-- The call was about a frame with a zero at its end. That zero and all behind it are as they were. -/
structure Reading.KeepsRest {α : Type} (reading : Reading α) : Prop where
  ended : reading.before[terminator reading.start reading.before]? = some 0
  rest : reading.after.drop (terminator reading.start reading.before) =
    reading.before.drop (terminator reading.start reading.before)

/-! ## One call -/

section

variable {α : Type} [Wire α] {front : List UInt8} {a : α} {more : List UInt8}

/-- The call ends at the zero of the first frame behind `front`. -/
theorem terminator_append :
    terminator front.length (front ++ (ofValue a ++ more)) = front.length + (stuff (Wire.write a)).length := by
  rw [terminator, List.drop_left, body_ofValue_append]

/-- It answers the value of that frame. -/
theorem answer_readAt [LawfulWire α] :
    (readAt (α := α) front.length (front ++ (ofValue a ++ more))).answer = .ok a := by
  show decode _ = _
  rw [List.drop_left, decode_ofValue_append]

theorem after_readAt (front rest : List UInt8) :
    (readAt (α := α) front.length (front ++ rest)).after = front ++ unstuffInPlace rest := by
  show (front ++ rest).take front.length ++ unstuffInPlace ((front ++ rest).drop front.length) = _
  rw [List.take_left, List.drop_left]

/-- The call leaves as many bytes as it found, and those behind the frame are the same. -/
theorem exists_after_readAt (front : List UInt8) (a : α) (more : List UInt8) :
    ∃ written, written.length = (front ++ ofValue a).length ∧
      (readAt (α := α) front.length (front ++ (ofValue a ++ more))).after = written ++ more := by
  have behind : (body (ofValue a ++ more)).length ≤ (ofValue a).length := by
    rw [body_ofValue_append, length_ofValue_eq]
    exact Nat.le_succ _
  have kept := drop_unstuffInPlace behind
  rw [List.drop_left] at kept
  have parts := List.take_append_drop (ofValue a).length (unstuffInPlace (ofValue a ++ more))
  rw [kept] at parts
  refine ⟨front ++ (unstuffInPlace (ofValue a ++ more)).take (ofValue a).length, ?_, ?_⟩
  · rw [List.length_append, List.length_append, List.length_take, length_unstuffInPlace, List.length_append]
    omega
  · rw [after_readAt, List.append_assoc, parts]

/-- From the zero on the buffer is as it was. -/
theorem keepsRest_readAt : (readAt (α := α) front.length (front ++ (ofValue a ++ more))).KeepsRest where
  ended := by
    show (front ++ (ofValue a ++ more))[terminator front.length (front ++ (ofValue a ++ more))]? = some 0
    rw [terminator_append, List.getElem?_append_right (Nat.le_add_right _ _), Nat.add_sub_cancel_left,
      ofValue_append, List.getElem?_append_right (Nat.le_refl _), Nat.sub_self]
    rfl
  rest := by
    have kept := drop_unstuffInPlace (Nat.le_of_eq (congrArg List.length (body_ofValue_append a more)))
    rw [after_readAt]
    show (front ++ unstuffInPlace (ofValue a ++ more)).drop (terminator front.length (front ++ (ofValue a ++ more))) =
      (front ++ (ofValue a ++ more)).drop (terminator front.length (front ++ (ofValue a ++ more)))
    rw [terminator_append, List.drop_append, List.drop_append, Nat.add_sub_cancel_left, kept]

/-! ## All calls -/

/-- The first call reads the first frame, and the others go on behind its zero. -/
theorem readStream_cons (count : Nat) (front : List UInt8) (a : α) (more : List UInt8) :
    ∃ written, written.length = (front ++ ofValue a).length ∧
      readStream (α := α) (count + 1) front.length (front ++ (ofValue a ++ more)) =
        readAt front.length (front ++ (ofValue a ++ more)) ::
          readStream count written.length (written ++ more) := by
  obtain ⟨written, length, after⟩ := exists_after_readAt front a more
  refine ⟨written, length, ?_⟩
  have next : front.length + (stuff (Wire.write a)).length + 1 = written.length := by
    rw [length, List.length_append, length_ofValue_eq, Nat.add_assoc]
  rw [readStream]
  show _ :: readStream count _ _ = _
  rw [after, terminator_append, next]

end

/-- The frames are those of the values, each from a buffer that took it. -/
def FramesOf {α : Type} [Wire α] (values : List α) (frames : List (List UInt8)) : Prop :=
  List.Forall₂ (fun a frame => ∃ size, encode a size = .ok frame) values frames

/-- The calls gave the values in order, each from the start of its own frame, where the first one starts at
`start`. -/
structure ReadsBack {α : Type} (values : List α) (frames : List (List UInt8)) (start : Nat)
    (readings : List (Reading α)) : Prop where
  answers : readings.map Reading.answer = values.map Except.ok
  starts : readings.map Reading.start =
    (List.range frames.length).map fun i => start + (frames.take i).flatten.length
  keepsRest : ∀ reading ∈ readings, reading.KeepsRest

/-- **Frames in a row are read back one after the other**, whatever stands before and behind them. -/
theorem readStream_frames {α : Type} [Wire α] [LawfulWire α] {values : List α} {frames : List (List UInt8)}
    (framesOf : FramesOf values frames) (front more : List UInt8) :
    ReadsBack values frames front.length
      (readStream frames.length front.length (front ++ (frames.flatten ++ more))) := by
  induction framesOf generalizing front with
  | nil => exact ⟨rfl, rfl, nofun⟩
  | @cons a frame values frames first _ ih =>
    obtain ⟨size, encoded⟩ := first
    obtain ⟨-, rfl⟩ := encode_eq_ok_iff.1 encoded
    obtain ⟨written, length, calls⟩ := readStream_cons frames.length front a (frames.flatten ++ more)
    obtain ⟨answers, starts, keepsRest⟩ := ih written
    rw [List.flatten_cons, List.append_assoc, List.length_cons, calls]
    refine ⟨?_, ?_, ?_⟩
    · rw [List.map_cons, answers, answer_readAt, List.map_cons]
    · rw [List.map_cons, starts, List.length_cons, List.range_succ_eq_map, List.map_cons, List.map_map]
      congr 1
      refine List.map_congr_left fun i _ => ?_
      show _ = front.length + (List.take (i + 1) (ofValue a :: frames)).flatten.length
      rw [List.take_succ_cons, List.flatten_cons, List.length_append, length, List.length_append, Nat.add_assoc]
    · exact List.forall_mem_cons.2 ⟨keepsRest_readAt, keepsRest⟩

/-! ## Events and settings -/

/-- Values can be read back from a stream of their frames. A buffer of `room` bytes takes each frame. -/
structure Streams (α : Type) [Wire α] (room : Nat) : Prop where
  encoded : ∀ (a : α) (size : Nat), room ≤ size → ∃ frame, encode a size = .ok frame
  endsInZero : ∀ (a : α) (size : Nat) (frame : List UInt8), encode a size = .ok frame →
    ∃ stuffed, frame = stuffed ++ [0] ∧ ∀ b ∈ stuffed, b ≠ 0
  inPlace : ∀ buffer : List UInt8, decodeInPlace (α := α) buffer = (decode buffer, unstuffInPlace buffer)
  readsBack : ∀ (values : List α) (frames : List (List UInt8)), FramesOf values frames → ∀ front more,
    ReadsBack values frames front.length
      (readStream frames.length front.length (front ++ (frames.flatten ++ more)))

theorem Streams.of_length {α : Type} [Wire α] [LawfulWire α] {room : Nat}
    (fits : ∀ a : α, (ofValue a).length ≤ room) : Streams α room where
  encoded a _ enough := ⟨ofValue a, encode_eq_ok_iff.2 ⟨Nat.le_trans (fits a) enough, rfl⟩⟩
  endsInZero a _ _ encoded :=
    ⟨stuff (Wire.write a), (encode_eq_ok_iff.1 encoded).2, ne_zero_of_mem_stuff _⟩
  inPlace := decodeInPlace_eq
  readsBack _ _ framesOf front more := readStream_frames framesOf front more

/-- **Streams of event frames and streams of settings frames are read back.** -/
theorem streams_event_and_config : Streams Event 16 ∧ Streams Config 17 :=
  ⟨.of_length length_ofValue_event_le, .of_length length_ofValue_config_le⟩

end InstructionCard.Frame
