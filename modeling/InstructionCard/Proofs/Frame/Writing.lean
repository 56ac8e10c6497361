import InstructionCard.Proofs.Frame.Decode

/-!
# Writing frames in place

A frame comes about in its buffer, one byte after the other. As long as a block is open, a zero keeps the place of
its code byte. Every byte has to find room, and the first that finds none ends the writing. The loop writes what
`encode` says, and fails where `encode` does (`encodeInPlace_eq`).
-/

set_option autoImplicit false

namespace InstructionCard.Frame

/-! ## The loop -/

/-- A frame under way: its bytes so far, and where the code byte of the open block belongs. -/
structure Draft where
  written : List UInt8
  code : Nat

/-- One byte more in a buffer of `size` bytes. -/
def putByte (size : Nat) (written : List UInt8) (byte : UInt8) : Except FrameError (List UInt8) :=
  if written.length < size then .ok (written ++ [byte]) else .error (.wire .bufferFull)

namespace Draft

/-- The bytes once the code byte of the open block is known. -/
def close (draft : Draft) : List UInt8 :=
  draft.written.set draft.code (UInt8.ofNat (draft.written.length - draft.code))

/-- Opens a block behind the bytes written. -/
def openAfter (size : Nat) (written : List UInt8) : Except FrameError Draft := do
  let next ← putByte size written 0
  .ok ⟨next, written.length⟩

/-- Closes the block once it is full. -/
def closeFull (size : Nat) (draft : Draft) : Except FrameError Draft :=
  if draft.written.length - draft.code = 255 then openAfter size draft.close else .ok draft

/-- One byte of the payload. A zero closes the block. -/
def push (size : Nat) (draft : Draft) (byte : UInt8) : Except FrameError Draft :=
  if byte = 0 then openAfter size draft.close
  else do
    let written ← putByte size draft.written byte
    closeFull size ⟨written, draft.code⟩

/-- The rest of the payload and the zero at the end. -/
def writeRest (size : Nat) (draft : Draft) : List UInt8 → Except FrameError (List UInt8)
  | [] => putByte size draft.close 0
  | byte :: rest => do
    let next ← draft.push size byte
    next.writeRest size rest

end Draft

/-- Writes the frame of a value into a buffer of `size` bytes. -/
def encodeInPlace {α : Type} [Wire α] (a : α) (size : Nat) : Except FrameError (List UInt8) := do
  let draft ← Draft.openAfter size []
  draft.writeRest size (Wire.write a)

/-! ## Room -/

/-- Bytes that are refused as a whole if the buffer has no room for them. -/
def fit (size : Nat) (bytes : List UInt8) : Except FrameError (List UInt8) :=
  if bytes.length ≤ size then .ok bytes else .error (.wire .bufferFull)

theorem encode_eq_fit {α : Type} [Wire α] (a : α) (size : Nat) : encode a size = fit size (ofValue a) := rfl

theorem putByte_eq_fit (size : Nat) (written : List UInt8) (byte : UInt8) :
    putByte size written byte = fit size (written ++ [byte]) := by
  rw [putByte, fit, List.length_append, List.length_singleton]
  rfl

/-- Where there is no room for some of the bytes, there is none for all of them. -/
theorem fit_bind {size : Nat} {some all : List UInt8} {next : List UInt8 → Except FrameError (List UInt8)}
    (le : some.length ≤ all.length) (writes : some.length ≤ size → next some = fit size all) :
    fit size some >>= next = fit size all := by
  by_cases room : some.length ≤ size
  · rw [fit, if_pos room]
    exact writes room
  · rw [fit, if_neg room, fit, if_neg fun all => room (Nat.le_trans le all)]
    rfl

/-! ## The loop writes stuffed bytes -/

theorem length_lt_stuffAfter (block bytes : List UInt8) : block.length < (stuffAfter block bytes).length := by
  have closed (block : List UInt8) : (closeBlock block).length = block.length + 1 := rfl
  induction bytes generalizing block with
  | nil => exact Nat.lt_succ_self _
  | cons byte rest ih =>
    have longer := ih (block ++ [byte])
    rw [List.length_append, List.length_singleton] at longer
    rw [stuffAfter]
    split
    · rw [List.length_append, closed]
      omega
    · split
      · rw [List.length_append, closed, List.length_append]
        omega
      · omega

namespace Draft

/-- A draft with whole blocks in front of the open one. -/
def of (done block : List UInt8) : Draft :=
  ⟨done ++ 0 :: block, done.length⟩

variable {size : Nat} {done block : List UInt8}

theorem of_concat (done block : List UInt8) (byte : UInt8) :
    of done (block ++ [byte]) = ⟨(of done block).written ++ [byte], (of done block).code⟩ := by
  simp only [of, List.append_assoc, List.cons_append]

theorem length_open (done block : List UInt8) :
    (of done block).written.length - (of done block).code = block.length + 1 := by
  rw [of, List.length_append, List.length_cons, Nat.add_sub_cancel_left]

theorem close_of (done block : List UInt8) : (of done block).close = done ++ closeBlock block := by
  rw [close, length_open, of, List.set_append_right _ _ (Nat.le_refl _), Nat.sub_self, List.set_cons_zero]
  rfl

/-- Opening a block takes one byte for its code. -/
theorem openAfter_bind (size : Nat) (done : List UInt8) (next : Draft → Except FrameError (List UInt8)) :
    openAfter size done >>= next = fit size (done ++ [0]) >>= fun _ => next (of done []) := by
  rw [openAfter, putByte_eq_fit, fit]
  split <;> rfl

/-- A block of 254 bytes is closed and another one opened. -/
theorem closeFull_of_full (full : block.length = 254) :
    closeFull size (of done block) = openAfter size (done ++ closeBlock block) := by
  rw [closeFull, length_open, full, if_pos rfl, close_of]

/-- Any other block stays open. -/
theorem closeFull_of_room (room : block.length ≠ 254) : closeFull size (of done block) = .ok (of done block) := by
  rw [closeFull, length_open, if_neg fun full => room (Nat.succ.inj full)]

/-- A zero closes the block and opens another one. -/
theorem push_zero (size : Nat) (done block : List UInt8) :
    (of done block).push size 0 = openAfter size (done ++ closeBlock block) := by
  rw [push, if_pos rfl, close_of]

/-- Any other byte goes into the open block. -/
theorem push_bind {byte : UInt8} (nonzero : byte ≠ 0) (next : Draft → Except FrameError (List UInt8)) :
    (of done block).push size byte >>= next = fit size (of done (block ++ [byte])).written >>= fun _ =>
      closeFull size (of done (block ++ [byte])) >>= next := by
  rw [push, if_neg nonzero, putByte_eq_fit, of_concat, fit]
  split <;> rfl

/-- The code byte of the block that is opened is one of the bytes to come. -/
theorem openAfter_writeRest {rest : List UInt8}
    (writes : (of done []).writeRest size rest = fit size (done ++ stuffAfter [] rest ++ [0])) :
    (openAfter size done >>= fun next => next.writeRest size rest) =
      fit size (done ++ stuffAfter [] rest ++ [0]) := by
  have more := length_lt_stuffAfter [] rest
  rw [openAfter_bind]
  refine fit_bind ?_ fun _ => writes
  simp only [List.length_append]
  omega

/-- **The loop from any byte on.** -/
theorem writeRest_of (short : block.length ≤ 253) (bytes : List UInt8) :
    (of done block).writeRest size bytes = fit size (done ++ stuffAfter block bytes ++ [0]) := by
  induction bytes generalizing done block with
  | nil => rw [writeRest, close_of, putByte_eq_fit, stuffAfter]
  | cons byte rest ih =>
    have blank : ([] : List UInt8).length ≤ 253 := Nat.zero_le 253
    have fresh (done : List UInt8) : (openAfter size done >>= fun next => next.writeRest size rest) =
        fit size (done ++ stuffAfter [] rest ++ [0]) := openAfter_writeRest (ih blank)
    rw [writeRest]
    by_cases zero : byte = 0
    · rw [stuffAfter, if_pos zero, zero, push_zero, fresh, List.append_assoc done]
    · have longer : (block ++ [byte]).length = block.length + 1 := by simp
      have length : (of done (block ++ [byte])).written.length = done.length + block.length + 2 := by simp [of]; omega
      rw [push_bind zero]
      -- A full block is closed at once, so the next code byte needs room even where the payload ends.
      by_cases full : block.length = 253
      · rw [stuffAfter, if_neg zero, if_pos full, closeFull_of_full (by omega), fresh, List.append_assoc done]
        refine fit_bind ?_ fun _ => rfl
        simp only [List.length_append, closeBlock, List.length_cons, length]
        omega
      · have more := length_lt_stuffAfter (block ++ [byte]) rest
        rw [stuffAfter, if_neg zero, if_neg full, closeFull_of_room (by omega)]
        refine fit_bind ?_ fun _ => ih (by omega)
        simp only [List.length_append, length]
        omega

end Draft

variable {α : Type} [Wire α]

/-- **Writing in place writes the frame.** -/
theorem encodeInPlace_eq (a : α) (size : Nat) : encodeInPlace a size = encode a size := by
  have blank : ([] : List UInt8).length ≤ 253 := Nat.zero_le 253
  rw [encode_eq_fit]
  exact Draft.openAfter_writeRest (Draft.writeRest_of blank (Wire.write a))

end InstructionCard.Frame
