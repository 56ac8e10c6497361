import InstructionCard.Frame.Stuffing
import InstructionCard.Wire.Records

/-!
# Frames

A frame is a value on the wire, stuffed and ended by a zero. Reading a frame works inside its buffer:
the unstuffed bytes take the place of the first stuffed ones, also when the frame turns out to be
broken. The zero at the end may be missing, and what follows the value is not looked at.
-/

set_option autoImplicit false

namespace InstructionCard

/-- Why a frame cannot be built, read or kept. -/
inductive FrameError where
  | wire (cause : WireError)
  | logFull
deriving DecidableEq, Repr

def FrameError.message : FrameError → String
  | wire cause => "postcard: " ++ cause.message
  | logFull => "frame does not fit the log"

namespace Frame

variable {α : Type} [Wire α]

/-- The frame of a value. -/
def ofValue (a : α) : List UInt8 :=
  stuff (Wire.write a) ++ [0]

/-- The frame of a value in a buffer of `size` bytes. -/
def encode (a : α) (size : Nat) : Except FrameError (List UInt8) :=
  if (ofValue a).length ≤ size then .ok (ofValue a) else .error (.wire .bufferFull)

/-- The stuffed part of a buffer: all before the first zero. -/
def body (buffer : List UInt8) : List UInt8 :=
  buffer.takeWhile (· != 0)

/-- The value at the start of the frame in a buffer. -/
def decode (buffer : List UInt8) : Except FrameError α :=
  let unstuffed := unstuff (body buffer)
  if buffer.isEmpty || !unstuffed.intact then .error (.wire .badEncoding)
  else match Wire.read unstuffed.bytes with
    | .ok (a, _) => .ok a
    | .error cause => .error (.wire cause)

/-- The buffer after its frame has been unstuffed in place. -/
def unstuffInPlace (buffer : List UInt8) : List UInt8 :=
  let bytes := (unstuff (body buffer)).bytes
  bytes ++ buffer.drop bytes.length

end Frame

end InstructionCard
