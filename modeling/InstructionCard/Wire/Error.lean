/-!
# Wire errors

Why bytes cannot be written or read.
-/

set_option autoImplicit false

namespace InstructionCard

inductive WireError where
  | bufferFull
  | unexpectedEnd
  | badVarint
  | badBool
  | badOption
  /-- The framing is broken. -/
  | badEncoding
  /-- No constructor has the index that was read. -/
  | badVariant
deriving DecidableEq, Repr

def WireError.message : WireError → String
  | bufferFull => "The serialize buffer is full"
  | unexpectedEnd => "Hit the end of buffer, expected more data"
  | badVarint => "Found a varint that didn't terminate. Is the usize too big for this platform?"
  | badBool => "Found a bool that wasn't 0 or 1"
  | badOption => "Found an Option discriminant that wasn't 0 or 1"
  | badEncoding => "The original data was not well encoded"
  | badVariant => "Serde Deserialization Error"

end InstructionCard
