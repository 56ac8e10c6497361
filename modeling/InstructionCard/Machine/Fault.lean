import InstructionCard.Alphabet.WordError
import InstructionCard.Machine.Value

/-!
# Faults

How a step of the machine ends, and why it did not go through. A program that lacks operands or divides
by zero is stopped; one that is broken is an error.
-/

set_option autoImplicit false

namespace InstructionCard

/-- How a step ends. -/
inductive RunState where
  | running
  | stopped
  | error
deriving DecidableEq, Repr

inductive Fault where
  | malformed (cause : WordError)
  | stackUnderflow (needed available : Nat)
  | divisionUnderflow
  | divisionByZero
  | moduloByZero
  | notHexDigit (v : Value)
  | notByte (v : Value)
  | stackOverflow
  | speechTooLong
deriving DecidableEq, Repr

namespace Fault

def state : Fault → RunState
  | stackUnderflow _ _ | divisionByZero | moduloByZero => .stopped
  | malformed _ | divisionUnderflow | notHexDigit _ | notByte _ | stackOverflow | speechTooLong => .error

def message : Fault → String
  | malformed cause => cause.message
  | stackUnderflow needed available =>
    s!"needed {needed} values on the stack but there are {available}"
  | divisionUnderflow => "division needs two operands"
  | divisionByZero => "division by zero"
  | moduloByZero => "modulo by zero"
  | notHexDigit v => s!"{v.describe} is not a hexadecimal digit"
  | notByte v => s!"{v.describe} is not a byte"
  | stackOverflow => "attempted opperation would overflow the stack"
  | speechTooLong => "spoken line does not fit the speech buffer"

end Fault

end InstructionCard
