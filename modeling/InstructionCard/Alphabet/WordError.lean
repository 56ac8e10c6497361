import InstructionCard.Binary.Cell

/-!
# Malformed words

Why cells or codes do not name a word of the card alphabet.
-/

set_option autoImplicit false

namespace InstructionCard

inductive WordError where
  | length (found : Nat)
  | invalidBit (index : Nat) (value : Cell)
  | outOfRange (code : UInt8)
  | notInstruction (code : UInt8)
  | notCharacter (code : UInt8)
deriving DecidableEq, Repr

/-- A code in binary with at least six digits. -/
def codeText (code : UInt8) : String :=
  "0b" ++ String.ofList ((Nat.toDigits 2 code.toNat).leftpad 6 '0')

def WordError.message : WordError → String
  | length found => s!"word has {found} bits, expected 6"
  | invalidBit index value => s!"bit {index} has value {value.toNat}, expected 0 or 1"
  | outOfRange code => s!"code {codeText code} does not fit in a word"
  | notInstruction code => s!"code {codeText code} is not an instruction"
  | notCharacter code => s!"code {codeText code} is not a character"

end InstructionCard
