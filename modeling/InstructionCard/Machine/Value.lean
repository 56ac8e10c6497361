import InstructionCard.Alphabet.Symbol
import InstructionCard.Binary.Cell

/-!
# Values

A place on the stack holds a byte or a symbol. Bytes speak as their decimal digits, symbols as their
letter. `Top` is what the machine shows of the value on top.
-/

set_option autoImplicit false

namespace InstructionCard

inductive Value where
  | byte (b : UInt8)
  | symbol (s : Symbol)
deriving DecidableEq, Repr

namespace Value

def byte? : Value → Option UInt8
  | byte b => some b
  | symbol _ => none

/-- The value of a single hexadecimal digit: a byte up to 9 or a symbol from A to F. -/
def hexDigit? : Value → Option UInt8
  | byte b => if b ≤ 9 then some b else none
  | symbol s => s.hexDigit?

/-- How the value reads when spoken. -/
def text : Value → String
  | byte b => Nat.repr b.toNat
  | symbol s => s.text

/-- How messages name the value. -/
def describe : Value → String
  | byte b => s!"Byte({b.toNat})"
  | symbol (.letter i) => s!"Symbol({Symbol.capital i})"
  | symbol .space => "Symbol(Space)"

end Value

/-- What shows of the top of the stack. -/
inductive Top where
  | empty
  /-- Most significant bit first. -/
  | byte (bits : Vector Cell 8)
  | symbol (s : Symbol)
deriving DecidableEq, Repr

namespace Top

def ofValue? : Option Value → Top
  | none => empty
  | some (.byte b) => byte (digits 8 b)
  | some (.symbol s) => symbol s

/-- The shown bits read back as a number. -/
def number? : Top → Option UInt8
  | byte bits => some (number bits.toList)
  | _ => none

end Top

end InstructionCard
