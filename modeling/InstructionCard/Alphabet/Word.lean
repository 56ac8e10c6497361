import InstructionCard.Alphabet.Command

/-!
# Words

A card row carries one word of six bits. Its two leading bits tell its kind: `00` is an operand with
four bits of value, `01` one of sixteen instructions, `1x` one of thirty-two characters, so that every
word is a command.
-/

set_option autoImplicit false

namespace InstructionCard

/-- A word is a code below 64. -/
structure Word where
  code : Fin 64
deriving DecidableEq, Repr

inductive WordKind where
  | operand
  | instruction
  | character
deriving DecidableEq, Repr

namespace Word

def ofCode (code : UInt8) : Except WordError Word :=
  if h : code.toNat < 64 then .ok ⟨⟨code.toNat, h⟩⟩ else .error (.outOfRange code)

/-- Shifts the bits into the code read so far; `index` counts the bits already read. -/
def readBits (code : UInt8) (index : Nat) : List Cell → Except WordError UInt8
  | [] => .ok code
  | bit :: bits =>
    if bit = 0 ∨ bit = 1 then readBits (code <<< 1 ||| bit) (index + 1) bits
    else .error (.invalidBit index bit)

/-- The word of six bits, most significant first. The length is looked at first. -/
def ofBits (bits : List Cell) : Except WordError Word :=
  if bits.length ≠ 6 then .error (.length bits.length)
  else match readBits 0 0 bits with
    | .ok code => ofCode code
    | .error e => .error e

def bits (word : Word) : Vector Cell 6 :=
  digits 6 (UInt8.ofNat word.code)

def kind (word : Word) : WordKind :=
  if word.code.val < 16 then .operand
  else if word.code.val < 32 then .instruction
  else .character

def command (word : Word) : Command :=
  if word.code.val < 16 then .operand (UInt8.ofNat word.code)
  else if h : word.code.val < 32 then .instruction (.ofIndex ⟨word.code.val - 16, by omega⟩)
  else .character (.ofIndex ⟨word.code.val - 32, by omega⟩)

end Word

end InstructionCard
