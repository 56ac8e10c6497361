import InstructionCard.Alphabet.Symbol
import InstructionCard.Alphabet.WordError

/-!
# Commands

What a word of the card alphabet tells the machine to do: put a number on the stack, run one of sixteen
instructions, or one of thirty-two characters. Instructions have the codes from 16 on and characters
those from 32 on, each in the order of its index.
-/

set_option autoImplicit false

namespace InstructionCard

inductive Instruction where
  | stp | dup | del | swp | add | sub | mul | div
  | exp | mod | shl | shr | hex | fac | not | xor
deriving DecidableEq, Repr

namespace Instruction

/-- The instructions in the order of their codes. -/
def all : Vector Instruction 16 :=
  Vector.mk #[stp, dup, del, swp, add, sub, mul, div, exp, mod, shl, shr, hex, fac, not, xor] rfl

def ofIndex (i : Fin 16) : Instruction := all[i]

def index : Instruction → Fin 16
  | stp => 0 | dup => 1 | del => 2 | swp => 3
  | add => 4 | sub => 5 | mul => 6 | div => 7
  | exp => 8 | mod => 9 | shl => 10 | shr => 11
  | hex => 12 | fac => 13 | not => 14 | xor => 15

def code (instruction : Instruction) : UInt8 :=
  16 + UInt8.ofNat instruction.index

def ofCode (code : UInt8) : Except WordError Instruction :=
  if h : 16 ≤ code.toNat ∧ code.toNat < 32 then .ok (ofIndex ⟨code.toNat - 16, by omega⟩)
  else .error (.notInstruction code)

def mnemonic : Instruction → String
  | stp => "STP" | dup => "DUP" | del => "DEL" | swp => "SWP"
  | add => "ADD" | sub => "SUB" | mul => "MUL" | div => "DIV"
  | exp => "EXP" | mod => "MOD" | shl => "SHL" | shr => "SHR"
  | hex => "HEX" | fac => "FAC" | not => "NOT" | xor => "XOR"

theorem ofIndex_index (instruction : Instruction) : ofIndex instruction.index = instruction := by
  cases instruction <;> rfl

theorem index_ofIndex (i : Fin 16) : (ofIndex i).index = i := by
  revert i
  decide

end Instruction

/-- A character says something, stands for a symbol, or is one of four that do nothing. -/
inductive Character where
  | nop (index : Fin 4)
  | speak
  | symbol (s : Symbol)
deriving DecidableEq, Repr

namespace Character

/-- The order of the codes: two idle characters stand around SPEAK and the blank, then come the letters
and the other two. -/
def ofIndex (i : Fin 32) : Character :=
  if h : 4 ≤ i.val ∧ i.val < 30 then symbol (.letter ⟨i - 4, by omega⟩)
  else match i.val with
    | 0 => nop 0
    | 1 => speak
    | 2 => symbol .space
    | 3 => nop 1
    | 30 => nop 2
    | _ => nop 3

def index : Character → Fin 32
  | nop 0 => 0
  | nop 1 => 3
  | nop 2 => 30
  | nop 3 => 31
  | speak => 1
  | symbol .space => 2
  | symbol (.letter i) => ⟨i + 4, by omega⟩

def code (character : Character) : UInt8 :=
  32 + UInt8.ofNat character.index

def ofCode (code : UInt8) : Except WordError Character :=
  if h : 32 ≤ code.toNat ∧ code.toNat < 64 then .ok (ofIndex ⟨code.toNat - 32, by omega⟩)
  else .error (.notCharacter code)

/-- The symbol this character puts on the stack. -/
def symbol? : Character → Option Symbol
  | symbol s => some s
  | _ => none

def isNop : Character → Bool
  | nop _ => true
  | _ => false

def mnemonic : Character → String
  | nop i => if i = 0 then "NOP" else s!"NOP{i.val}"
  | speak => "SPEAK"
  | symbol s => s.name

theorem index_ofIndex (i : Fin 32) : (ofIndex i).index = i := by
  revert i
  decide

theorem ofIndex_index (character : Character) : ofIndex character.index = character := by
  have letters : ∀ i : Fin 26, ofIndex (index (symbol (.letter i))) = symbol (.letter i) := by decide
  have nops : ∀ i : Fin 4, ofIndex (index (nop i)) = nop i := by decide
  match character with
  | nop i => exact nops i
  | speak => rfl
  | symbol .space => rfl
  | symbol (.letter i) => exact letters i

end Character

/-- A classified word. An operand on a card is below 16, one in a report can be any byte. -/
inductive Command where
  | operand (value : UInt8)
  | instruction (i : Instruction)
  | character (c : Character)
deriving DecidableEq, Repr

def Command.mnemonic : Command → String
  | operand _ => "PUSH"
  | instruction i => i.mnemonic
  | character c => c.mnemonic

end InstructionCard
