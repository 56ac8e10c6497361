/-!
# Symbols

The letters and the blank that a card can put on the stack.
-/

set_option autoImplicit false

namespace InstructionCard

/-- A letter, counted from A, or the blank. -/
inductive Symbol where
  | letter (index : Fin 26)
  | space
deriving DecidableEq, Repr

namespace Symbol

def ofIndex (i : Fin 27) : Symbol :=
  if h : i.val < 26 then letter ⟨i, h⟩ else space

/-- The place in the order A to Z, blank. -/
def index : Symbol → Fin 27
  | letter i => i.castSucc
  | space => Fin.last 26

/-- The capital letter with the given index. -/
def capital (i : Fin 26) : String :=
  String.singleton (Char.ofNat (65 + i))

def name : Symbol → String
  | letter i => capital i
  | space => "SPACE"

/-- How the symbol reads when spoken. -/
def text : Symbol → String
  | letter i => capital i
  | space => " "

/-- The letters A to F are the digits 10 to 15. -/
def hexDigit? : Symbol → Option UInt8
  | letter i => if i.val < 6 then some (UInt8.ofNat (10 + i)) else none
  | space => none

theorem ofIndex_index (s : Symbol) : ofIndex s.index = s := by
  cases s with
  | letter i => simp [index, ofIndex]
  | space => rfl

theorem index_ofIndex (i : Fin 27) : (ofIndex i).index = i := by
  revert i
  decide

end Symbol

end InstructionCard
