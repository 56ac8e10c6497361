/-!
# Reader settings
-/

set_option autoImplicit false

namespace InstructionCard

/-- How many rows a card has and how hard the reader tries on each. -/
structure Config where
  rows : UInt32 := 10
  /-- Rereads of a row before the operator is asked to adjust the card. -/
  rereads : UInt32 := 1
  /-- Adjustments before a row is given up. -/
  adjustments : UInt32 := 3
deriving DecidableEq, Repr

end InstructionCard
