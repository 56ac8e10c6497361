import InstructionCard.Code.Decode
import InstructionCard.Machine.Basic

/-!
# Events

What a reader reports while it works through a card. Rows are counted from 0, attempts from 1.
-/

set_option autoImplicit false

namespace InstructionCard

inductive Event where
  /-- A row was decoded; without data when it could not be repaired. -/
  | rowDecoded (row : UInt32) (data? : Option Data) (verdict : Verdict)
  /-- The same row is sensed again. -/
  | reread (row attempt : UInt32)
  /-- The operator is asked to straighten the card. -/
  | adjustmentRequested (row attempt : UInt32)
  /-- A decoded word was run. -/
  | executed (row : UInt32) (command? : Option Command) (state : RunState) (top? : Option Value)
      (overflow : Bool)
deriving DecidableEq, Repr

def Event.row : Event → UInt32
  | rowDecoded row _ _ => row
  | reread row _ => row
  | adjustmentRequested row _ => row
  | executed row _ _ _ _ => row

end InstructionCard
