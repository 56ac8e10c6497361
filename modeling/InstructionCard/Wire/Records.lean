import InstructionCard.Reader.Config
import InstructionCard.Report.Event
import InstructionCard.Wire.Basic

/-!
# Wire format of events and settings
-/

set_option autoImplicit false

namespace InstructionCard

open Wire

namespace Verdict

def index : Verdict → Fin 3
  | valid => 0
  | corrected => 1
  | uncorrectable => 2

def ofIndex : Fin 3 → Verdict
  | 0 => valid
  | 1 => corrected
  | 2 => uncorrectable

theorem ofIndex_index (verdict : Verdict) : ofIndex verdict.index = verdict := by
  cases verdict <;> rfl

end Verdict

namespace RunState

def index : RunState → Fin 3
  | running => 0
  | stopped => 1
  | error => 2

def ofIndex : Fin 3 → RunState
  | 0 => running
  | 1 => stopped
  | 2 => error

theorem ofIndex_index (state : RunState) : ofIndex state.index = state := by
  cases state <;> rfl

end RunState

instance : Wire Verdict := via Verdict.index Verdict.ofIndex

instance : Wire RunState := via RunState.index RunState.ofIndex

instance : Wire Symbol := via Symbol.index Symbol.ofIndex

instance : Wire Instruction := via Instruction.index Instruction.ofIndex

instance : Wire Character := via Character.index Character.ofIndex

instance : Wire Value where
  write
    | .byte b => writeIndex 0 ++ write b
    | .symbol s => writeIndex 1 ++ write s
  read := readChoice 2 fun
    | 0 => readAs .byte
    | 1 => readAs .symbol

instance : Wire Command where
  write
    | .operand value => writeIndex 0 ++ write value
    | .instruction i => writeIndex 1 ++ write i
    | .character c => writeIndex 2 ++ write c
  read := readChoice 3 fun
    | 0 => readAs .operand
    | 1 => readAs .instruction
    | 2 => readAs .character

instance : Wire Event where
  write
    | .rowDecoded row data? verdict => writeIndex 0 ++ write (row, data?, verdict)
    | .reread row attempt => writeIndex 1 ++ write (row, attempt)
    | .adjustmentRequested row attempt => writeIndex 2 ++ write (row, attempt)
    | .executed row command? state top? overflow =>
      writeIndex 3 ++ write (row, command?, state, top?, overflow)
  read := readChoice 4 fun
    | 0 => readAs fun (row, data?, verdict) => .rowDecoded row data? verdict
    | 1 => readAs fun (row, attempt) => .reread row attempt
    | 2 => readAs fun (row, attempt) => .adjustmentRequested row attempt
    | 3 => readAs fun (row, command?, state, top?, overflow) => .executed row command? state top? overflow

instance : Wire Config :=
  via (fun config => (config.rows, config.rereads, config.adjustments))
    (fun (rows, rereads, adjustments) => ⟨rows, rereads, adjustments⟩)

end InstructionCard
