import InstructionCard.Machine.Run
import InstructionCard.Reader.Word

/-!
# Reading a card

The rows of a card are read one after the other and their words are run on a machine. The card moves on
only while the machine keeps running. Main definition: `runCard`.
-/

set_option autoImplicit false

namespace InstructionCard

/-- How a card that could be read ended. -/
inductive CardEnd where
  /-- Every row ran and the machine kept running. -/
  | completed
  | stopped (row : UInt32)
  /-- The machine gives the reason. -/
  | faulted (row : UInt32) (reason? : Option Fault)
deriving DecidableEq, Repr

/-- What reading a card comes to. The machine and the source are kept when the reading fails. -/
structure CardRun (σ ε : Type) where
  result : Except (ReadError ε) CardEnd
  machine : Machine
  source : σ
  trace : List Activity

section

variable {σ ε : Type} [Source σ ε]

/-- The report of a step of the machine. -/
def executedEvent (row : UInt32) (step : RunState × Machine) : Event :=
  .executed row step.2.lastCommand step.1 step.2.topValue? step.2.overflow

/-- Reads the `left` rows from `row` on. -/
def runRows (config : Config) (limits : Limits) :
    (left : Nat) → (row : UInt32) → Machine → σ → CardRun σ ε
  | 0, _, machine, source => ⟨.ok .completed, machine, source, []⟩
  | left + 1, row, machine, source =>
    let word := obtainData config row source
    match word.result with
    | .error e => ⟨.error e, machine, word.source, word.trace⟩
    | .ok data =>
      let step := machine.runBits limits data.toList
      let trace := word.trace ++ [.reported (executedEvent row step)]
      match step.1 with
      | .stopped => ⟨.ok (.stopped row), step.2, word.source, trace⟩
      | .error => ⟨.ok (.faulted row step.2.lastError), step.2, word.source, trace⟩
      | .running =>
        let moved := Session.feed word.source
        match moved.result with
        | .error e => ⟨.error e, step.2, moved.source, trace ++ moved.trace⟩
        | .ok () =>
          let rest := runRows config limits left (row + 1) step.2 moved.source
          { rest with trace := trace ++ moved.trace ++ rest.trace }

/-- Runs a whole card on a machine. -/
def runCard (config : Config) (limits : Limits) (machine : Machine) (source : σ) : CardRun σ ε :=
  runRows config limits config.rows.toNat 0 machine source

end

end InstructionCard
