import InstructionCard.Alphabet.Word
import InstructionCard.Machine.Perform

/-!
# Runs

A step takes one input and keeps the books around `Machine.perform`: a fault leaves the stack, the
overflow flag and the speech as they were, and malformed bits leave the last command alone too. A run
feeds inputs to the machine one after the other, whatever each step answers.
-/

set_option autoImplicit false

namespace InstructionCard

/-- One input of the machine: bits as they come, or a word known to be well formed. -/
inductive Input where
  | bits (cells : List Cell)
  | word (w : Word)
deriving DecidableEq, Repr

/-- The word an input stands for, if it is well formed. -/
def Input.word? : Input → Option Word
  | bits cells => (Word.ofBits cells).toOption
  | word w => some w

namespace Machine

/-- The machine after a step that did not go through. -/
def fail (m : Machine) (fault : Fault) : RunState × Machine :=
  (fault.state, { m with lastError := some fault })

/-- Runs a word. Only STP stops the machine without a fault. -/
def runWord (limits : Limits) (m : Machine) (word : Word) : RunState × Machine :=
  let started := { m with lastCommand := some word.command, lastError := none }
  match started.perform limits word.command with
  | .ok after => (if word.command = .instruction .stp then .stopped else .running, after)
  | .error fault => started.fail fault

/-- Runs a word given as bits. Malformed bits leave all but the last error as it was. -/
def runBits (limits : Limits) (m : Machine) (bits : List Cell) : RunState × Machine :=
  match Word.ofBits bits with
  | .ok word => m.runWord limits word
  | .error cause => m.fail (.malformed cause)

def step (limits : Limits) (m : Machine) : Input → RunState × Machine
  | .bits cells => m.runBits limits cells
  | .word w => m.runWord limits w

/-- The machine after all inputs. -/
def run (limits : Limits) (m : Machine) : List Input → Machine
  | [] => m
  | input :: inputs => (m.step limits input).2.run limits inputs

/-- The answer and the machine after each input. -/
def history (limits : Limits) (m : Machine) : List Input → List (RunState × Machine)
  | [] => []
  | input :: inputs =>
    let after := m.step limits input
    after :: after.2.history limits inputs

theorem run_append (limits : Limits) (m : Machine) (first second : List Input) :
    m.run limits (first ++ second) = (m.run limits first).run limits second := by
  induction first generalizing m with
  | nil => rfl
  | cons input inputs ih => exact ih _

end Machine

end InstructionCard
