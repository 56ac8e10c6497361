import InstructionCard.Alphabet.Command
import InstructionCard.Machine.Fault

/-!
# The machine

The state of the stack machine that runs instruction cards, and how large its parts may grow.
-/

set_option autoImplicit false

namespace InstructionCard

/-- How many values the stack and how many bytes a spoken line may hold. -/
structure Limits where
  stack : Nat := 64
  speech : Nat := 256
deriving DecidableEq, Repr

/-- Everything the machine remembers between two steps. -/
structure Machine where
  /-- The top comes first. -/
  stack : List Value := []
  /-- Whether the last fresh value on the stack differs from the exact result. -/
  overflow : Bool := false
  /-- The last command run, whether or not it went through. -/
  lastCommand : Option Command := none
  /-- Why the last step did not go through. -/
  lastError : Option Fault := none
  lastSpeech : String := ""
  /-- Every line spoken so far. -/
  spoken : List String := []
deriving DecidableEq, Repr

namespace Machine

def topValue? (m : Machine) : Option Value :=
  m.stack.head?

def top (m : Machine) : Top :=
  .ofValue? m.topValue?

end Machine

end InstructionCard
