import InstructionCard.Reader.Config
import InstructionCard.Reader.Session

/-!
# Reading one row

A row that cannot be repaired is sensed again. When the rereads are used up the operator is asked to
adjust the card, which gives the row as many rereads anew. When the adjustments are used up too, the row
is given up. Main definition: `obtainData`.
-/

set_option autoImplicit false

namespace InstructionCard

/-- Decodes a sensed row in the standard code. A row with a missing cell cannot be repaired. -/
def Row.decode (cells : Row) : Decoded :=
  match cells.toList.mapM id with
  | some cells => Code.standard.decode cells
  | none => .uncorrectable

section

variable {σ ε : Type}

/-- Decodes a sensed row and reports how it went. -/
def decodeRow (row : UInt32) (cells : Row) : Session σ ε (Option Data) := do
  let decoded := Row.decode cells
  Session.report (.rowDecoded row decoded.data? decoded.verdict)
  pure decoded.data?

variable [Source σ ε]

/-- Decodes the sensed cells, and senses the row again while that fails and rereads are left. The next
reread is number `attempt`. -/
def rereadUntilDecoded (row attempt : UInt32) : (left : Nat) → Row → Session σ ε (Option Data)
  | 0, cells => decodeRow row cells
  | left + 1, cells => do
    match ← decodeRow row cells with
    | some data => pure (some data)
    | none =>
      Session.report (.reread row attempt)
      let cells ← Session.resense row
      rereadUntilDecoded row (attempt + 1) left cells

/-- Rereads the row, and has the card adjusted while that fails and adjustments are left. The next
adjustment is number `attempt`. -/
def adjustUntilDecoded (config : Config) (row attempt : UInt32) :
    (left : Nat) → Row → Session σ ε Data
  | 0, cells => do
    match ← rereadUntilDecoded row 1 config.rereads.toNat cells with
    | some data => pure data
    | none => Session.fail (.unreadable row)
  | left + 1, cells => do
    match ← rereadUntilDecoded row 1 config.rereads.toNat cells with
    | some data => pure data
    | none =>
      Session.report (.adjustmentRequested row attempt)
      Session.straighten row
      let cells ← Session.resense row
      adjustUntilDecoded config row (attempt + 1) left cells

/-- Reads and decodes one row. -/
def obtainData (config : Config) (row : UInt32) : Session σ ε Data := do
  let cells ← Session.sense row
  adjustUntilDecoded config row 1 config.adjustments.toNat cells

end

end InstructionCard
