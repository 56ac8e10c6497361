import InstructionCard.Reader.Source

/-!
# Scripted sources

A script is a source that gives prepared answers: one for each row, and a queue for each other call.
-/

set_option autoImplicit false

namespace InstructionCard

structure Script where
  rows : List (Except String Row) := []
  rereads : List (Except String Row) := []
  adjustments : List (Except String Unit) := []
  advances : List (Except String Unit) := []

namespace Script

/-- A row of which no cell could be sensed. -/
def unsensed : Row :=
  Vector.replicate 11 none

/-- The answer for a row; there is none past the last. -/
def row (script : Script) (index : UInt32) : Except String Row :=
  script.rows.getD index.toNat (.error s!"no row {index.toNat}")

/-- Rows stay the same however often they are read. The queues lose an answer with every call. An empty
queue of rereads answers with an unsensed row, the other two with success. -/
instance : Source Script String where
  sense index script := (script.row index, script)
  resense _ script := (script.rereads.headD (.ok unsensed), { script with rereads := script.rereads.tail })
  straighten _ script :=
    (script.adjustments.headD (.ok ()), { script with adjustments := script.adjustments.tail })
  feed script :=
    (script.advances.headD (.ok ()), { script with advances := script.advances.tail })

end Script

end InstructionCard
