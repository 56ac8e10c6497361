import InstructionCard.Report.Event

/-!
# Card sources

The hardware that senses a card and moves it, and the record of what a reader does with it. Every call
of a source may fail and may change it.
-/

set_option autoImplicit false

namespace InstructionCard

/-- One card row as sensed. A cell that reads neither as 0 nor as 1 is missing. -/
abbrev Row := Vector (Option Cell) 11

/-- The calls of the hardware. Each gives its answer and the source after it. -/
class Source (σ : Type) (ε : outParam Type) where
  sense : UInt32 → σ → Except ε Row × σ
  /-- Senses the same row again without moving the card. -/
  resense : UInt32 → σ → Except ε Row × σ
  /-- Asks the operator to straighten the card, and waits until it is done. -/
  straighten : UInt32 → σ → Except ε Unit × σ
  /-- Moves the card to the next row. -/
  feed : σ → Except ε Unit × σ

/-- A call of the source. -/
inductive Request where
  | sense (row : UInt32)
  | resense (row : UInt32)
  | straighten (row : UInt32)
  | feed
deriving DecidableEq, Repr

/-- One thing a reader does. -/
inductive Activity where
  /-- Calls the source, whether or not the call fails. -/
  | asked (request : Request)
  | reported (event : Event)
deriving DecidableEq, Repr

def Activity.event? : Activity → Option Event
  | asked _ => none
  | reported event => some event

/-- The events in a trace, in order. -/
def reportedEvents (trace : List Activity) : List Event :=
  trace.filterMap Activity.event?

end InstructionCard
