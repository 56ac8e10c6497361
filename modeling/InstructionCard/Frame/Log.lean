import InstructionCard.Frame.Basic

/-!
# Frame log

A log keeps the frames of events, oldest first, in limited space. `Log.keep` tells why an event was not
kept, `Log.record` counts such events instead. `Log.run` does one operation after the other.
-/

set_option autoImplicit false

namespace InstructionCard

/-- How many bytes a frame and how many frames a log may hold. -/
structure Log.Limits where
  frame : Nat := 32
  capacity : Nat := 64
deriving DecidableEq, Repr

structure Log where
  frames : List (List UInt8) := []
  /-- How many reported events were not kept. -/
  dropped : Nat := 0
deriving DecidableEq, Repr

namespace Log

/-- The copy of a frame that is kept. -/
def copy (limits : Limits) (frame : List UInt8) : Except FrameError (List UInt8) :=
  if frame.length ≤ limits.frame then .ok frame else .error .logFull

/-- Keeps an event. Its size is looked at before the space left. -/
def keep (limits : Limits) (log : Log) (event : Event) : Except FrameError Log := do
  let frame ← Frame.encode event limits.frame
  let frame ← copy limits frame
  if log.frames.length < limits.capacity then .ok { log with frames := log.frames ++ [frame] }
  else .error .logFull

/-- The count of dropped events stops at the largest machine word. -/
def mostDropped : Nat :=
  USize.size - 1

/-- Keeps an event or counts it as dropped. -/
def record (limits : Limits) (log : Log) (event : Event) : Log :=
  match log.keep limits event with
  | .ok log => log
  | .error _ => { log with dropped := min (log.dropped + 1) mostDropped }

/-- Keeps what it can of several events. -/
def recordAll (limits : Limits) (log : Log) (events : List Event) : Log :=
  events.foldl (record limits) log

/-- Forgets the events and how many were dropped. -/
def clear (_ : Log) : Log := {}

/-- The events kept, oldest first. -/
def events (log : Log) : List (Except FrameError Event) :=
  log.frames.map Frame.decode

def size (log : Log) : Nat :=
  log.frames.length

def isEmpty (log : Log) : Bool :=
  log.frames.isEmpty

/-! ## Operations -/

/-- What is done with a log. -/
inductive Operation where
  | keep (event : Event)
  | record (event : Event)
  | clear
  /-- Shows the frames and the events they hold. -/
  | dump
deriving DecidableEq, Repr

/-- What an operation answers. -/
inductive Reply where
  | kept (result : Except FrameError Unit)
  | done
  | dumped (frames : List (List UInt8)) (events : List (Except FrameError Event))

def step (limits : Limits) (log : Log) : Operation → Reply × Log
  | .keep event =>
    match log.keep limits event with
    | .ok after => (.kept (.ok ()), after)
    | .error e => (.kept (.error e), log)
  | .record event => (.done, log.record limits event)
  | .clear => (.done, log.clear)
  | .dump => (.dumped log.frames log.events, log)

/-- The log after all operations. -/
def run (limits : Limits) (log : Log) (operations : List Operation) : Log :=
  operations.foldl (fun log operation => (log.step limits operation).2) log

end Log

end InstructionCard
