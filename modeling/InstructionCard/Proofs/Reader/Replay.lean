import InstructionCard.Proofs.Reader.Sensing
import InstructionCard.Reader.Card

/-!
# Replaying a card

The trace of a card tells which words ran: those that were decoded. Running them on the machine the card
started with gives the machine the card leaves and every report of a step. Main result: `runRows_replay`.
-/

set_option autoImplicit false

namespace InstructionCard

/-! ## What a trace tells -/

/-- The row and the word of an event that reports a decoded word. -/
def Event.decodedWord? : Event → Option (UInt32 × Data)
  | rowDecoded row (some data) _ => some (row, data)
  | _ => none

/-- Whether the event reports a step of the machine. -/
def Event.isExecuted : Event → Bool
  | executed .. => true
  | _ => false

/-- The words that were decoded, each with its row. -/
def decodedWords (trace : List Activity) : List (UInt32 × Data) :=
  (reportedEvents trace).filterMap Event.decodedWord?

/-- The reports of the words that were run. -/
def executedEvents (trace : List Activity) : List Event :=
  (reportedEvents trace).filter Event.isExecuted

/-- Numbered words as inputs of the machine. -/
def inputs (words : List (UInt32 × Data)) : List Input :=
  words.map fun word => .bits word.2.toList

/-- The reports of a machine that runs numbered words one after the other, whatever it answers. -/
def Machine.reports (limits : Limits) (m : Machine) (words : List (UInt32 × Data)) : List Event :=
  (words.map Prod.fst).zipWith
    (fun row (state, after) => .executed row after.lastCommand state after.stack.head? after.overflow)
    (m.history limits (inputs words))

/-- A report names the row and the state. The command, the top value and the overflow flag are those of the
machine as the step leaves it. -/
theorem executedEvent_mk (row : UInt32) (state : RunState) (after : Machine) :
    executedEvent row (state, after) = .executed row after.lastCommand state after.stack.head? after.overflow :=
  rfl

@[simp] theorem decodedWords_append (first second : List Activity) :
    decodedWords (first ++ second) = decodedWords first ++ decodedWords second := by
  simp [decodedWords, reportedEvents]

@[simp] theorem executedEvents_append (first second : List Activity) :
    executedEvents (first ++ second) = executedEvents first ++ executedEvents second := by
  simp [executedEvents, reportedEvents]

/-! ## Sessions that decode -/

variable {σ ε α : Type}

namespace Session

/-- Decodes no word and runs none. -/
def Quiet (session : Session σ ε α) : Prop :=
  ∀ source, decodedWords (session source).trace = [] ∧ executedEvents (session source).trace = []

/-- Decodes a word of the row if that is what the session comes to, and none otherwise. -/
def Yields (row : UInt32) (session : Session σ ε Data) : Prop :=
  ∀ source, decodedWords (session source).trace =
      ((session source).result.toOption.map (Prod.mk row)).toList ∧
    executedEvents (session source).trace = []

theorem quiet_ask (request : Request) (call : σ → Except ε α × σ) : (ask request call).Quiet :=
  fun _ => ⟨rfl, rfl⟩

theorem Quiet.bind {β : Type} {first : Session σ ε α} {next : α → Session σ ε β} (quiet : first.Quiet)
    (rest : ∀ a, (next a).Quiet) : (first >>= next).Quiet := by
  intro source
  cases h : (first source).result with
  | error e =>
    rw [bind_of_error h]
    exact quiet source
  | ok a =>
    rw [bind_of_ok h]
    simp [quiet source, rest a _]

/-- What is quiet can stand in front of what decodes. -/
theorem Quiet.bind_yields {row : UInt32} {first : Session σ ε α} {next : α → Session σ ε Data}
    (quiet : first.Quiet) (yields : ∀ a, (next a).Yields row) : (first >>= next).Yields row := by
  intro source
  cases h : (first source).result with
  | error e =>
    rw [bind_of_error h]
    exact quiet source
  | ok a =>
    rw [bind_of_ok h]
    simp [quiet source, yields a _]

end Session

section

variable [Source σ ε]

theorem quiet_prepare (config : Config) (row : UInt32) (i : Nat) :
    (prepare config row i : Session σ ε Unit).Quiet := by
  unfold prepare
  split
  · exact Session.Quiet.bind (fun _ => ⟨rfl, rfl⟩) fun _ => Session.quiet_ask _ _
  · exact fun _ => ⟨rfl, rfl⟩

/-- However often the row is sensed, its word is decoded once. -/
theorem yields_readFrom (config : Config) (row : UInt32) (i left : Nat) (cells : Row) :
    (readFrom config row i left cells : Session σ ε Data).Yields row := by
  induction left generalizing i cells with
  | zero =>
    intro source
    cases h : (Row.decode cells).data? with
    | some data =>
      rw [readFrom_of_decoded h]
      exact ⟨rfl, rfl⟩
    | none =>
      rw [readFrom_of_refused h]
      exact ⟨rfl, rfl⟩
  | succ left ih =>
    intro source
    cases h : (Row.decode cells).data? with
    | some data =>
      rw [readFrom_of_decoded h]
      exact ⟨rfl, rfl⟩
    | none =>
      rw [readFrom_of_refused h]
      have again : (retryFrom config row i (left + 1) : Session σ ε Data).Yields row :=
        (quiet_prepare config row (i + 1)).bind_yields fun _ =>
          (Session.quiet_ask _ _).bind_yields fun cells => ih (i + 1) cells
      exact again source

theorem yields_obtainData (config : Config) (row : UInt32) :
    (obtainData config row : Session σ ε Data).Yields row := by
  rw [obtainData_eq]
  exact (Session.quiet_ask _ _).bind_yields fun cells => yields_readFrom config row 0 _ cells

/-! ## Rows of a card -/

/-- How the first of the remaining rows goes, and what that makes of the card. -/
inductive FirstRow (config : Config) (limits : Limits) (left : Nat) (row : UInt32) (machine : Machine)
    (word : Session.Result σ ε Data) : CardRun σ ε → Prop where
  | unread (e : ReadError ε) (read : word.result = .error e) :
      FirstRow config limits left row machine word ⟨.error e, machine, word.source, word.trace⟩
  | stopped (data : Data) (after : Machine) (read : word.result = .ok data)
      (ran : machine.runBits limits data.toList = (.stopped, after)) :
      FirstRow config limits left row machine word
        ⟨.ok (.stopped row), after, word.source,
          word.trace ++ [.reported (executedEvent row (.stopped, after))]⟩
  | faulted (data : Data) (after : Machine) (read : word.result = .ok data)
      (ran : machine.runBits limits data.toList = (.error, after)) :
      FirstRow config limits left row machine word
        ⟨.ok (.faulted row after.lastError), after, word.source,
          word.trace ++ [.reported (executedEvent row (.error, after))]⟩
  | stuck (data : Data) (after : Machine) (e : ReadError ε) (read : word.result = .ok data)
      (ran : machine.runBits limits data.toList = (.running, after))
      (fed : (Session.feed word.source).result = .error e) :
      FirstRow config limits left row machine word
        ⟨.error e, after, (Session.feed word.source).source,
          word.trace ++ [.reported (executedEvent row (.running, after))] ++ [.asked .feed]⟩
  | moved (data : Data) (after : Machine) (rest : CardRun σ ε) (read : word.result = .ok data)
      (ran : machine.runBits limits data.toList = (.running, after))
      (fed : (Session.feed word.source).result = .ok ())
      (next : runRows config limits left (row + 1) after (Session.feed word.source).source = rest) :
      FirstRow config limits left row machine word
        { rest with trace :=
            word.trace ++ [.reported (executedEvent row (.running, after))] ++ [.asked .feed] ++ rest.trace }

/-- The first row goes one of the ways of `FirstRow`. -/
theorem firstRow_runRows (config : Config) (limits : Limits) (left : Nat) (row : UInt32) (machine : Machine)
    (source : σ) : FirstRow config limits left row machine (obtainData config row source)
      (runRows config limits (left + 1) row machine source) := by
  rw [runRows]
  generalize obtainData config row source = word
  cases read : word.result with
  | error e => exact .unread e read
  | ok data =>
    rcases ran : machine.runBits limits data.toList with ⟨state, after⟩
    cases state with
    | stopped =>
      simp only [ran]
      exact .stopped data after read ran
    | error =>
      simp only [ran]
      exact .faulted data after read ran
    | running =>
      cases fed : (Session.feed word.source).result with
      | error e =>
        simp only [ran, fed]
        exact .stuck data after e read ran fed
      | ok done =>
        simp only [ran, fed]
        exact .moved data after _ read ran fed rfl

/-- The machine ran the decoded words of the trace and nothing else. -/
structure Replays (limits : Limits) (before after : Machine) (trace : List Activity) : Prop where
  machine : after = before.run limits (inputs (decodedWords trace))
  reports : executedEvents trace = before.reports limits (decodedWords trace)

theorem Replays.refl (limits : Limits) (m : Machine) : Replays limits m m [] :=
  ⟨rfl, rfl⟩

/-- A word that is read and run comes before what follows. -/
theorem Replays.word {limits : Limits} {before after : Machine} {data : Data} {step : RunState × Machine}
    {row : UInt32} {read later : List Activity} (decoded : decodedWords read = [(row, data)])
    (executed : executedEvents read = []) (ran : before.runBits limits data.toList = step)
    (rest : Replays limits step.2 after later) :
    Replays limits before after (read ++ [.reported (executedEvent row step)] ++ later) := by
  subst ran
  constructor
  · simp only [decodedWords_append, decoded]
    exact rest.machine
  · simp only [decodedWords_append, executedEvents_append, decoded, executed, rest.reports]
    rfl

/-- **Replay.** Whatever the source does, the machine ran the decoded words and nothing else. -/
theorem runRows_replay (config : Config) (limits : Limits) (left : Nat) (row : UInt32) (machine : Machine)
    (source : σ) : Replays limits machine (runRows config limits left row machine source).machine
      (runRows config limits left row machine source).trace := by
  induction left generalizing row machine source with
  | zero => exact Replays.refl limits machine
  | succ left ih =>
    have first := firstRow_runRows config limits left row machine source
    generalize runRows config limits (left + 1) row machine source = run at first
    obtain ⟨decoded, executed⟩ := yields_obtainData (ε := ε) config row source
    generalize obtainData config row source = word at first decoded executed
    cases first with
    | unread e read =>
      rw [read] at decoded
      constructor
      · rw [decoded]
        rfl
      · rw [decoded, executed]
        rfl
    | stopped data after read ran =>
      rw [read] at decoded
      have ended := Replays.word decoded executed ran (Replays.refl limits after)
      rwa [List.append_nil] at ended
    | faulted data after read ran =>
      rw [read] at decoded
      have ended := Replays.word decoded executed ran (Replays.refl limits after)
      rwa [List.append_nil] at ended
    | stuck data after e read ran fed =>
      rw [read] at decoded
      exact Replays.word decoded executed ran ⟨rfl, rfl⟩
    | moved data after rest read ran fed next =>
      rw [read] at decoded
      have later := ih (row + 1) after (Session.feed word.source).source
      rw [next] at later
      have moved : Replays limits after rest.machine ([.asked .feed] ++ rest.trace) :=
        ⟨later.machine, later.reports⟩
      have ended := Replays.word decoded executed ran moved
      rwa [← List.append_assoc] at ended

end

end InstructionCard
