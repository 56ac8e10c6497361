import InstructionCard.Proofs.Machine.Atomic
import InstructionCard.Proofs.Machine.Fits
import InstructionCard.Proofs.Machine.Step

/-!
# Books

Besides its stack the machine keeps books: the last command and why the last step did not go through, the last
speech and all that was said. Over a whole run they agree with its inputs and answers. Main result:
`Machine.books_run`.
-/

set_option autoImplicit false

namespace InstructionCard

/-- The command of the word an input stands for. -/
def Input.command? (input : Input) : Option Command :=
  input.word?.map Word.command

def Input.isSpeak (input : Input) : Bool :=
  input.command? = some (.character .speak)

namespace Machine

/-- How the books stand after a step. -/
structure Keeps (m : Machine) (input : Input) (step : RunState × Machine) : Prop where
  lastCommand : step.2.lastCommand = input.command?.or m.lastCommand
  silent : step.2.lastError = none ↔ step.1 = .running ∨ input.command? = some (.instruction .stp)
  explained : ∀ fault, step.2.lastError = some fault → fault.state = step.1
  said : input.isSpeak = true → step.1 = .running → step.2.spoken = m.spoken ++ [step.2.lastSpeech]
  quiet : ¬ (input.isSpeak = true ∧ step.1 = .running) →
    step.2.spoken = m.spoken ∧ step.2.lastSpeech = m.lastSpeech

variable {limits : Limits} {m after : Machine}

/-! ## One step -/

/-- What SPEAK says is the last speech and the latest line. -/
theorem said_of_perform (h : m.perform limits (.character .speak) = .ok after) :
    after.spoken = m.spoken ++ [after.lastSpeech] := by
  obtain ⟨_, _, _, _, _, rfl⟩ := speak_eq_ok h
  rfl

/-- No other command says anything. -/
theorem quiet_of_perform {command : Command} (other : command ≠ .character .speak)
    (h : m.perform limits command = .ok after) :
    after.spoken = m.spoken ∧ after.lastSpeech = m.lastSpeech := by
  match command with
  | .operand _ =>
    obtain ⟨_, rfl⟩ := putFresh_eq_ok h
    exact ⟨rfl, rfl⟩
  | .instruction _ =>
    obtain ⟨_, _, rfl⟩ := frame_performInstruction h
    exact ⟨rfl, rfl⟩
  | .character (.nop _) =>
    cases h
    exact ⟨rfl, rfl⟩
  | .character .speak => exact absurd rfl other
  | .character (.symbol _) =>
    obtain ⟨_, rfl⟩ := putFresh_eq_ok h
    exact ⟨rfl, rfl⟩

/-- A fault explains the answer and says nothing. -/
theorem keeps_of_fail {input : Input} {start : Machine} (fault : Fault)
    (lastCommand : start.lastCommand = input.command?.or m.lastCommand)
    (notStop : input.command? ≠ some (.instruction .stp)) (spoken : start.spoken = m.spoken)
    (lastSpeech : start.lastSpeech = m.lastSpeech) : Keeps m input (start.fail fault) := by
  have notRunning : fault.state ≠ .running := by cases fault <;> exact nofun
  exact {
    lastCommand
    silent := by simp [fail, notRunning, notStop]
    explained := fun reported same => by
      cases same
      rfl
    said := fun _ running => absurd running notRunning
    quiet := fun _ => ⟨spoken, lastSpeech⟩ }

theorem keeps_runWord {input : Input} {word : Word} (wellFormed : input.word? = some word) :
    Keeps m input (m.runWord limits word) := by
  have command : input.command? = some word.command := by rw [Input.command?, wellFormed, Option.map_some]
  obtain ⟨after, done, ran⟩ | ⟨fault, failed, ran⟩ := runWord_cases limits m word
  · have lastCommand : after.lastCommand = some word.command := (books_perform done).1
    have silent : after.lastError = none := (books_perform done).2
    rw [ran]
    exact {
      lastCommand := by rw [lastCommand, command, Option.some_or]
      silent := by by_cases stop : word.command = .instruction .stp <;> simp [silent, command, stop]
      explained := fun fault reported => by
        rw [silent] at reported
        cases reported
      said := fun speaks running => by
        have speak : word.command = .character .speak := by simpa [Input.isSpeak, command] using speaks
        rw [speak] at done
        exact (said_of_perform done :)
      quiet := fun quiet => by
        have other : word.command ≠ .character .speak := fun speak => quiet (by
          simp [Input.isSpeak, command, speak])
        exact (quiet_of_perform other done :) }
  · have notStop : word.command ≠ .instruction .stp := fun stop => by
      rw [stop] at failed
      cases failed
    rw [ran]
    exact keeps_of_fail fault (by simp [command, started]) (by simpa [command] using notStop) rfl rfl

/-- The books of a single step, malformed bits included. -/
theorem keeps_step (limits : Limits) (m : Machine) (input : Input) : Keeps m input (m.step limits input) := by
  cases read : input.word? with
  | none =>
    have command : input.command? = none := by rw [Input.command?, read, Option.map_none]
    obtain ⟨cause, malformed⟩ := step_of_word?_eq_none read
    rw [malformed]
    exact keeps_of_fail (.malformed cause) (by rw [command, Option.none_or]) (by rw [command]; exact nofun) rfl rfl
  | some word =>
    rw [step_of_word?_eq_some read]
    exact keeps_runWord read

/-! ## Runs -/

/-- Malformed inputs leave the last command as it was. -/
theorem lastCommand_run (limits : Limits) (m : Machine) (inputs : List Input) :
    (m.run limits inputs).lastCommand = (inputs.filterMap Input.command?).getLast?.or m.lastCommand := by
  induction inputs generalizing m with
  | nil => rfl
  | cons input inputs ih =>
    rw [run, ih, (keeps_step limits m input).lastCommand]
    cases command : input.command? with
    | none => rw [List.filterMap_cons_none command, Option.none_or]
    | some c =>
      rw [List.filterMap_cons_some command, List.getLast?_cons]
      cases (inputs.filterMap Input.command?).getLast? <;> rfl

/-- The last speech is the latest line, before a step and after it. -/
theorem lastSpeech_step (last : m.lastSpeech = m.spoken.getLast?.getD "") (input : Input) :
    (m.step limits input).2.lastSpeech = (m.step limits input).2.spoken.getLast?.getD "" := by
  have keeps := keeps_step limits m input
  by_cases line : input.isSpeak = true ∧ (m.step limits input).1 = .running
  · rw [keeps.said line.1 line.2, List.getLast?_concat, Option.getD_some]
  · obtain ⟨spoken, lastSpeech⟩ := keeps.quiet line
    rw [spoken, lastSpeech, last]

theorem lastSpeech_run (last : m.lastSpeech = m.spoken.getLast?.getD "") (inputs : List Input) :
    (m.run limits inputs).lastSpeech = (m.run limits inputs).spoken.getLast?.getD "" := by
  induction inputs generalizing m with
  | nil => exact last
  | cons input inputs ih => exact ih (lastSpeech_step last input)

/-- One line is said for each SPEAK that goes through. -/
theorem length_spoken_run (limits : Limits) (m : Machine) (inputs : List Input) :
    (m.run limits inputs).spoken.length =
      m.spoken.length + (m.runningInputs limits inputs).countP Input.isSpeak := by
  induction inputs generalizing m with
  | nil => rfl
  | cons input inputs ih =>
    have keeps := keeps_step limits m input
    rw [run, ih, runningInputs_cons]
    by_cases running : (m.step limits input).1 = .running
    · rw [if_pos running]
      by_cases speaks : input.isSpeak = true
      · rw [keeps.said speaks running, List.countP_cons_of_pos speaks, List.length_append, List.length_singleton]
        omega
      · rw [(keeps.quiet fun line => speaks line.1).1, List.countP_cons_of_neg speaks]
    · rw [if_neg running, (keeps.quiet fun line => running line.2).1]

/-- **The books are in order.** After any run of a new machine, the stack and the last speech are within the
limits, the last speech is the last line said and the last command that of the last well-formed input. One line
was said for each SPEAK that answered running. And the next step tells of a fault if and only if it neither goes
on nor runs STP, of one that explains its answer. -/
theorem books_run (limits : Limits) (inputs : List Input) :
    let new : Machine := {}
    let m := new.run limits inputs
    m.stack.length ≤ limits.stack ∧ m.lastSpeech.utf8ByteSize ≤ limits.speech ∧
      m.lastSpeech = m.spoken.getLast?.getD "" ∧
      m.spoken.length = (new.runningInputs limits inputs).countP Input.isSpeak ∧
      m.lastCommand = (inputs.filterMap Input.command?).getLast? ∧
      ∀ input,
        let step := m.step limits input
        (step.2.lastError = none ↔ step.1 = .running ∨ input.command? = some (.instruction .stp)) ∧
        ∀ fault, step.2.lastError = some fault → fault.state = step.1 := by
  intro new m
  have fits : m.Fits limits := (fits_new limits).run inputs
  have count : m.spoken.length = new.spoken.length + (new.runningInputs limits inputs).countP Input.isSpeak :=
    length_spoken_run limits new inputs
  have last : m.lastCommand = (inputs.filterMap Input.command?).getLast?.or new.lastCommand :=
    lastCommand_run limits new inputs
  rw [Option.or_none] at last
  rw [List.length_nil, Nat.zero_add] at count
  exact ⟨fits.stack, fits.speech, lastSpeech_run rfl inputs, count, last, fun input =>
    have keeps := keeps_step limits m input
    ⟨keeps.silent, keeps.explained⟩⟩

/-- The letter A is said, malformed bits are refused, and a second line lacks its count, as an ADD lacks its
operands. -/
theorem books_run_oneLine :
    let inputs : List Input := [.word ⟨36⟩, .word ⟨1⟩, .word ⟨33⟩, .word ⟨33⟩, .bits [0, 2]]
    let new : Machine := {}
    let m := new.run {} inputs
    let step := m.step {} (.word ⟨20⟩)
    m.spoken = ["A"] ∧ m.lastSpeech = m.spoken.getLast?.getD "" ∧
      m.spoken.length = (new.runningInputs {} inputs).countP Input.isSpeak ∧
      m.lastCommand = some (.character .speak) ∧
      m.lastCommand = (inputs.filterMap Input.command?).getLast? ∧
      step.2.lastError = some (.stackUnderflow 2 0) ∧ (Fault.stackUnderflow 2 0).state = step.1 := by
  intro inputs new m step
  have lacking : step.2.lastError = some (.stackUnderflow 2 0) := by decide
  obtain ⟨_, _, lastSpeech, lines, lastCommand, next⟩ := books_run {} inputs
  exact ⟨by decide, lastSpeech, lines, by decide, lastCommand, lacking, (next (.word ⟨20⟩)).2 _ lacking⟩

end Machine

end InstructionCard
