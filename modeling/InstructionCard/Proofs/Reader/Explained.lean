import InstructionCard.Proofs.Alphabet.Word
import InstructionCard.Proofs.Machine.Books
import InstructionCard.Proofs.Machine.Ending
import InstructionCard.Proofs.Reader.Garbled
import InstructionCard.Proofs.Reader.RowByRow
import InstructionCard.Reader.Script

/-!
# What a card comes to is explained

The word of a row always has a command, so the machine never refuses a row as malformed. How a card ends is told
by the last command that was run: it was STP, or there is a fault that stops or breaks programs. Main result:
`runCard_explained`.
-/

set_option autoImplicit false

namespace InstructionCard

/-! ## The words of a card -/

/-- The cells are a word, and the command is looked up for it. -/
def Data.StandsFor (w : Data) (command : Command) : Prop :=
  ∃ word, Word.ofBits w.toList = .ok word ∧ word.classify = .ok command

/-- Six zeros and ones stand for a command. -/
theorem Data.exists_standsFor {w : Data} (binary : BinaryCells w.toList) : ∃ command, w.StandsFor command := by
  obtain ⟨word, read, _⟩ := Word.exists_ofBits binary w.length_toList
  exact ⟨word.command, word, read, word.classify_eq⟩

/-- The machine runs the command the cells stand for. -/
theorem Data.StandsFor.runBits {w : Data} {command : Command} (stands : w.StandsFor command) (limits : Limits)
    (m : Machine) :
    command.Ends (m.runBits limits w.toList).1 (m.runBits limits w.toList).2.lastError ∧
      (m.runBits limits w.toList).2.lastCommand = some command := by
  obtain ⟨word, read, classified⟩ := stands
  obtain rfl : word.command = command := Except.ok.inj (word.classify_eq.symm.trans classified)
  rw [Machine.runBits, read]
  exact ⟨m.ends_runWord limits word, (m.keeps_step limits (.word word)).lastCommand⟩

/-- Repaired cells are binary, too. -/
theorem Row.binaryCells_of_decode {cells : Row} {w : Data} (decoded : cells.decode.data? = some w) :
    BinaryCells w.toList := by
  by_cases clear : cells.Clear
  · obtain ⟨x, rfl, binary⟩ := exists_codeword_of_clear clear
    rw [decode_map_some] at decoded
    cases result : Code.standard.decode x.toList with
    | valid data =>
      rw [result] at decoded
      cases decoded
      exact (Code.encode_eq_ok_iff.1 ((Code.decode_eq_valid_iff Code.systematic_standard binary w).1 result)).1
    | corrected data =>
      rw [result] at decoded
      cases decoded
      obtain ⟨y, encoded, _⟩ := Code.encode_of_decode_eq_corrected Code.systematic_standard binary result
      exact (Code.encode_eq_ok_iff.1 encoded).1
    | uncorrectable =>
      rw [result] at decoded
      cases decoded
  · rw [decode_of_not_clear clear] at decoded
    cases decoded

section

variable {σ ε α : Type}

namespace Session

/-- What the session comes to was decoded. -/
def Decodes (session : Session σ ε Data) : Prop :=
  ∀ source w, (session source).result = .ok w → ∃ cells : Row, cells.decode.data? = some w

/-- It is the last part that decodes. -/
theorem Decodes.bind {first : Session σ ε α} {next : α → Session σ ε Data} (decodes : ∀ a, (next a).Decodes) :
    (first >>= next).Decodes := by
  intro source w obtained
  cases result : (first source).result with
  | error e =>
    rw [bind_of_error result] at obtained
    cases obtained
  | ok a =>
    rw [bind_of_ok result] at obtained
    exact decodes a _ w obtained

/-- Decoded data is kept, and otherwise the reading goes on. -/
theorem Decodes.keepOr {row : UInt32} {cells : Row} {next : Session σ ε Data} (decodes : next.Decodes) :
    (decodeRow row cells >>= keepOr next).Decodes := by
  intro source w obtained
  rw [decodeRow, bind_assoc, report_bind, pure_bind] at obtained
  cases decoded : (Row.decode cells).data? with
  | some data =>
    rw [decoded] at obtained
    cases obtained
    exact ⟨cells, decoded⟩
  | none =>
    rw [decoded] at obtained
    exact decodes source w obtained

end Session

variable [Source σ ε]

theorem decodes_readFrom (config : Config) (row : UInt32) (i left : Nat) (cells : Row) :
    (readFrom config row i left cells : Session σ ε Data).Decodes := by
  induction left generalizing i cells with
  | zero => exact .keepOr nofun
  | succ left ih => exact .keepOr (.bind fun _ => .bind fun cells => ih (i + 1) cells)

/-- A word that is obtained stands for a command. -/
theorem exists_standsFor_of_obtainData {config : Config} {row : UInt32} {source : σ} {w : Data}
    (obtained : (obtainData config row source : Session.Result σ ε Data).result = .ok w) :
    ∃ command, w.StandsFor command := by
  have decodes : (obtainData config row : Session σ ε Data).Decodes := by
    rw [obtainData_eq]
    exact .bind fun cells => decodes_readFrom config row 0 _ cells
  obtain ⟨cells, decoded⟩ := decodes source w obtained
  exact Data.exists_standsFor (Row.binaryCells_of_decode decoded)

/-! ## The rows of a card -/

/-- The event reports a command that is run, the one that the word of the row stands for. -/
inductive Reported : UInt32 × Data → Event → Prop where
  | executed (row : UInt32) (w : Data) (command : Command) (stands : w.StandsFor command) (state : RunState)
      (top? : Option Value) (overflow : Bool) :
      Reported (row, w) (.executed row (some command) state top? overflow)

variable {config : Config} {limits : Limits} {machine : Machine} {source : σ}

/-- The step of a row runs the command of its word. -/
theorem visit_ran {k : Nat} {step : RunState × Machine}
    (ran : (visit config limits machine source k).step? limits = some step) :
    ∃ w command, (visit config limits machine source k).word? = some w ∧ w.StandsFor command ∧
      command.Ends step.1 step.2.lastError ∧ step.2.lastCommand = some command := by
  obtain ⟨w, read, rfl⟩ := Visit.step?_eq_some_iff.1 ran
  obtain ⟨command, stands⟩ := exists_standsFor_of_obtainData read
  obtain ⟨ends, last⟩ := stands.runBits limits (visit config limits machine source k).machine
  have word : (visit config limits machine source k).word? = some w := by
    rw [Visit.word?, read]
    rfl
  exact ⟨w, command, word, stands, ends, last⟩

/-- The next row starts with the machine that the step leaves. -/
theorem machine_rowStart_succ {k : Nat} {step : RunState × Machine}
    (ran : (visit config limits machine source k).step? limits = some step) :
    (rowStart config limits machine source (k + 1)).1 = step.2 := by
  change ((visit config limits machine source k).leaves limits).1 = _
  rw [Visit.leaves, ran]
  rcases step with ⟨_ | _ | _, after⟩ <;> rfl

theorem decodedWords_visit (k : Nat) :
    decodedWords ((visit config limits machine source k).trace limits) =
      ((visit config limits machine source k).word?.map (Prod.mk (.ofNat k))).toList := by
  rw [Visit.decodedWords_trace]
  exact (yields_obtainData config (.ofNat k) (rowStart config limits machine source k).2).1

/-- The word of a row is reported with the command it stands for. -/
theorem reported_visit (k : Nat) :
    List.Forall₂ Reported (decodedWords ((visit config limits machine source k).trace limits))
      (executedEvents ((visit config limits machine source k).trace limits)) := by
  have unreported := (yields_obtainData config (.ofNat k) (rowStart config limits machine source k).2).2
  rw [decodedWords_visit, Visit.executedEvents_trace limits unreported]
  cases ran : (visit config limits machine source k).step? limits with
  | none =>
    have unread : (visit config limits machine source k).word? = none := by
      simpa [Visit.step?] using ran
    rw [unread]
    exact .nil
  | some step =>
    obtain ⟨state, after⟩ := step
    obtain ⟨w, command, word, stands, _, (last : after.lastCommand = some command)⟩ := visit_ran ran
    simp only [word, last, Option.map_some, Option.toList_some]
    exact .cons (.executed _ w command stands _ _ _) .nil

/-- Row by row, each decoded word has its report. -/
theorem reported_rowsTrace (n : Nat) :
    List.Forall₂ Reported (decodedWords (rowsTrace config limits machine source n))
      (executedEvents (rowsTrace config limits machine source n)) := by
  induction n with
  | zero => exact .nil
  | succ n ih =>
    rw [rowsTrace_succ, decodedWords_append, executedEvents_append]
    exact List.rel_append ih (reported_visit n)

/-- What is done for a card is what is done for its first rows. -/
theorem exists_trace_eq_rowsTrace (config : Config) (limits : Limits) (machine : Machine) (source : σ) :
    ∃ n, (runCard config limits machine source).trace = rowsTrace config limits machine source n := by
  rcases passed_or_first_ends config limits machine source config.rows.toNat with
    passed | ⟨r, less, passed, outcome, ends⟩
  · exact ⟨_, congrArg CardRun.trace (runCard_of_passed passed)⟩
  · exact ⟨_, congrArg CardRun.trace (runCard_of_ends less passed ends)⟩

/-- A card is not faulted without a fault that breaks programs. -/
theorem breaks_of_faulted {row : UInt32} {reason? : Option Fault}
    (ended : (runCard config limits machine source).result = .ok (.faulted row reason?)) :
    ∃ fault, reason? = some fault ∧ fault.Breaks := by
  rcases runCard_result_iff.1 ended with ⟨impossible, _⟩ | ⟨r, _, _, ends⟩
  · cases impossible
  · obtain ⟨_, after, ran, rfl⟩ := Visit.ends_faulted_iff.1 ends
    obtain ⟨w, command, _, _, ends, _⟩ := visit_ran ran
    exact ends.breaks

/-- A card is stopped by the last word that was decoded. -/
theorem ends_of_stopped {row : UInt32} (ended : (runCard config limits machine source).result = .ok (.stopped row)) :
    ∃ w command, (decodedWords (runCard config limits machine source).trace).getLast? = some (row, w) ∧
      w.StandsFor command ∧ command.Ends .stopped (runCard config limits machine source).machine.lastError := by
  rcases runCard_result_iff.1 ended with ⟨impossible, _⟩ | ⟨r, less, passed, ends⟩
  · cases impossible
  · have whole := runCard_of_ends less passed ends
    obtain ⟨same, after, ran⟩ := Visit.ends_stopped_iff.1 ends
    obtain rfl : UInt32.ofNat r = row := same
    obtain ⟨w, command, word, stands, ends, _⟩ := visit_ran ran
    rw [whole]
    simp only [machine_rowStart_succ ran, rowsTrace_succ, decodedWords_append, decodedWords_visit, word]
    exact ⟨w, command, List.getLast?_concat, stands, ends⟩

/-- After the last row the machine is still running. -/
theorem lastError_of_completed (ended : (runCard config limits machine source).result = .ok .completed)
    (some : 0 < config.rows) : (runCard config limits machine source).machine.lastError = none := by
  rcases runCard_result_iff.1 ended with ⟨_, passed⟩ | ⟨r, _, _, ends⟩
  · obtain ⟨n, count⟩ : ∃ n, config.rows.toNat = n + 1 :=
      Nat.exists_eq_succ_of_ne_zero (Nat.ne_of_gt (UInt32.lt_iff_toNat_lt.1 some))
    obtain ⟨after, ran, _⟩ := passed n (by omega)
    obtain ⟨w, command, _, _, ends, _⟩ := visit_ran ran
    rw [runCard_of_passed passed, count]
    simp only [machine_rowStart_succ ran]
    exact ends.eq_none_of_running
  · exact absurd ends Visit.not_ends_completed

end

/-- **What a card comes to is explained.** A faulted card tells of a fault that breaks programs. A stopped card
was stopped by the word of its last row, which is STP or met with a fault that stops programs. A card that ran to
its end leaves no fault behind. The word of a row is always well formed, and the report of its step names the
command it stands for. -/
theorem runCard_explained {σ ε : Type} [Source σ ε] (config : Config) (limits : Limits) (machine : Machine)
    (source : σ) :
    let run := runCard config limits machine source
    (∀ row reason?, run.result = .ok (.faulted row reason?) → ∃ fault, reason? = some fault ∧ fault.Breaks) ∧
    (∀ row, run.result = .ok (.stopped row) →
      ∃ w command, (decodedWords run.trace).getLast? = some (row, w) ∧ w.StandsFor command ∧
        (command = .instruction .stp ∧ run.machine.lastError = none ∨
          ∃ fault, run.machine.lastError = some fault ∧ fault.Stops)) ∧
    (run.result = .ok .completed → 0 < config.rows → run.machine.lastError = none) ∧
    (∀ row source w, (obtainData config row source : Session.Result σ ε Data).result = .ok w →
      decodedWords (obtainData config row source : Session.Result σ ε Data).trace = [(row, w)] ∧
        ∃ command, w.StandsFor command) ∧
    List.Forall₂ Reported (decodedWords run.trace) (executedEvents run.trace) := by
  intro run
  refine ⟨fun row reason? => breaks_of_faulted, fun row stopped => ?_, lastError_of_completed, ?_, ?_⟩
  · obtain ⟨w, command, last, stands, ends⟩ := ends_of_stopped stopped
    exact ⟨w, command, last, stands, ends.stp_or_stops⟩
  · intro row source w obtained
    have decoded := (yields_obtainData (ε := ε) config row source).1
    rw [obtained] at decoded
    exact ⟨decoded, exists_standsFor_of_obtainData obtained⟩
  · obtain ⟨n, trace⟩ := exists_trace_eq_rowsTrace config limits machine source
    have reported : List.Forall₂ Reported (decodedWords run.trace) (executedEvents run.trace) := by
      rw [trace]
      exact reported_rowsTrace n
    exact reported

/-- A card without wrong cells. -/
def printedScript (words : List Word) : Script where
  rows := words.map fun word => .ok ((Code.standard.codeword word.bits).map some)

/-- A machine that refused malformed bits before runs the operand 5, then STP, DIV or another operand. -/
theorem runCard_explained_printedScript :
    let m : Machine := { lastError := some (.malformed (.length 3)) }
    let run (second : Word) := runCard { rows := 2 } {} m (printedScript [⟨5⟩, second])
    (run ⟨16⟩).result = .ok (.stopped 1) ∧
      (∃ w command, (decodedWords (run ⟨16⟩).trace).getLast? = some (1, w) ∧ w.StandsFor command ∧
        (command = .instruction .stp ∧ (run ⟨16⟩).machine.lastError = none ∨
          ∃ fault, (run ⟨16⟩).machine.lastError = some fault ∧ fault.Stops)) ∧
      (run ⟨23⟩).result = .ok (.faulted 1 (some .divisionUnderflow)) ∧
      (∃ fault, some Fault.divisionUnderflow = some fault ∧ fault.Breaks) ∧
      (run ⟨6⟩).result = .ok .completed ∧ (run ⟨6⟩).machine.lastError = none := by
  intro m run
  have stopped : (run ⟨16⟩).result = .ok (.stopped 1) := by decide +kernel
  have faulted : (run ⟨23⟩).result = .ok (.faulted 1 (some .divisionUnderflow)) := by decide +kernel
  have completed : (run ⟨6⟩).result = .ok .completed := by decide +kernel
  have explained (second : Word) := runCard_explained { rows := 2 } {} m (printedScript [⟨5⟩, second])
  exact ⟨stopped, (explained ⟨16⟩).2.1 1 stopped, faulted, (explained ⟨23⟩).1 1 _ faulted, completed,
    (explained ⟨6⟩).2.2.1 completed (by decide)⟩

end InstructionCard
