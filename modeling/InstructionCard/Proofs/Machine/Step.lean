import InstructionCard.Proofs.Machine.Perform

/-!
# Steps by their input

A step runs the word that its input stands for. An input that stands for no word is reported, and that is all.
-/

set_option autoImplicit false

namespace InstructionCard

namespace Machine

variable {limits : Limits} {m : Machine}

/-- A word that goes through answers running, unless it is STP. -/
theorem runWord_of_ok {after : Machine} {word : Word}
    (done : (m.started word.command).perform limits word.command = .ok after) :
    m.runWord limits word = (if word.command = .instruction .stp then .stopped else .running, after) := by
  unfold started at done
  simp only [runWord, done]

/-- A word that does not go through leaves only its command and the fault. -/
theorem runWord_of_error {fault : Fault} {word : Word}
    (failed : (m.started word.command).perform limits word.command = .error fault) :
    m.runWord limits word = (m.started word.command).fail fault := by
  unfold started at failed
  simp only [runWord, failed, started]

/-- A fault is reported by the command that met with it. -/
theorem perform_of_lastError {fault : Fault} {word : Word}
    (reported : (m.runWord limits word).2.lastError = some fault) :
    (m.started word.command).perform limits word.command = .error fault := by
  obtain ⟨after, done, ran⟩ | ⟨cause, failed, ran⟩ := runWord_cases limits m word
  · have silent : after.lastError = none := (books_perform done).2
    rw [ran, silent] at reported
    cases reported
  · rw [ran] at reported
    cases reported
    exact failed

/-- Without a word the limits do not matter either. -/
theorem step_of_word?_eq_none {input : Input} (malformed : input.word? = none) :
    ∃ cause, ∀ (limits : Limits) (m : Machine), m.step limits input = m.fail (.malformed cause) := by
  cases input with
  | word w => cases malformed
  | bits cells =>
    cases read : Word.ofBits cells with
    | ok w => simp [Input.word?, read, Except.toOption] at malformed
    | error cause => exact ⟨cause, fun limits m => by rw [step, runBits, read]⟩

theorem step_of_word?_eq_some {input : Input} {word : Word} (wellFormed : input.word? = some word) :
    m.step limits input = m.runWord limits word := by
  cases input with
  | word w =>
    cases wellFormed
    rfl
  | bits cells =>
    cases read : Word.ofBits cells with
    | ok w =>
      simp only [Input.word?, read, Except.toOption, Option.some.injEq] at wellFormed
      rw [step, runBits, read, wellFormed]
    | error cause => simp [Input.word?, read, Except.toOption] at wellFormed

end Machine

end InstructionCard
