import InstructionCard.Proofs.Machine.Locality

/-!
# Limits show only in faults

A machine with wider limits does the same, up to the first fault that tells of too little room. That fault is
met only when the stack is full or the line too long, and with more room the same input may go through. Main
result: `Machine.history_of_le`.
-/

set_option autoImplicit false

namespace InstructionCard

/-- Wider limits are larger. -/
instance : LE Limits where
  le small large := small.stack ≤ large.stack ∧ small.speech ≤ large.speech

namespace Machine

variable {small large : Limits} {m : Machine}

/-- With more room no new fault is due. -/
theorem due_of_le (le : small ≤ large) {stack : List Value} (fits : stack.length ≤ small.stack)
    {command : Command} {fault : Fault} (due : Due large stack command fault) : Due small stack command fault := by
  obtain ⟨lessStack, lessSpeech⟩ := le
  cases fault with
  | stackOverflow =>
    obtain ⟨full, pushes⟩ := due
    exact ⟨by omega, pushes⟩
  | speechTooLong =>
    obtain ⟨speaks, count, rest, stack, enough, long⟩ := due
    exact ⟨speaks, count, rest, stack, enough, Nat.lt_of_le_of_lt lessSpeech long⟩
  | malformed _ => exact due
  | stackUnderflow _ _ => exact due
  | divisionUnderflow => exact due
  | divisionByZero => exact due
  | moduloByZero => exact due
  | notHexDigit _ => exact due
  | notByte _ => exact due

theorem fitsAbove_nil (le : small ≤ large) : small.FitsAbove [] large :=
  ⟨le.1, le.2⟩

/-- With nothing below it, a machine can only be helped by more room. -/
theorem lacksRoom_of_curable {fault : Fault} (curable : fault.Curable small [] large) : fault.lacksRoom = true := by
  cases curable with
  | values _ _ some => exact absurd rfl some
  | room _ => rfl
  | line _ => rfl

/-- Within wider limits a step is the same, or it goes through where it lacked room. -/
theorem step_of_le (le : small ≤ large) (fits : m.stack.length ≤ small.stack) (input : Input) :
    m.step large input = m.step small input ∨
      (m.step small input).2.lastError.any Fault.lacksRoom = true ∧ (m.step large input).2.lastError = none := by
  cases read : input.word? with
  | none =>
    obtain ⟨cause, malformed⟩ := step_of_word?_eq_none read
    exact .inl ((malformed large m).trans (malformed small m).symm)
  | some word =>
    rw [step_of_word?_eq_some read, step_of_word?_eq_some read]
    by_cases lacks : (m.runWord small word).2.lastError.any Fault.lacksRoom = true
    · cases result : (m.started word.command).perform large word.command with
      | ok after =>
        rw [runWord_of_ok result]
        exact .inr ⟨lacks, (books_perform result).2⟩
      | error fault =>
        -- A wider machine meets only with faults that the smaller one meets with, too.
        have fits : (m.started word.command).stack.length ≤ small.stack := fits
        have met := due_of_perform (Nat.le_trans fits le.1) result
        have failed : (m.started word.command).perform small word.command = .error fault :=
          perform_of_due (due_of_le le fits met)
        rw [runWord_of_error result, runWord_of_error failed]
        exact .inl rfl
    · refine .inl ?_
      have same := runWord_above (fitsAbove_nil le) fun fault reported curable => lacks (by
        rw [reported]
        exact lacksRoom_of_curable curable)
      simpa using same

/-- A fault that tells of too little room is due. -/
theorem due_of_lacksRoom {input : Input} {fault : Fault} (lacks : fault.lacksRoom = true)
    (fits : m.stack.length ≤ small.stack) (reported : (m.step small input).2.lastError = some fault) :
    ∃ command, Due small m.stack command fault := by
  cases read : input.word? with
  | none =>
    obtain ⟨cause, malformed⟩ := step_of_word?_eq_none read
    rw [malformed] at reported
    cases reported
    cases lacks
  | some word =>
    rw [step_of_word?_eq_some read] at reported
    have fits : (m.started word.command).stack.length ≤ small.stack := fits
    exact ⟨word.command, due_of_perform fits (perform_of_lastError reported)⟩

/-- **Limits show only in faults.** As long as a machine does not lack room, wider limits change nothing. At the
first step at which it does, the stack is full or the line too long, and a machine with wider limits does the
same or goes through. -/
theorem history_of_le (small large : Limits) (le : small ≤ large) (m : Machine) (fits : m.Fits small)
    (inputs : List Input) (roomy : ∀ step ∈ m.history small inputs, step.2.lastError.any Fault.lacksRoom = false) :
    m.history large inputs = m.history small inputs ∧
    m.run large inputs = m.run small inputs ∧
    ∀ input,
      let before := m.run small inputs
      let step := before.step small input
      let wider := before.step large input
      (wider = step ∨ step.2.lastError.any Fault.lacksRoom = true ∧ wider.2.lastError = none) ∧
      (step.2.lastError = some .stackOverflow → before.stack.length = small.stack) ∧
      (step.2.lastError = some .speechTooLong → ∃ count rest, before.stack = .byte count :: rest ∧
        count.toNat ≤ rest.length ∧
        small.speech < (String.join ((rest.take count.toNat).map Value.text)).utf8ByteSize) := by
  have fitsAlways : (m.run small inputs).stack.length ≤ small.stack := (fits.run inputs).stack
  have same := history_above (fitsAbove_nil le) fun step mem fault reported curable => by
    have none := roomy step mem
    rw [reported, Option.any_some, lacksRoom_of_curable curable] at none
    cases none
  simp only [above_nil, Prod.eta, List.map_id'] at same
  refine ⟨same.1, same.2, fun input => ⟨step_of_le le fitsAlways input, fun reported => ?_, fun reported => ?_⟩⟩
  · obtain ⟨command, full, _⟩ := due_of_lacksRoom rfl fitsAlways reported
    exact full
  · obtain ⟨command, _, count, rest, stack, enough, long⟩ := due_of_lacksRoom rfl fitsAlways reported
    rw [← utf8ByteSize_join] at long
    exact ⟨count, rest, stack, enough, long⟩

/-- Two values and a line of two bytes are all there is room for: swapping the values goes, a third value and
the line 200 do not. -/
theorem history_of_le_tightLimits :
    let small : Limits := { stack := 2, speech := 2 }
    let large : Limits := { stack := 3, speech := 3 }
    let m : Machine := { stack := [.byte 1, .byte 200], overflow := true }
    let inputs : List Input := [.bits [0, 1], .word ⟨19⟩, .word ⟨19⟩]
    let before := m.run small inputs
    small ≤ large ∧ m.Fits small ∧
      (∀ step ∈ m.history small inputs, step.2.lastError.any Fault.lacksRoom = false) ∧
      m.history large inputs = m.history small inputs ∧
      (before.step small (.word ⟨5⟩)).2.lastError = some .stackOverflow ∧
      before.stack.length = 2 ∧ (before.step large (.word ⟨5⟩)).2.lastError = none ∧
      (before.step small (.word ⟨33⟩)).2.lastError = some .speechTooLong ∧
      (∃ count rest, before.stack = .byte count :: rest ∧ count.toNat ≤ rest.length ∧
        2 < (String.join ((rest.take count.toNat).map Value.text)).utf8ByteSize) := by
  intro small large m inputs before
  have le : small ≤ large := ⟨by decide, by decide⟩
  have fits : m.Fits small := ⟨by decide, by decide⟩
  have roomy : ∀ step ∈ m.history small inputs, step.2.lastError.any Fault.lacksRoom = false := by decide
  have full : (before.step small (.word ⟨5⟩)).2.lastError = some .stackOverflow := by decide
  have long : (before.step small (.word ⟨33⟩)).2.lastError = some .speechTooLong := by decide +kernel
  obtain ⟨same, _, next⟩ := history_of_le small large le m fits inputs roomy
  exact ⟨le, fits, roomy, same, full, (next (.word ⟨5⟩)).2.1 full, by decide, long, (next (.word ⟨33⟩)).2.2 long⟩

end Machine

end InstructionCard
