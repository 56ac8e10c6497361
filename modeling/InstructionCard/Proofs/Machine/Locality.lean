import InstructionCard.Proofs.Machine.FaultTable
import InstructionCard.Proofs.Machine.Step

/-!
# More values below, more room above

A machine may stand above values that it knows nothing of, and its limits may be wider than it needs. It goes
the same way there, up to the first fault that the added values or the added room can cure. Main result:
`Machine.history_local`.
-/

set_option autoImplicit false

namespace InstructionCard

/-- The machine with the values of `base` below its own. -/
def Machine.above (m : Machine) (base : List Value) : Machine :=
  { m with stack := m.stack ++ base }

/-- Within the limits `wide` there is room for `base` besides all that fits the limits. -/
structure Limits.FitsAbove (limits : Limits) (base : List Value) (wide : Limits) : Prop where
  stack : limits.stack + base.length ≤ wide.stack
  speech : limits.speech ≤ wide.speech

namespace Fault

/-- The machine lacked values on its stack. -/
def lacksValues : Fault → Bool
  | stackUnderflow _ _ | divisionUnderflow => true
  | malformed _ | divisionByZero | moduloByZero | notHexDigit _ | notByte _ | stackOverflow | speechTooLong => false

/-- The machine lacked room on its stack or in its line. -/
def lacksRoom : Fault → Bool
  | stackOverflow | speechTooLong => true
  | malformed _ | stackUnderflow _ _ | divisionUnderflow | divisionByZero | moduloByZero | notHexDigit _
  | notByte _ => false

/-- Above `base` and within the limits `wide` there is more of what the machine lacked. -/
inductive Curable (limits : Limits) (base : List Value) (wide : Limits) : Fault → Prop where
  | values (fault : Fault) (lacks : fault.lacksValues = true) (some : base ≠ []) : Curable limits base wide fault
  | room (more : limits.stack + base.length < wide.stack) : Curable limits base wide .stackOverflow
  | line (more : limits.speech < wide.speech) : Curable limits base wide .speechTooLong

end Fault

/-- What comes of a command above `base`, compared with what comes of it without. -/
inductive Lifts (limits : Limits) (base : List Value) (wide : Limits) (plain lifted : Except Fault Machine) :
    Prop where
  | same (alike : lifted = plain.map (·.above base)) : Lifts limits base wide plain lifted
  | cured (fault : Fault) (failed : plain = .error fault) (curable : fault.Curable limits base wide) :
      Lifts limits base wide plain lifted

namespace Machine

variable {limits wide : Limits} {base : List Value}

@[simp] theorem stack_above (m : Machine) (base : List Value) : (m.above base).stack = m.stack ++ base := rfl

@[simp] theorem above_nil (m : Machine) : m.above [] = m := by
  simp [above]

/-! ## One command -/

section

variable (m : Machine)

/-- With nothing below it, a machine lacks what it lacked before. -/
theorem lifts_of_lacksValues {plain lifted : Except Fault Machine} (fault : Fault)
    (failed : plain = .error fault) (lacks : fault.lacksValues = true) (alone : base = [] → lifted = plain) :
    Lifts limits base wide plain lifted := by
  by_cases empty : base = []
  · refine .same ?_
    rw [alone empty, failed]
    rfl
  · exact .cured fault failed (.values fault lacks empty)

/-- A value that finds room finds it above the base too. One that finds none is cured only by more room. -/
theorem lifts_put (fits : limits.FitsAbove base wide) (v : Value) :
    Lifts limits base wide (m.put limits v) ((m.above base).put wide v) := by
  have length : (m.above base).stack.length = m.stack.length + base.length := List.length_append
  have room := fits.stack
  by_cases free : m.stack.length < limits.stack
  · refine .same ?_
    rw [put, put, if_pos free, if_pos (by omega)]
    rfl
  · by_cases more : limits.stack + base.length < wide.stack
    · exact .cured .stackOverflow (if_neg free) (.room more)
    · refine .same ?_
      rw [put, put, if_neg free, if_neg (by omega)]
      rfl

theorem lifts_putFresh (fits : limits.FitsAbove base wide) (v : Value) :
    Lifts limits base wide (m.putFresh limits v) ((m.above base).putFresh wide v) := by
  rw [putFresh, putFresh]
  cases lifts_put m fits v with
  | same alike =>
    refine .same ?_
    rw [alike]
    cases m.put limits v <;> rfl
  | cured fault failed curable => exact .cured fault (by rw [failed]; rfl) curable

/-- A value on top is the same with a base below it. -/
theorem lifts_onTop (op : UInt8 → ByteResult) :
    Lifts limits base wide (m.onTop op) ((m.above base).onTop op) := by
  cases stack : m.stack with
  | nil =>
    refine lifts_of_lacksValues (.stackUnderflow 1 0) ?_ rfl fun alone => by rw [alone, above_nil]
    rw [onTop, stack]
  | cons top rest =>
    refine .same ?_
    rw [onTop, onTop, stack_above, stack]
    cases top <;> rfl

theorem short_or_two (stack : List Value) :
    stack.length < 2 ∨ ∃ top below rest, stack = top :: below :: rest := by
  match stack with
  | [] => exact .inl Nat.two_pos
  | [_] => exact .inl Nat.one_lt_two
  | top :: below :: rest => exact .inr ⟨top, below, rest, rfl⟩

/-- So are two values on top, if the stack has two of its own. -/
theorem lifts_onTopTwo (op : UInt8 → UInt8 → Except Fault ByteResult) :
    Lifts limits base wide (m.onTopTwo op) ((m.above base).onTopTwo op) := by
  rcases short_or_two m.stack with short | ⟨top, below, rest, stack⟩
  · exact lifts_of_lacksValues _ (onTopTwo_eq_error_iff.2 (.inl ⟨short, rfl⟩)) rfl fun alone => by
      rw [alone, above_nil]
  · refine .same ?_
    rw [onTopTwo, onTopTwo, stack_above, stack]
    cases below with
    | symbol s => rfl
    | byte a =>
      cases top with
      | symbol s => rfl
      | byte b =>
        simp only [List.cons_append, Value.byteOrFault, bind, Except.bind]
        cases op a b <;> rfl

theorem lifts_joinDigits : Lifts limits base wide m.joinDigits (m.above base).joinDigits := by
  rcases short_or_two m.stack with short | ⟨top, below, rest, stack⟩
  · exact lifts_of_lacksValues _ (joinDigits_eq_error_iff.2 (.inl ⟨short, rfl⟩)) rfl fun alone => by
      rw [alone, above_nil]
  · refine .same ?_
    rw [joinDigits, joinDigits, stack_above, stack]
    simp only [List.cons_append, bind, Except.bind]
    cases below.hexDigitOrFault with
    | error fault => rfl
    | ok low => cases top.hexDigitOrFault <;> rfl

/-- A count that is larger than the stack is refused, so a line never reaches into the base. -/
theorem lifts_speak (fits : limits.FitsAbove base wide) :
    Lifts limits base wide (m.speak limits) ((m.above base).speak wide) := by
  match stack : m.stack with
  | [] =>
    refine lifts_of_lacksValues _ (speak_eq_error_iff.2 (.inl ⟨stack, rfl⟩)) rfl fun alone => ?_
    rw [alone, above_nil, speak, speak, stack]
  | .symbol s :: rest =>
    refine .same ?_
    rw [speak, speak, stack_above, stack]
    rfl
  | .byte count :: rest =>
    by_cases short : rest.length < count.toNat
    · refine lifts_of_lacksValues (.stackUnderflow (count.toNat + 1) (rest.length + 1)) ?_ rfl fun alone => ?_
      · simp only [speak, stack, if_pos short]
      · simp only [alone, above_nil, speak, stack, if_pos short]
    · -- All values that are spoken lie above the base.
      have short' : ¬ (rest ++ base).length < count.toNat := by
        rw [List.length_append]
        omega
      have spoken : (rest ++ base).take count.toNat = rest.take count.toNat :=
        List.take_append_of_le_length (Nat.not_lt.1 short)
      have left : (rest ++ base).drop count.toNat = rest.drop count.toNat ++ base :=
        List.drop_append_of_le_length (Nat.not_lt.1 short)
      simp only [speak, stack_above, stack, List.cons_append, if_neg short, if_neg short', spoken, left]
      generalize String.join ((rest.take count.toNat).map Value.text) = line
      by_cases room : line.utf8ByteSize ≤ limits.speech
      · refine .same ?_
        rw [if_pos room, if_pos (Nat.le_trans room fits.speech)]
        rfl
      · by_cases more : limits.speech < wide.speech
        · exact .cured .speechTooLong (if_neg room) (.line more)
        · refine .same ?_
          rw [if_neg room, if_neg (by have := fits.speech; omega)]
          rfl

/-- No instruction reaches below the values it looks for. -/
theorem lifts_performInstruction (fits : limits.FitsAbove base wide) (i : Instruction) :
    Lifts limits base wide (m.performInstruction limits i) ((m.above base).performInstruction wide i) := by
  have lacking (notDiv : i ≠ .div) (short : m.stack.length < i.operands) :
      Lifts limits base wide (m.performInstruction limits i) ((m.above base).performInstruction wide i) :=
    lifts_of_lacksValues _ (perform_of_stackUnderflow notDiv short) rfl fun alone => by
      rw [alone, above_nil, perform_of_stackUnderflow notDiv short, perform_of_stackUnderflow notDiv short]
  cases i with
  | stp => exact .same rfl
  | dup =>
    cases stack : m.stack with
    | nil => exact lacking (by decide) (by rw [stack]; exact Nat.one_pos)
    | cons top rest =>
      simp only [performInstruction, stack_above, stack, List.cons_append]
      exact lifts_put m fits top
  | del =>
    cases stack : m.stack with
    | nil => exact lacking (by decide) (by rw [stack]; exact Nat.one_pos)
    | cons top rest =>
      refine .same ?_
      simp only [performInstruction, stack_above, stack]
      rfl
  | swp =>
    rcases short_or_two m.stack with short | ⟨top, below, rest, stack⟩
    · exact lacking (by decide) short
    · refine .same ?_
      simp only [performInstruction, stack_above, stack]
      rfl
  | div =>
    by_cases short : m.stack.length < 2
    · refine lifts_of_lacksValues .divisionUnderflow (if_pos short) rfl fun alone => ?_
      rw [alone, above_nil, performInstruction, performInstruction]
    · have short' : ¬ (m.above base).stack.length < 2 := by
        rw [stack_above, List.length_append]
        omega
      rw [performInstruction, performInstruction, if_neg short, if_neg short']
      exact lifts_onTopTwo m _
  | hex => exact lifts_joinDigits m
  | fac => exact lifts_onTop m _
  | not => exact lifts_onTop m _
  | add => exact lifts_onTopTwo m _
  | sub => exact lifts_onTopTwo m _
  | mul => exact lifts_onTopTwo m _
  | exp => exact lifts_onTopTwo m _
  | mod => exact lifts_onTopTwo m _
  | shl => exact lifts_onTopTwo m _
  | shr => exact lifts_onTopTwo m _
  | xor => exact lifts_onTopTwo m _

/-- A command goes the same way above the base, unless it meets with a fault that is cured there. -/
theorem lifts_perform (fits : limits.FitsAbove base wide) (command : Command) :
    Lifts limits base wide (m.perform limits command) ((m.above base).perform wide command) := by
  match command with
  | .operand value => exact lifts_putFresh m fits _
  | .instruction i => exact lifts_performInstruction m fits i
  | .character (.nop _) => exact .same rfl
  | .character .speak => exact lifts_speak m fits
  | .character (.symbol s) => exact lifts_putFresh m fits _

end

/-! ## Steps and runs -/

variable {m : Machine}

/-- A word goes the same way above the base, unless it reports a fault that is cured there. -/
theorem runWord_above (fits : limits.FitsAbove base wide) {word : Word}
    (incurable : ∀ fault, (m.runWord limits word).2.lastError = some fault → ¬ fault.Curable limits base wide) :
    (m.above base).runWord wide word = ((m.runWord limits word).1, (m.runWord limits word).2.above base) := by
  cases lifts_perform (m.started word.command) fits word.command with
  | same alike =>
    cases result : (m.started word.command).perform limits word.command with
    | ok after =>
      rw [result] at alike
      have done : ((m.above base).started word.command).perform wide word.command = .ok (after.above base) := alike
      rw [runWord_of_ok result, runWord_of_ok done]
    | error fault =>
      rw [result] at alike
      have failed : ((m.above base).started word.command).perform wide word.command = .error fault := alike
      rw [runWord_of_error result, runWord_of_error failed]
      rfl
  | cured fault failed curable =>
    rw [runWord_of_error failed] at incurable
    exact absurd curable (incurable fault rfl)

/-- A step that meets with no fault a base could cure goes the same way above it. -/
theorem step_above (fits : limits.FitsAbove base wide) {input : Input}
    (incurable : ∀ fault, (m.step limits input).2.lastError = some fault → ¬ fault.Curable limits base wide) :
    (m.above base).step wide input = ((m.step limits input).1, (m.step limits input).2.above base) := by
  cases read : input.word? with
  | none =>
    obtain ⟨cause, malformed⟩ := step_of_word?_eq_none read
    rw [malformed, malformed]
    rfl
  | some word =>
    rw [step_of_word?_eq_some read] at *
    rw [step_of_word?_eq_some read]
    exact runWord_above fits incurable

/-- A run goes the same way above the base, as long as no fault is reported that is cured there. -/
theorem history_above (fits : limits.FitsAbove base wide) {inputs : List Input}
    (incurable : ∀ step ∈ m.history limits inputs, ∀ fault, step.2.lastError = some fault →
      ¬ fault.Curable limits base wide) :
    (m.above base).history wide inputs =
        (m.history limits inputs).map (fun step => (step.1, step.2.above base)) ∧
      (m.above base).run wide inputs = (m.run limits inputs).above base := by
  induction inputs generalizing m with
  | nil => exact ⟨rfl, rfl⟩
  | cons input inputs ih =>
    rw [history, List.forall_mem_cons] at incurable
    obtain ⟨first, others⟩ := incurable
    obtain ⟨later, last⟩ := ih others
    rw [history, history, run, run, step_above fits first, List.map_cons, later, last]
    exact ⟨rfl, rfl⟩

/-- **Programs are local to the top of the stack.** As long as a machine never lacks values, it does not
matter what is below its stack, if the stack may be as much longer: the answers and all the machine keeps
are the same, and the values below stay where they are. -/
theorem history_local (limits : Limits) (m : Machine) (base : List Value) (inputs : List Input)
    (enough : ∀ step ∈ m.history limits inputs, step.2.lastError.any Fault.lacksValues = false) :
    (m.above base).history { limits with stack := limits.stack + base.length } inputs =
      (m.history limits inputs).map fun step => (step.1, step.2.above base) := by
  have fits : limits.FitsAbove base { limits with stack := limits.stack + base.length } :=
    ⟨Nat.le_refl _, Nat.le_refl _⟩
  refine (history_above fits fun step mem fault reported curable => ?_).1
  cases curable with
  | values _ lacks some =>
    have none := enough step mem
    rw [reported, Option.any_some, lacks] at none
    cases none
  | room more => exact Nat.lt_irrefl _ more
  | line more => exact Nat.lt_irrefl _ more

/-- Above a blank and a byte: an operand that finds no room, malformed bits, a spoken letter, two operands and a
division by zero. -/
theorem history_local_spokenLetter :
    let limits : Limits := { stack := 2, speech := 1 }
    let m : Machine := { stack := [.byte 1, .symbol (.letter 0)], overflow := true }
    let base : List Value := [.symbol .space, .byte 7]
    let inputs : List Input := [.word ⟨5⟩, .bits [0, 2], .word ⟨33⟩, .word ⟨6⟩, .word ⟨0⟩, .word ⟨23⟩]
    (∀ step ∈ m.history limits inputs, step.2.lastError.any Fault.lacksValues = false) ∧
      (m.above base).history { stack := 4, speech := 1 } inputs =
        (m.history limits inputs).map (fun step => (step.1, step.2.above base)) ∧
      (m.run limits inputs).stack = [.byte 0, .byte 6] ∧ (m.run limits inputs).spoken = ["A"] := by
  intro limits m base inputs
  have enough : ∀ step ∈ m.history limits inputs, step.2.lastError.any Fault.lacksValues = false := by
    decide +kernel
  exact ⟨enough, history_local limits m base inputs enough, by decide +kernel, by decide +kernel⟩

end Machine

end InstructionCard
