import InstructionCard.Proofs.Machine.Locality

/-!
# How a command ends

A command keeps the machine running or ends with a fault that is never about malformed input; STP just stops. Main
result: `Machine.ends_runWord`.
-/

set_option autoImplicit false

namespace InstructionCard

/-- A program that meets with the fault is stopped. -/
inductive Fault.Stops : Fault → Prop where
  | stackUnderflow (needed available : Nat) : Stops (.stackUnderflow needed available)
  | divisionByZero : Stops .divisionByZero
  | moduloByZero : Stops .moduloByZero

/-- A program that meets with the fault is broken. -/
inductive Fault.Breaks : Fault → Prop where
  | divisionUnderflow : Breaks .divisionUnderflow
  | notHexDigit (v : Value) : Breaks (.notHexDigit v)
  | notByte (v : Value) : Breaks (.notByte v)
  | stackOverflow : Breaks .stackOverflow
  | speechTooLong : Breaks .speechTooLong

/-- What the machine answers to the command, and what it tells of it. -/
inductive Command.Ends (command : Command) : RunState → Option Fault → Prop where
  | running (other : command ≠ .instruction .stp) : Ends command .running none
  | stopped (stp : command = .instruction .stp) : Ends command .stopped none
  | halted (fault : Fault) (stops : fault.Stops) : Ends command .stopped (some fault)
  | broken (fault : Fault) (breaks : fault.Breaks) : Ends command .error (some fault)

namespace Command.Ends

variable {command : Command} {reason? : Option Fault}

theorem eq_none_of_running (ends : command.Ends .running reason?) : reason? = none := by
  cases ends with
  | running _ => rfl

theorem stp_or_stops (ends : command.Ends .stopped reason?) :
    command = .instruction .stp ∧ reason? = none ∨ ∃ fault, reason? = some fault ∧ fault.Stops := by
  cases ends with
  | stopped stp => exact .inl ⟨stp, rfl⟩
  | halted fault stops => exact .inr ⟨fault, rfl, stops⟩

theorem breaks (ends : command.Ends .error reason?) : ∃ fault, reason? = some fault ∧ fault.Breaks := by
  cases ends with
  | broken fault breaks => exact ⟨fault, rfl, breaks⟩

end Command.Ends

namespace Machine

variable {limits : Limits} {m : Machine}

/-- No command is refused as malformed. -/
theorem perform_ne_malformed {command : Command} {cause : WordError} :
    m.perform limits command ≠ .error (.malformed cause) := by
  intro failed
  -- Faults are known for machines that fit their limits. Within limits that fit, this fault would stay.
  let wide : Limits := { limits with stack := max limits.stack m.stack.length }
  have fits : limits.FitsAbove [] wide := ⟨Nat.le_max_left _ _, Nat.le_refl _⟩
  cases lifts_perform m fits command with
  | same alike =>
    rw [failed, above_nil] at alike
    exact due_of_perform (Nat.le_max_right _ _) alike
  | cured fault failed' curable =>
    rw [failed] at failed'
    cases failed'
    cases curable with
    | values _ _ some => exact some rfl

/-- A word ends as its command does. -/
theorem ends_runWord (limits : Limits) (m : Machine) (word : Word) :
    word.command.Ends (m.runWord limits word).1 (m.runWord limits word).2.lastError := by
  obtain ⟨after, done, ran⟩ | ⟨fault, failed, ran⟩ := runWord_cases limits m word
  · have silent : after.lastError = none := (books_perform done).2
    rw [ran, silent]
    by_cases stp : word.command = .instruction .stp
    · rw [if_pos stp]
      exact .stopped stp
    · rw [if_neg stp]
      exact .running stp
  · rw [ran]
    cases fault with
    | malformed cause => exact absurd failed perform_ne_malformed
    | stackUnderflow needed available => exact .halted _ (.stackUnderflow needed available)
    | divisionByZero => exact .halted _ .divisionByZero
    | moduloByZero => exact .halted _ .moduloByZero
    | divisionUnderflow => exact .broken _ .divisionUnderflow
    | notHexDigit v => exact .broken _ (.notHexDigit v)
    | notByte v => exact .broken _ (.notByte v)
    | stackOverflow => exact .broken _ .stackOverflow
    | speechTooLong => exact .broken _ .speechTooLong

end Machine

end InstructionCard
