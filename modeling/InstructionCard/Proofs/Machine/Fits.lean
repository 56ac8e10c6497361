import InstructionCard.Proofs.Machine.Perform

/-!
# Limits

The stack and the last speech of a machine stay within its limits, whatever it runs.
-/

set_option autoImplicit false

namespace InstructionCard

namespace Machine

structure Fits (limits : Limits) (m : Machine) : Prop where
  stack : m.stack.length ≤ limits.stack
  speech : m.lastSpeech.utf8ByteSize ≤ limits.speech

variable {limits : Limits} {m after : Machine}

theorem fits_new (limits : Limits) : Fits limits {} :=
  ⟨Nat.zero_le _, Nat.zero_le _⟩

namespace Fits

/-- Whatever does not grow the stack or speak stays within the limits. -/
theorem of_le (fits : m.Fits limits) (stack : after.stack.length ≤ m.stack.length)
    (speech : after.lastSpeech = m.lastSpeech) : after.Fits limits :=
  ⟨Nat.le_trans stack fits.stack, speech ▸ fits.speech⟩

theorem onTopTwo {op : UInt8 → UInt8 → Except Fault ByteResult} (fits : m.Fits limits)
    (h : m.onTopTwo op = .ok after) : after.Fits limits := by
  obtain ⟨a, b, rest, result, stack, _, rfl⟩ := onTopTwo_eq_ok h
  exact fits.of_le (by simp [stack]) rfl

theorem onTop {op : UInt8 → ByteResult} (fits : m.Fits limits) (h : m.onTop op = .ok after) :
    after.Fits limits := by
  obtain ⟨a, rest, stack, rfl⟩ := onTop_eq_ok h
  exact fits.of_le (by simp [stack]) rfl

theorem putFresh {v : Value} (fits : m.Fits limits) (h : m.putFresh limits v = .ok after) :
    after.Fits limits := by
  obtain ⟨room, rfl⟩ := putFresh_eq_ok h
  exact ⟨room, fits.speech⟩

/-- DUP is the only instruction that grows the stack, and it looks for room. -/
theorem performInstruction {i : Instruction} (fits : m.Fits limits)
    (h : m.performInstruction limits i = .ok after) : after.Fits limits := by
  cases i with
  | stp =>
    cases h
    exact fits
  | dup =>
    simp only [Machine.performInstruction] at h
    split at h
    · obtain ⟨room, rfl⟩ := put_eq_ok h
      exact ⟨room, fits.speech⟩
    · cases h
  | del =>
    simp only [Machine.performInstruction] at h
    split at h
    · next stack =>
      cases h
      exact fits.of_le (by simp [stack]) rfl
    · cases h
  | swp =>
    simp only [Machine.performInstruction] at h
    split at h
    · next stack =>
      cases h
      exact fits.of_le (by simp [stack]) rfl
    · cases h
  | div =>
    simp only [Machine.performInstruction] at h
    split at h
    · cases h
    · exact fits.onTopTwo h
  | hex =>
    obtain ⟨top, below, rest, high, low, stack, _, _, rfl⟩ := joinDigits_eq_ok h
    exact fits.of_le (by simp [stack]) rfl
  | fac => exact fits.onTop h
  | not => exact fits.onTop h
  | add => exact fits.onTopTwo h
  | sub => exact fits.onTopTwo h
  | mul => exact fits.onTopTwo h
  | exp => exact fits.onTopTwo h
  | mod => exact fits.onTopTwo h
  | shl => exact fits.onTopTwo h
  | shr => exact fits.onTopTwo h
  | xor => exact fits.onTopTwo h

/-- A command that goes through stays within the limits. -/
theorem perform {command : Command} (fits : m.Fits limits) (h : m.perform limits command = .ok after) :
    after.Fits limits := by
  match command with
  | .operand value => exact fits.putFresh h
  | .instruction i => exact fits.performInstruction h
  | .character (.nop _) =>
    cases h
    exact fits
  | .character .speak =>
    obtain ⟨count, rest, stack, _, room, rfl⟩ := speak_eq_ok h
    have shorter : (rest.drop count.toNat).length ≤ limits.stack := by
      have := fits.stack
      rw [stack, List.length_cons] at this
      rw [List.length_drop]
      omega
    exact ⟨shorter, room⟩
  | .character (.symbol s) => exact fits.putFresh h

theorem runWord (fits : m.Fits limits) (word : Word) : (m.runWord limits word).2.Fits limits := by
  have start : (m.started word.command).Fits limits := ⟨fits.stack, fits.speech⟩
  obtain ⟨after, done, ran⟩ | ⟨fault, _, ran⟩ := runWord_cases limits m word
  · rw [ran]
    exact start.perform done
  · rw [ran]
    exact ⟨start.stack, start.speech⟩

/-- A fault leaves the stack and the speech alone. -/
theorem step (fits : m.Fits limits) (input : Input) : (m.step limits input).2.Fits limits := by
  cases input with
  | word w => exact fits.runWord w
  | bits cells =>
    rw [Machine.step, runBits]
    cases Word.ofBits cells with
    | ok w => exact fits.runWord w
    | error cause => exact ⟨fits.stack, fits.speech⟩

/-- A run keeps a machine within its limits. -/
theorem run (fits : m.Fits limits) (inputs : List Input) : (m.run limits inputs).Fits limits := by
  induction inputs generalizing m with
  | nil => exact fits
  | cons input inputs ih => exact ih (fits.step input)

end Fits

end Machine

end InstructionCard
