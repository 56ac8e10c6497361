import InstructionCard.Proofs.Machine.InPlace

/-!
# Steps that do not go through

A step that does not keep the machine running does no work: stack, overflow flag and speech stay as they
were. The steps of a run that do not answer running can thus be left out. Main result: `Machine.atomic_step`.
-/

set_option autoImplicit false

namespace InstructionCard

namespace Machine

/-- The machines differ at most in what they tell of their last step. -/
structure SameWork (m m' : Machine) : Prop where
  stack : m.stack = m'.stack
  overflow : m.overflow = m'.overflow
  lastSpeech : m.lastSpeech = m'.lastSpeech
  spoken : m.spoken = m'.spoken

theorem SameWork.refl (m : Machine) : SameWork m m :=
  ⟨rfl, rfl, rfl, rfl⟩

theorem SameWork.symm {m m' : Machine} (h : SameWork m m') : SameWork m' m :=
  ⟨h.stack.symm, h.overflow.symm, h.lastSpeech.symm, h.spoken.symm⟩

theorem SameWork.trans {m m' m'' : Machine} (h : SameWork m m') (h' : SameWork m' m'') : SameWork m m'' :=
  ⟨h.stack.trans h'.stack, h.overflow.trans h'.overflow, h.lastSpeech.trans h'.lastSpeech,
    h.spoken.trans h'.spoken⟩

variable {limits : Limits} {m m' : Machine}

/-! ## One step -/

/-- A word that does not answer running leaves the work as it was, STP included. -/
theorem sameWork_runWord {word : Word} (h : (m.runWord limits word).1 ≠ .running) :
    SameWork m (m.runWord limits word).2 := by
  obtain ⟨after, done, ran⟩ | ⟨fault, failed, ran⟩ := runWord_cases limits m word
  · have stop : word.command = .instruction .stp := by
      by_contra other
      rw [ran] at h
      exact h (if_neg other)
    rw [stop] at done
    cases done
    rw [ran]
    exact ⟨rfl, rfl, rfl, rfl⟩
  · rw [ran]
    exact ⟨rfl, rfl, rfl, rfl⟩

/-- A step that does not answer running leaves the work as it was, and malformed bits the last command too. -/
theorem sameWork_step {input : Input} (h : (m.step limits input).1 ≠ .running) :
    SameWork m (m.step limits input).2 ∧
      (input.word? = none → (m.step limits input).2.lastCommand = m.lastCommand) := by
  cases input with
  | word w => exact ⟨sameWork_runWord h, fun malformed => by cases malformed⟩
  | bits cells =>
    rw [step, runBits] at *
    rw [Input.word?]
    cases read : Word.ofBits cells with
    | ok w =>
      rw [read] at h
      exact ⟨sameWork_runWord h, fun malformed => by cases malformed⟩
    | error cause => exact ⟨⟨rfl, rfl, rfl, rfl⟩, fun _ => rfl⟩

/-- What the machine tells of its last step does not count for the next word. -/
theorem SameWork.runWord (same : SameWork m m') (word : Word) :
    m.runWord limits word = m'.runWord limits word := by
  obtain ⟨stack, overflow, lastSpeech, spoken⟩ := same
  simp only [Machine.runWord, stack, overflow, lastSpeech, spoken]

/-- Machines that agree on their work answer alike and go on agreeing. -/
theorem SameWork.step (same : SameWork m m') (limits : Limits) (input : Input) :
    (m.step limits input).1 = (m'.step limits input).1 ∧
      SameWork (m.step limits input).2 (m'.step limits input).2 := by
  have word (w : Word) : m.runWord limits w = m'.runWord limits w := same.runWord w
  cases input with
  | word w =>
    rw [Machine.step, Machine.step, word]
    exact ⟨rfl, .refl _⟩
  | bits cells =>
    rw [Machine.step, Machine.step, runBits, runBits]
    cases Word.ofBits cells with
    | ok w =>
      simp only [word]
      exact ⟨trivial, .refl _⟩
    | error cause => exact ⟨rfl, same.stack, same.overflow, same.lastSpeech, same.spoken⟩

/-! ## Runs -/

/-- The inputs of a run to which the machine answers running. -/
def runningInputs (limits : Limits) (m : Machine) (inputs : List Input) : List Input :=
  ((inputs.zip (m.history limits inputs)).filter fun step => step.2.1 = .running).map Prod.fst

theorem runningInputs_nil (limits : Limits) (m : Machine) : m.runningInputs limits [] = [] := rfl

theorem runningInputs_cons (limits : Limits) (m : Machine) (input : Input) (inputs : List Input) :
    m.runningInputs limits (input :: inputs) =
      if (m.step limits input).1 = .running then
        input :: (m.step limits input).2.runningInputs limits inputs
      else (m.step limits input).2.runningInputs limits inputs := by
  by_cases running : (m.step limits input).1 = .running
  · simp [runningInputs, history, running]
  · simp [runningInputs, history, running]

/-- Machines that did the same work still do when only one of them is given the other inputs too. -/
theorem SameWork.run_runningInputs (same : SameWork m m') (inputs : List Input) :
    SameWork (m.run limits inputs) (m'.run limits (m.runningInputs limits inputs)) ∧
      ∀ step ∈ m'.history limits (m.runningInputs limits inputs), step.1 = .running := by
  induction inputs generalizing m m' with
  | nil =>
    rw [runningInputs_nil, run, run, history]
    exact ⟨same, List.forall_mem_nil _⟩
  | cons input inputs ih =>
    obtain ⟨answer, next⟩ := same.step limits input
    rw [run, runningInputs_cons]
    by_cases running : (m.step limits input).1 = .running
    · obtain ⟨work, answers⟩ := ih next
      rw [if_pos running, run, history, List.forall_mem_cons]
      exact ⟨work, answer.symm.trans running, answers⟩
    · rw [if_neg running]
      exact ih ((sameWork_step running).1.symm.trans same)

/-- **Steps that do not go through are atomic.** Whether a step makes its changes at once or one after the
other, when it does not answer running it leaves the work as it was. So a run does the work of those of its
inputs to which the machine answers running. -/
theorem atomic_step (limits : Limits) (m : Machine) (fits : m.stack.length ≤ limits.stack) :
    (∀ input, m.stepInPlace limits input = m.step limits input ∧
      ((m.step limits input).1 ≠ .running → SameWork m (m.step limits input).2 ∧
        (input.word? = none → (m.step limits input).2.lastCommand = m.lastCommand))) ∧
    ∀ inputs, SameWork (m.run limits inputs) (m.run limits (m.runningInputs limits inputs)) ∧
      ∀ step ∈ m.history limits (m.runningInputs limits inputs), step.1 = .running :=
  ⟨fun input => ⟨stepInPlace_eq fits input, sameWork_step⟩, (SameWork.refl m).run_runningInputs⟩

/-- A full stack of two with the letter A under a byte: ADD refuses the letter, an operand finds no room, STP
stops, and only HEX, DEL and the second operand do work. -/
theorem atomic_step_fullStack :
    let limits : Limits := { stack := 2 }
    let m : Machine := { stack := [.byte 3, .symbol (.letter 0)], overflow := true }
    let inputs : List Input := [.word ⟨20⟩, .word ⟨5⟩, .bits [0, 1], .word ⟨28⟩, .word ⟨16⟩, .word ⟨18⟩, .word ⟨6⟩]
    m.stack.length ≤ limits.stack ∧
      (m.step limits (.word ⟨20⟩)).1 = .error ∧ m.stepInPlace limits (.word ⟨20⟩) = m.step limits (.word ⟨20⟩) ∧
      SameWork m (m.step limits (.word ⟨20⟩)).2 ∧
      m.runningInputs limits inputs = [.word ⟨28⟩, .word ⟨18⟩, .word ⟨6⟩] ∧
      SameWork (m.run limits inputs) (m.run limits [.word ⟨28⟩, .word ⟨18⟩, .word ⟨6⟩]) := by
  intro limits m inputs
  have fits : m.stack.length ≤ limits.stack := by decide
  have refused : (m.step limits (.word ⟨20⟩)).1 = .error := by decide
  have kept : m.runningInputs limits inputs = [.word ⟨28⟩, .word ⟨18⟩, .word ⟨6⟩] := by decide
  obtain ⟨steps, runs⟩ := atomic_step limits m fits
  obtain ⟨inPlace, atomic⟩ := steps (.word ⟨20⟩)
  have same := (runs inputs).1
  rw [kept] at same
  exact ⟨fits, refused, inPlace, (atomic (by rw [refused]; decide)).1, kept, same⟩

end Machine

end InstructionCard
