import InstructionCard.Machine.Run

/-!
# What a command did when it went through

One inversion lemma for each way in which `Machine.perform` changes the machine: what stood on the stack
and what the machine is afterwards. `runWord_of_lastError_eq_none` finds the command that went through in a
step without a fault.
-/

set_option autoImplicit false

namespace InstructionCard

theorem bind_eq_ok {ε α β : Type} {x : Except ε α} {next : α → Except ε β} {b : β}
    (h : x >>= next = .ok b) : ∃ a, x = .ok a ∧ next a = .ok b := by
  cases x with
  | error e => cases h
  | ok a => exact ⟨a, rfl, h⟩

theorem Value.byteOrFault_eq_ok {v : Value} {b : UInt8} (h : v.byteOrFault = .ok b) : v = .byte b := by
  cases v with
  | byte c =>
    cases h
    rfl
  | symbol s => cases h

theorem Value.hexDigitOrFault_eq_ok {v : Value} {digit : UInt8} (h : v.hexDigitOrFault = .ok digit) :
    v.hexDigit? = some digit := by
  unfold hexDigitOrFault at h
  split at h
  · next found =>
    cases h
    exact found
  · cases h

namespace Machine

variable {limits : Limits} {m after : Machine}

/-- Putting a value goes through when there is room. -/
theorem put_eq_ok {v : Value} (h : m.put limits v = .ok after) :
    m.stack.length < limits.stack ∧ after = { m with stack := v :: m.stack } := by
  unfold put at h
  split at h
  · next room =>
    cases h
    exact ⟨room, rfl⟩
  · cases h

/-- A fresh value clears the flag. -/
theorem putFresh_eq_ok {v : Value} (h : m.putFresh limits v = .ok after) :
    m.stack.length < limits.stack ∧ after = { m with stack := v :: m.stack, overflow := false } := by
  unfold putFresh at h
  cases stored : m.put limits v with
  | error e =>
    rw [stored] at h
    cases h
  | ok next =>
    obtain ⟨room, rfl⟩ := put_eq_ok stored
    rw [stored] at h
    cases h
    exact ⟨room, rfl⟩

/-- One byte is replaced by the result. -/
theorem onTop_eq_ok {op : UInt8 → ByteResult} (h : m.onTop op = .ok after) :
    ∃ a rest, m.stack = .byte a :: rest ∧
      after = { m with stack := .byte (op a).value :: rest, overflow := (op a).overflow } := by
  unfold onTop at h
  split at h
  · next top rest stack =>
    obtain ⟨a, byte, done⟩ := bind_eq_ok h
    cases done
    exact ⟨a, rest, by rw [stack, Value.byteOrFault_eq_ok byte], rfl⟩
  · cases h

/-- Two bytes are replaced by the result, the lower one being the left operand. -/
theorem onTopTwo_eq_ok {op : UInt8 → UInt8 → Except Fault ByteResult} (h : m.onTopTwo op = .ok after) :
    ∃ a b rest result, m.stack = .byte b :: .byte a :: rest ∧ op a b = .ok result ∧
      after = { m with stack := .byte result.value :: rest, overflow := result.overflow } := by
  unfold onTopTwo at h
  split at h
  · next top below rest stack =>
    obtain ⟨a, lower, h⟩ := bind_eq_ok h
    obtain ⟨b, upper, h⟩ := bind_eq_ok h
    obtain ⟨result, computed, done⟩ := bind_eq_ok h
    cases done
    exact ⟨a, b, rest, result,
      by rw [stack, Value.byteOrFault_eq_ok lower, Value.byteOrFault_eq_ok upper], computed, rfl⟩
  · cases h

/-- The top digit becomes the high one. -/
theorem joinDigits_eq_ok (h : m.joinDigits = .ok after) :
    ∃ top below rest high low, m.stack = top :: below :: rest ∧ top.hexDigit? = some high ∧
      below.hexDigit? = some low ∧
      after = { m with stack := .byte (high * 16 + low) :: rest, overflow := false } := by
  unfold joinDigits at h
  split at h
  · next top below rest stack =>
    obtain ⟨low, lower, h⟩ := bind_eq_ok h
    obtain ⟨high, upper, done⟩ := bind_eq_ok h
    cases done
    exact ⟨top, below, rest, high, low, stack, Value.hexDigitOrFault_eq_ok upper,
      Value.hexDigitOrFault_eq_ok lower, rfl⟩
  · cases h

/-- The values below the count are said and taken off with it. -/
theorem speak_eq_ok (h : m.speak limits = .ok after) :
    ∃ (count : UInt8) (rest : List Value), m.stack = .byte count :: rest ∧ count.toNat ≤ rest.length ∧
      (String.join ((rest.take count.toNat).map Value.text)).utf8ByteSize ≤ limits.speech ∧
      after = { m with
        stack := rest.drop count.toNat
        lastSpeech := String.join ((rest.take count.toNat).map Value.text)
        spoken := m.spoken ++ [String.join ((rest.take count.toNat).map Value.text)] } := by
  unfold speak at h
  split at h
  · cases h
  · cases h
  · next count rest stack =>
    split at h
    · cases h
    · next enough =>
      dsimp only at h
      split at h
      · next fits =>
        cases h
        exact ⟨count, rest, stack, Nat.not_lt.1 enough, fits, rfl⟩
      · cases h

/-- An instruction changes nothing but the stack and the overflow flag. -/
theorem frame_performInstruction {i : Instruction} (h : m.performInstruction limits i = .ok after) :
    ∃ stack overflow, after = { m with stack, overflow } := by
  have two {op : UInt8 → UInt8 → Except Fault ByteResult} (h : m.onTopTwo op = .ok after) :
      ∃ stack overflow, after = { m with stack, overflow } := by
    obtain ⟨_, _, _, _, _, _, rfl⟩ := onTopTwo_eq_ok h
    exact ⟨_, _, rfl⟩
  have one {op : UInt8 → ByteResult} (h : m.onTop op = .ok after) :
      ∃ stack overflow, after = { m with stack, overflow } := by
    obtain ⟨_, _, _, rfl⟩ := onTop_eq_ok h
    exact ⟨_, _, rfl⟩
  cases i with
  | stp =>
    cases h
    exact ⟨_, _, rfl⟩
  | dup =>
    simp only [performInstruction] at h
    split at h
    · obtain ⟨_, rfl⟩ := put_eq_ok h
      exact ⟨_, _, rfl⟩
    · cases h
  | del =>
    simp only [performInstruction] at h
    split at h
    · cases h
      exact ⟨_, _, rfl⟩
    · cases h
  | swp =>
    simp only [performInstruction] at h
    split at h
    · cases h
      exact ⟨_, _, rfl⟩
    · cases h
  | div =>
    simp only [performInstruction] at h
    split at h
    · cases h
    · exact two h
  | hex =>
    obtain ⟨_, _, _, _, _, _, _, _, rfl⟩ := joinDigits_eq_ok h
    exact ⟨_, _, rfl⟩
  | fac => exact one h
  | not => exact one h
  | add => exact two h
  | sub => exact two h
  | mul => exact two h
  | exp => exact two h
  | mod => exact two h
  | shl => exact two h
  | shr => exact two h
  | xor => exact two h

/-- What the machine tells of its last step is none of a command's business. -/
theorem books_perform {command : Command} (h : m.perform limits command = .ok after) :
    after.lastCommand = m.lastCommand ∧ after.lastError = m.lastError := by
  match command with
  | .operand _ =>
    obtain ⟨_, rfl⟩ := putFresh_eq_ok h
    exact ⟨rfl, rfl⟩
  | .instruction _ =>
    obtain ⟨_, _, rfl⟩ := frame_performInstruction h
    exact ⟨rfl, rfl⟩
  | .character (.nop _) =>
    cases h
    exact ⟨rfl, rfl⟩
  | .character .speak =>
    obtain ⟨_, _, _, _, _, rfl⟩ := speak_eq_ok h
    exact ⟨rfl, rfl⟩
  | .character (.symbol _) =>
    obtain ⟨_, rfl⟩ := putFresh_eq_ok h
    exact ⟨rfl, rfl⟩

/-- The machine a command is run on: the last step is forgotten. -/
def started (m : Machine) (command : Command) : Machine :=
  { m with lastCommand := some command, lastError := none }

/-- The two ways in which a word can go. -/
theorem runWord_cases (limits : Limits) (m : Machine) (word : Word) :
    (∃ after, (m.started word.command).perform limits word.command = .ok after ∧
      m.runWord limits word = (if word.command = .instruction .stp then .stopped else .running, after)) ∨
    ∃ fault, (m.started word.command).perform limits word.command = .error fault ∧
      m.runWord limits word = (m.started word.command).fail fault := by
  cases result : (m.started word.command).perform limits word.command with
  | ok after =>
    refine .inl ⟨after, rfl, ?_⟩
    unfold started at result
    simp only [runWord, result]
  | error fault =>
    refine .inr ⟨fault, rfl, ?_⟩
    unfold started at result
    simp only [runWord, result, started]

/-- A step without a fault ran its command. -/
theorem runWord_of_lastError_eq_none {word : Word} (h : (m.runWord limits word).2.lastError = none) :
    perform limits { m with lastCommand := some word.command, lastError := none } word.command =
        .ok (m.runWord limits word).2 ∧
      (m.runWord limits word).1 = if word.command = .instruction .stp then .stopped else .running := by
  unfold runWord at *
  dsimp only at *
  split at h
  · next done => simp only [done, and_self]
  · cases h

end Machine

end InstructionCard
