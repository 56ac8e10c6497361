import Mathlib.Algebra.GroupWithZero.Nat
import InstructionCard.Proofs.Machine.Fits
import InstructionCard.Proofs.Machine.Refusal

/-!
# The table of faults

`Due` tells for each fault on which stacks which commands meet with it. A word that is run reports a fault
exactly when the table says so. Main result: `Machine.runWord_faultTable`.
-/

set_option autoImplicit false

namespace InstructionCard

namespace Instruction

/-- How many values the instruction looks for on the stack. -/
def operands : Instruction → Nat
  | stp => 0
  | dup | del | fac | not => 1
  | swp | add | sub | mul | div | exp | mod | shl | shr | hex | xor => 2

/-- Whether the instruction computes with bytes. -/
def takesBytes : Instruction → Bool
  | stp | dup | del | swp | hex => false
  | fac | not | add | sub | mul | div | exp | mod | shl | shr | xor => true

end Instruction

namespace Value

def isSymbol : Value → Bool
  | byte _ => false
  | symbol _ => true

/-- The numbers up to 9 and the letters A to F. -/
def IsHexDigit : Value → Prop
  | byte b => b.toNat ≤ 9
  | symbol (.letter i) => i.val ≤ 5
  | symbol .space => False

instance : DecidablePred IsHexDigit
  | byte b => inferInstanceAs (Decidable (b.toNat ≤ 9))
  | symbol (.letter i) => inferInstanceAs (Decidable (i.val ≤ 5))
  | symbol .space => isFalse id

@[simp] theorem isSymbol_byte (b : UInt8) : (byte b).isSymbol = false := rfl

@[simp] theorem isSymbol_symbol (s : Symbol) : (symbol s).isSymbol = true := rfl

theorem isSymbol_iff {v : Value} : v.isSymbol = true ↔ v.byte? = none := by
  cases v with
  | byte b => simp [isSymbol, byte?]
  | symbol s => simp [isSymbol, byte?]

/-- The values without a digit are the bytes above 9, the letters behind F and the blank. -/
theorem hexDigit?_eq_none_iff {v : Value} : v.hexDigit? = none ↔ ¬ v.IsHexDigit := by
  match v with
  | byte b => simp [hexDigit?, IsHexDigit, UInt8.le_iff_toNat_le]
  | symbol (.letter i) =>
    simp only [hexDigit?, Symbol.hexDigit?, IsHexDigit]
    split
    · next small => simp [Nat.le_of_lt_succ small]
    · next large => simp [Nat.lt_of_not_le (fun le => large (Nat.lt_succ_of_le le))]
  | symbol .space => simp [hexDigit?, Symbol.hexDigit?, IsHexDigit]

end Value

/-- The fault with which a command meets on a stack, top first.

An instruction needs all its operands before one of them can be wrong, and of two wrong operands it names the
lower one. -/
def Due (limits : Limits) (stack : List Value) (command : Command) : Fault → Prop
  | .malformed _ => False
  | .stackUnderflow needed available => available = stack.length ∧
      ((∃ i, command = .instruction i ∧ i ≠ .div ∧ needed = i.operands ∧ stack.length < needed) ∨
        command = .character .speak ∧ (needed = 1 ∧ stack = [] ∨
          ∃ count rest, stack = .byte count :: rest ∧ needed = count.toNat + 1 ∧ stack.length < needed))
  | .divisionUnderflow => command = .instruction .div ∧ stack.length < 2
  | .divisionByZero => command = .instruction .div ∧ ∃ a rest, stack = .byte 0 :: .byte a :: rest
  | .moduloByZero => command = .instruction .mod ∧ ∃ a rest, stack = .byte 0 :: .byte a :: rest
  | .notByte v =>
    (∃ i, command = .instruction i ∧ i.takesBytes = true ∧ i.operands ≤ stack.length ∧
      (stack.take i.operands).reverse.find? Value.isSymbol = some v) ∨
    command = .character .speak ∧ ∃ s rest, stack = .symbol s :: rest ∧ v = .symbol s
  | .notHexDigit v => command = .instruction .hex ∧ ∃ top below rest, stack = top :: below :: rest ∧
      (¬ below.IsHexDigit ∧ v = below ∨ below.IsHexDigit ∧ ¬ top.IsHexDigit ∧ v = top)
  | .stackOverflow => stack.length = limits.stack ∧ ((∃ value, command = .operand value) ∨
      (∃ s, command = .character (.symbol s)) ∨ command = .instruction .dup ∧ 1 ≤ stack.length)
  | .speechTooLong => command = .character .speak ∧ ∃ count rest, stack = .byte count :: rest ∧
      count.toNat ≤ rest.length ∧
      limits.speech < ((rest.take count.toNat).map fun v => v.text.utf8ByteSize).sum

/-- A line is as long as its parts together. -/
theorem utf8ByteSize_join (values : List Value) :
    (String.join (values.map Value.text)).utf8ByteSize = (values.map fun v => v.text.utf8ByteSize).sum := by
  induction values with
  | nil => rfl
  | cons v values ih => simp [ih]

namespace Machine

variable {limits : Limits} {m : Machine} {fault : Fault}

/-! ## Every fault is due -/

/-- An operation on one byte fails as the table says: nothing there, or no byte there. -/
theorem due_of_onTop {i : Instruction} {op : UInt8 → ByteResult} (one : i.operands = 1)
    (bytes : i.takesBytes = true) (h : m.onTop op = .error fault) :
    Due limits m.stack (.instruction i) fault := by
  obtain ⟨stack, rfl⟩ | ⟨top, rest, stack, symbol, rfl⟩ := onTop_eq_error_iff.1 h
  · have notDiv : i ≠ .div := by
      rintro rfl
      cases one
    rw [stack]
    exact ⟨rfl, .inl ⟨i, rfl, notDiv, one.symm, Nat.one_pos⟩⟩
  · rw [stack]
    refine .inl ⟨i, rfl, bytes, ?_, ?_⟩
    · simp [one]
    · simp [one, Value.isSymbol_iff.2 symbol]

/-- An instruction on two bytes meets with too short a stack, with a symbol, or with a fault of its own. -/
theorem due_of_onTopTwo {i : Instruction} {op : UInt8 → UInt8 → Except Fault ByteResult} (two : i.operands = 2)
    (bytes : i.takesBytes = true) (long : i = .div → 2 ≤ m.stack.length)
    (own : ∀ a b rest, m.stack = .byte b :: .byte a :: rest → op a b = .error fault →
      Due limits m.stack (.instruction i) fault)
    (h : m.onTopTwo op = .error fault) : Due limits m.stack (.instruction i) fault := by
  obtain ⟨short, rfl⟩ | ⟨top, below, rest, stack, refused⟩ := onTopTwo_eq_error_iff.1 h
  · exact ⟨rfl, .inl ⟨i, rfl, fun div => Nat.not_lt.2 (long div) short, two.symm, short⟩⟩
  · obtain ⟨symbol, rfl⟩ | ⟨a, rfl, ⟨symbol, rfl⟩ | ⟨b, rfl, failed⟩⟩ := refused
    · refine .inl ⟨i, rfl, bytes, ?_, ?_⟩
      · simp [two, stack]
      · simp [two, stack, Value.isSymbol_iff.2 symbol]
    · refine .inl ⟨i, rfl, bytes, ?_, ?_⟩
      · simp [two, stack]
      · simp [two, stack, Value.isSymbol_iff.2 symbol]
    · exact own a b rest stack failed

/-- An instruction that has no fault of its own. -/
theorem due_of_onTopTwo_total {i : Instruction} {op : UInt8 → UInt8 → ByteResult} (two : i.operands = 2)
    (bytes : i.takesBytes = true) (notDiv : i ≠ .div) (h : m.onTopTwo (fun a b => .ok (op a b)) = .error fault) :
    Due limits m.stack (.instruction i) fault := by
  refine due_of_onTopTwo two bytes (fun div => absurd div notDiv) ?_ h
  intro a b rest stack failed
  cases failed

/-- The faults an instruction meets with are in the table. -/
theorem due_of_performInstruction (fits : m.stack.length ≤ limits.stack) {i : Instruction}
    (h : m.performInstruction limits i = .error fault) : Due limits m.stack (.instruction i) fault := by
  cases i with
  | stp => cases h
  | dup =>
    simp only [performInstruction] at h
    split at h
    · next top rest stack =>
      obtain ⟨full, rfl⟩ := put_eq_error_iff.1 h
      exact ⟨Nat.le_antisymm fits full, .inr (.inr ⟨rfl, by simp [stack]⟩)⟩
    · next stack =>
      cases h
      rw [stack]
      exact ⟨rfl, .inl ⟨.dup, rfl, (by decide), rfl, Nat.one_pos⟩⟩
  | del =>
    simp only [performInstruction] at h
    split at h
    · cases h
    · next stack =>
      cases h
      rw [stack]
      exact ⟨rfl, .inl ⟨.del, rfl, (by decide), rfl, Nat.one_pos⟩⟩
  | swp =>
    simp only [performInstruction] at h
    split at h
    · cases h
    · next none =>
      cases h
      exact ⟨rfl, .inl ⟨.swp, rfl, (by decide), rfl, length_lt_two_of_ne none⟩⟩
  | div =>
    simp only [performInstruction] at h
    split at h
    · next short =>
      cases h
      exact ⟨rfl, short⟩
    · next long =>
      refine due_of_onTopTwo rfl rfl (fun _ => Nat.not_lt.1 long) (fun a b rest stack failed => ?_) h
      split at failed
      · next zero =>
        cases failed
        subst zero
        exact ⟨rfl, a, rest, stack⟩
      · cases failed
  | mod =>
    refine due_of_onTopTwo rfl rfl (fun div => absurd div (by decide)) (fun a b rest stack failed => ?_) h
    split at failed
    · next zero =>
      cases failed
      subst zero
      exact ⟨rfl, a, rest, stack⟩
    · cases failed
  | hex =>
    obtain ⟨short, rfl⟩ | ⟨top, below, rest, stack, refused⟩ := joinDigits_eq_error_iff.1 h
    · exact ⟨rfl, .inl ⟨.hex, rfl, (by decide), rfl, short⟩⟩
    · obtain ⟨none, rfl⟩ | ⟨low, lower, none, rfl⟩ := refused
      · exact ⟨rfl, top, below, rest, stack, .inl ⟨Value.hexDigit?_eq_none_iff.1 none, rfl⟩⟩
      · have digit : below.IsHexDigit := Decidable.byContradiction fun other => by
          rw [Value.hexDigit?_eq_none_iff.2 other] at lower
          cases lower
        exact ⟨rfl, top, below, rest, stack, .inr ⟨digit, Value.hexDigit?_eq_none_iff.1 none, rfl⟩⟩
  | fac => exact due_of_onTop rfl rfl h
  | not => exact due_of_onTop rfl rfl h
  | add => exact due_of_onTopTwo_total rfl rfl (by decide) h
  | sub => exact due_of_onTopTwo_total rfl rfl (by decide) h
  | mul => exact due_of_onTopTwo_total rfl rfl (by decide) h
  | exp => exact due_of_onTopTwo_total rfl rfl (by decide) h
  | shl => exact due_of_onTopTwo_total rfl rfl (by decide) h
  | shr => exact due_of_onTopTwo_total rfl rfl (by decide) h
  | xor => exact due_of_onTopTwo_total rfl rfl (by decide) h

/-- The faults a command meets with are in the table. -/
theorem due_of_perform (fits : m.stack.length ≤ limits.stack) {command : Command}
    (h : m.perform limits command = .error fault) : Due limits m.stack command fault := by
  match command with
  | .operand value =>
    obtain ⟨full, rfl⟩ := putFresh_eq_error_iff.1 h
    exact ⟨Nat.le_antisymm fits full, .inl ⟨value, rfl⟩⟩
  | .instruction i => exact due_of_performInstruction fits h
  | .character (.nop _) => cases h
  | .character (.symbol s) =>
    obtain ⟨full, rfl⟩ := putFresh_eq_error_iff.1 h
    exact ⟨Nat.le_antisymm fits full, .inr (.inl ⟨s, rfl⟩)⟩
  | .character .speak =>
    obtain ⟨stack, rfl⟩ | ⟨top, rest, stack, refused⟩ := speak_eq_error_iff.1 h
    · rw [stack]
      exact ⟨rfl, .inr ⟨rfl, .inl ⟨rfl, rfl⟩⟩⟩
    · rw [stack]
      obtain ⟨symbol, rfl⟩ | ⟨count, rfl, ⟨short, rfl⟩ | ⟨enough, long, rfl⟩⟩ := refused
      · cases top with
        | byte b => cases symbol
        | symbol s => exact .inr ⟨rfl, s, rest, rfl, rfl⟩
      · exact ⟨rfl, .inr ⟨rfl, .inr ⟨count, rest, rfl, rfl, Nat.succ_lt_succ short⟩⟩⟩
      · rw [utf8ByteSize_join] at long
        exact ⟨rfl, count, rest, rfl, enough, long⟩

/-! ## Every fault that is due comes about -/

theorem onTop_of_nil {op : UInt8 → ByteResult} (stack : m.stack = []) :
    m.onTop op = .error (.stackUnderflow 1 0) :=
  onTop_eq_error_iff.2 (.inl ⟨stack, rfl⟩)

theorem onTopTwo_of_short {op : UInt8 → UInt8 → Except Fault ByteResult} (short : m.stack.length < 2) :
    m.onTopTwo op = .error (.stackUnderflow 2 m.stack.length) :=
  onTopTwo_eq_error_iff.2 (.inl ⟨short, rfl⟩)

theorem onTop_of_symbol {op : UInt8 → ByteResult} {v : Value} (enough : 1 ≤ m.stack.length)
    (lowest : (m.stack.take 1).reverse.find? Value.isSymbol = some v) : m.onTop op = .error (.notByte v) := by
  match stack : m.stack with
  | [] => simp [stack] at enough
  | .byte a :: rest => simp [stack] at lowest
  | .symbol s :: rest =>
    simp only [stack, List.take_succ_cons, List.take_zero, List.reverse_singleton, List.find?_singleton,
      Value.isSymbol_symbol, if_true, Option.some.injEq] at lowest
    subst lowest
    exact onTop_eq_error_iff.2 (.inr ⟨_, rest, stack, rfl, rfl⟩)

theorem onTopTwo_of_symbol {op : UInt8 → UInt8 → Except Fault ByteResult} {v : Value}
    (enough : 2 ≤ m.stack.length) (lowest : (m.stack.take 2).reverse.find? Value.isSymbol = some v) :
    m.onTopTwo op = .error (.notByte v) := by
  match stack : m.stack with
  | [] => simp [stack] at enough
  | [_] => simp [stack] at enough
  | top :: .symbol s :: rest =>
    simp [stack] at lowest
    subst lowest
    exact onTopTwo_eq_error_iff.2 (.inr ⟨top, _, rest, stack, .inl ⟨rfl, rfl⟩⟩)
  | .symbol s :: .byte a :: rest =>
    simp [stack] at lowest
    subst lowest
    exact onTopTwo_eq_error_iff.2 (.inr ⟨_, _, rest, stack, .inr ⟨a, rfl, .inl ⟨rfl, rfl⟩⟩⟩)
  | .byte b :: .byte a :: rest => simp [stack] at lowest

/-- With too few values an instruction reports how many it looks for. DIV has a fault of its own for that. -/
theorem perform_of_stackUnderflow {i : Instruction} (notDiv : i ≠ .div) (short : m.stack.length < i.operands) :
    m.performInstruction limits i = .error (.stackUnderflow i.operands m.stack.length) := by
  have one (h : m.stack.length < 1) : m.stack = [] := List.eq_nil_of_length_eq_zero (Nat.lt_one_iff.1 h)
  cases i with
  | stp => cases short
  | dup => rw [performInstruction, one short]; rfl
  | del => rw [performInstruction, one short]; rfl
  | fac => rw [performInstruction, onTop_of_nil (one short), one short]; rfl
  | not => rw [performInstruction, onTop_of_nil (one short), one short]; rfl
  | swp =>
    rw [performInstruction]
    split
    · next top below rest stack =>
      rw [stack] at short
      exact absurd short (Nat.not_lt.2 (Nat.le_add_left 2 rest.length))
    · rfl
  | hex => exact joinDigits_eq_error_iff.2 (.inl ⟨short, rfl⟩)
  | div => exact absurd rfl notDiv
  | add => exact onTopTwo_of_short short
  | sub => exact onTopTwo_of_short short
  | mul => exact onTopTwo_of_short short
  | exp => exact onTopTwo_of_short short
  | mod => exact onTopTwo_of_short short
  | shl => exact onTopTwo_of_short short
  | shr => exact onTopTwo_of_short short
  | xor => exact onTopTwo_of_short short

/-- The lowest symbol among the operands is reported. -/
theorem performInstruction_of_symbol {i : Instruction} {v : Value} (bytes : i.takesBytes = true)
    (enough : i.operands ≤ m.stack.length)
    (lowest : (m.stack.take i.operands).reverse.find? Value.isSymbol = some v) :
    m.performInstruction limits i = .error (.notByte v) := by
  cases i with
  | stp => cases bytes
  | dup => cases bytes
  | del => cases bytes
  | swp => cases bytes
  | hex => cases bytes
  | fac => exact onTop_of_symbol enough lowest
  | not => exact onTop_of_symbol enough lowest
  | div =>
    have long : ¬ m.stack.length < 2 := Nat.not_lt.2 enough
    rw [performInstruction, if_neg long]
    exact onTopTwo_of_symbol enough lowest
  | add => exact onTopTwo_of_symbol enough lowest
  | sub => exact onTopTwo_of_symbol enough lowest
  | mul => exact onTopTwo_of_symbol enough lowest
  | exp => exact onTopTwo_of_symbol enough lowest
  | mod => exact onTopTwo_of_symbol enough lowest
  | shl => exact onTopTwo_of_symbol enough lowest
  | shr => exact onTopTwo_of_symbol enough lowest
  | xor => exact onTopTwo_of_symbol enough lowest

/-- The faults of the table are met with. -/
theorem perform_of_due {command : Command} (h : Due limits m.stack command fault) :
    m.perform limits command = .error fault := by
  cases fault with
  | malformed cause => cases h
  | stackUnderflow needed available =>
    obtain ⟨rfl, ⟨i, rfl, notDiv, rfl, short⟩ | ⟨rfl, ⟨rfl, stack⟩ | ⟨count, rest, stack, rfl, short⟩⟩⟩ := h
    · exact perform_of_stackUnderflow notDiv short
    · rw [stack]
      exact speak_eq_error_iff.2 (.inl ⟨stack, rfl⟩)
    · rw [stack] at short ⊢
      exact speak_eq_error_iff.2 (.inr ⟨_, rest, stack, .inr ⟨count, rfl, .inl ⟨Nat.lt_of_succ_lt_succ short, rfl⟩⟩⟩)
  | divisionUnderflow =>
    obtain ⟨rfl, short⟩ := h
    exact if_pos short
  | divisionByZero =>
    obtain ⟨rfl, a, rest, stack⟩ := h
    have long : ¬ m.stack.length < 2 := by simp [stack]
    rw [perform, performInstruction, if_neg long]
    exact onTopTwo_eq_error_iff.2 (.inr ⟨_, _, rest, stack, .inr ⟨a, rfl, .inr ⟨0, rfl, rfl⟩⟩⟩)
  | moduloByZero =>
    obtain ⟨rfl, a, rest, stack⟩ := h
    exact onTopTwo_eq_error_iff.2 (.inr ⟨_, _, rest, stack, .inr ⟨a, rfl, .inr ⟨0, rfl, rfl⟩⟩⟩)
  | notByte v =>
    obtain ⟨i, rfl, bytes, enough, lowest⟩ | ⟨rfl, s, rest, stack, rfl⟩ := h
    · exact performInstruction_of_symbol bytes enough lowest
    · exact speak_eq_error_iff.2 (.inr ⟨_, rest, stack, .inl ⟨rfl, rfl⟩⟩)
  | notHexDigit v =>
    obtain ⟨rfl, top, below, rest, stack, ⟨other, rfl⟩ | ⟨digit, other, rfl⟩⟩ := h
    · exact joinDigits_eq_error_iff.2
        (.inr ⟨top, _, rest, stack, .inl ⟨Value.hexDigit?_eq_none_iff.2 other, rfl⟩⟩)
    · obtain ⟨low, lower⟩ := Option.ne_none_iff_exists'.1 fun none => Value.hexDigit?_eq_none_iff.1 none digit
      exact joinDigits_eq_error_iff.2
        (.inr ⟨_, below, rest, stack, .inr ⟨low, lower, Value.hexDigit?_eq_none_iff.2 other, rfl⟩⟩)
  | stackOverflow =>
    obtain ⟨full, ⟨value, rfl⟩ | ⟨s, rfl⟩ | ⟨rfl, some⟩⟩ := h
    · exact putFresh_eq_error_iff.2 ⟨Nat.le_of_eq full.symm, rfl⟩
    · exact putFresh_eq_error_iff.2 ⟨Nat.le_of_eq full.symm, rfl⟩
    · obtain ⟨top, rest, stack⟩ := List.exists_cons_of_length_pos some
      rw [perform, performInstruction, stack]
      exact put_eq_error_iff.2 ⟨Nat.le_of_eq full.symm, rfl⟩
  | speechTooLong =>
    obtain ⟨rfl, count, rest, stack, enough, long⟩ := h
    rw [← utf8ByteSize_join] at long
    exact speak_eq_error_iff.2 (.inr ⟨_, rest, stack, .inr ⟨count, rfl, .inr ⟨enough, long, rfl⟩⟩⟩)

/-- On a stack within its limit the table is exact. -/
theorem perform_eq_error_iff (fits : m.stack.length ≤ limits.stack) {command : Command} :
    m.perform limits command = .error fault ↔ Due limits m.stack command fault :=
  ⟨due_of_perform fits, perform_of_due⟩

/-- **The table of faults.** In every state that a machine can be run into, a word reports a fault exactly
when the fault is due, and it ends the step as the fault says. Without a fault only STP stops the machine. -/
theorem runWord_faultTable (limits : Limits) (inputs : List Input) (word : Word) :
    let m := ({} : Machine).run limits inputs
    let step := m.runWord limits word
    (∀ fault, step.2.lastError = some fault ↔ Due limits m.stack word.command fault) ∧
      step.1 = match step.2.lastError with
        | some fault => fault.state
        | none => if word.command = .instruction .stp then .stopped else .running := by
  intro m step
  have fits : (m.started word.command).stack.length ≤ limits.stack := ((fits_new limits).run inputs).stack
  have table (fault : Fault) : _ ↔ Due limits m.stack word.command fault := perform_eq_error_iff fits
  obtain ⟨after, done, ran⟩ | ⟨cause, failed, ran⟩ := runWord_cases limits m word
  · have same : step = _ := ran
    have silent : after.lastError = none := (books_perform done).2
    rw [same, silent]
    refine ⟨fun fault => ?_, rfl⟩
    rw [← table, done]
    simp
  · have same : step = _ := ran
    rw [same]
    refine ⟨fun fault => ?_, rfl⟩
    rw [← table, failed]
    simp [fail]

end Machine

end InstructionCard
