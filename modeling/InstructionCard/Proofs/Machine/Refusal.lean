import InstructionCard.Proofs.Machine.Perform

/-!
# Why a command did not go through

For each way in which `Machine.perform` changes the machine, the stacks on which it faults instead, and with
which fault.
-/

set_option autoImplicit false

namespace InstructionCard

theorem bind_eq_error_iff {ε α β : Type} {x : Except ε α} {next : α → Except ε β} {e : ε} :
    x >>= next = .error e ↔ x = .error e ∨ ∃ a, x = .ok a ∧ next a = .error e := by
  cases x with
  | error e' => simp [bind, Except.bind]
  | ok a => simp [bind, Except.bind]

/-! ## Operands -/

theorem Value.byteOrFault_eq_ok_iff {v : Value} {b : UInt8} : v.byteOrFault = .ok b ↔ v = .byte b :=
  ⟨byteOrFault_eq_ok, fun h => by rw [h]; rfl⟩

theorem Value.byteOrFault_eq_error_iff {v : Value} {fault : Fault} :
    v.byteOrFault = .error fault ↔ v.byte? = none ∧ fault = .notByte v := by
  cases v with
  | byte b => simp [byteOrFault, byte?]
  | symbol s => simp [byteOrFault, byte?, eq_comm]

theorem Value.hexDigitOrFault_eq_ok_iff {v : Value} {digit : UInt8} :
    v.hexDigitOrFault = .ok digit ↔ v.hexDigit? = some digit :=
  ⟨hexDigitOrFault_eq_ok, fun h => by simp [hexDigitOrFault, h]⟩

theorem Value.hexDigitOrFault_eq_error_iff {v : Value} {fault : Fault} :
    v.hexDigitOrFault = .error fault ↔ v.hexDigit? = none ∧ fault = .notHexDigit v := by
  unfold hexDigitOrFault
  split
  · next digit found => simp [found]
  · next none => simp [none, eq_comm]

section

variable {α : Type} {values : List α} {Short : Prop}

theorem length_lt_two_of_ne (h : ∀ a b rest, values = a :: b :: rest → False) : values.length < 2 := by
  match values with
  | [] => exact Nat.zero_lt_two
  | [_] => exact Nat.one_lt_two
  | a :: b :: rest => exact (h a b rest rfl).elim

/-- A condition on a list with a first value. -/
theorem eq_nil_or_cons_iff {Long : α → List α → Prop} {a : α} {rest : List α} (h : values = a :: rest) :
    (values = [] ∧ Short ∨ ∃ a rest, values = a :: rest ∧ Long a rest) ↔ Long a rest := by
  constructor
  · rintro (⟨empty, _⟩ | ⟨_, _, same, long⟩)
    · cases h.symm.trans empty
    · cases h.symm.trans same
      exact long
  · exact fun long => .inr ⟨a, rest, h, long⟩

/-- A condition on a list with two first values. -/
theorem short_or_cons_cons_iff {Long : α → α → Prop} {a b : α} {rest : List α} (h : values = a :: b :: rest) :
    (values.length < 2 ∧ Short ∨ ∃ a b rest, values = a :: b :: rest ∧ Long a b) ↔ Long a b := by
  constructor
  · rintro (⟨short, _⟩ | ⟨_, _, _, same, long⟩)
    · rw [h, List.length_cons, List.length_cons] at short
      omega
    · cases h.symm.trans same
      exact long
  · exact fun long => .inr ⟨a, b, rest, h, long⟩

/-- A condition on a list that is too short for two values. -/
theorem short_or_cons_cons_iff_of_short {Long : α → α → Prop} (h : values.length < 2) :
    (values.length < 2 ∧ Short ∨ ∃ a b rest, values = a :: b :: rest ∧ Long a b) ↔ Short := by
  constructor
  · rintro (⟨_, short⟩ | ⟨a, b, rest, rfl, _⟩)
    · exact short
    · rw [List.length_cons, List.length_cons] at h
      omega
  · exact fun short => .inl ⟨h, short⟩

end

/-! ## Changes of the machine -/

namespace Machine

variable {limits : Limits} {m : Machine} {fault : Fault}

/-- Putting a value fails only for lack of room. -/
theorem put_eq_error_iff {v : Value} :
    m.put limits v = .error fault ↔ limits.stack ≤ m.stack.length ∧ fault = .stackOverflow := by
  unfold put
  split
  · next room => simp [Nat.not_le.2 room]
  · next full => simp [Nat.not_lt.1 full, eq_comm]

theorem putFresh_eq_error_iff {v : Value} :
    m.putFresh limits v = .error fault ↔ limits.stack ≤ m.stack.length ∧ fault = .stackOverflow := by
  rw [← put_eq_error_iff (v := v), putFresh]
  cases m.put limits v with
  | ok after => simp [Except.map]
  | error e => simp [Except.map]

/-- An operation on one byte fails when there is no value or no byte. -/
theorem onTop_eq_error_iff {op : UInt8 → ByteResult} :
    m.onTop op = .error fault ↔ m.stack = [] ∧ fault = .stackUnderflow 1 0 ∨
      ∃ top rest, m.stack = top :: rest ∧ top.byte? = none ∧ fault = .notByte top := by
  unfold onTop
  split
  · next top rest stack => simp [bind_eq_error_iff, Value.byteOrFault_eq_error_iff, stack]
  · next stack => simp [stack, eq_comm]

/-- The lower operand is looked at first, then the upper one, then the operation. -/
theorem onTopTwo_eq_error_iff {op : UInt8 → UInt8 → Except Fault ByteResult} :
    m.onTopTwo op = .error fault ↔ m.stack.length < 2 ∧ fault = .stackUnderflow 2 m.stack.length ∨
      ∃ top below rest, m.stack = top :: below :: rest ∧
        (below.byte? = none ∧ fault = .notByte below ∨
          ∃ a, below = .byte a ∧ (top.byte? = none ∧ fault = .notByte top ∨
            ∃ b, top = .byte b ∧ op a b = .error fault)) := by
  unfold onTopTwo
  split
  · next top below rest stack =>
    rw [short_or_cons_cons_iff stack]
    simp [bind_eq_error_iff, Value.byteOrFault_eq_error_iff, Value.byteOrFault_eq_ok_iff]
  · next none =>
    rw [short_or_cons_cons_iff_of_short (length_lt_two_of_ne none), Except.error.injEq, eq_comm]

/-- The lower digit is looked at first. -/
theorem joinDigits_eq_error_iff :
    m.joinDigits = .error fault ↔ m.stack.length < 2 ∧ fault = .stackUnderflow 2 m.stack.length ∨
      ∃ top below rest, m.stack = top :: below :: rest ∧
        (below.hexDigit? = none ∧ fault = .notHexDigit below ∨
          ∃ low, below.hexDigit? = some low ∧ top.hexDigit? = none ∧ fault = .notHexDigit top) := by
  unfold joinDigits
  split
  · next top below rest stack =>
    rw [short_or_cons_cons_iff stack]
    simp [bind_eq_error_iff, Value.hexDigitOrFault_eq_error_iff, Value.hexDigitOrFault_eq_ok_iff]
  · next none =>
    rw [short_or_cons_cons_iff_of_short (length_lt_two_of_ne none), Except.error.injEq, eq_comm]

/-- SPEAK looks at the count, then at the number of values, then at the length of the line. -/
theorem speak_eq_error_iff :
    m.speak limits = .error fault ↔ m.stack = [] ∧ fault = .stackUnderflow 1 0 ∨
      ∃ top rest, m.stack = top :: rest ∧ (top.byte? = none ∧ fault = .notByte top ∨
        ∃ count : UInt8, top = .byte count ∧
          (rest.length < count.toNat ∧ fault = .stackUnderflow (count.toNat + 1) (rest.length + 1) ∨
            count.toNat ≤ rest.length ∧
              limits.speech < (String.join ((rest.take count.toNat).map Value.text)).utf8ByteSize ∧
              fault = .speechTooLong)) := by
  unfold speak
  split
  · next stack => simp [stack, eq_comm]
  · next s rest stack =>
    rw [eq_nil_or_cons_iff stack, Except.error.injEq, eq_comm]
    simp [Value.byte?]
  · next count rest stack =>
    rw [eq_nil_or_cons_iff stack]
    simp only [Value.byte?, reduceCtorEq, false_and, false_or, Value.byte.injEq, exists_eq_left']
    split
    · next short =>
      rw [Except.error.injEq, eq_comm]
      simp [short, Nat.not_le.2 short]
    · next enough =>
      split
      · next fits => simp only [reduceCtorEq, enough, Nat.not_lt.2 fits, false_and, and_false, or_self]
      · next long =>
        rw [Except.error.injEq, eq_comm]
        simp only [enough, Nat.not_lt.1 enough, Nat.not_le.1 long, false_and, true_and, false_or]

end Machine

end InstructionCard
