import InstructionCard.Proofs.Machine.Arithmetic
import InstructionCard.Proofs.Machine.Perform

/-!
# The machine against exact numbers

`ExactState` is a stack machine whose stack holds numbers of any size, and whose instructions are given by
formulas on numbers. `Machine.exact` forgets how the bytes are computed. A step of the machine that goes
through is the step of the exact machine, and so is a run of such steps.
-/

set_option autoImplicit false

namespace InstructionCard

/-- A place on the stack of the exact machine. -/
inductive ExactValue where
  | number (n : Nat)
  | symbol (s : Symbol)
deriving DecidableEq, Repr

namespace ExactValue

/-- The numbers up to 9 and the letters A to F are hexadecimal digits. -/
def hexDigit? : ExactValue → Option Nat
  | number n => if n ≤ 9 then some n else none
  | symbol (.letter i) => if i.val < 6 then some (10 + i.val) else none
  | symbol .space => none

end ExactValue

/-- The stack, top first, and the overflow flag. -/
structure ExactState where
  stack : List ExactValue
  overflow : Bool
deriving DecidableEq, Repr

namespace ExactState

/-- Replaces the top number by a number and sets the overflow flag. -/
def onTop (state : ExactState) (op : Nat → Nat × Bool) : Option ExactState :=
  match state.stack with
  | .number a :: rest => some ⟨.number (op a).1 :: rest, (op a).2⟩
  | _ => none

/-- Replaces the top two numbers, `a` below `b`. -/
def onTopTwo (state : ExactState) (op : Nat → Nat → Option (Nat × Bool)) : Option ExactState :=
  match state.stack with
  | .number b :: .number a :: rest => (op a b).map fun result => ⟨.number result.1 :: rest, result.2⟩
  | _ => none

def performInstruction (state : ExactState) : Instruction → Option ExactState
  | .stp => some state
  | .dup =>
    match state.stack with
    | top :: rest => some { state with stack := top :: top :: rest }
    | [] => none
  | .del =>
    match state.stack with
    | _ :: rest => some { state with stack := rest }
    | [] => none
  | .swp =>
    match state.stack with
    | top :: below :: rest => some { state with stack := below :: top :: rest }
    | _ => none
  | .add => state.onTopTwo fun a b => some (min (a + b) 255, 255 < a + b)
  | .sub => state.onTopTwo fun a b => some ((((a : Int) - b) % 256).toNat, a < b)
  | .mul => state.onTopTwo fun a b => some (min (a * b) 255, 255 < a * b)
  | .div => state.onTopTwo fun a b => if b = 0 then none else some (a / b, false)
  | .exp => state.onTopTwo fun a b => some (min (a ^ b) 255, 255 < a ^ b)
  | .mod => state.onTopTwo fun a b => if b = 0 then none else some (a % b, false)
  | .shl => state.onTopTwo fun a b => some (a * 2 ^ b % 256, 255 < a * 2 ^ b)
  | .shr => state.onTopTwo fun a b => some (a / 2 ^ b, false)
  | .hex =>
    match state.stack with
    | b :: a :: rest => do
      let high ← b.hexDigit?
      let low ← a.hexDigit?
      some ⟨.number (16 * high + low) :: rest, false⟩
    | _ => none
  | .fac => state.onTop fun a => (min a.factorial 255, 255 < a.factorial)
  | .not => state.onTop fun a => (255 - a, false)
  | .xor => state.onTopTwo fun a b => some (a ^^^ b, false)

/-- What a command does; nothing where operands are missing, are no numbers or divide by zero. -/
def perform (state : ExactState) : Command → Option ExactState
  | .operand value => some ⟨.number value.toNat :: state.stack, false⟩
  | .instruction i => state.performInstruction i
  | .character (.nop _) => some state
  | .character .speak =>
    match state.stack with
    | .number count :: rest => if count ≤ rest.length then some { state with stack := rest.drop count } else none
    | _ => none
  | .character (.symbol s) => some ⟨.symbol s :: state.stack, false⟩

/-- Performs commands one after the other. -/
def run (state : ExactState) (commands : List Command) : Option ExactState :=
  commands.foldlM perform state

end ExactState

def Value.exact : Value → ExactValue
  | .byte b => .number b.toNat
  | .symbol s => .symbol s

@[simp] theorem Value.exact_byte (b : UInt8) : (Value.byte b).exact = .number b.toNat := rfl

@[simp] theorem Value.exact_symbol (s : Symbol) : (Value.symbol s).exact = .symbol s := rfl

/-- The stack and the overflow flag, with bytes read as numbers. -/
def Machine.exact (m : Machine) : ExactState :=
  ⟨m.stack.map Value.exact, m.overflow⟩

/-- A hexadecimal digit is the same number, at most 15. -/
theorem Value.hexDigit?_exact {v : Value} {digit : UInt8} (h : v.hexDigit? = some digit) :
    v.exact.hexDigit? = some digit.toNat ∧ digit.toNat ≤ 15 := by
  cases v with
  | byte b =>
    simp only [Value.hexDigit?, Option.ite_none_right_eq_some, Option.some.injEq] at h
    obtain ⟨small, rfl⟩ := h
    have le : b.toNat ≤ 9 := UInt8.le_iff_toNat_le.1 small
    simp only [exact_byte, ExactValue.hexDigit?, if_pos le, true_and]
    omega
  | symbol s =>
    cases s with
    | letter i =>
      simp only [Value.hexDigit?, Symbol.hexDigit?, Option.ite_none_right_eq_some, Option.some.injEq] at h
      obtain ⟨small, rfl⟩ := h
      have code : (UInt8.ofNat (10 + i.val)).toNat = 10 + i.val := by
        rw [UInt8.toNat_ofNat', Nat.mod_eq_of_lt (by omega)]
      simp only [exact_symbol, ExactValue.hexDigit?, if_pos small, code, true_and]
      omega
    | space => cases h

namespace Machine

variable {limits : Limits} {m after : Machine}

/-! ## Instructions that compute -/

/-- One operand: where the byte operation agrees with its formula, so do the machines. -/
theorem exact_onTop {op : UInt8 → ByteResult} {formula : Nat → Nat × Bool}
    (agree : ∀ a, formula a.toNat = ((op a).value.toNat, (op a).overflow)) (h : m.onTop op = .ok after) :
    m.exact.onTop formula = some after.exact := by
  obtain ⟨a, rest, stack, rfl⟩ := onTop_eq_ok h
  simp [ExactState.onTop, exact, stack, agree]

/-- Two operands: the lower one is the left one. -/
theorem exact_onTopTwo {op : UInt8 → UInt8 → Except Fault ByteResult}
    {formula : Nat → Nat → Option (Nat × Bool)}
    (agree : ∀ a b result, op a b = .ok result →
      formula a.toNat b.toNat = some (result.value.toNat, result.overflow))
    (h : m.onTopTwo op = .ok after) : m.exact.onTopTwo formula = some after.exact := by
  obtain ⟨a, b, rest, result, stack, computed, rfl⟩ := onTopTwo_eq_ok h
  simp [ExactState.onTopTwo, exact, stack, agree a b result computed]

/-- A computation that cannot fail. -/
theorem exact_onTopTwo_total {op : UInt8 → UInt8 → ByteResult} {formula : Nat → Nat → Nat × Bool}
    (agree : ∀ a b, formula a.toNat b.toNat = ((op a b).value.toNat, (op a b).overflow))
    (h : m.onTopTwo (fun a b => .ok (op a b)) = .ok after) :
    m.exact.onTopTwo (fun a b => some (formula a b)) = some after.exact := by
  refine exact_onTopTwo ?_ h
  intro a b result computed
  cases computed
  exact congrArg some (agree a b)

/-- A computation that is not defined for the divisor zero. -/
theorem exact_onTopTwo_divisor {fault : Fault} {op : UInt8 → UInt8 → UInt8} {formula : Nat → Nat → Nat}
    (agree : ∀ a b, formula a.toNat b.toNat = (op a b).toNat)
    (h : m.onTopTwo (fun a b => if b = 0 then .error fault else .ok ⟨op a b, false⟩) = .ok after) :
    m.exact.onTopTwo (fun a b => if b = 0 then none else some (formula a b, false)) = some after.exact := by
  refine exact_onTopTwo ?_ h
  intro a b result computed
  split at computed
  · cases computed
  · next nonzero =>
    cases computed
    have divisor : b.toNat ≠ 0 := fun zero => nonzero (UInt8.toNat.inj zero)
    rw [if_neg divisor, agree]

/-- Two hexadecimal digits make a byte without overflow. -/
theorem exact_joinDigits (h : m.joinDigits = .ok after) :
    m.exact.performInstruction .hex = some after.exact := by
  obtain ⟨top, below, rest, high, low, stack, upper, lower, rfl⟩ := joinDigits_eq_ok h
  obtain ⟨upper, highSmall⟩ := Value.hexDigit?_exact upper
  obtain ⟨lower, lowSmall⟩ := Value.hexDigit?_exact lower
  have joined : (high * 16 + low).toNat = 16 * high.toNat + low.toNat := by
    have sixteen : (16 : UInt8).toNat = 16 := rfl
    rw [UInt8.toNat_add, UInt8.toNat_mul, sixteen]
    omega
  simp [ExactState.performInstruction, exact, stack, upper, lower, joined]

/-- Each instruction that goes through is exact, by the arithmetic of its operation. -/
theorem exact_performInstruction {i : Instruction} (h : m.performInstruction limits i = .ok after) :
    m.exact.performInstruction i = some after.exact := by
  cases i with
  | stp =>
    cases h
    rfl
  | dup =>
    simp only [performInstruction] at h
    split at h
    · next top rest stack =>
      obtain ⟨_, rfl⟩ := put_eq_ok h
      simp [ExactState.performInstruction, exact, stack]
    · cases h
  | del =>
    simp only [performInstruction] at h
    split at h
    · next top rest stack =>
      cases h
      simp [ExactState.performInstruction, exact, stack]
    · cases h
  | swp =>
    simp only [performInstruction] at h
    split at h
    · next top below rest stack =>
      cases h
      simp [ExactState.performInstruction, exact, stack]
    · cases h
  | add =>
    refine exact_onTopTwo_total (fun a b => ?_) h
    rw [ByteResult.add_eq_clamp, ByteResult.toNat_value_clamp, ByteResult.overflow_clamp]
  | sub =>
    refine exact_onTopTwo_total (fun a b => ?_) h
    obtain ⟨value, overflow⟩ := ByteResult.sub_exact a b
    rw [← value, overflow, Int.toNat_natCast]
  | mul =>
    refine exact_onTopTwo_total (fun a b => ?_) h
    rw [ByteResult.mul_eq_clamp, ByteResult.toNat_value_clamp, ByteResult.overflow_clamp]
  | div =>
    simp only [performInstruction] at h
    split at h
    · cases h
    · exact exact_onTopTwo_divisor (fun a b => (UInt8.toNat_div a b).symm) h
  | exp =>
    refine exact_onTopTwo_total (fun a b => ?_) h
    rw [ByteResult.pow_eq_clamp, ByteResult.toNat_value_clamp, ByteResult.overflow_clamp]
  | mod =>
    exact exact_onTopTwo_divisor (fun a b => (UInt8.toNat_mod a b).symm) h
  | shl =>
    refine exact_onTopTwo_total (fun a b => ?_) h
    obtain ⟨value, overflow⟩ := ByteResult.shiftLeft_exact a b
    rw [value, overflow]
  | shr =>
    refine exact_onTopTwo_total (fun a b => ?_) h
    obtain ⟨value, overflow⟩ := ByteResult.shiftRight_exact a b
    rw [value, overflow]
  | hex => exact exact_joinDigits h
  | fac =>
    refine exact_onTop (fun a => ?_) h
    rw [ByteResult.factorial_eq_clamp, ByteResult.toNat_value_clamp, ByteResult.overflow_clamp]
  | not =>
    refine exact_onTop (fun a => ?_) h
    rw [UInt8.toNat_not]
    rfl
  | xor =>
    refine exact_onTopTwo_total (fun a b => ?_) h
    rw [UInt8.toNat_xor]

/-! ## Steps and runs -/

theorem exact_perform {command : Command} (h : m.perform limits command = .ok after) :
    m.exact.perform command = some after.exact := by
  cases command with
  | operand value =>
    obtain ⟨_, rfl⟩ := putFresh_eq_ok h
    rfl
  | instruction i => exact exact_performInstruction h
  | character c =>
    cases c with
    | nop index =>
      cases h
      rfl
    | speak =>
      obtain ⟨count, rest, stack, enough, _, rfl⟩ := speak_eq_ok h
      simp [ExactState.perform, exact, stack, enough, List.map_drop]
    | symbol s =>
      obtain ⟨_, rfl⟩ := putFresh_eq_ok h
      rfl

theorem exact_perform_runWord {word : Word} (ok : (m.runWord limits word).2.lastError = none) :
    m.exact.perform word.command = some (m.runWord limits word).2.exact := by
  obtain ⟨performed, _⟩ := runWord_of_lastError_eq_none ok
  -- The last command and the last error are no part of the exact state.
  have refined := exact_perform performed
  exact refined

/-- **Steps that go through are exact.** The stack and the overflow flag become what the formulas say, and
only STP does not answer running. -/
theorem exact_runWord (limits : Limits) (m : Machine) (word : Word)
    (ok : (m.runWord limits word).2.lastError = none) :
    m.exact.perform word.command = some (m.runWord limits word).2.exact ∧
      (m.runWord limits word).1 = if word.command = .instruction .stp then .stopped else .running :=
  ⟨exact_perform_runWord ok, (runWord_of_lastError_eq_none ok).2⟩

/-- A power that does not fit, over a blank: 7 to the power 3 sticks at 255. -/
theorem exact_runWord_pow :
    let m : Machine := { stack := [.byte 3, .byte 7, .symbol .space] }
    (m.runWord {} ⟨24⟩).2.lastError = none ∧
      m.exact.perform (.instruction .exp) = some ⟨[.number 255, .symbol .space], true⟩ ∧
      (m.runWord {} ⟨24⟩).1 = .running :=
  ⟨by decide, exact_runWord {} { stack := [.byte 3, .byte 7, .symbol .space] } ⟨24⟩ (by decide)⟩

/-- A run of steps that go through is a run of the exact machine. -/
theorem exact_run {words : List Word}
    (ok : ∀ step ∈ m.history limits (words.map .word), step.2.lastError = none) :
    m.exact.run (words.map Word.command) = some (m.run limits (words.map .word)).exact := by
  induction words generalizing m with
  | nil => rfl
  | cons word words ih =>
    rw [List.map_cons, history, List.forall_mem_cons] at ok
    obtain ⟨first, others⟩ := ok
    simp only [ExactState.run, List.map_cons, List.foldlM_cons, exact_perform_runWord first]
    exact ih others

end Machine

end InstructionCard
