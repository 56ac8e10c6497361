import InstructionCard.Proofs.Machine.Exact
import InstructionCard.Proofs.Machine.Refusal

/-!
# Commands in place

`Machine.perform` gives a new machine or a fault. A command can also be carried out on one machine that is
changed bit by bit: operands are dropped before the result is put, a line is written value by value, and what
was changed before a fault stays changed. Main result: `Machine.stepInPlace_eq`. On a machine whose stack is
within its limits the two ways agree, so no fault comes after a change.
-/

set_option autoImplicit false

namespace InstructionCard

/-- A change of the machine. A fault ends it and undoes nothing. -/
abbrev Change (α : Type) := EStateM Fault Machine α

namespace Change

def ofExcept {α : Type} : Except Fault α → Change α
  | .ok a => pure a
  | .error fault => throw fault

/-- What a change comes to that is made as a whole or not at all. -/
def settle (m : Machine) : Except Fault Machine → EStateM.Result Fault Machine Unit
  | .ok after => .ok () after
  | .error fault => .error fault m

/-- Looks at the top value. -/
def operand : Change Value := do
  match (← get).stack with
  | top :: _ => pure top
  | [] => throw (.stackUnderflow 1 0)

/-- Looks at the top two values, the lower one first. -/
def operands : Change (Value × Value) := do
  match (← get).stack with
  | top :: below :: _ => pure (below, top)
  | short => throw (.stackUnderflow 2 short.length)

def dropTop (count : Nat) : Change Unit := do
  let m ← get
  if m.stack.length < count then throw (.stackUnderflow count m.stack.length)
  else set { m with stack := m.stack.drop count }

def flag (overflow : Bool) : Change Unit :=
  modify fun m => { m with overflow }

section

variable (limits : Limits)

/-- Looks for room before it puts the value. -/
def push (v : Value) : Change Unit := do
  let m ← get
  if m.stack.length < limits.stack then set { m with stack := v :: m.stack }
  else throw .stackOverflow

def pushFresh (v : Value) : Change Unit := do
  push limits v
  flag false

/-- Drops the operands, and puts the result where they were. -/
def replaceTop (count : Nat) (result : ByteResult) : Change Unit := do
  dropTop count
  push limits (.byte result.value)
  flag result.overflow

/-- Replaces the byte on top by the result. -/
def computeOne (op : UInt8 → ByteResult) : Change Unit := do
  let top ← operand
  let a ← ofExcept top.byteOrFault
  replaceTop limits 1 (op a)

/-- Replaces two bytes by the result, if there is one. -/
def computeTwo (op : UInt8 → UInt8 → Except Fault ByteResult) : Change Unit := do
  let (below, top) ← operands
  let a ← ofExcept below.byteOrFault
  let b ← ofExcept top.byteOrFault
  let result ← ofExcept (op a b)
  replaceTop limits 2 result

/-- Joins two digits, unless their byte is too large. -/
def joinDigits : Change Unit := do
  let (below, top) ← operands
  let low ← ofExcept below.hexDigitOrFault
  let high ← ofExcept top.hexDigitOrFault
  if 255 < high.toNat * 16 + low.toNat then throw (.notHexDigit top)
  else replaceTop limits 2 ⟨high * 16 + low, false⟩

/-- Writes values behind a line, as long as they fit. -/
def write (line : String) : List Value → Change String
  | [] => pure line
  | v :: values =>
    if (line ++ v.text).utf8ByteSize ≤ limits.speech then write (line ++ v.text) values
    else throw .speechTooLong

def say (line : String) : Change Unit :=
  modify fun m => { m with lastSpeech := line, spoken := m.spoken ++ [line] }

/-- Counts and writes the line before anything is dropped. -/
def speak : Change Unit := do
  let top ← operand
  let count ← ofExcept top.byteOrFault
  let m ← get
  if m.stack.length < count.toNat + 1 then throw (.stackUnderflow (count.toNat + 1) m.stack.length)
  else
    let line ← write limits "" ((m.stack.drop 1).take count.toNat)
    dropTop (count.toNat + 1)
    say line

/-- The instructions as a list of changes each. -/
def performInstruction : Instruction → Change Unit
  | .stp => pure ()
  | .dup => do push limits (← operand)
  | .del => do
    let _ ← operand
    dropTop 1
  | .swp => do
    let (below, top) ← operands
    dropTop 2
    push limits top
    push limits below
  | .add => computeTwo limits fun a b => .ok (.add a b)
  | .sub => computeTwo limits fun a b => .ok (.sub a b)
  | .mul => computeTwo limits fun a b => .ok (.mul a b)
  | .div => do
    if (← get).stack.length < 2 then throw .divisionUnderflow
    else computeTwo limits fun a b => if b = 0 then .error .divisionByZero else .ok ⟨a / b, false⟩
  | .exp => computeTwo limits fun a b => .ok (.pow a b)
  | .mod => computeTwo limits fun a b => if b = 0 then .error .moduloByZero else .ok ⟨a % b, false⟩
  | .shl => computeTwo limits fun a b => .ok (.shiftLeft a b)
  | .shr => computeTwo limits fun a b => .ok (.shiftRight a b)
  | .hex => joinDigits limits
  | .fac => computeOne limits ByteResult.factorial
  | .not => computeOne limits fun a => ⟨~~~a, false⟩
  | .xor => computeTwo limits fun a b => .ok ⟨a ^^^ b, false⟩

def perform : Command → Change Unit
  | .operand value => pushFresh limits (.byte value)
  | .instruction i => performInstruction limits i
  | .character (.nop _) => pure ()
  | .character .speak => speak limits
  | .character (.symbol s) => pushFresh limits (.symbol s)

end

/-! ## What the single changes do -/

variable {α β : Type} {limits : Limits}

/-- A change that goes through hands its machine on. -/
theorem run_bind_ok {x : Change α} {next : α → Change β} {m after : Machine} {a : α}
    (h : x.run m = .ok a after) : (x >>= next).run m = (next a).run after := by
  rw [EStateM.run_bind, h]

/-- A change that fails keeps what it had done until then. -/
theorem run_bind_error {x : Change α} {next : α → Change β} {m after : Machine} {fault : Fault}
    (h : x.run m = .error fault after) : (x >>= next).run m = .error fault after := by
  rw [EStateM.run_bind, h]

theorem ofExcept_ok_bind (a : α) (next : α → Change β) : ofExcept (.ok a) >>= next = next a := rfl

theorem ofExcept_byte_bind (b : UInt8) (next : UInt8 → Change β) :
    ofExcept (Value.byte b).byteOrFault >>= next = next b := rfl

theorem run_ofExcept_error_bind (fault : Fault) (next : α → Change β) (m : Machine) :
    (ofExcept (.error fault) >>= next).run m = .error fault m := rfl

theorem run_notByte_bind {v : Value} (h : v.byte? = none) (next : UInt8 → Change β) (m : Machine) :
    (ofExcept v.byteOrFault >>= next).run m = .error (.notByte v) m := by
  rw [Value.byteOrFault_eq_error_iff.2 ⟨h, rfl⟩, run_ofExcept_error_bind]

theorem run_operand {m : Machine} {top : Value} {rest : List Value} (stack : m.stack = top :: rest) :
    operand.run m = .ok top m := by
  simp [operand, stack]

theorem run_operand_nil {m : Machine} (stack : m.stack = []) :
    operand.run m = .error (.stackUnderflow 1 0) m := by
  rw [operand, run_bind_ok (EStateM.run_get m), stack]
  rfl

theorem run_operands {m : Machine} {top below : Value} {rest : List Value}
    (stack : m.stack = top :: below :: rest) : operands.run m = .ok (below, top) m := by
  simp [operands, stack]

theorem run_operands_short {m : Machine} (short : m.stack.length < 2) :
    operands.run m = .error (.stackUnderflow 2 m.stack.length) m := by
  rw [operands, run_bind_ok (EStateM.run_get m)]
  match m.stack, short with
  | [], _ => rfl
  | [_], _ => rfl

theorem run_dropTop {count : Nat} {m : Machine} (enough : count ≤ m.stack.length) :
    (dropTop count).run m = .ok () { m with stack := m.stack.drop count } := by
  simp [dropTop, Nat.not_lt.2 enough]

theorem run_push {v : Value} {m : Machine} (room : m.stack.length < limits.stack) :
    (push limits v).run m = .ok () { m with stack := v :: m.stack } := by
  simp [push, room]

theorem run_push_full {v : Value} {m : Machine} (full : ¬ m.stack.length < limits.stack) :
    (push limits v).run m = .error .stackOverflow m := by
  rw [push, run_bind_ok (EStateM.run_get m), if_neg full]
  rfl

/-- There is always room for the result, as operands were taken off before it is put. -/
theorem run_replaceTop {count : Nat} (result : ByteResult) {m : Machine} (positive : 0 < count)
    (enough : count ≤ m.stack.length) (fits : m.stack.length ≤ limits.stack) :
    (replaceTop limits count result).run m =
      .ok () { m with stack := .byte result.value :: m.stack.drop count, overflow := result.overflow } := by
  have room : (m.stack.drop count).length < limits.stack := by
    rw [List.length_drop]
    omega
  rw [replaceTop, run_bind_ok (run_dropTop enough), run_bind_ok (run_push room)]
  rfl

/-- Giving up at the first value that does not fit comes to the same as measuring the whole line. -/
theorem run_write {line : String} (fits : line.utf8ByteSize ≤ limits.speech) (values : List Value)
    (m : Machine) : (write limits line values).run m =
      if (line ++ String.join (values.map Value.text)).utf8ByteSize ≤ limits.speech then
        .ok (line ++ String.join (values.map Value.text)) m
      else .error .speechTooLong m := by
  induction values generalizing line with
  | nil => simp [write, fits]
  | cons v values ih =>
    rw [write, List.map_cons, String.join_cons, ← String.append_assoc]
    by_cases room : (line ++ v.text).utf8ByteSize ≤ limits.speech
    · rw [if_pos room, ih room]
    · have longer : ¬ (line ++ v.text ++ String.join (values.map Value.text)).utf8ByteSize ≤ limits.speech := by
        rw [String.utf8ByteSize_append]
        omega
      rw [if_neg room, if_neg longer]
      rfl

/-! ## Commands as a whole -/

theorem run_pushFresh (v : Value) (m : Machine) :
    (pushFresh limits v).run m = settle m (m.putFresh limits v) := by
  rw [pushFresh]
  cases result : m.putFresh limits v with
  | ok after =>
    obtain ⟨room, rfl⟩ := Machine.putFresh_eq_ok result
    rw [run_bind_ok (run_push room)]
    rfl
  | error fault =>
    obtain ⟨full, rfl⟩ := Machine.putFresh_eq_error_iff.1 result
    rw [run_bind_error (run_push_full (Nat.not_lt.2 full))]
    rfl

section

variable {m : Machine} (fits : m.stack.length ≤ limits.stack)
include fits

/-- The operand is looked at before it is taken off, so a fault leaves it where it is. -/
theorem run_computeOne (op : UInt8 → ByteResult) : (computeOne limits op).run m = settle m (m.onTop op) := by
  rw [computeOne]
  cases result : m.onTop op with
  | ok after =>
    obtain ⟨a, rest, stack, rfl⟩ := Machine.onTop_eq_ok result
    have replaced := run_replaceTop (op a) Nat.one_pos (by simp [stack]) fits
    rw [run_bind_ok (run_operand stack), ofExcept_byte_bind, replaced, stack]
    rfl
  | error fault =>
    obtain ⟨stack, rfl⟩ | ⟨top, rest, stack, symbol, rfl⟩ := Machine.onTop_eq_error_iff.1 result
    · rw [run_bind_error (run_operand_nil stack)]
      rfl
    · rw [run_bind_ok (run_operand stack), run_notByte_bind symbol]
      rfl

/-- Both operands are looked at before they are taken off. -/
theorem run_computeTwo (op : UInt8 → UInt8 → Except Fault ByteResult) :
    (computeTwo limits op).run m = settle m (m.onTopTwo op) := by
  rw [computeTwo]
  cases result : m.onTopTwo op with
  | ok after =>
    obtain ⟨a, b, rest, value, stack, computed, rfl⟩ := Machine.onTopTwo_eq_ok result
    have replaced := run_replaceTop value Nat.two_pos (by simp [stack]) fits
    rw [run_bind_ok (run_operands stack)]
    dsimp only
    rw [ofExcept_byte_bind, ofExcept_byte_bind, computed, ofExcept_ok_bind, replaced, stack]
    rfl
  | error fault =>
    obtain ⟨short, rfl⟩ | ⟨top, below, rest, stack, refused⟩ := Machine.onTopTwo_eq_error_iff.1 result
    · rw [run_bind_error (run_operands_short short)]
      rfl
    · rw [run_bind_ok (run_operands stack)]
      dsimp only
      obtain ⟨symbol, rfl⟩ | ⟨a, rfl, ⟨symbol, rfl⟩ | ⟨b, rfl, failed⟩⟩ := refused
      · rw [run_notByte_bind symbol]
        rfl
      · rw [ofExcept_byte_bind, run_notByte_bind symbol]
        rfl
      · rw [ofExcept_byte_bind, ofExcept_byte_bind, failed, run_ofExcept_error_bind]
        rfl

theorem run_joinDigits : (joinDigits limits).run m = settle m m.joinDigits := by
  rw [joinDigits]
  cases result : m.joinDigits with
  | ok after =>
    obtain ⟨top, below, rest, high, low, stack, upper, lower, rfl⟩ := Machine.joinDigits_eq_ok result
    have small : ¬ 255 < high.toNat * 16 + low.toNat := by
      have := (Value.hexDigit?_exact upper).2
      have := (Value.hexDigit?_exact lower).2
      omega
    have replaced := run_replaceTop ⟨high * 16 + low, false⟩ Nat.two_pos (by simp [stack]) fits
    rw [run_bind_ok (run_operands stack)]
    dsimp only
    rw [Value.hexDigitOrFault_eq_ok_iff.2 lower, ofExcept_ok_bind, Value.hexDigitOrFault_eq_ok_iff.2 upper,
      ofExcept_ok_bind, if_neg small, replaced, stack]
    rfl
  | error fault =>
    obtain ⟨short, rfl⟩ | ⟨top, below, rest, stack, refused⟩ := Machine.joinDigits_eq_error_iff.1 result
    · rw [run_bind_error (run_operands_short short)]
      rfl
    · rw [run_bind_ok (run_operands stack)]
      dsimp only
      obtain ⟨none, rfl⟩ | ⟨low, lower, none, rfl⟩ := refused
      · rw [Value.hexDigitOrFault_eq_error_iff.2 ⟨none, rfl⟩, run_ofExcept_error_bind]
        rfl
      · rw [Value.hexDigitOrFault_eq_ok_iff.2 lower, ofExcept_ok_bind,
          Value.hexDigitOrFault_eq_error_iff.2 ⟨none, rfl⟩, run_ofExcept_error_bind]
        rfl

end

/-- The only faults come before the first change. -/
theorem run_speak (m : Machine) : (speak limits).run m = settle m (m.speak limits) := by
  have written (values : List Value) : (write limits "" values).run m = _ := run_write (Nat.zero_le _) values m
  simp only [String.empty_append] at written
  rw [speak]
  cases result : m.speak limits with
  | ok after =>
    obtain ⟨count, rest, stack, enough, room, rfl⟩ := Machine.speak_eq_ok result
    have length : count.toNat + 1 ≤ m.stack.length := by
      rw [stack, List.length_cons]
      omega
    have below : m.stack.drop 1 = rest := by rw [stack, List.drop_one, List.tail_cons]
    have line := written (rest.take count.toNat)
    rw [if_pos room] at line
    rw [run_bind_ok (run_operand stack), ofExcept_byte_bind, run_bind_ok (EStateM.run_get m),
      if_neg (Nat.not_lt.2 length), below, run_bind_ok line, run_bind_ok (run_dropTop length), stack]
    rfl
  | error fault =>
    obtain ⟨stack, rfl⟩ | ⟨top, rest, stack, refused⟩ := Machine.speak_eq_error_iff.1 result
    · rw [run_bind_error (run_operand_nil stack)]
      rfl
    · have length : m.stack.length = rest.length + 1 := by rw [stack, List.length_cons]
      rw [run_bind_ok (run_operand stack)]
      obtain ⟨symbol, rfl⟩ | ⟨count, rfl, ⟨short, rfl⟩ | ⟨enough, long, rfl⟩⟩ := refused
      · rw [run_notByte_bind symbol]
        rfl
      · rw [ofExcept_byte_bind, run_bind_ok (EStateM.run_get m), if_pos (by omega), length]
        rfl
      · have below : m.stack.drop 1 = rest := by rw [stack, List.drop_one, List.tail_cons]
        have line := written (rest.take count.toNat)
        rw [if_neg (Nat.not_le.2 long)] at line
        rw [ofExcept_byte_bind, run_bind_ok (EStateM.run_get m), if_neg (by omega), below, run_bind_error line]
        rfl

theorem run_push_eq_settle (v : Value) (m : Machine) : (push limits v).run m = settle m (m.put limits v) := by
  cases result : m.put limits v with
  | ok after =>
    obtain ⟨room, rfl⟩ := Machine.put_eq_ok result
    exact run_push room
  | error fault =>
    obtain ⟨full, rfl⟩ := Machine.put_eq_error_iff.1 result
    exact run_push_full (Nat.not_lt.2 full)

/-- The two values that are dropped leave room to put them again. -/
theorem run_exchange {m : Machine} (fits : m.stack.length ≤ limits.stack) {top below : Value}
    {rest : List Value} (stack : m.stack = top :: below :: rest) :
    (performInstruction limits .swp).run m = .ok () { m with stack := below :: top :: rest } := by
  have length : m.stack.length = rest.length + 2 := by rw [stack, List.length_cons, List.length_cons]
  have dropped : m.stack.drop 2 = rest := by rw [stack, List.drop_succ_cons, List.drop_one, List.tail_cons]
  have first : rest.length < limits.stack := by omega
  have second : (top :: rest).length < limits.stack := by
    rw [List.length_cons]
    omega
  rw [performInstruction, run_bind_ok (run_operands stack)]
  dsimp only
  rw [run_bind_ok (run_dropTop (by omega)), dropped, run_bind_ok (run_push first), run_push second]

/-- **In place or as a whole**, an instruction comes to the same. -/
theorem run_performInstruction {m : Machine} (fits : m.stack.length ≤ limits.stack) (i : Instruction) :
    (performInstruction limits i).run m = settle m (m.performInstruction limits i) := by
  cases i with
  | stp => rfl
  | dup =>
    rw [performInstruction, Machine.performInstruction]
    cases stack : m.stack with
    | nil =>
      rw [run_bind_error (run_operand_nil stack)]
      rfl
    | cons top rest =>
      rw [run_bind_ok (run_operand stack)]
      exact run_push_eq_settle top m
  | del =>
    rw [performInstruction, Machine.performInstruction]
    cases stack : m.stack with
    | nil =>
      rw [run_bind_error (run_operand_nil stack)]
      rfl
    | cons top rest =>
      rw [run_bind_ok (run_operand stack), run_dropTop (by simp [stack]), stack]
      rfl
  | swp =>
    rw [Machine.performInstruction]
    split
    · next top below rest stack => exact run_exchange fits stack
    · next none =>
      rw [performInstruction, run_bind_error (run_operands_short (length_lt_two_of_ne none))]
      rfl
  | add => exact run_computeTwo fits _
  | sub => exact run_computeTwo fits _
  | mul => exact run_computeTwo fits _
  | div =>
    rw [performInstruction, run_bind_ok (EStateM.run_get m), Machine.performInstruction]
    by_cases short : m.stack.length < 2
    · rw [if_pos short, if_pos short]
      rfl
    · rw [if_neg short, if_neg short]
      exact run_computeTwo fits _
  | exp => exact run_computeTwo fits _
  | mod => exact run_computeTwo fits _
  | shl => exact run_computeTwo fits _
  | shr => exact run_computeTwo fits _
  | hex => exact run_joinDigits fits
  | fac => exact run_computeOne fits _
  | not => exact run_computeOne fits _
  | xor => exact run_computeTwo fits _

theorem run_perform {m : Machine} (fits : m.stack.length ≤ limits.stack) (command : Command) :
    (perform limits command).run m = settle m (m.perform limits command) := by
  match command with
  | .operand value => exact run_pushFresh _ m
  | .instruction i => exact run_performInstruction fits i
  | .character (.nop _) => rfl
  | .character .speak => exact run_speak m
  | .character (.symbol s) => exact run_pushFresh _ m

end Change

namespace Machine

/-- Runs a word in place. -/
def runWordInPlace (limits : Limits) (m : Machine) (word : Word) : RunState × Machine :=
  let started := { m with lastCommand := some word.command, lastError := none }
  match (Change.perform limits word.command).run started with
  | .ok () after => (if word.command = .instruction .stp then .stopped else .running, after)
  | .error fault broken => broken.fail fault

/-- A step that runs its word in place. -/
def stepInPlace (limits : Limits) (m : Machine) : Input → RunState × Machine
  | .bits cells =>
    match Word.ofBits cells with
    | .ok word => m.runWordInPlace limits word
    | .error cause => m.fail (.malformed cause)
  | .word w => m.runWordInPlace limits w

/-- The books are kept alike around both. -/
theorem runWordInPlace_eq {limits : Limits} {m : Machine} (fits : m.stack.length ≤ limits.stack) (word : Word) :
    m.runWordInPlace limits word = m.runWord limits word := by
  rw [runWordInPlace, runWord, Change.run_perform (by exact fits)]
  cases perform limits { m with lastCommand := some word.command, lastError := none } word.command with
  | ok after => rfl
  | error fault => rfl

/-- **Nothing is left half done.** A step whose changes are made one after the other, and are not undone by a
fault, is the step that makes all of them or none. -/
theorem stepInPlace_eq {limits : Limits} {m : Machine} (fits : m.stack.length ≤ limits.stack) (input : Input) :
    m.stepInPlace limits input = m.step limits input := by
  cases input with
  | bits cells =>
    rw [stepInPlace, step, runBits]
    cases Word.ofBits cells with
    | ok word => exact runWordInPlace_eq fits word
    | error cause => rfl
  | word w => exact runWordInPlace_eq fits w

end Machine

end InstructionCard
