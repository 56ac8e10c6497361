import InstructionCard.Machine.Arithmetic
import InstructionCard.Machine.Basic

/-!
# Commands at work

`Machine.perform` gives the machine after a command, or the fault that keeps the command from going
through. Operands are looked for before their values are looked at, the lower one first, and room on the
stack is looked for last.
-/

set_option autoImplicit false

namespace InstructionCard

/-- The byte an instruction needs. -/
def Value.byteOrFault : Value → Except Fault UInt8
  | .byte b => .ok b
  | .symbol s => .error (.notByte (.symbol s))

/-- The hexadecimal digit an instruction needs. -/
def Value.hexDigitOrFault (v : Value) : Except Fault UInt8 :=
  match v.hexDigit? with
  | some digit => .ok digit
  | none => .error (.notHexDigit v)

namespace Machine

/-- Puts a value on the stack. -/
def put (limits : Limits) (m : Machine) (v : Value) : Except Fault Machine :=
  if m.stack.length < limits.stack then .ok { m with stack := v :: m.stack }
  else .error .stackOverflow

/-- Puts a value on the stack that no operation computed. -/
def putFresh (limits : Limits) (m : Machine) (v : Value) : Except Fault Machine :=
  (put limits m v).map fun m => { m with overflow := false }

/-- Replaces the top byte by a result. -/
def onTop (m : Machine) (op : UInt8 → ByteResult) : Except Fault Machine :=
  match m.stack with
  | top :: rest => do
    let a ← top.byteOrFault
    let result := op a
    .ok { m with stack := .byte result.value :: rest, overflow := result.overflow }
  | [] => .error (.stackUnderflow 1 0)

/-- Replaces the top two bytes by the result of `op below top`. -/
def onTopTwo (m : Machine) (op : UInt8 → UInt8 → Except Fault ByteResult) : Except Fault Machine :=
  match m.stack with
  | top :: below :: rest => do
    let a ← below.byteOrFault
    let b ← top.byteOrFault
    let result ← op a b
    .ok { m with stack := .byte result.value :: rest, overflow := result.overflow }
  | short => .error (.stackUnderflow 2 short.length)

/-- Replaces two hexadecimal digits by their byte; the high one lies on top. -/
def joinDigits (m : Machine) : Except Fault Machine :=
  match m.stack with
  | top :: below :: rest => do
    let low ← below.hexDigitOrFault
    let high ← top.hexDigitOrFault
    .ok { m with stack := .byte (high * 16 + low) :: rest, overflow := false }
  | short => .error (.stackUnderflow 2 short.length)

/-- Takes a count and as many values below it, and speaks them from the top down as one line. -/
def speak (limits : Limits) (m : Machine) : Except Fault Machine :=
  match m.stack with
  | [] => .error (.stackUnderflow 1 0)
  | .symbol s :: _ => .error (.notByte (.symbol s))
  | .byte count :: rest =>
    if rest.length < count.toNat then
      .error (.stackUnderflow (count.toNat + 1) (rest.length + 1))
    else
      let line := String.join ((rest.take count.toNat).map Value.text)
      if line.utf8ByteSize ≤ limits.speech then
        .ok { m with
          stack := rest.drop count.toNat
          lastSpeech := line
          spoken := m.spoken ++ [line] }
      else .error .speechTooLong

def performInstruction (limits : Limits) (m : Machine) : Instruction → Except Fault Machine
  | .stp => .ok m
  | .dup =>
    match m.stack with
    | top :: _ => put limits m top
    | [] => .error (.stackUnderflow 1 0)
  | .del =>
    match m.stack with
    | _ :: rest => .ok { m with stack := rest }
    | [] => .error (.stackUnderflow 1 0)
  | .swp =>
    match m.stack with
    | top :: below :: rest => .ok { m with stack := below :: top :: rest }
    | short => .error (.stackUnderflow 2 short.length)
  | .add => m.onTopTwo fun a b => .ok (.add a b)
  | .sub => m.onTopTwo fun a b => .ok (.sub a b)
  | .mul => m.onTopTwo fun a b => .ok (.mul a b)
  | .div =>
    if m.stack.length < 2 then .error .divisionUnderflow
    else m.onTopTwo fun a b => if b = 0 then .error .divisionByZero else .ok ⟨a / b, false⟩
  | .exp => m.onTopTwo fun a b => .ok (.pow a b)
  | .mod => m.onTopTwo fun a b => if b = 0 then .error .moduloByZero else .ok ⟨a % b, false⟩
  | .shl => m.onTopTwo fun a b => .ok (.shiftLeft a b)
  | .shr => m.onTopTwo fun a b => .ok (.shiftRight a b)
  | .hex => m.joinDigits
  | .fac => m.onTop ByteResult.factorial
  | .not => m.onTop fun a => ⟨~~~a, false⟩
  | .xor => m.onTopTwo fun a b => .ok ⟨a ^^^ b, false⟩

/-- What a command does to the machine. -/
def perform (limits : Limits) (m : Machine) : Command → Except Fault Machine
  | .operand value => m.putFresh limits (.byte value)
  | .instruction i => m.performInstruction limits i
  | .character (.nop _) => .ok m
  | .character .speak => m.speak limits
  | .character (.symbol s) => m.putFresh limits (.symbol s)

end Machine

end InstructionCard
