import InstructionCard.Wire.Varint

/-!
# Wire format

How values are written as bytes and read back. Reading takes the bytes of one value off the front and
gives back the rest. Numbers vary in length, bytes stand for themselves, a flag is one byte, a choice
starts with the index of its constructor, and the parts of a record follow each other without a length.
-/

set_option autoImplicit false

namespace InstructionCard

class Wire (α : Type) where
  write : α → List UInt8
  read : List UInt8 → Except WireError (α × List UInt8)

namespace Wire

variable {α β : Type}

instance : Wire UInt32 where
  write := Varint.write
  read := Varint.read

instance : Wire UInt8 where
  write byte := [byte]
  read
    | byte :: rest => .ok (byte, rest)
    | [] => .error .unexpectedEnd

instance : Wire Bool where
  write flag := [if flag then 1 else 0]
  read
    | [] => .error .unexpectedEnd
    | byte :: rest =>
      if byte = 0 then .ok (false, rest)
      else if byte = 1 then .ok (true, rest)
      else .error .badBool

instance (n : Nat) : Wire (Vector UInt8 n) where
  write bytes := bytes.toList
  read bytes :=
    if h : n ≤ bytes.length then .ok (⟨(bytes.take n).toArray, by simp [h]⟩, bytes.drop n)
    else .error .unexpectedEnd

/-- Reads the parts of a value and makes it of them. -/
def readAs [Wire α] (make : α → β) (bytes : List UInt8) : Except WireError (β × List UInt8) := do
  let (parts, bytes) ← read bytes
  .ok (make parts, bytes)

instance [Wire α] : Wire (Option α) where
  write
    | none => [0]
    | some a => 1 :: write a
  read
    | [] => .error .unexpectedEnd
    | byte :: rest =>
      if byte = 0 then .ok (none, rest)
      else if byte = 1 then readAs some rest
      else .error .badOption

instance [Wire α] [Wire β] : Wire (α × β) where
  write pair := write pair.1 ++ write pair.2
  read bytes := do
    let (a, bytes) ← read bytes
    let (b, bytes) ← read bytes
    .ok ((a, b), bytes)

def writeIndex (index : Nat) : List UInt8 :=
  Varint.write (UInt32.ofNat index)

/-- The index of one of `n` constructors. -/
def readIndex (n : Nat) (bytes : List UInt8) : Except WireError (Fin n × List UInt8) := do
  let (number, bytes) ← Varint.read bytes
  if h : number.toNat < n then .ok (⟨number.toNat, h⟩, bytes) else .error .badVariant

instance (n : Nat) : Wire (Fin n) where
  write index := writeIndex index
  read := readIndex n

/-- Reads the index of one of `n` constructors and then what belongs to that. -/
def readChoice (n : Nat) (choice : Fin n → List UInt8 → Except WireError (α × List UInt8))
    (bytes : List UInt8) : Except WireError (α × List UInt8) := do
  let (index, bytes) ← readIndex n bytes
  choice index bytes

/-- Writes `α` by way of `β`. -/
@[reducible] def via [Wire β] (toPlain : α → β) (ofPlain : β → α) : Wire α where
  write a := write (toPlain a)
  read := readAs ofPlain

end Wire

end InstructionCard
