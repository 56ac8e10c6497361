/-!
# Byte arithmetic

Operations on bytes that tell whether the exact result was lost. Sums, products, powers and factorials
stick at 255, differences wrap, a shift to the left keeps the low eight bits.
-/

set_option autoImplicit false

namespace InstructionCard

/-- A byte and whether it differs from the exact result. -/
structure ByteResult where
  value : UInt8
  overflow : Bool := false
deriving DecidableEq, Repr

namespace ByteResult

/-- A wide number brought into a byte; above 255 it sticks there. -/
def ofWide (wide : UInt16) : ByteResult :=
  if wide ≤ 255 then ⟨wide.toUInt8, false⟩ else ⟨255, true⟩

def add (a b : UInt8) : ByteResult :=
  ofWide (a.toUInt16 + b.toUInt16)

def mul (a b : UInt8) : ByteResult :=
  ofWide (a.toUInt16 * b.toUInt16)

/-- The difference modulo 256; borrowing counts as an overflow. -/
def sub (a b : UInt8) : ByteResult :=
  ⟨a - b, a < b⟩

/-- Multiplies a result further. What has overflowed stays so. -/
def times (result : ByteResult) (b : UInt8) : ByteResult :=
  let product := mul result.value b
  ⟨product.value, result.overflow || product.overflow⟩

/-- The product of a list of bytes. -/
def product (factors : List UInt8) : ByteResult :=
  factors.foldl times ⟨1, false⟩

/-- `a` to the power `b`, where the power zero is 1. -/
def pow (a b : UInt8) : ByteResult :=
  product (List.replicate b.toNat a)

def factorial (a : UInt8) : ByteResult :=
  product ((List.range' 1 a.toNat).map UInt8.ofNat)

/-- The low eight bits of `a` shifted by `b` places; losing a set bit is an overflow. -/
def shiftLeft (a b : UInt8) : ByteResult :=
  if b < 8 then
    let wide := a.toUInt16 <<< b.toUInt16
    ⟨wide.toUInt8, 255 < wide⟩
  else ⟨0, a != 0⟩

/-- Every bit is shifted out by eight places or more. -/
def shiftRight (a b : UInt8) : ByteResult :=
  ⟨if b < 8 then a >>> b else 0, false⟩

end ByteResult

end InstructionCard
