import InstructionCard.Wire.Error

/-!
# Numbers of varying length

A 32 bit number is written seven bits at a time, lowest first. Every byte but the last has its high bit
set. Five bytes are the most, and of the fifth only the four low bits can be part of the number. Reading
accepts longer forms than writing produces. Main statement: a written number is read back whatever
follows it (`read_write`).
-/

set_option autoImplicit false

namespace InstructionCard.Varint

/-- The bytes of a number, `left + 1` at most. -/
def writeNat (n : Nat) : (left : Nat) → List UInt8
  | 0 => [UInt8.ofNat n]
  | left + 1 =>
    if n < 128 then [UInt8.ofNat n]
    else UInt8.ofNat (n % 128 + 128) :: writeNat (n / 128) left

def write (n : UInt32) : List UInt8 :=
  writeNat n.toNat 4

/-- Reads a number of at most `left + 1` bytes and gives back the rest. -/
def readNat : (left : Nat) → List UInt8 → Except WireError (Nat × List UInt8)
  | _, [] => .error .unexpectedEnd
  | 0, byte :: rest => if byte ≤ 15 then .ok (byte.toNat, rest) else .error .badVarint
  | left + 1, byte :: rest =>
    if byte < 128 then .ok (byte.toNat, rest)
    else do
      let (high, rest) ← readNat left rest
      .ok (byte.toNat - 128 + 128 * high, rest)

def read (bytes : List UInt8) : Except WireError (UInt32 × List UInt8) := do
  let (n, rest) ← readNat 4 bytes
  .ok (UInt32.ofNat n, rest)

theorem readNat_writeNat (n left : Nat) (rest : List UInt8) (h : n < 16 * Nat.pow 128 left) :
    readNat left (writeNat n left ++ rest) = .ok (n, rest) := by
  induction left generalizing n with
  | zero =>
    have hn : n < 16 := by simpa using h
    have small : UInt8.ofNat n ≤ 15 := by
      rw [UInt8.le_iff_toNat_le, UInt8.toNat_ofNat']
      show n % 256 ≤ 15
      omega
    have value : (UInt8.ofNat n).toNat = n := by
      rw [UInt8.toNat_ofNat']
      omega
    simp [writeNat, readNat, small, value]
  | succ left ih =>
    by_cases hn : n < 128
    · have small : UInt8.ofNat n < 128 := by
        rw [UInt8.lt_iff_toNat_lt, UInt8.toNat_ofNat']
        show n % 256 < 128
        omega
      have value : (UInt8.ofNat n).toNat = n := by
        rw [UInt8.toNat_ofNat']
        omega
      simp [writeNat, readNat, hn, small, value]
    · have value : (UInt8.ofNat (n % 128 + 128)).toNat = n % 128 + 128 := by
        rw [UInt8.toNat_ofNat']
        omega
      have large : ¬ UInt8.ofNat (n % 128 + 128) < 128 := by
        rw [UInt8.lt_iff_toNat_lt, value]
        show ¬ n % 128 + 128 < 128
        omega
      have high : n / 128 < 16 * Nat.pow 128 left := by
        have : Nat.pow 128 (left + 1) = Nat.pow 128 left * 128 := rfl
        omega
      simp only [writeNat, hn, if_false, List.cons_append, readNat, large, ih _ high, value]
      show Except.ok (n % 128 + 128 - 128 + 128 * (n / 128), rest) = _
      rw [show n % 128 + 128 - 128 + 128 * (n / 128) = n by omega]

theorem read_write (n : UInt32) (rest : List UInt8) : read (write n ++ rest) = .ok (n, rest) := by
  have bound : n.toNat < 16 * Nat.pow 128 4 := n.toNat_lt
  unfold read write
  rw [readNat_writeNat _ _ _ bound]
  show Except.ok (UInt32.ofNat n.toNat, rest) = _
  rw [UInt32.ofNat_toNat]

end InstructionCard.Varint
