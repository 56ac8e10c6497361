import Mathlib.Data.Nat.Digits.Defs
import InstructionCard.Proofs.Binary.Bit

/-!
# Cells as binary digits

Zeros and ones are the binary digits of a number, most significant first, and `digits` gives them back.
-/

set_option autoImplicit false

namespace InstructionCard

/-- The number whose binary digits are the cells, most significant first. -/
def binaryNumber (cells : List Cell) : Nat :=
  Nat.ofDigits 2 (cells.reverse.map UInt8.toNat)

/-- The first cell is the highest digit. -/
theorem binaryNumber_cons (cell : Cell) (cells : List Cell) :
    binaryNumber (cell :: cells) = 2 ^ cells.length * cell.toNat + binaryNumber cells := by
  rw [binaryNumber, List.reverse_cons, List.map_append, Nat.ofDigits_append, List.length_map, List.length_reverse,
    List.map_singleton, Nat.ofDigits_singleton, Nat.add_comm, binaryNumber]

theorem binaryNumber_lt {cells : List Cell} (binary : BinaryCells cells) :
    binaryNumber cells < 2 ^ cells.length := by
  have small : ∀ digit ∈ cells.reverse.map UInt8.toNat, digit < 2 := by
    intro digit member
    obtain ⟨cell, inside, rfl⟩ := List.mem_map.1 member
    exact toNat_lt_two (binary cell (List.mem_reverse.1 inside))
  have bound := Nat.ofDigits_lt_base_pow_length (by decide) small
  rwa [List.length_map, List.length_reverse] at bound

/-- A cell is the binary digit at its place from the left. -/
theorem testBit_binaryNumber {cells : List Cell} (binary : BinaryCells cells) (i : Nat) (hi : i < cells.length) :
    (binaryNumber cells).testBit (cells.length - 1 - i) = (cells[i] == 1) := by
  induction cells generalizing i with
  | nil => exact absurd hi (Nat.not_lt_zero i)
  | cons cell cells ih =>
    obtain ⟨valid, binary⟩ := binaryCells_cons.1 binary
    -- The first cell stands above all digits of the others.
    rw [binaryNumber_cons, Nat.testBit_two_pow_mul_add _ (binaryNumber_lt binary), List.length_cons]
    cases i with
    | zero =>
      rw [if_neg (by omega)]
      simp only [Nat.add_sub_cancel, Nat.sub_zero, Nat.sub_self, List.getElem_cons_zero]
      rcases valid with rfl | rfl <;> rfl
    | succ i =>
      have inside : i < cells.length := Nat.lt_of_succ_lt_succ hi
      have place : cells.length + 1 - 1 - (i + 1) = cells.length - 1 - i := by omega
      rw [place, if_pos (by omega), ih binary i inside, List.getElem_cons_succ]

/-- The lowest digits of the number of the cells are the cells. -/
theorem toList_digits {cells : List Cell} {n : Nat} {byte : UInt8} (binary : BinaryCells cells)
    (length : cells.length = n) (value : byte.toNat = binaryNumber cells) : (digits n byte).toList = cells := by
  subst length
  apply List.ext_getElem
  · simp
  · intro i _ hi
    have valid : cells[i] = 0 ∨ cells[i] = 1 := binary _ (List.getElem_mem hi)
    simp only [Vector.getElem_toList, digits, Vector.getElem_ofFn, value, testBit_binaryNumber binary i hi]
    rcases valid with zero | one
    · rw [zero]
      rfl
    · rw [one]
      rfl

end InstructionCard
