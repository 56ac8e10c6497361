import Mathlib.InformationTheory.Hamming
import InstructionCard.Proofs.Binary.Bit

/-!
# Distance and wrong cells

The distance of two rows is the number of places where they differ. Among rows of zeros and ones, the
rows at distance 1 from a row are those with one cell flipped, the rows at distance 2 those with two.
-/

set_option autoImplicit false

namespace InstructionCard

variable {n : Nat}

/-- The number of places where two rows differ. -/
def distance {α : Type} [DecidableEq α] (v w : Vector α n) : Nat :=
  hammingDist v.get w.get

/-- The row with one cell flipped. -/
def flipCell (v : Vector Cell n) (i : Fin n) : Vector Cell n :=
  v.set i.val (v.get i ^^^ 1) i.isLt

theorem distance_eq_zero {α : Type} [DecidableEq α] {v w : Vector α n} : distance v w = 0 ↔ v = w := by
  unfold distance
  rw [hammingDist_eq_zero]
  constructor
  · intro h
    ext i hi
    exact congrFun h ⟨i, hi⟩
  · rintro rfl
    rfl

theorem getElem_flipCell (v : Vector Cell n) (i : Fin n) (j : Nat) (hj : j < n) :
    (flipCell v i)[j] = if i.val = j then v[j] ^^^ 1 else v[j] := by
  rw [flipCell, Vector.getElem_set]
  split
  · next e => subst e; rfl
  · rfl

theorem get_flipCell (v : Vector Cell n) (i j : Fin n) :
    (flipCell v i).get j = if i = j then v.get j ^^^ 1 else v.get j := by
  simp only [Fin.ext_iff]
  exact getElem_flipCell v i j j.isLt

/-- Flipping a cell adds a unit vector. -/
theorem bits_flipCell (v : Vector Cell n) (i : Fin n) : bits (flipCell v i) = bits v + Pi.single i 1 := by
  funext j
  simp only [bits, get_flipCell, Pi.add_apply, Pi.single_apply, eq_comm (a := i)]
  split <;> simp

/-- The row with a set of cells flipped. -/
def flipCells (v : Vector Cell n) (places : Finset (Fin n)) : Vector Cell n :=
  Vector.ofFn fun i => if i ∈ places then v.get i ^^^ 1 else v.get i

/-- Flipping several cells adds their unit vectors, in whatever order they are flipped. -/
theorem bits_flipCells (v : Vector Cell n) (places : Finset (Fin n)) :
    bits (flipCells v places) = bits v + ∑ i ∈ places, Pi.single i 1 := by
  funext j
  rw [bits_mk, flipCells, Vector.getElem_ofFn, Pi.add_apply, Finset.sum_apply, Finset.sum_pi_single]
  split
  · exact bit_xor _ _
  · exact (add_zero _).symm

@[simp] theorem flipCell_flipCell (v : Vector Cell n) (i : Fin n) : flipCell (flipCell v i) i = v := by
  ext j hj
  rw [getElem_flipCell, getElem_flipCell]
  split
  · rw [UInt8.xor_assoc, UInt8.xor_self, UInt8.xor_zero]
  · rfl

theorem cell_xor_one_ne (a : Cell) : a ^^^ 1 ≠ a := by
  intro h
  have zero : (1 : Cell) = 0 := by
    calc (1 : Cell) = a ^^^ (a ^^^ 1) := by rw [← UInt8.xor_assoc, UInt8.xor_self, UInt8.zero_xor]
      _ = 0 := by rw [h, UInt8.xor_self]
  exact absurd zero (by decide)

theorem binaryCells_flipCell {v : Vector Cell n} (h : BinaryCells v.toList) (i : Fin n) :
    BinaryCells (flipCell v i).toList := by
  rw [binaryCells_iff_getElem] at *
  intro j hj
  rw [getElem_flipCell]
  split
  · exact xor_eq_zero_or_one (h j hj) (.inr rfl)
  · exact h j hj

/-- Two cells that differ are each the other one flipped. -/
theorem xor_one_eq_of_ne {a b : Cell} (ha : a = 0 ∨ a = 1) (hb : b = 0 ∨ b = 1) (h : a ≠ b) :
    a ^^^ 1 = b := by
  rcases ha with rfl | rfl <;> rcases hb with rfl | rfl <;> first | rfl | exact absurd rfl h

/-- Flipping a cell that differs brings a row nearer. -/
theorem distance_flipCell {v w : Vector Cell n} (hv : BinaryCells v.toList) (hw : BinaryCells w.toList)
    (i : Fin n) (h : v.get i ≠ w.get i) : distance (flipCell v i) w + 1 = distance v w := by
  have differing : (Finset.univ.filter fun j => (flipCell v i).get j ≠ w.get j) =
      (Finset.univ.filter fun j => v.get j ≠ w.get j).erase i := by
    ext j
    simp only [Finset.mem_filter, Finset.mem_univ, true_and, Finset.mem_erase, get_flipCell]
    by_cases e : i = j
    · subst e
      have equal : v.get i ^^^ 1 = w.get i :=
        xor_one_eq_of_ne (binaryCells_iff_getElem.1 hv i i.isLt) (binaryCells_iff_getElem.1 hw i i.isLt) h
      simp [equal]
    · rw [if_neg e]
      simp [Ne.symm e]
  unfold distance hammingDist
  rw [differing]
  exact Finset.card_erase_add_one (by simpa using h)

/-- Some wrong cell can be flipped to come one step nearer. -/
theorem exists_distance_flipCell {v w : Vector Cell n} {k : Nat} (hv : BinaryCells v.toList)
    (hw : BinaryCells w.toList) (h : distance v w = k + 1) :
    ∃ i : Fin n, v.get i ≠ w.get i ∧ distance (flipCell v i) w = k := by
  have ne : v.get ≠ w.get := by
    intro same
    have zero : distance v w = 0 := hammingDist_eq_zero.2 same
    omega
  obtain ⟨i, hi⟩ := Function.ne_iff.1 ne
  have nearer := distance_flipCell hv hw i hi
  exact ⟨i, hi, by omega⟩

theorem distance_self_flipCell {v : Vector Cell n} (hv : BinaryCells v.toList) (i : Fin n) :
    distance v (flipCell v i) = 1 := by
  have differs : v.get i ≠ (flipCell v i).get i := by
    rw [get_flipCell, if_pos rfl]
    exact (cell_xor_one_ne _).symm
  rw [← distance_flipCell hv (binaryCells_flipCell hv i) i differs, distance_eq_zero.2 rfl]

/-- The rows next to a row are those with one cell flipped. -/
theorem distance_eq_one_iff {v w : Vector Cell n} (hv : BinaryCells v.toList) (hw : BinaryCells w.toList) :
    distance v w = 1 ↔ ∃ i, flipCell v i = w := by
  constructor
  · intro h
    obtain ⟨i, _, same⟩ := exists_distance_flipCell hv hw h
    exact ⟨i, distance_eq_zero.1 same⟩
  · rintro ⟨i, rfl⟩
    exact distance_self_flipCell hv i

/-- Two steps away means two different cells flipped. -/
theorem exists_flipCell_of_distance_eq_two {v w : Vector Cell n} (hv : BinaryCells v.toList)
    (hw : BinaryCells w.toList) (h : distance v w = 2) :
    ∃ i j, i ≠ j ∧ flipCell (flipCell v i) j = w := by
  obtain ⟨i, _, one⟩ := exists_distance_flipCell hv hw h
  obtain ⟨j, _, same⟩ := exists_distance_flipCell (binaryCells_flipCell hv i) hw one
  refine ⟨i, j, ?_, distance_eq_zero.1 same⟩
  rintro rfl
  rw [flipCell_flipCell] at same
  omega

end InstructionCard
