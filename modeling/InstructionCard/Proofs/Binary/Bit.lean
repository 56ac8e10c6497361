import Mathlib.Algebra.BigOperators.Fin
import Mathlib.Algebra.Field.ZMod
import Mathlib.Data.Matrix.Mul
import Mathlib.Data.Nat.Bitwise
import InstructionCard.Binary.Matrix

/-!
# Cells as bits

The lowest bit of a cell lives in the field with two elements. There exclusive or is the sum, bitwise
and the product, the parity of a list its sum, and the products of `BitMatrix` are the products of
matrices. Rows of zeros and ones are equal when their bits are.
-/

set_option autoImplicit false

namespace InstructionCard

/-- The lowest bit of a cell. -/
def bit (cell : Cell) : ZMod 2 := (cell.toNat : ZMod 2)

@[simp] theorem bit_zero : bit 0 = 0 := rfl

@[simp] theorem bit_one : bit 1 = 1 := rfl

/-- Exclusive or is the sum of the bits. -/
@[simp] theorem bit_xor (a b : Cell) : bit (a ^^^ b) = bit a + bit b := by
  unfold bit
  rw [UInt8.toNat_xor, ← Nat.cast_add, ZMod.natCast_eq_natCast_iff']
  exact Nat.xor_mod_two_eq

/-- Bitwise and is their product. -/
@[simp] theorem bit_and (a b : Cell) : bit (a &&& b) = bit a * bit b := by
  unfold bit
  rw [UInt8.toNat_and, ← Nat.cast_mul, ZMod.natCast_eq_natCast_iff']
  rcases Nat.mod_two_eq_zero_or_one a.toNat with ha | ha <;>
    rcases Nat.mod_two_eq_zero_or_one b.toNat with hb | hb <;>
    simp [Nat.mul_mod, Nat.and_mod_two_pow (n := 1), ha, hb]

/-! ## Zeros and ones -/

/-- Every cell is 0 or 1. -/
def BinaryCells (cells : List Cell) : Prop :=
  ∀ cell ∈ cells, cell = 0 ∨ cell = 1

instance (cells : List Cell) : Decidable (BinaryCells cells) :=
  inferInstanceAs (Decidable (∀ cell ∈ cells, cell = 0 ∨ cell = 1))

theorem binaryCells_cons {cell : Cell} {cells : List Cell} :
    BinaryCells (cell :: cells) ↔ (cell = 0 ∨ cell = 1) ∧ BinaryCells cells :=
  List.forall_mem_cons

theorem not_one_lt_iff {cell : Cell} : ¬ 1 < cell ↔ cell = 0 ∨ cell = 1 := by
  simp only [UInt8.lt_iff_toNat_lt, ← UInt8.toNat_inj, UInt8.toNat_one, UInt8.toNat_zero]
  omega

theorem toNat_lt_two {cell : Cell} (valid : cell = 0 ∨ cell = 1) : cell.toNat < 2 := by
  rcases valid with rfl | rfl <;> decide

/-- Where not every cell is 0 or 1 there is a first cell above 1. -/
theorem exists_first_invalid {cells : List Cell} (invalid : ¬ BinaryCells cells) :
    ∃ before value after, cells = before ++ value :: after ∧ BinaryCells before ∧ 1 < value := by
  induction cells with
  | nil => exact absurd (List.forall_mem_nil _) invalid
  | cons cell cells ih =>
    by_cases large : 1 < cell
    · exact ⟨[], cell, cells, rfl, nofun, large⟩
    · have valid := not_one_lt_iff.1 large
      obtain ⟨before, value, after, rfl, binary, above⟩ :=
        ih fun rest => invalid (binaryCells_cons.2 ⟨valid, rest⟩)
      exact ⟨cell :: before, value, after, rfl, binaryCells_cons.2 ⟨valid, binary⟩, above⟩

/-- Zeros and ones are told apart by their bits. -/
theorem cell_eq_of_bit_eq {a b : Cell} (ha : a = 0 ∨ a = 1) (hb : b = 0 ∨ b = 1)
    (h : bit a = bit b) : a = b := by
  rcases ha with rfl | rfl <;> rcases hb with rfl | rfl <;> simp_all

theorem and_one_eq_zero_or_one (cell : Cell) : cell &&& 1 = 0 ∨ cell &&& 1 = 1 := by
  have h : (cell &&& 1).toNat = cell.toNat % 2 := by
    simp [UInt8.toNat_and, Nat.and_one_is_mod]
  rcases Nat.mod_two_eq_zero_or_one cell.toNat with e | e
  · exact .inl (UInt8.toNat.inj (h.trans e))
  · exact .inr (UInt8.toNat.inj (h.trans e))

theorem xor_eq_zero_or_one {a b : Cell} (ha : a = 0 ∨ a = 1) (hb : b = 0 ∨ b = 1) :
    a ^^^ b = 0 ∨ a ^^^ b = 1 := by
  rcases ha with rfl | rfl <;> rcases hb with rfl | rfl <;> decide

theorem parity_eq_zero_or_one (cells : List Cell) : parity cells = 0 ∨ parity cells = 1 := by
  induction cells with
  | nil => exact .inl rfl
  | cons cell cells ih => exact xor_eq_zero_or_one (and_one_eq_zero_or_one cell) ih

/-- The parity of a list is the sum of its bits. -/
theorem bit_parity (cells : List Cell) : bit (parity cells) = (cells.map bit).sum := by
  induction cells with
  | nil => rfl
  | cons cell cells ih => simp [ih]

/-! ## Rows -/

section Rows

variable {n : Nat}

/-- The bits of a row. -/
def bits (v : Vector Cell n) : Fin n → ZMod 2 := fun i => bit (v.get i)

theorem bits_mk (v : Vector Cell n) (i : Nat) (hi : i < n) : bits v ⟨i, hi⟩ = bit v[i] := rfl

theorem binaryCells_iff_getElem {v : Vector Cell n} :
    BinaryCells v.toList ↔ ∀ i (h : i < n), v[i] = 0 ∨ v[i] = 1 := by
  unfold BinaryCells
  simp only [Vector.mem_toList_iff]
  exact Vector.forall_mem_iff_forall_getElem

/-- Rows of zeros and ones with the same bits are equal. -/
theorem eq_of_bits_eq {v w : Vector Cell n} (hv : BinaryCells v.toList) (hw : BinaryCells w.toList)
    (h : bits v = bits w) : v = w := by
  ext i hi
  exact congrArg UInt8.toNat (cell_eq_of_bit_eq (binaryCells_iff_getElem.1 hv i hi)
    (binaryCells_iff_getElem.1 hw i hi) (congrFun h ⟨i, hi⟩))

theorem binaryCells_zeros (n : Nat) : BinaryCells (Vector.replicate n (0 : Cell)).toList := by
  rw [binaryCells_iff_getElem]
  intro i hi
  exact .inl (Vector.getElem_replicate hi)

theorem bits_zeros (n : Nat) : bits (Vector.replicate n (0 : Cell)) = 0 := by
  funext ⟨i, hi⟩
  rw [bits_mk, Vector.getElem_replicate]
  rfl

theorem bits_addRows (v w : Vector Cell n) : bits (addRows v w) = bits v + bits w := by
  funext ⟨i, hi⟩
  rw [bits_mk, getElem_addRows, bit_xor]
  rfl

theorem binaryCells_addRows {v w : Vector Cell n} (hv : BinaryCells v.toList)
    (hw : BinaryCells w.toList) : BinaryCells (addRows v w).toList := by
  rw [binaryCells_iff_getElem] at *
  intro i hi
  rw [getElem_addRows]
  exact xor_eq_zero_or_one (hv i hi) (hw i hi)

/-- The row of zeros and ones with the given bits. -/
def ofBits (v : Fin n → ZMod 2) : Vector Cell n :=
  Vector.ofFn fun i => if v i = 0 then 0 else 1

theorem binaryCells_ofBits (v : Fin n → ZMod 2) : BinaryCells (ofBits v).toList := by
  rw [binaryCells_iff_getElem]
  intro i hi
  rw [ofBits, Vector.getElem_ofFn]
  split
  · exact .inl rfl
  · exact .inr rfl

@[simp] theorem bits_ofBits (v : Fin n → ZMod 2) : bits (ofBits v) = v := by
  funext i
  rw [bits_mk, ofBits, Vector.getElem_ofFn]
  generalize v i = z
  revert z
  decide

/-- The sum of a list of rows, cell by cell. -/
def sumRows (rows : List (Vector Cell n)) : Vector Cell n :=
  rows.foldr addRows (Vector.replicate n 0)

theorem bits_sumRows (rows : List (Vector Cell n)) : bits (sumRows rows) = (rows.map bits).sum := by
  induction rows with
  | nil => exact bits_zeros n
  | cons row rows ih => rw [sumRows, List.foldr_cons, bits_addRows, ← sumRows, ih, List.map_cons, List.sum_cons]

theorem binaryCells_sumRows {rows : List (Vector Cell n)} (h : ∀ row ∈ rows, BinaryCells row.toList) :
    BinaryCells (sumRows rows).toList := by
  induction rows with
  | nil => exact binaryCells_zeros n
  | cons row rows ih =>
    obtain ⟨first, rest⟩ := List.forall_mem_cons.1 h
    exact binaryCells_addRows first (ih rest)

theorem map_bit_toList (v : Vector Cell n) : v.toList.map bit = List.ofFn (bits v) := by
  apply List.ext_getElem
  · simp
  · intro i _ _
    simp [bits_mk]

theorem bit_parity_toList (v : Vector Cell n) : bit (parity v.toList) = ∑ i, bits v i := by
  rw [bit_parity, map_bit_toList, List.sum_ofFn]

/-- The masked product of two rows is the dot product of their bits. -/
theorem bit_dot (v w : Vector Cell n) : bit (dot v.toList w.toList) = bits v ⬝ᵥ bits w := by
  have products : (v.toList.zipWith (· &&& ·) w.toList).map bit = List.ofFn fun i => bits v i * bits w i := by
    apply List.ext_getElem
    · simp
    · intro i _ _
      simp [bits_mk]
  rw [dot, bit_parity, products, List.sum_ofFn]
  rfl

end Rows

/-! ## Matrices -/

namespace BitMatrix

variable {r c : Nat}

/-- The bits of a matrix. -/
def toMatrix (M : BitMatrix r c) : Matrix (Fin r) (Fin c) (ZMod 2) := fun i => bits (M.row i)

/-- Every cell is 0 or 1. -/
def Binary (M : BitMatrix r c) : Prop :=
  ∀ i, BinaryCells (M.row i).toList

instance (M : BitMatrix r c) : Decidable M.Binary :=
  inferInstanceAs (Decidable (∀ i, BinaryCells (M.row i).toList))

/-- The matrix of zeros and ones with the given bits. -/
def ofMatrix (A : Matrix (Fin r) (Fin c) (ZMod 2)) : BitMatrix r c :=
  Vector.ofFn fun i => ofBits (A i)

theorem row_ofMatrix (A : Matrix (Fin r) (Fin c) (ZMod 2)) (i : Fin r) : (ofMatrix A).row i = ofBits (A i) := by
  rw [ofMatrix, row_eq_getElem, Fin.getElem_fin, Vector.getElem_ofFn]

theorem binary_ofMatrix (A : Matrix (Fin r) (Fin c) (ZMod 2)) : (ofMatrix A).Binary := by
  intro i
  rw [row_ofMatrix]
  exact binaryCells_ofBits (A i)

@[simp] theorem toMatrix_ofMatrix (A : Matrix (Fin r) (Fin c) (ZMod 2)) : (ofMatrix A).toMatrix = A := by
  funext i
  rw [toMatrix, row_ofMatrix, bits_ofBits]

theorem eq_of_row_eq {M N : BitMatrix r c} (h : ∀ i, M.row i = N.row i) : M = N := by
  ext i hi : 1
  exact h ⟨i, hi⟩

/-- Matrices of zeros and ones with the same bits are equal. -/
theorem eq_of_toMatrix_eq {M N : BitMatrix r c} (hM : M.Binary) (hN : N.Binary)
    (h : M.toMatrix = N.toMatrix) : M = N := by
  apply eq_of_row_eq
  intro i
  exact eq_of_bits_eq (hM i) (hN i) (congrFun h i)

theorem ofMatrix_toMatrix {M : BitMatrix r c} (h : M.Binary) : ofMatrix M.toMatrix = M :=
  eq_of_toMatrix_eq (binary_ofMatrix _) h (toMatrix_ofMatrix _)

theorem toMatrix_mk (M : BitMatrix r c) (i j : Nat) (hi : i < r) (hj : j < c) :
    M.toMatrix ⟨i, hi⟩ ⟨j, hj⟩ = bit M[i][j] := rfl

theorem toMatrix_transpose (M : BitMatrix r c) : M.transpose.toMatrix = M.toMatrix.transpose := by
  ext i j
  rw [Matrix.transpose_apply, toMatrix_mk, toMatrix_mk, getElem_transpose]

/-- On bits the product with a row is that of a matrix and a vector. -/
theorem bits_mulVec (M : BitMatrix r c) (v : Vector Cell c) : bits (M.mulVec v) = M.toMatrix.mulVec (bits v) := by
  funext i
  rw [bits_mk, getElem_mulVec, bit_dot]
  rfl

/-- The product from the left goes through the transpose. On bits it is that of a vector and a matrix. -/
theorem bits_vecMul (v : Vector Cell r) (M : BitMatrix r c) :
    bits (vecMul v M) = Matrix.vecMul (bits v) M.toMatrix := by
  rw [vecMul, bits_mulVec, toMatrix_transpose, Matrix.mulVec_transpose]

theorem binaryCells_mulVec (M : BitMatrix r c) (v : Vector Cell c) : BinaryCells (M.mulVec v).toList := by
  rw [binaryCells_iff_getElem]
  intro i hi
  rw [getElem_mulVec]
  exact parity_eq_zero_or_one _

theorem Binary.getElem {M : BitMatrix r c} (h : M.Binary) (i j : Nat) (hi : i < r) (hj : j < c) :
    M[i][j] = 0 ∨ M[i][j] = 1 :=
  binaryCells_iff_getElem.1 (h ⟨i, hi⟩) j hj

end BitMatrix

end InstructionCard
