import InstructionCard.Proofs.Binary.Bit

/-!
# Products of raw cells

Products look at the lowest bit of each cell, columns and rows are handed on as they are. So a product is the
sum of the columns, or of the rows, that the odd cells of the vector choose, each masked to its lowest bits.
For cells of any value products are adjoint and additive. Main result: `BitMatrix.products_rawCells`.
-/

set_option autoImplicit false

namespace InstructionCard

section Rows

variable {n : Nat}

/-- The places of the odd cells, from left to right. -/
def oddPlaces (v : Vector Cell n) : List (Fin n) :=
  (List.finRange n).filter fun i => Odd (v.get i).toNat

/-- Every cell masked to its lowest bit. -/
def lowestBits (v : Vector Cell n) : Vector Cell n :=
  v.map (· &&& 1)

/-- The bit of a cell tells whether the cell is odd. -/
theorem bit_eq_ite (cell : Cell) : bit cell = if Odd cell.toNat then 1 else 0 := by
  split
  · next odd => exact ZMod.natCast_eq_one_iff_odd.2 odd
  · next even => exact ZMod.natCast_eq_zero_iff_even.2 (Nat.not_odd_iff_even.1 even)

/-- A sum over the odd places is a sum weighted by the bits. -/
theorem sum_map_oddPlaces {c : Nat} (v : Vector Cell n) (f : Fin n → Fin c → ZMod 2) :
    ((oddPlaces v).map f).sum = ∑ i, bits v i • f i := by
  have distinct : (oddPlaces v).Nodup := (List.nodup_finRange n).filter _
  have places : (oddPlaces v).toFinset = Finset.univ.filter fun i => Odd (v.get i).toNat := by
    ext i
    simp [oddPlaces]
  rw [← List.sum_toFinset _ distinct, places, Finset.sum_filter]
  apply Finset.sum_congr rfl
  intro i _
  rw [bits, bit_eq_ite, ite_smul, one_smul, zero_smul]

theorem binaryCells_lowestBits (v : Vector Cell n) : BinaryCells (lowestBits v).toList := by
  rw [binaryCells_iff_getElem]
  intro i hi
  rw [lowestBits, Vector.getElem_map]
  exact and_one_eq_zero_or_one _

theorem bits_lowestBits (v : Vector Cell n) : bits (lowestBits v) = bits v := by
  funext i
  rw [bits_mk, bits_mk, lowestBits, Vector.getElem_map, bit_and, bit_one, mul_one]

theorem lowestBits_of_binary {v : Vector Cell n} (binary : BinaryCells v.toList) : lowestBits v = v :=
  eq_of_bits_eq (binaryCells_lowestBits v) binary (bits_lowestBits v)

end Rows

namespace BitMatrix

variable {r c : Nat}

/-- The rows at some places. -/
def rowsAt (M : BitMatrix r c) (places : List (Fin r)) : List (Vector Cell c) :=
  places.map M.row

/-- The columns at some places. -/
def columnsAt (M : BitMatrix r c) (places : List (Fin c)) : List (Vector Cell r) :=
  places.filterMap fun j : Fin c => M.column? j

theorem columnsAt_eq_rowsAt (M : BitMatrix r c) (places : List (Fin c)) :
    M.columnsAt places = M.transpose.rowsAt places := by
  simp only [columnsAt, rowsAt, column?_eq_some, List.filterMap_eq_map']

/-- Masking the rows before they are summed does not change the bits of the sum. -/
theorem bits_sumRows_lowestBits (M : BitMatrix r c) (places : List (Fin r)) :
    bits (sumRows ((M.rowsAt places).map lowestBits)) = (places.map M.toMatrix).sum := by
  rw [bits_sumRows, rowsAt, List.map_map, List.map_map]
  congr 2
  funext i
  exact bits_lowestBits (M.row i)

/-- A vector times a matrix is the sum of the rows at its odd cells. -/
theorem vecMul_eq_sumRows (v : Vector Cell r) (M : BitMatrix r c) :
    vecMul v M = sumRows ((M.rowsAt (oddPlaces v)).map lowestBits) := by
  have masked : ∀ row ∈ (M.rowsAt (oddPlaces v)).map lowestBits, BinaryCells row.toList := by
    intro row member
    obtain ⟨raw, _, rfl⟩ := List.mem_map.1 member
    exact binaryCells_lowestBits raw
  apply eq_of_bits_eq (binaryCells_mulVec _ _) (binaryCells_sumRows masked)
  calc bits (vecMul v M) = Matrix.vecMul (bits v) M.toMatrix := bits_vecMul v M
    _ = ∑ i, bits v i • M.toMatrix i := Matrix.vecMul_eq_sum _ _
    _ = ((oddPlaces v).map M.toMatrix).sum := (sum_map_oddPlaces v M.toMatrix).symm
    _ = bits (sumRows ((M.rowsAt (oddPlaces v)).map lowestBits)) := (bits_sumRows_lowestBits M _).symm

/-- A matrix times a vector is the sum of the columns at its odd cells. -/
theorem mulVec_eq_sumRows (M : BitMatrix r c) (w : Vector Cell c) :
    M.mulVec w = sumRows ((M.columnsAt (oddPlaces w)).map lowestBits) := by
  rw [columnsAt_eq_rowsAt, ← vecMul_eq_sumRows, vecMul, transpose_transpose]

/-- Moving a matrix across a product transposes it. -/
theorem dot_vecMul (M : BitMatrix r c) (v : Vector Cell r) (w : Vector Cell c) :
    dot (vecMul v M).toList w.toList = dot v.toList (M.mulVec w).toList := by
  have same : bit (dot (vecMul v M).toList w.toList) = bit (dot v.toList (M.mulVec w).toList) := by
    rw [bit_dot, bit_dot, bits_vecMul, bits_mulVec, Matrix.dotProduct_mulVec]
  exact cell_eq_of_bit_eq (parity_eq_zero_or_one _) (parity_eq_zero_or_one _) same

/-- The product is additive on raw cells, as both sides are zeros and ones with the same bits. -/
theorem mulVec_addRows (M : BitMatrix r c) (w w' : Vector Cell c) :
    M.mulVec (addRows w w') = addRows (M.mulVec w) (M.mulVec w') := by
  apply eq_of_bits_eq (binaryCells_mulVec _ _)
    (binaryCells_addRows (binaryCells_mulVec _ _) (binaryCells_mulVec _ _))
  rw [bits_mulVec, bits_addRows, bits_addRows, bits_mulVec, bits_mulVec, Matrix.mulVec_add]

/-- **The laws of products**, for every shape and for cells of any value. A matrix moves across a dot product,
multiplying by it is additive and gives zeros and ones, and the product is the sum of the masked columns at the
odd cells. -/
theorem products_rawCells (M : BitMatrix r c) (v : Vector Cell r) (w w' : Vector Cell c) :
    dot (vecMul v M).toList w.toList = dot v.toList (M.mulVec w).toList ∧
    M.mulVec (addRows w w') = addRows (M.mulVec w) (M.mulVec w') ∧
    (∀ u : Vector Cell c, BinaryCells (M.mulVec u).toList) ∧
    M.mulVec w = sumRows ((M.columnsAt (oddPlaces w)).map lowestBits) :=
  ⟨M.dot_vecMul v w, M.mulVec_addRows w w', M.binaryCells_mulVec, M.mulVec_eq_sumRows w⟩

/-- An even cell counts as zero, an odd one as one. -/
example : (ofLists 2 3 [[2, 3, 1], [5, 7, 1]]).mulVec #v[3, 255, 2] = #v[1, 0] := by decide +kernel

end BitMatrix

end InstructionCard
