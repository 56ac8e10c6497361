import InstructionCard.Proofs.Binary.RowOperation

/-!
# What row reduction decides

Row operations keep which columns are combinations of the columns before them. Once the first columns are
those of the identity none of these is, and a column without a pivot is. So row reduction stops at the
first column that depends on the ones before it, and goes through exactly when the left block is
invertible. Its result is the only matrix with the identity as left block among all that are row
equivalent to the given one.
-/

set_option autoImplicit false

namespace InstructionCard.BitMatrix

variable {r c : Nat}

/-- A column that is a combination of the columns before it. -/
def DependentColumn (M : BitMatrix r c) (p : Nat) : Prop :=
  ∃ h : p < c, M.toMatrix.col ⟨p, h⟩ ∈ Submodule.span (ZMod 2) (M.toMatrix.col '' {j | j.val < p})

/-- The square block of the first columns. -/
def leftBlock (M : BitMatrix r c) (wide : r ≤ c) : Matrix (Fin r) (Fin r) (ZMod 2) :=
  M.toMatrix.submatrix id (Fin.castLE wide)

/-! ## What row operations keep -/

/-- A combination of columns stays one when the matrix is multiplied from the left. -/
theorem RowEquivalent.dependentColumn {M N : BitMatrix r c} (h : M.RowEquivalent N) {p : Nat}
    (dependent : M.DependentColumn p) : N.DependentColumn p := by
  obtain ⟨A, _, product⟩ := h
  obtain ⟨inside, combination⟩ := dependent
  have column (j : Fin c) : A.mulVecLin (M.toMatrix.col j) = N.toMatrix.col j := by
    rw [product]
    rfl
  have image := Submodule.mem_map_of_mem (f := A.mulVecLin) combination
  rw [Submodule.map_span, Set.image_image] at image
  simp only [column] at image
  exact ⟨inside, image⟩

theorem RowEquivalent.dependentColumn_iff {M N : BitMatrix r c} (h : M.RowEquivalent N) {p : Nat} :
    N.DependentColumn p ↔ M.DependentColumn p :=
  ⟨h.symm.dependentColumn, h.dependentColumn⟩

/-- What multiplies the matrix multiplies its left block. -/
theorem RowEquivalent.exists_leftBlock_eq {M N : BitMatrix r c} (h : M.RowEquivalent N) (wide : r ≤ c) :
    ∃ A : Matrix (Fin r) (Fin r) (ZMod 2), IsUnit A ∧ N.toMatrix = A * M.toMatrix ∧
      N.leftBlock wide = A * M.leftBlock wide := by
  obtain ⟨A, unit, product⟩ := h
  refine ⟨A, unit, product, ?_⟩
  rw [leftBlock, product]
  rfl

theorem RowEquivalent.isUnit_leftBlock {M N : BitMatrix r c} (h : M.RowEquivalent N) (wide : r ≤ c)
    (unit : IsUnit (M.leftBlock wide)) : IsUnit (N.leftBlock wide) := by
  obtain ⟨A, unitA, _, block⟩ := h.exists_leftBlock_eq wide
  rw [block]
  exact unitA.mul unit

/-! ## Columns of a reduced matrix -/

theorem Reduced.toMatrix_eq {M : BitMatrix r c} {p : Nat} (h : M.Reduced p) (i : Fin r) (j : Fin c)
    (less : j.val < p) : M.toMatrix i j = if i.val = j.val then 1 else 0 := by
  rw [toMatrix_mk, h.unit i j i.isLt j.isLt less]
  split <;> rfl

/-- A matrix that is reduced throughout starts with the identity. -/
theorem Reduced.leftBlock_eq_one {M : BitMatrix r c} (h : M.Reduced r) (wide : r ≤ c) :
    M.leftBlock wide = 1 := by
  ext i j
  rw [leftBlock, Matrix.submatrix_apply, h.toMatrix_eq _ _ j.isLt, Matrix.one_apply]
  simp only [id, Fin.val_castLE, Fin.val_inj]

/-- The columns before a reduced one are zero where it is 1. -/
theorem Reduced.not_dependentColumn {M : BitMatrix r c} {p : Nat} (h : M.Reduced p) (le : p ≤ r) {j : Nat}
    (less : j < p) : ¬ M.DependentColumn j := by
  rintro ⟨inside, combination⟩
  let i : Fin r := ⟨j, by omega⟩
  have zero : Submodule.span (ZMod 2) (M.toMatrix.col '' {k | k.val < j}) ≤
      LinearMap.ker (LinearMap.proj i : (Fin r → ZMod 2) →ₗ[ZMod 2] ZMod 2) := by
    rw [Submodule.span_le]
    rintro _ ⟨k, before, rfl⟩
    have before : k.val < j := before
    have entry := h.toMatrix_eq i k (before.trans less)
    rwa [if_neg (Nat.ne_of_gt before)] at entry
  have one := h.toMatrix_eq i ⟨j, inside⟩ less
  rw [if_pos rfl] at one
  have vanishes : M.toMatrix i ⟨j, inside⟩ = 0 := zero combination
  exact absurd (one.symm.trans vanishes) one_ne_zero

/-- Without a pivot there is no 1 in the column from the row on. -/
theorem pivotRow?_eq_none {M : BitMatrix r c} {p : Fin r} (h : M.pivotRow? p = none) (i : Fin r)
    (le : p ≤ i) : M.isOne i p = false := by
  have fails := List.find?_eq_none.1 h i (List.mem_finRange i)
  simpa [le] using fails

/-- A reduced column is a unit vector. -/
theorem Reduced.col_eq_single {M : BitMatrix r c} {p : Nat} (h : M.Reduced p) (le : p ≤ r) (j : Fin c)
    (less : j.val < p) : M.toMatrix.col j = Pi.single ⟨j, by omega⟩ 1 := by
  funext i
  rw [Matrix.col_apply, h.toMatrix_eq i j less, Pi.single_apply]
  simp only [Fin.ext_iff]

/-- Without a pivot a column of zeros and ones is zero from the row on. -/
theorem toMatrix_eq_zero_of_pivotRow? {M : BitMatrix r c} (binary : M.Binary) {p : Fin r}
    (none : M.pivotRow? p = none) (inside : p.val < c) (i : Fin r) (le : p ≤ i) :
    M.toMatrix i ⟨p, inside⟩ = 0 := by
  have fails := pivotRow?_eq_none none i le
  rw [toMatrix_mk]
  rcases binary.getElem i p i.isLt inside with cell | cell
  · rw [cell, bit_zero]
  · rw [isOne_iff.2 ⟨inside, cell⟩] at fails
    cases fails

/-- A column without a pivot is zero from its row on, and so a combination of the reduced columns. -/
theorem Reduced.eq_or_dependentColumn {M : BitMatrix r c} {p : Fin r} (h : M.Reduced p)
    (none : M.pivotRow? p = none) : p.val = c ∨ M.DependentColumn p := by
  rcases h.width.eq_or_lt with last | inside
  · exact .inl last
  refine .inr ⟨inside, ?_⟩
  have entries : M.toMatrix.col ⟨p, inside⟩ =
      ∑ i : Fin r, M.toMatrix i ⟨p, inside⟩ • (Pi.single i 1 : Fin r → ZMod 2) := by
    rw [← pi_eq_sum_univ']
    rfl
  rw [entries]
  refine Submodule.sum_mem _ fun i _ => ?_
  rcases lt_or_ge i p with less | le
  · have less : i.val < p := less
    apply Submodule.smul_mem
    exact Submodule.subset_span ⟨⟨i, by omega⟩, less, h.col_eq_single p.isLt.le _ less⟩
  · rw [toMatrix_eq_zero_of_pivotRow? h.binary none inside i le, zero_smul]
    exact Submodule.zero_mem _

/-! ## Success and failure -/

/-- Where row reduction stops, the columns before are cleared and there is no pivot. -/
theorem exists_of_clearColumns_eq_error {M : BitMatrix r c} {e : Singular} (p : Nat) (le : p ≤ r)
    (stop : M.clearColumns p le = .error e) :
    ∃ (q : Fin r) (K : BitMatrix r c), M.clearColumns q q.isLt.le = .ok K ∧ K.pivotRow? q = none ∧
      e.column = q := by
  induction p with
  | zero => cases stop
  | succ p ih =>
    unfold clearColumns at stop
    split at stop
    · next before =>
      cases stop
      exact ih _ before
    · next K before =>
      unfold clearColumn at stop
      split at stop
      · next none =>
        cases stop
        exact ⟨⟨p, le⟩, K, before, none, rfl⟩
      · cases stop

/-- Row reduction stops at the first column that is missing or depends on the columns before it. -/
theorem isLeast_of_systematicForm_eq_error {M : BitMatrix r c} (binary : M.Binary) {e : Singular}
    (stop : M.systematicForm = .error e) :
    e.column < r ∧ IsLeast {p | p = c ∨ M.DependentColumn p} e.column := by
  obtain ⟨q, K, run, none, column⟩ := exists_of_clearColumns_eq_error r (Nat.le_refl r) stop
  have reduced := reduced_clearColumns binary q q.isLt.le run
  have equivalent := (rowOperations_clearColumns q q.isLt.le run).rowEquivalent
  rw [column]
  refine ⟨q.isLt, ?_, ?_⟩
  · exact (reduced.eq_or_dependentColumn none).imp_right equivalent.dependentColumn_iff.1
  · rintro j (rfl | dependent)
    · exact reduced.width
    · by_contra less
      exact reduced.not_dependentColumn q.isLt.le (not_le.1 less) (equivalent.dependentColumn dependent)

/-- No column of an invertible left block depends on those before it. -/
theorem not_dependentColumn_of_isUnit {M : BitMatrix r c} (wide : r ≤ c) (unit : IsUnit (M.leftBlock wide))
    {p : Nat} (less : p < r) : ¬ M.DependentColumn p := by
  rintro ⟨inside, combination⟩
  have before : M.toMatrix.col '' {j | j.val < p} = (M.leftBlock wide).col '' {j | j.val < p} := by
    ext v
    constructor
    · rintro ⟨j, small, rfl⟩
      have small : j.val < p := small
      exact ⟨⟨j, small.trans less⟩, small, rfl⟩
    · rintro ⟨j, small, rfl⟩
      exact ⟨Fin.castLE wide j, small, rfl⟩
  have independent := Matrix.linearIndependent_cols_of_isUnit unit
  rw [before] at combination
  refine independent.notMem_span_image (x := ⟨p, less⟩) ?_ combination
  exact fun small => Nat.lt_irrefl p small

/-- Row reduction goes through exactly for an invertible left block. -/
theorem exists_systematicForm_iff {M : BitMatrix r c} (binary : M.Binary) :
    (∃ N, M.systematicForm = .ok N) ↔ ∃ wide : r ≤ c, IsUnit (M.leftBlock wide) := by
  constructor
  · rintro ⟨N, run⟩
    have reduced := reduced_systematicForm binary run
    have equivalent := (rowOperations_systematicForm run).rowEquivalent
    refine ⟨reduced.width, equivalent.symm.isUnit_leftBlock reduced.width ?_⟩
    rw [reduced.leftBlock_eq_one]
    exact isUnit_one
  · rintro ⟨wide, unit⟩
    cases run : M.systematicForm with
    | ok N => exact ⟨N, rfl⟩
    | error e =>
      obtain ⟨less, missing | dependent, _⟩ := isLeast_of_systematicForm_eq_error binary run
      · omega
      · exact absurd dependent (not_dependentColumn_of_isUnit wide unit less)

/-! ## Uniqueness -/

/-- A class has one reduced matrix: what leads from one to another multiplies the identity to the identity. -/
theorem Reduced.eq_of_rowEquivalent {M N : BitMatrix r c} (hM : M.Reduced r) (hN : N.Reduced r)
    (h : M.RowEquivalent N) : M = N := by
  obtain ⟨A, _, product, block⟩ := h.exists_leftBlock_eq hM.width
  rw [hM.leftBlock_eq_one, hN.leftBlock_eq_one, Matrix.mul_one] at block
  rw [← block, Matrix.one_mul] at product
  exact eq_of_toMatrix_eq hM.binary hN.binary product.symm

/-- The systematic form is the row equivalent matrix whose left block is the identity. -/
theorem systematicForm_eq_ok_iff {M N : BitMatrix r c} (binary : M.Binary) :
    M.systematicForm = .ok N ↔ N.Reduced r ∧ M.RowEquivalent N := by
  constructor
  · intro run
    exact ⟨reduced_systematicForm binary run, (rowOperations_systematicForm run).rowEquivalent⟩
  · rintro ⟨reduced, equivalent⟩
    have unit : IsUnit (M.leftBlock reduced.width) := by
      apply equivalent.symm.isUnit_leftBlock
      rw [reduced.leftBlock_eq_one]
      exact isUnit_one
    obtain ⟨K, run⟩ := (exists_systematicForm_iff binary).2 ⟨_, unit⟩
    have reach := (rowOperations_systematicForm run).rowEquivalent
    rw [run, (reduced_systematicForm binary run).eq_of_rowEquivalent reduced (reach.symm.trans equivalent)]

/-- Row equivalent matrices have one systematic form, or stop at one column. -/
theorem RowEquivalent.systematicForm_eq {M N : BitMatrix r c} (h : M.RowEquivalent N) (hM : M.Binary)
    (hN : N.Binary) : M.systematicForm = N.systematicForm := by
  cases run : M.systematicForm with
  | ok K =>
    obtain ⟨reduced, equivalent⟩ := (systematicForm_eq_ok_iff hM).1 run
    exact ((systematicForm_eq_ok_iff hN).2 ⟨reduced, h.symm.trans equivalent⟩).symm
  | error e =>
    cases run' : N.systematicForm with
    | ok K =>
      obtain ⟨reduced, equivalent⟩ := (systematicForm_eq_ok_iff hN).1 run'
      rw [(systematicForm_eq_ok_iff hM).2 ⟨reduced, h.trans equivalent⟩] at run
      cases run
    | error e' =>
      obtain ⟨_, least⟩ := isLeast_of_systematicForm_eq_error hM run
      obtain ⟨_, least'⟩ := isLeast_of_systematicForm_eq_error hN run'
      simp only [h.dependentColumn_iff] at least'
      have column : e.column = e'.column := least.unique least'
      exact congrArg (fun p => Except.error (Singular.mk p)) column

/-! ## Gauss-Jordan elimination -/

/-- **Row reduction of zeros and ones**, for every shape. A result has no fewer columns than rows, consists
of zeros and ones, starts with the identity and is row equivalent to the given matrix; there is one exactly
for an invertible left block; and failure names the first column that is missing or depends on the columns
before it. -/
theorem systematicForm_gaussJordan {M : BitMatrix r c} (binary : M.Binary) :
    (∀ N, M.systematicForm = .ok N → N.Reduced r ∧ M.RowEquivalent N ∧ N.rowSpace = M.rowSpace) ∧
      ((∃ N, M.systematicForm = .ok N) ↔ ∃ wide : r ≤ c, IsUnit (M.leftBlock wide)) ∧
      ∀ e, M.systematicForm = .error e → IsLeast {p | p = c ∨ M.DependentColumn p} e.column := by
  refine ⟨?_, exists_systematicForm_iff binary, ?_⟩
  · intro N run
    obtain ⟨reduced, equivalent⟩ := (systematicForm_eq_ok_iff binary).1 run
    exact ⟨reduced, equivalent, equivalent.rowSpace_eq⟩
  · intro e stop
    exact (isLeast_of_systematicForm_eq_error binary stop).2

/-- Two rows that have to be exchanged are reduced; three rows of two columns cannot be. -/
theorem systematicForm_gaussJordan_exchanged_and_tall :
    (ofLists 2 3 [[0, 1, 1], [1, 1, 0]]).Binary ∧
      (ofLists 2 3 [[1, 0, 1], [0, 1, 1]]).Reduced 2 ∧
      (ofLists 2 3 [[0, 1, 1], [1, 1, 0]]).RowEquivalent (ofLists 2 3 [[1, 0, 1], [0, 1, 1]]) ∧
      (ofLists 3 2 [[1, 0], [1, 1], [0, 1]]).Binary ∧
      IsLeast {p | p = 2 ∨ (ofLists 3 2 [[1, 0], [1, 1], [0, 1]]).DependentColumn p} 2 := by
  have exchanged : (ofLists 2 3 [[0, 1, 1], [1, 1, 0]]).Binary := by decide +kernel
  have tall : (ofLists 3 2 [[1, 0], [1, 1], [0, 1]]).Binary := by decide +kernel
  have run : (ofLists 2 3 [[0, 1, 1], [1, 1, 0]]).systematicForm =
      .ok (ofLists 2 3 [[1, 0, 1], [0, 1, 1]]) := by decide +kernel
  have stop : (ofLists 3 2 [[1, 0], [1, 1], [0, 1]]).systematicForm = .error ⟨2⟩ := by decide +kernel
  obtain ⟨reduced, equivalent, _⟩ := (systematicForm_gaussJordan exchanged).1 _ run
  exact ⟨exchanged, reduced, equivalent, tall, (systematicForm_gaussJordan tall).2.2 _ stop⟩

end InstructionCard.BitMatrix
