import Mathlib.LinearAlgebra.Matrix.NonsingularInverse
import Mathlib.LinearAlgebra.Matrix.Swap
import Mathlib.LinearAlgebra.Matrix.ToLin
import Mathlib.LinearAlgebra.Matrix.Transvection
import InstructionCard.Proofs.Binary.Reduced

/-!
# Row operations

A row operation exchanges two rows or adds a row to another one. Row reduction consists of row
operations, on raw cells as well as on zeros and ones, and every one of them is undone by itself. So a
matrix has cells other than 0 and 1 exactly when its systematic form has some. On bits the matrices that
row operations lead to are the products with an invertible matrix, and these have the same row space.
-/

set_option autoImplicit false

namespace InstructionCard.BitMatrix

variable {r c : Nat}

/-- Adds row `source` to row `target`. -/
def addRow (M : BitMatrix r c) (source target : Fin r) : BitMatrix r c :=
  Vector.set M target.val (addRows (M.row target) (M.row source)) target.isLt

/-- The matrices that one row operation leads to. -/
inductive RowOperation (M : BitMatrix r c) : BitMatrix r c → Prop where
  | swap (p q : Fin r) : RowOperation M (M.swapRows p q)
  | add (source target : Fin r) (other : source ≠ target) : RowOperation M (M.addRow source target)

/-- The matrices that row operations one after the other lead to. -/
abbrev RowOperations (M N : BitMatrix r c) : Prop :=
  Relation.ReflTransGen RowOperation M N

theorem row_swapRows (M : BitMatrix r c) (p q i : Fin r) :
    (M.swapRows p q).row i = if i = p then M.row q else if i = q then M.row p else M.row i := by
  simp only [swapRows, row_eq_getElem, Fin.getElem_fin, Vector.getElem_swap, Fin.val_inj]

theorem row_addRow (M : BitMatrix r c) (source target i : Fin r) :
    (M.addRow source target).row i =
      if i = target then addRows (M.row i) (M.row source) else M.row i := by
  simp only [addRow, row_eq_getElem, Fin.getElem_fin, Vector.getElem_set, Fin.val_inj,
    eq_comm (a := target)]
  split
  · next same => rw [same]
  · rfl

/-! ## Operations are undone -/

theorem swapRows_swapRows (M : BitMatrix r c) (p q : Fin r) : (M.swapRows p q).swapRows p q = M :=
  Vector.swap_swap ..

/-- Exclusive or undoes itself, on raw cells too. -/
theorem addRows_addRows {n : Nat} (v w : Vector Cell n) : addRows (addRows v w) w = v := by
  ext i hi
  rw [getElem_addRows, getElem_addRows, UInt8.xor_assoc, UInt8.xor_self, UInt8.xor_zero]

theorem addRow_addRow (M : BitMatrix r c) {source target : Fin r} (other : source ≠ target) :
    (M.addRow source target).addRow source target = M := by
  apply eq_of_row_eq
  intro i
  rw [row_addRow, row_addRow, row_addRow, if_neg other]
  split
  · exact addRows_addRows _ _
  · rfl

/-- Every row operation is undone by itself. -/
theorem RowOperation.symm {M N : BitMatrix r c} (h : RowOperation M N) : RowOperation N M := by
  cases h with
  | swap p q =>
    have back := RowOperation.swap (M := M.swapRows p q) p q
    rwa [swapRows_swapRows] at back
  | add source target other =>
    have back := RowOperation.add (M := M.addRow source target) source target other
    rwa [addRow_addRow M other] at back

theorem RowOperations.symm {M N : BitMatrix r c} (h : RowOperations M N) : RowOperations N M := by
  induction h with
  | refl => exact .refl
  | tail _ step ih => exact .head step.symm ih

/-! ## Row reduction -/

/-- Adding one row to several others leaves the rest of the matrix alone. -/
theorem row_foldr_addRow (M : BitMatrix r c) (p : Fin r) (targets : List (Fin r))
    (distinct : targets.Nodup) (other : p ∉ targets) (i : Fin r) :
    (targets.foldr (fun target K => K.addRow p target) M).row i =
      if i ∈ targets then addRows (M.row i) (M.row p) else M.row i := by
  induction targets generalizing i with
  | nil => rw [List.foldr_nil, if_neg List.not_mem_nil]
  | cons target targets ih =>
    obtain ⟨fresh, distinct⟩ := List.nodup_cons.1 distinct
    obtain ⟨apart, other⟩ := not_or.1 (mt List.mem_cons.2 other)
    rw [List.foldr_cons, row_addRow, ih distinct other i, ih distinct other p, if_neg other]
    by_cases same : i = target
    · subst same
      rw [if_pos rfl, if_neg fresh, if_pos List.mem_cons_self]
    · simp only [same, List.mem_cons, false_or, if_false]

/-- Clearing a column adds the pivot row to the rows that hold a 1 there, one after the other. -/
theorem clearAround_eq_foldr (M : BitMatrix r c) (p : Fin r) :
    M.clearAround p = ((List.finRange r).filter fun i => i ≠ p ∧ M.isOne i p).foldr
      (fun target K => K.addRow p target) M := by
  apply eq_of_row_eq
  intro i
  rw [row_foldr_addRow M p _ ((List.nodup_finRange r).filter _) (by simp) i]
  simp [clearAround]

theorem rowOperations_clearAround (M : BitMatrix r c) (p : Fin r) : RowOperations M (M.clearAround p) := by
  rw [clearAround_eq_foldr]
  have other : ∀ target ∈ (List.finRange r).filter (fun i => i ≠ p ∧ M.isOne i p), p ≠ target := by
    intro target mem
    simp only [List.mem_filter, decide_eq_true_eq] at mem
    exact Ne.symm mem.2.1
  generalize (List.finRange r).filter (fun i => i ≠ p ∧ M.isOne i p) = targets at other
  induction targets with
  | nil => exact .refl
  | cons target targets ih =>
    obtain ⟨first, rest⟩ := List.forall_mem_cons.1 other
    exact .tail (ih rest) (.add p target first)

/-- One turn exchanges two rows and adds the pivot row to others. -/
theorem rowOperations_clearColumn {M N : BitMatrix r c} {p : Fin r} (run : M.clearColumn p = .ok N) :
    RowOperations M N := by
  unfold clearColumn at run
  split at run
  · cases run
  · next q found =>
    cases run
    exact .head (.swap p q) (rowOperations_clearAround _ p)

theorem rowOperations_clearColumns {M N : BitMatrix r c} (p : Nat) (le : p ≤ r)
    (run : M.clearColumns p le = .ok N) : RowOperations M N := by
  induction p generalizing N with
  | zero =>
    cases run
    exact .refl
  | succ p ih =>
    unfold clearColumns at run
    split at run
    · cases run
    · next K before => exact (ih _ before).trans (rowOperations_clearColumn run)

/-- Row reduction uses nothing but row operations. -/
theorem rowOperations_systematicForm {M N : BitMatrix r c} (run : M.systematicForm = .ok N) :
    RowOperations M N :=
  rowOperations_clearColumns r (Nat.le_refl r) run

/-! ## Cells other than 0 and 1 -/

theorem binary_addRow {M : BitMatrix r c} (h : M.Binary) (source target : Fin r) :
    (M.addRow source target).Binary := by
  intro i
  rw [row_addRow]
  split
  · exact binaryCells_addRows (h i) (h source)
  · exact h i

theorem RowOperations.binary {M N : BitMatrix r c} (h : RowOperations M N) (binary : M.Binary) : N.Binary := by
  induction h with
  | refl => exact binary
  | tail _ step ih =>
    cases step with
    | swap p q => exact binary_swapRows ih p q
    | add source target _ => exact binary_addRow ih source target

/-- Row operations neither make nor lose cells other than 0 and 1. -/
theorem RowOperations.binary_iff {M N : BitMatrix r c} (h : RowOperations M N) : N.Binary ↔ M.Binary :=
  ⟨h.symm.binary, h.binary⟩

/-! ## Row equivalence -/

/-- One matrix is the other one multiplied from the left by an invertible matrix. -/
def RowEquivalent (M N : BitMatrix r c) : Prop :=
  ∃ A : Matrix (Fin r) (Fin r) (ZMod 2), IsUnit A ∧ N.toMatrix = A * M.toMatrix

/-- The combinations of the rows. -/
def rowSpace (M : BitMatrix r c) : Submodule (ZMod 2) (Fin c → ZMod 2) :=
  Submodule.span (ZMod 2) (Set.range M.toMatrix.row)

theorem RowEquivalent.refl (M : BitMatrix r c) : M.RowEquivalent M :=
  ⟨1, isUnit_one, (Matrix.one_mul _).symm⟩

theorem RowEquivalent.symm {M N : BitMatrix r c} (h : M.RowEquivalent N) : N.RowEquivalent M := by
  obtain ⟨A, ⟨U, rfl⟩, product⟩ := h
  refine ⟨↑U⁻¹, Units.isUnit _, ?_⟩
  rw [product, ← Matrix.mul_assoc, Units.inv_mul, Matrix.one_mul]

theorem RowEquivalent.trans {M N K : BitMatrix r c} (h : M.RowEquivalent N) (h' : N.RowEquivalent K) :
    M.RowEquivalent K := by
  obtain ⟨A, unitA, first⟩ := h
  obtain ⟨B, unitB, second⟩ := h'
  exact ⟨B * A, unitB.mul unitA, by rw [second, first, Matrix.mul_assoc]⟩

/-- A combination of rows of the product is one of the rows of the second factor. -/
theorem RowEquivalent.rowSpace_le {M N : BitMatrix r c} (h : M.RowEquivalent N) : N.rowSpace ≤ M.rowSpace := by
  obtain ⟨A, _, product⟩ := h
  rw [rowSpace, rowSpace, ← range_vecMulLinear, ← range_vecMulLinear, product]
  rintro _ ⟨v, rfl⟩
  exact ⟨Matrix.vecMul v A, Matrix.vecMul_vecMul v A M.toMatrix⟩

theorem RowEquivalent.rowSpace_eq {M N : BitMatrix r c} (h : M.RowEquivalent N) : N.rowSpace = M.rowSpace :=
  le_antisymm h.rowSpace_le h.symm.rowSpace_le

/-- Exchanging two rows multiplies with a swap. -/
theorem toMatrix_swapRows (M : BitMatrix r c) (p q : Fin r) :
    (M.swapRows p q).toMatrix = Matrix.swap (ZMod 2) p q * M.toMatrix := by
  ext i j
  rw [toMatrix, row_swapRows]
  split
  · next same =>
    rw [same, Matrix.swap_mul_apply_left]
    rfl
  · next first =>
    split
    · next same =>
      rw [same, Matrix.swap_mul_apply_right]
      rfl
    · next second =>
      rw [Matrix.swap_mul_of_ne first second]
      rfl

/-- Adding a row to another one multiplies with a transvection. -/
theorem toMatrix_addRow (M : BitMatrix r c) (source target : Fin r) :
    (M.addRow source target).toMatrix = Matrix.transvection target source (1 : ZMod 2) * M.toMatrix := by
  ext i j
  rw [toMatrix, row_addRow]
  split
  · next same =>
    rw [bits_addRows, same, Matrix.transvection_mul_apply_same, one_mul]
    rfl
  · next different =>
    rw [Matrix.transvection_mul_apply_of_ne _ _ _ _ different]
    rfl

/-- A swap and a transvection are invertible. -/
theorem RowOperation.rowEquivalent {M N : BitMatrix r c} (h : RowOperation M N) : M.RowEquivalent N := by
  cases h with
  | swap p q =>
    exact ⟨_, IsUnit.of_mul_eq_one _ (Matrix.swap_mul_self p q), toMatrix_swapRows M p q⟩
  | add source target other =>
    refine ⟨_, ?_, toMatrix_addRow M source target⟩
    rw [Matrix.isUnit_iff_isUnit_det, Matrix.det_transvection_of_ne _ _ other.symm]
    exact isUnit_one

theorem RowOperations.rowEquivalent {M N : BitMatrix r c} (h : RowOperations M N) : M.RowEquivalent N := by
  induction h with
  | refl => exact .refl M
  | tail _ step ih => exact ih.trans step.rowEquivalent

/-! ## Every invertible matrix is a product of row operations -/

theorem zmod_two_eq_zero_or_one (z : ZMod 2) : z = 0 ∨ z = 1 := by
  revert z
  decide

/-- Over the field with two elements an invertible matrix is a product of transvections, and each of
these adds a row to another one. -/
theorem rowOperations_ofMatrix_mul {A : Matrix (Fin r) (Fin r) (ZMod 2)} (nonzero : A.det ≠ 0)
    {M : BitMatrix r c} (binary : M.Binary) : RowOperations M (ofMatrix (A * M.toMatrix)) := by
  have idle {K : BitMatrix r c} (hK : K.Binary) :
      RowOperations K (ofMatrix ((1 : Matrix (Fin r) (Fin r) (ZMod 2)) * K.toMatrix)) := by
    rw [Matrix.one_mul, ofMatrix_toMatrix hK]
  refine Matrix.diagonal_transvection_induction_of_det_ne_zero
    (fun A => ∀ {M : BitMatrix r c}, M.Binary → RowOperations M (ofMatrix (A * M.toMatrix)))
    A nonzero ?diagonal ?transvection ?product binary
  case diagonal =>
    intro D nonzero M binary
    have ones : D = fun _ => 1 := by
      funext i
      rw [Matrix.det_diagonal, Finset.prod_ne_zero_iff] at nonzero
      exact (zmod_two_eq_zero_or_one (D i)).resolve_left (nonzero i (Finset.mem_univ i))
    rw [ones, Matrix.diagonal_one]
    exact idle binary
  case transvection =>
    rintro ⟨target, source, other, factor⟩ M binary
    rw [Matrix.TransvectionStruct.toMatrix_mk]
    rcases zmod_two_eq_zero_or_one factor with rfl | rfl
    · rw [Matrix.transvection_zero]
      exact idle binary
    · rw [← toMatrix_addRow, ofMatrix_toMatrix (binary_addRow binary _ _)]
      exact .single (.add source target other.symm)
  case product =>
    intro A B _ _ ihA ihB M binary
    have second := ihA (binary_ofMatrix (B * M.toMatrix))
    rw [toMatrix_ofMatrix, ← Matrix.mul_assoc] at second
    exact (ihB binary).trans second

/-- Among matrices of zeros and ones, row equivalence is what row operations lead to. -/
theorem rowEquivalent_iff_rowOperations {M N : BitMatrix r c} (hM : M.Binary) (hN : N.Binary) :
    M.RowEquivalent N ↔ RowOperations M N := by
  constructor
  · rintro ⟨A, unit, product⟩
    have nonzero : A.det ≠ 0 := ((Matrix.isUnit_iff_isUnit_det A).1 unit).ne_zero
    have reach := rowOperations_ofMatrix_mul nonzero hM
    rwa [← product, ofMatrix_toMatrix hN] at reach
  · exact RowOperations.rowEquivalent

end InstructionCard.BitMatrix
