import InstructionCard.Binary.Systematic
import InstructionCard.Proofs.Binary.Bit

/-!
# The cells of the systematic form

`Reduced M p` says that the first `p` columns of a matrix of zeros and ones are those of the identity.
Clearing one more column keeps that and gains the column, so the systematic form of zeros and ones has
the identity as its left block.
-/

set_option autoImplicit false

namespace InstructionCard.BitMatrix

variable {r c : Nat}

/-- A matrix of zeros and ones whose first `p` columns are those of the identity. -/
structure Reduced (M : BitMatrix r c) (p : Nat) : Prop where
  binary : M.Binary
  width : p ≤ c
  unit : ∀ (i j : Nat) (hi : i < r) (hj : j < c), j < p → M[i][j] = if i = j then 1 else 0

theorem isOne_iff {M : BitMatrix r c} {i : Fin r} {j : Nat} :
    M.isOne i j = true ↔ ∃ h : j < c, M[i.val][j] = 1 := by
  simp [isOne, Vector.getElem?_eq_some_iff]

/-- The pivot is not above its row and has a 1. -/
theorem pivotRow?_eq_some {M : BitMatrix r c} {p i : Fin r} (h : M.pivotRow? p = some i) :
    p ≤ i ∧ M.isOne i p = true := by
  simpa using List.find?_some h

theorem getElem_swapRows (M : BitMatrix r c) (p q : Fin r) (i j : Nat) (hi : i < r) (hj : j < c) :
    (M.swapRows p q)[i][j] =
      if i = p then M[q.val][j] else if i = q then M[p.val][j] else M[i][j] := by
  unfold swapRows
  rw [Vector.getElem_swap]
  split
  · rfl
  · split <;> rfl

theorem binary_clearAround {M : BitMatrix r c} (h : M.Binary) (p : Fin r) : (M.clearAround p).Binary := by
  intro i
  simp only [clearAround, row_eq_getElem, Fin.getElem_fin, Vector.getElem_ofFn]
  split
  · exact binaryCells_addRows (h i) (h p)
  · exact h i

theorem binary_swapRows {M : BitMatrix r c} (h : M.Binary) (p q : Fin r) : (M.swapRows p q).Binary := by
  intro i
  rw [binaryCells_iff_getElem]
  intro j hj
  simp only [row_eq_getElem, Fin.getElem_fin, getElem_swapRows]
  split
  · exact h.getElem _ _ _ _
  · split <;> exact h.getElem _ _ _ _

/-- Exchanging rows past the reduced columns leaves these as they are. -/
theorem Reduced.swapRows {M : BitMatrix r c} {p q : Fin r} (h : M.Reduced p) (le : p ≤ q) :
    (M.swapRows p q).Reduced p := by
  refine ⟨binary_swapRows h.binary p q, h.width, ?_⟩
  intro i j hi hj hp
  have below : j < q.val := by
    have : p.val ≤ q.val := le
    omega
  rw [getElem_swapRows]
  split
  · rw [h.unit _ _ _ hj hp, if_neg (by omega), if_neg (by omega)]
  · split
    · rw [h.unit _ _ _ hj hp, if_neg (by omega), if_neg (by omega)]
    · exact h.unit i j hi hj hp

/-- With a pivot on the diagonal, clearing the column around it gains the column. -/
theorem Reduced.clearAround {M : BitMatrix r c} {p : Fin r} (h : M.Reduced p) (pivot : M.isOne p p = true) :
    (M.clearAround p).Reduced (p + 1) := by
  obtain ⟨width, one⟩ := isOne_iff.1 pivot
  refine ⟨binary_clearAround h.binary p, width, ?_⟩
  intro i j hi hj hp
  simp only [BitMatrix.clearAround, Vector.getElem_ofFn, Fin.ext_iff, ne_eq, row_eq_getElem,
    Fin.getElem_fin]
  rcases Nat.lt_or_ge j p with less | ge
  · -- Row `p` is zero in a column that is reduced already.
    have zero : M[p.val][j] = 0 := by rw [h.unit _ _ p.isLt hj less, if_neg (by omega)]
    split
    · rw [getElem_addRows, zero, h.unit i j hi hj less, UInt8.xor_zero]
    · exact h.unit i j hi hj less
  · obtain rfl : j = p := by omega
    split
    · next add =>
      obtain ⟨_, own⟩ := isOne_iff.1 add.2
      simp only at own
      rw [getElem_addRows, one, own, if_neg add.1, UInt8.xor_self]
    · next keep =>
      by_cases e : i = p
      · subst e
        rw [if_pos rfl, one]
      · rw [if_neg e]
        rcases h.binary.getElem i p hi hj with zero | own
        · exact zero
        · exact absurd ⟨e, isOne_iff.2 ⟨hj, own⟩⟩ keep

/-- One turn of the reduction reduces one column more. -/
theorem Reduced.clearColumn {M N : BitMatrix r c} {p : Fin r} (h : M.Reduced p)
    (run : M.clearColumn p = .ok N) : N.Reduced (p + 1) := by
  unfold BitMatrix.clearColumn at run
  split at run
  · cases run
  · next q found =>
    obtain ⟨le, one⟩ := pivotRow?_eq_some found
    obtain ⟨width, one⟩ := isOne_iff.1 one
    cases run
    refine (h.swapRows le).clearAround (isOne_iff.2 ⟨width, ?_⟩)
    rw [getElem_swapRows, if_pos rfl, one]

/-- After `p` turns the first `p` columns are reduced. -/
theorem reduced_clearColumns {M N : BitMatrix r c} (binary : M.Binary) (p : Nat) (le : p ≤ r)
    (run : M.clearColumns p le = .ok N) : N.Reduced p := by
  induction p generalizing N with
  | zero =>
    cases run
    exact ⟨binary, Nat.zero_le c, fun _ _ _ _ none => absurd none (Nat.not_lt_zero _)⟩
  | succ p ih =>
    unfold clearColumns at run
    split at run
    · cases run
    · next K before => exact Reduced.clearColumn (ih _ before) run

/-- The systematic form of zeros and ones consists of zeros and ones and starts with the identity. -/
theorem reduced_systematicForm {M N : BitMatrix r c} (binary : M.Binary) (h : M.systematicForm = .ok N) :
    N.Reduced r :=
  reduced_clearColumns binary r (Nat.le_refl r) h

end InstructionCard.BitMatrix
