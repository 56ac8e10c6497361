import InstructionCard.Binary.Matrix

/-!
# Systematic form

Row reduction of a matrix with `r` rows until its left `r` by `r` block is the identity. Only swaps and
additions of rows are used, so the rows still span the same space. A pivot is a cell equal to 1 on or
below the diagonal; a column without one, or past the last column, makes the matrix singular there. A
cell that is neither 0 nor 1 is no pivot, and it is added like any other but never cleared.
-/

set_option autoImplicit false

namespace InstructionCard

/-- No pivot was found for a column. -/
structure Singular where
  column : Nat
deriving DecidableEq, Repr

def Singular.message (e : Singular) : String :=
  s!"no pivot for column {e.column}, the left block is singular"

namespace BitMatrix

variable {r c : Nat}

/-- Whether row `i` holds a 1 in column `j`; never past the last column. -/
def isOne (M : BitMatrix r c) (i : Fin r) (j : Nat) : Bool :=
  (M.row i)[j]? == some 1

/-- The first row from `p` on that can serve as the pivot of column `p`. -/
def pivotRow? (M : BitMatrix r c) (p : Fin r) : Option (Fin r) :=
  (List.finRange r).find? fun i => p ≤ i && M.isOne i p

/-- Adds row `p` to every other row that holds a 1 in column `p`. -/
def clearAround (M : BitMatrix r c) (p : Fin r) : BitMatrix r c :=
  Vector.ofFn fun i => if i ≠ p ∧ M.isOne i p then addRows (M.row i) (M.row p) else M.row i

/-- Brings a pivot to the diagonal of column `p` and clears the column around it. -/
def clearColumn (M : BitMatrix r c) (p : Fin r) : Except Singular (BitMatrix r c) :=
  match M.pivotRow? p with
  | none => .error ⟨p⟩
  | some i => .ok ((M.swapRows p i).clearAround p)

/-- The matrix after its first `p` columns are cleared, from left to right. -/
def clearColumns (M : BitMatrix r c) : (p : Nat) → p ≤ r → Except Singular (BitMatrix r c)
  | 0, _ => .ok M
  | p + 1, h =>
    match M.clearColumns p (Nat.le_of_succ_le h) with
    | .error e => .error e
    | .ok N => N.clearColumn ⟨p, h⟩

/-- The row reduced matrix whose left block is the identity. -/
def systematicForm (M : BitMatrix r c) : Except Singular (BitMatrix r c) :=
  M.clearColumns r (Nat.le_refl r)

end BitMatrix

end InstructionCard
