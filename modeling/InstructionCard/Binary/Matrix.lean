import InstructionCard.Binary.Cell

/-!
# Binary matrices

A matrix is the vector of its rows. Every shape is allowed, also one without rows or without columns.
Products mask the cells to their lowest bit, transposition and column access hand the raw cells on.
-/

set_option autoImplicit false

namespace InstructionCard

/-- A matrix of `r` rows and `c` columns. -/
abbrev BitMatrix (r c : Nat) := Vector (Vector Cell c) r

namespace BitMatrix

variable {r c : Nat}

/-- The matrix with the given entries. -/
def ofFn (entry : Fin r → Fin c → Cell) : BitMatrix r c :=
  Vector.ofFn fun i => Vector.ofFn (entry i)

/-- The matrix with the given rows; a missing cell is 0. -/
def ofLists (r c : Nat) (rows : List (List Cell)) : BitMatrix r c :=
  ofFn fun i j => (rows.getD i []).getD j 0

def toLists (M : BitMatrix r c) : List (List Cell) :=
  M.toList.map Vector.toList

def row (M : BitMatrix r c) (i : Fin r) : Vector Cell c :=
  M[i]

/-- Exchanges two rows. -/
def swapRows (M : BitMatrix r c) (i j : Fin r) : BitMatrix r c :=
  Vector.swap M i j

def identity (n : Nat) : BitMatrix n n :=
  ofFn fun i j => if i = j then 1 else 0

def transpose (M : BitMatrix r c) : BitMatrix c r :=
  ofFn fun j i => M[i][j]

/-- Column `index`, nothing past the last one. -/
def column? (M : BitMatrix r c) (index : Nat) : Option (Vector Cell r) :=
  if h : index < c then some (Vector.map (fun row => row[index]) M) else none

/-- `M · v`, one dot product per row. -/
def mulVec (M : BitMatrix r c) (v : Vector Cell c) : Vector Cell r :=
  Vector.map (fun row => dot row.toList v.toList) M

/-- `v · M`, one dot product per column. -/
def vecMul (v : Vector Cell r) (M : BitMatrix r c) : Vector Cell c :=
  M.transpose.mulVec v

@[simp] theorem getElem_ofFn (entry : Fin r → Fin c → Cell) (i j : Nat) (hi : i < r) (hj : j < c) :
    (ofFn entry)[i][j] = entry ⟨i, hi⟩ ⟨j, hj⟩ := by
  simp [ofFn]

@[simp] theorem row_eq_getElem (M : BitMatrix r c) (i : Fin r) : M.row i = M[i] := rfl

@[simp] theorem getElem_identity (n i j : Nat) (hi : i < n) (hj : j < n) :
    (identity n)[i][j] = if i = j then 1 else 0 := by
  simp [identity]

@[simp] theorem getElem_transpose (M : BitMatrix r c) (j i : Nat) (hj : j < c) (hi : i < r) :
    M.transpose[j][i] = M[i][j] := by
  simp [transpose]

/-- A column is a row of the transpose. -/
theorem column?_eq_some (M : BitMatrix r c) (j : Fin c) : M.column? j = some (M.transpose.row j) := by
  rw [column?, dif_pos j.isLt]
  congr 1
  ext i hi
  rw [Vector.getElem_map, row_eq_getElem, Fin.getElem_fin, getElem_transpose]

@[simp] theorem getElem_mulVec (M : BitMatrix r c) (v : Vector Cell c) (i : Nat) (h : i < r) :
    (M.mulVec v)[i] = dot M[i].toList v.toList := by
  simp [mulVec]

@[simp] theorem transpose_transpose (M : BitMatrix r c) : M.transpose.transpose = M := by
  ext i hi j hj
  simp

end BitMatrix

end InstructionCard
