/-!
# Binary cells

A cell is a byte that normally holds 0 or 1. Sums are exclusive or and products are bitwise and, so
there is never a carry. Sums over a whole list look only at the lowest bit of each cell; sums of two
rows keep every bit. `digits` and `number` write a byte as cells, most significant first, and read it
back.
-/

set_option autoImplicit false

namespace InstructionCard

/-- One binary cell. Functions that validate refuse any value above 1. -/
abbrev Cell := UInt8

/-- The sum of the lowest bits: 1 when an odd number of cells are odd. -/
def parity (cells : List Cell) : Cell :=
  cells.foldr (fun cell sum => (cell &&& 1) ^^^ sum) 0

/-- The sum of the products of paired cells. What the longer list has beyond the shorter is left out. -/
def dot (left right : List Cell) : Cell :=
  parity (left.zipWith (· &&& ·) right)

@[simp] theorem parity_nil : parity [] = 0 := rfl

@[simp] theorem parity_cons (cell : Cell) (cells : List Cell) :
    parity (cell :: cells) = (cell &&& 1) ^^^ parity cells := rfl

/-- The cell by cell sum of two rows. -/
def addRows {n : Nat} (left right : Vector Cell n) : Vector Cell n :=
  left.zipWith (· ^^^ ·) right

@[simp] theorem getElem_addRows {n : Nat} (left right : Vector Cell n) (i : Nat) (h : i < n) :
    (addRows left right)[i] = left[i] ^^^ right[i] := by
  simp [addRows]

/-- The lowest `width` binary digits of a byte, most significant first. -/
def digits (width : Nat) (byte : UInt8) : Vector Cell width :=
  Vector.ofFn fun i : Fin width => if byte.toNat.testBit (width - 1 - i) then 1 else 0

/-- The byte whose binary digits are the lowest bits of the cells. -/
def number (cells : List Cell) : UInt8 :=
  cells.foldl (fun sum cell => sum <<< 1 ||| (cell &&& 1)) 0

/-- The index and value of the first cell above 1. -/
def firstInvalid? : List Cell → Option (Nat × Cell)
  | [] => none
  | cell :: cells =>
    if 1 < cell then some (0, cell)
    else (firstInvalid? cells).map fun (index, value) => (index + 1, value)

end InstructionCard
