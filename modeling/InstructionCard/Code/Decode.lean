import InstructionCard.Code.Basic

/-!
# Decoding a card row

A row with one wrong cell is repaired, a row with two wrong cells is refused. The syndrome tells whether
the block is wrong, the last cell whether an odd number of cells is. A row of the wrong length, or with
cells other than 0 and 1, is refused as well.
-/

set_option autoImplicit false

namespace InstructionCard

/-- How a row was decoded, without its data. -/
inductive Verdict where
  | valid
  | corrected
  | uncorrectable
deriving DecidableEq, Repr

/-- What a row decodes to. -/
inductive Decoded where
  /-- The row was a codeword. -/
  | valid (data : Data)
  /-- One cell was wrong, perhaps only the last one. -/
  | corrected (data : Data)
  /-- The row cannot be repaired safely. -/
  | uncorrectable
deriving DecidableEq, Repr

namespace Decoded

def data? : Decoded → Option Data
  | valid data => some data
  | corrected data => some data
  | uncorrectable => none

def verdict : Decoded → Verdict
  | valid _ => .valid
  | corrected _ => .corrected
  | uncorrectable => .uncorrectable

end Decoded

/-- The data cells of a block. -/
def Block.data (block : Block) : Data :=
  Vector.ofFn fun i : Fin 6 => block[i.val]

namespace Code

/-- The first column of the parity check matrix that equals the syndrome. -/
def flippedCell? (code : Code) (syndrome : Syndrome) : Option (Fin 10) :=
  (List.finRange 10).find? fun i => code.parityCheck.column? i == some syndrome

/-- Decodes a block and the cell after it.

The block is right when its syndrome is zero. Otherwise an odd number of wrong cells is taken for one,
at the column the syndrome points to, and an even number is not repaired. -/
def decodeBlock (code : Code) (block : Block) (last : Cell) : Decoded :=
  let syndrome := code.syndrome block
  let oddErrors := parity block.toList != last
  if syndrome.all (· == 0) then
    if oddErrors then .corrected (Block.data block) else .valid (Block.data block)
  else if oddErrors then
    match code.flippedCell? syndrome with
    | some i => .corrected (Block.data (block.set i (block[i] ^^^ 1)))
    | none => .uncorrectable
  else .uncorrectable

/-- Decodes the cells of a row. -/
def decode (code : Code) (cells : List Cell) : Decoded :=
  match readCells 11 cells with
  | .ok codeword => code.decodeBlock codeword.pop codeword.back
  | .error _ => .uncorrectable

end Code

end InstructionCard
