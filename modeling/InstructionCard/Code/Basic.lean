import InstructionCard.Binary.Systematic

/-!
# The card code

Every card row holds one codeword of eleven cells: a block of ten, the six data cells followed by four
check cells, and one cell that makes the number of ones even. A code is given by its systematic
generator `[I | P]`; its parity check matrix is `[Pᵀ | I]`. Main definitions: `Code.ofSeed` row reduces
any generator with an invertible left block, `Code.standard` is the code the cards are printed in,
`Code.encode` builds a codeword and `Code.syndrome` is zero exactly on the blocks of the code.
-/

set_option autoImplicit false

namespace InstructionCard

/-- The six cells of a data word. -/
abbrev Data := Vector Cell 6

/-- A codeword without its last cell. -/
abbrev Block := Vector Cell 10

/-- The eleven cells of a card row. -/
abbrev Codeword := Vector Cell 11

abbrev Syndrome := Vector Cell 4

/-- Why a code or a codeword cannot be built. -/
inductive CodeError where
  | length (expected found : Nat)
  | invalidBit (index : Nat) (value : Cell)
  | seed (cause : Singular)
deriving DecidableEq, Repr

def CodeError.message : CodeError → String
  | length expected found => s!"expected {expected} bits but got {found}"
  | invalidBit index value => s!"bit {index} has value {value.toNat}, expected 0 or 1"
  | seed cause => s!"seed generator can not be made systematic: {cause.message}"

/-- A list of exactly `n` cells, all 0 or 1. The length is looked at first. -/
def readCells (n : Nat) (cells : List Cell) : Except CodeError (Vector Cell n) :=
  if h : cells.length = n then
    match firstInvalid? cells with
    | some (index, value) => .error (.invalidBit index value)
    | none => .ok ⟨cells.toArray, by simp [h]⟩
  else .error (.length n cells.length)

/-- A linear code with six data cells and four check cells. -/
structure Code where
  /-- One row for each data cell. Reduced from zeros and ones, its left block is the identity. -/
  generator : BitMatrix 6 10
deriving DecidableEq, Repr

namespace Code

/-- The code spanned by the rows of a seed whose left block can be reduced to the identity. -/
def ofSeed (seed : BitMatrix 6 10) : Except CodeError Code :=
  match seed.systematicForm with
  | .ok generator => .ok ⟨generator⟩
  | .error cause => .error (.seed cause)

/-- The generator the card format was defined with. -/
def standardSeed : BitMatrix 6 10 := Vector.mk #[
  Vector.mk #[1, 1, 1, 0, 0, 0, 0, 1, 0, 0] rfl,
  Vector.mk #[0, 1, 0, 0, 1, 0, 0, 1, 0, 0] rfl,
  Vector.mk #[1, 0, 0, 1, 0, 1, 0, 0, 0, 0] rfl,
  Vector.mk #[0, 0, 0, 1, 0, 0, 1, 1, 0, 0] rfl,
  Vector.mk #[1, 1, 0, 1, 0, 0, 0, 1, 1, 0] rfl,
  Vector.mk #[1, 0, 0, 1, 0, 0, 0, 1, 0, 1] rfl] rfl

/-- The code every card is printed in. -/
def standard : Code :=
  (ofSeed standardSeed).toOption.get (by decide +kernel)

/-- The check part `P` of the generator. -/
def checkPart (code : Code) : BitMatrix 6 4 :=
  BitMatrix.ofFn fun i j => code.generator[i][6 + j.val]

/-- The parity check matrix `[Pᵀ | I]`. -/
def parityCheck (code : Code) : BitMatrix 4 10 :=
  Vector.zipWith (· ++ ·) code.checkPart.transpose (BitMatrix.identity 4)

/-- The parity check matrix applied to a block. -/
def syndrome (code : Code) (block : Block) : Syndrome :=
  code.parityCheck.mulVec block

/-- The block of a data word. -/
def block (code : Code) (data : Data) : Block :=
  BitMatrix.vecMul data code.generator

/-- The codeword of a data word: its block and the cell that evens out the ones. -/
def codeword (code : Code) (data : Data) : Codeword :=
  (code.block data).push (parity (code.block data).toList)

/-- The codeword of a list of six cells. -/
def encode (code : Code) (cells : List Cell) : Except CodeError Codeword :=
  match readCells 6 cells with
  | .ok data => .ok (code.codeword data)
  | .error e => .error e

theorem ofSeed_standardSeed : ofSeed standardSeed = .ok standard := by
  have ok_get (built : Except CodeError Code) (h : built.toOption.isSome) :
      built = .ok (built.toOption.get h) := by
    cases built with
    | error e => simp [Except.toOption] at h
    | ok code => rfl
  exact ok_get _ _

end Code

end InstructionCard
