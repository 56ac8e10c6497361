import InstructionCard.Code.Decode
import InstructionCard.Proofs.Binary.Distance
import InstructionCard.Proofs.Binary.Reduced

/-!
# Codewords and the extended syndrome

The generator of a code made from zeros and ones starts with the identity, so a block of the code is its
data followed by check cells. The extended syndrome of a row is the syndrome of its block together with
the parity of all eleven cells. It is zero exactly on the codewords, and flipping a cell adds the extended
column of that cell.
-/

set_option autoImplicit false

namespace InstructionCard

/-! ## Reading cells -/

theorem firstInvalid?_eq_none_iff (cells : List Cell) : firstInvalid? cells = none ↔ BinaryCells cells := by
  induction cells with
  | nil => simp [firstInvalid?, BinaryCells]
  | cons cell cells ih =>
    rw [firstInvalid?, binaryCells_cons, ← not_one_lt_iff]
    split
    · next large => simp [large]
    · next fine => simp [fine, ih]

/-- The first cell above 1 is reported with its place. -/
theorem firstInvalid?_append {before after : List Cell} {value : Cell} (binary : BinaryCells before)
    (large : 1 < value) : firstInvalid? (before ++ value :: after) = some (before.length, value) := by
  induction before with
  | nil => rw [List.nil_append, firstInvalid?, if_pos large, List.length_nil]
  | cons cell before ih =>
    obtain ⟨valid, binary⟩ := binaryCells_cons.1 binary
    rw [List.cons_append, firstInvalid?, if_neg (not_one_lt_iff.2 valid), ih binary, Option.map_some,
      List.length_cons]

/-- Cells are read when there are as many as asked for and all are 0 or 1. -/
theorem readCells_eq_ok_iff {n : Nat} {cells : List Cell} {v : Vector Cell n} :
    readCells n cells = .ok v ↔ v.toList = cells ∧ BinaryCells cells := by
  rw [← firstInvalid?_eq_none_iff, readCells]
  split
  · split
    · next invalid => simp [invalid]
    · next h none =>
      simp only [Except.ok.injEq, none, and_true]
      constructor
      · rintro rfl
        rfl
      · intro same
        subst same
        rfl
  · next h =>
    constructor
    · intro impossible
      cases impossible
    · rintro ⟨rfl, _⟩
      exact absurd v.length_toList h

theorem readCells_toList {n : Nat} {v : Vector Cell n} (h : BinaryCells v.toList) :
    readCells n v.toList = .ok v :=
  readCells_eq_ok_iff.2 ⟨rfl, h⟩

theorem readCells_of_length_ne {n : Nat} {cells : List Cell} (other : cells.length ≠ n) :
    readCells n cells = .error (.length n cells.length) := by
  rw [readCells, dif_neg other]

/-- With the right length, the first cell above 1 is reported. -/
theorem readCells_append {n : Nat} {before after : List Cell} {value : Cell}
    (length : (before ++ value :: after).length = n) (binary : BinaryCells before) (large : 1 < value) :
    readCells n (before ++ value :: after) = .error (.invalidBit before.length value) := by
  rw [readCells, dif_pos length, firstInvalid?_append binary large]

/-- The first six cells of a row. -/
def Codeword.data (x : Codeword) : Data := Block.data x.pop

theorem Block.getElem_data (b : Block) (i : Nat) (hi : i < 6) : (Block.data b)[i] = b[i] := by
  simp [Block.data]

theorem Block.binaryCells_data {b : Block} (h : BinaryCells b.toList) : BinaryCells (Block.data b).toList := by
  rw [binaryCells_iff_getElem] at *
  intro i hi
  rw [Block.getElem_data]
  exact h i (by omega)

namespace Code

variable {code : Code}

/-! ## Codewords -/

/-- The generator consists of zeros and ones and starts with the identity. -/
abbrev Systematic (code : Code) : Prop :=
  code.generator.Reduced 6

/-- The generator is what row reduction makes of the seed. -/
theorem systematicForm_of_ofSeed {seed : BitMatrix 6 10} (built : ofSeed seed = .ok code) :
    seed.systematicForm = .ok code.generator := by
  unfold ofSeed at built
  split at built
  · next reduced =>
    cases built
    exact reduced
  · cases built

/-- A seed of zeros and ones gives a systematic code. -/
theorem systematic_ofSeed {seed : BitMatrix 6 10} (binary : seed.Binary) (h : ofSeed seed = .ok code) :
    code.Systematic :=
  BitMatrix.reduced_systematicForm binary (systematicForm_of_ofSeed h)

theorem binary_standardSeed : standardSeed.Binary := by decide +kernel

theorem systematic_standard : standard.Systematic :=
  systematic_ofSeed binary_standardSeed ofSeed_standardSeed

/-- The parity check matrix is the transposed check part beside the identity. -/
theorem getElem_parityCheck (code : Code) (k j : Nat) (hk : k < 4) (hj : j < 10) :
    code.parityCheck[k][j] =
      if h : j < 6 then code.generator[j][6 + k] else if k = j - 6 then 1 else 0 := by
  simp only [parityCheck, Vector.getElem_zipWith]
  refine (Vector.getElem_append hj).trans ?_
  split
  · simp [checkPart]
  · rw [BitMatrix.getElem_identity]

theorem binary_parityCheck (sys : code.Systematic) : code.parityCheck.Binary := by
  intro k
  rw [binaryCells_iff_getElem]
  intro j hj
  simp only [BitMatrix.row_eq_getElem, Fin.getElem_fin, getElem_parityCheck]
  split
  · exact sys.binary.getElem _ _ _ _
  · split
    · exact .inr rfl
    · exact .inl rfl

theorem binaryCells_block (code : Code) (d : Data) : BinaryCells (code.block d).toList :=
  BitMatrix.binaryCells_mulVec _ _

theorem binaryCells_codeword (code : Code) (d : Data) : BinaryCells (code.codeword d).toList := by
  intro cell h
  simp only [codeword, Vector.toList_push, List.mem_append, List.mem_singleton] at h
  rcases h with inside | rfl
  · exact binaryCells_block code d cell inside
  · exact parity_eq_zero_or_one _

/-- The data cells of a block are the data. -/
theorem bit_block_data (sys : code.Systematic) (d : Data) (j : Nat) (hj : j < 6) :
    bit (code.block d)[j] = bit d[j] := by
  have own (i : Fin 6) : code.generator.toMatrix i ⟨j, by omega⟩ = if i = ⟨j, hj⟩ then 1 else 0 := by
    rw [BitMatrix.toMatrix_mk, sys.unit i j i.isLt (by omega) hj]
    simp only [Fin.ext_iff]
    split <;> rfl
  have entry : bit (code.block d)[j] = ∑ i, bits d i * code.generator.toMatrix i ⟨j, by omega⟩ :=
    congrFun (BitMatrix.bits_vecMul d code.generator) ⟨j, by omega⟩
  simp only [entry, own, mul_ite, mul_one, mul_zero, Finset.sum_ite_eq', Finset.mem_univ, if_true, bits_mk]

/-- The check cells of a block are sums of data cells. -/
theorem bits_block_natAdd (code : Code) (d : Data) (k : Fin 4) :
    bits (code.block d) (Fin.natAdd 6 k) = Matrix.vecMul (bits d) code.checkPart.toMatrix k := by
  have check (i : Fin 6) : code.checkPart.toMatrix i k = code.generator.toMatrix i (Fin.natAdd 6 k) := by
    rw [BitMatrix.toMatrix_mk]
    simp only [checkPart, BitMatrix.getElem_ofFn]
    rfl
  simp only [block, BitMatrix.bits_vecMul, Matrix.vecMul, dotProduct, check]

/-- A block starts with its word. -/
theorem data_block (sys : code.Systematic) {d : Data} (hd : BinaryCells d.toList) :
    Block.data (code.block d) = d := by
  apply eq_of_bits_eq (Block.binaryCells_data (binaryCells_block code d)) hd
  funext i
  rw [bits_mk, bits_mk, Block.getElem_data, bit_block_data sys d i i.isLt]

@[simp] theorem pop_codeword (code : Code) (d : Data) : (code.codeword d).pop = code.block d := by
  simp [codeword]

theorem data_codeword (sys : code.Systematic) {d : Data} (hd : BinaryCells d.toList) :
    (code.codeword d).data = d := by
  rw [Codeword.data, pop_codeword, data_block sys hd]

theorem back_codeword (code : Code) (d : Data) :
    (code.codeword d).back = parity (code.block d).toList := by
  simp [codeword, Vector.back_eq_getElem]

/-- Words of zeros and ones are encoded as their codewords. -/
theorem encode_eq_ok_iff {w : Data} {x : Codeword} :
    code.encode w.toList = .ok x ↔ BinaryCells w.toList ∧ x = code.codeword w := by
  unfold encode
  split
  · next d read =>
    obtain ⟨same, binary⟩ := readCells_eq_ok_iff.1 read
    obtain rfl : d = w := Vector.toList_inj.1 same
    simp [binary, eq_comm]
  · next e read =>
    constructor
    · intro impossible
      cases impossible
    · rintro ⟨binary, _⟩
      rw [readCells_toList binary] at read
      cases read

theorem encode_toList {w : Data} (hw : BinaryCells w.toList) : code.encode w.toList = .ok (code.codeword w) :=
  encode_eq_ok_iff.2 ⟨hw, rfl⟩

/-! ## Syndromes -/

/-- The syndrome is the product of the parity check matrix and the block. -/
theorem bits_syndrome (code : Code) (b : Block) :
    bits (code.syndrome b) = code.parityCheck.toMatrix.mulVec (bits b) :=
  BitMatrix.bits_mulVec _ _

/-- A syndrome cell compares a check cell with the sum of the data cells it watches. -/
theorem bits_syndrome_apply (code : Code) (b : Block) (k : Fin 4) :
    bits (code.syndrome b) k =
      Matrix.vecMul (bits (Block.data b)) code.checkPart.toMatrix k + bits b (Fin.natAdd 6 k) := by
  have left (i : Fin 6) : code.parityCheck.toMatrix k (Fin.castAdd 4 i) = code.checkPart.toMatrix i k := by
    have inside : (Fin.castAdd 4 i).val < 6 := i.isLt
    rw [BitMatrix.toMatrix_mk, BitMatrix.toMatrix_mk, getElem_parityCheck, dif_pos inside]
    simp only [checkPart, BitMatrix.getElem_ofFn]
    rfl
  have right (i : Fin 4) : code.parityCheck.toMatrix k (Fin.natAdd 6 i) = if k = i then 1 else 0 := by
    rw [BitMatrix.toMatrix_mk, getElem_parityCheck, dif_neg (by simp)]
    simp only [Fin.val_natAdd, Nat.add_sub_cancel_left, Fin.ext_iff]
    split <;> rfl
  have data (i : Fin 6) : bits (Block.data b) i = bits b (Fin.castAdd 4 i) := by
    rw [bits_mk, Block.getElem_data]
    rfl
  rw [bits_syndrome, Matrix.mulVec, dotProduct, Fin.sum_univ_add (a := 6) (b := 4), Matrix.vecMul, dotProduct]
  simp only [left, right, data, mul_comm, mul_ite, mul_one, mul_zero, Finset.sum_ite_eq, Finset.mem_univ,
    if_true]

/-- The syndrome is zero exactly on the blocks of the code. -/
theorem bits_syndrome_eq_zero_iff (sys : code.Systematic) {b : Block} (hb : BinaryCells b.toList) :
    bits (code.syndrome b) = 0 ↔ b = code.block (Block.data b) := by
  have check (k : Fin 4) : bits (code.syndrome b) k =
      bits (code.block (Block.data b)) (Fin.natAdd 6 k) + bits b (Fin.natAdd 6 k) := by
    rw [bits_syndrome_apply, bits_block_natAdd]
  constructor
  · intro zero
    apply eq_of_bits_eq hb (binaryCells_block code _)
    funext j
    rcases Nat.lt_or_ge j 6 with left | right
    · rw [bits_mk, bits_mk, bit_block_data sys _ j left, Block.getElem_data]
    · obtain ⟨k, rfl⟩ : ∃ k : Fin 4, j = Fin.natAdd 6 k :=
        ⟨⟨j - 6, by omega⟩, Fin.ext (by simp; omega)⟩
      have equal := congrFun zero k
      rw [check, Pi.zero_apply, CharTwo.add_eq_zero] at equal
      exact equal.symm
  · intro same
    funext k
    rw [check, ← same, CharTwo.add_self_eq_zero]
    rfl

/-! ## The extended syndrome -/

/-- The syndrome of the block and the parity of all cells. -/
def extendedSyndrome (code : Code) (x : Codeword) : (Fin 4 → ZMod 2) × ZMod 2 :=
  (bits (code.syndrome x.pop), ∑ i, bits x i)

/-- What flipping a cell adds to the extended syndrome: the column of a block cell, nothing for the last
cell, and a change of parity for both. -/
def extendedColumn (code : Code) (i : Fin 11) : (Fin 4 → ZMod 2) × ZMod 2 :=
  (if h : i.val < 10 then code.parityCheck.toMatrix.col ⟨i, h⟩ else 0, 1)

theorem extendedColumn_castSucc (code : Code) (i : Fin 10) :
    code.extendedColumn i.castSucc = (code.parityCheck.toMatrix.col i, 1) := by
  have left : i.castSucc.val < 10 := i.isLt
  rw [extendedColumn, dif_pos left]
  rfl

theorem extendedColumn_last (code : Code) : code.extendedColumn (Fin.last 10) = (0, 1) := by
  rw [extendedColumn, dif_neg (by simp)]

theorem pop_flipCell (x : Codeword) (i : Fin 11) :
    (flipCell x i).pop = if h : i.val < 10 then flipCell x.pop ⟨i, h⟩ else x.pop := by
  split
  · ext j hj
    rw [Vector.getElem_pop, getElem_flipCell, getElem_flipCell, Vector.getElem_pop]
  · ext j hj
    rw [Vector.getElem_pop, getElem_flipCell, if_neg (by omega), Vector.getElem_pop]

/-- Flipping a cell adds its column to the extended syndrome. -/
theorem extendedSyndrome_flipCell (code : Code) (x : Codeword) (i : Fin 11) :
    code.extendedSyndrome (flipCell x i) = code.extendedSyndrome x + code.extendedColumn i := by
  apply Prod.ext
  · simp only [extendedSyndrome, extendedColumn, Prod.fst_add, pop_flipCell]
    split
    · rw [bits_syndrome, bits_syndrome, bits_flipCell, Matrix.mulVec_add, Matrix.mulVec_single_one]
    · rw [add_zero]
  · simp only [extendedSyndrome, extendedColumn, Prod.snd_add, bits_flipCell, Pi.add_apply,
      Finset.sum_add_distrib, Finset.sum_pi_single', Finset.mem_univ, if_true]

/-- The parity of all cells compares the last cell with the parity of the block. -/
theorem sum_bits_eq (x : Codeword) : ∑ i, bits x i = bit (parity x.pop.toList) + bit x.back := by
  rw [Fin.sum_univ_castSucc, bit_parity_toList]
  congr 1
  · apply Finset.sum_congr rfl
    intro i _
    rw [bits_mk, bits_mk, Vector.getElem_pop]
    rfl

/-- The extended syndrome is zero exactly on the codewords. -/
theorem extendedSyndrome_eq_zero_iff (sys : code.Systematic) {x : Codeword} (hx : BinaryCells x.toList) :
    code.extendedSyndrome x = 0 ↔ x = code.codeword x.data := by
  have block : BinaryCells x.pop.toList := by
    rw [binaryCells_iff_getElem] at *
    intro i hi
    rw [Vector.getElem_pop]
    exact hx i (by omega)
  have last : x.back = 0 ∨ x.back = 1 := by
    rw [Vector.back_eq_getElem]
    exact binaryCells_iff_getElem.1 hx _ _
  simp only [extendedSyndrome, Prod.mk_eq_zero, bits_syndrome_eq_zero_iff sys block, sum_bits_eq,
    CharTwo.add_eq_zero]
  constructor
  · rintro ⟨same, even⟩
    have back : parity x.pop.toList = x.back := cell_eq_of_bit_eq (parity_eq_zero_or_one _) last even
    calc x = x.pop.push x.back := (Vector.push_pop_back x).symm
      _ = code.codeword x.data := by rw [codeword, Codeword.data, ← same, back]
  · intro same
    have pop : x.pop = code.block x.data := by rw [← pop_codeword, ← same]
    refine ⟨pop, ?_⟩
    have back : x.back = parity (code.block x.data).toList := by rw [← back_codeword, ← same]
    rw [back, ← pop]

end Code

end InstructionCard
