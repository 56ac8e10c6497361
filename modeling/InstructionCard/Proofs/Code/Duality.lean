import InstructionCard.Proofs.Code.Seed

/-!
# Generator and parity check matrix

The generator of a code made from zeros and ones is `[I | P]`, its parity check matrix `[Pᵀ | I]` for the
same `P`. So the blocks with syndrome zero are those that encoding gives, and these are the combinations
of the rows of the seed the code was made from. The syndrome of such a block with cells flipped is the sum
of the columns of the flipped cells.
-/

set_option autoImplicit false

namespace InstructionCard

/-- Two matrices side by side. -/
def BitMatrix.beside {r a b : Nat} (L : BitMatrix r a) (R : BitMatrix r b) : BitMatrix r (a + b) :=
  Vector.zipWith (· ++ ·) L R

theorem BitMatrix.getElem_beside {r a b : Nat} (L : BitMatrix r a) (R : BitMatrix r b) (i j : Nat)
    (hi : i < r) (hj : j < a + b) :
    (L.beside R)[i][j] = if h : j < a then L[i][j] else R[i][j - a] := by
  simp only [beside, Vector.getElem_zipWith]
  exact Vector.getElem_append hj

namespace Code

variable {seed : BitMatrix 6 10} {code : Code}

/-! ## The shape of the matrices -/

/-- The generator is the identity beside its check part. -/
theorem generator_eq_beside (sys : code.Systematic) :
    code.generator = (BitMatrix.identity 6).beside code.checkPart := by
  ext i hi j hj
  refine congrArg UInt8.toNat ?_
  refine Eq.trans ?_ (BitMatrix.getElem_beside _ _ i j hi hj).symm
  split
  · next left => rw [sys.unit i j hi hj left, BitMatrix.getElem_identity]
  · next right =>
    have place : 6 + (j - 6) = j := by omega
    simp only [checkPart, BitMatrix.getElem_ofFn, Fin.getElem_fin, place]

theorem binary_checkPart (sys : code.Systematic) : code.checkPart.Binary := by
  intro i
  rw [binaryCells_iff_getElem]
  intro j hj
  simp only [checkPart, BitMatrix.row_eq_getElem, Fin.getElem_fin, BitMatrix.getElem_ofFn]
  exact sys.binary.getElem _ _ _ _

/-! ## Blocks of the code -/

theorem syndrome_eq_zero_iff (code : Code) (b : Block) :
    code.syndrome b = Vector.replicate 4 0 ↔ bits (code.syndrome b) = 0 := by
  rw [← bits_zeros]
  constructor
  · exact congrArg bits
  · exact eq_of_bits_eq (BitMatrix.binaryCells_mulVec _ _) (binaryCells_zeros 4)

/-- A block belongs to the code exactly when its first six cells are encoded as it. -/
theorem eq_block_iff_exists_encode {b : Block} (hb : BinaryCells b.toList) :
    b = code.block (Block.data b) ↔ ∃ x, code.encode (Block.data b).toList = .ok x ∧ x.pop = b := by
  simp only [encode_eq_ok_iff, and_assoc, exists_and_left, exists_eq_left, pop_codeword]
  constructor
  · intro same
    exact ⟨Block.binaryCells_data hb, same.symm⟩
  · rintro ⟨_, same⟩
    exact same.symm

/-- The blocks that encoding gives are the combinations of the rows of the generator. -/
theorem eq_block_iff_mem_rowSpace (sys : code.Systematic) {b : Block} (hb : BinaryCells b.toList) :
    b = code.block (Block.data b) ↔ bits b ∈ code.generator.rowSpace := by
  rw [BitMatrix.rowSpace, ← range_vecMulLinear]
  constructor
  · intro same
    refine ⟨bits (Block.data b), ?_⟩
    rw [Matrix.vecMulLinear_apply, ← BitMatrix.bits_vecMul, ← block, ← same]
  · rintro ⟨v, combination⟩
    have made : b = code.block (ofBits v) := by
      apply eq_of_bits_eq hb (binaryCells_block code _)
      rw [block, BitMatrix.bits_vecMul, bits_ofBits, ← combination, Matrix.vecMulLinear_apply]
    rw [made, data_block sys (binaryCells_ofBits v)]

/-- The rows of the generator and those of the seed have the same combinations. -/
theorem rowSpace_generator (built : ofSeed seed = .ok code) : code.generator.rowSpace = seed.rowSpace :=
  (BitMatrix.rowOperations_systematicForm (systematicForm_of_ofSeed built)).rowEquivalent.rowSpace_eq

/-! ## Flipped cells -/

/-- The columns of a set of cells, from left to right. -/
def columns (code : Code) (places : Finset (Fin 10)) : List Syndrome :=
  ((List.finRange 10).filter (· ∈ places)).filterMap fun i : Fin 10 => code.parityCheck.column? i

theorem mem_columns (sys : code.Systematic) {places : Finset (Fin 10)} {v : Syndrome}
    (h : v ∈ code.columns places) : BinaryCells v.toList := by
  obtain ⟨i, _, column⟩ := List.mem_filterMap.1 h
  obtain ⟨w, found, binary, _⟩ := exists_column?_eq_some sys i
  obtain rfl : w = v := Option.some.inj (found.symm.trans column)
  exact binary

theorem bits_sumRows_columns (sys : code.Systematic) (places : Finset (Fin 10)) :
    bits (sumRows (code.columns places)) = ∑ i ∈ places, code.parityCheck.toMatrix.col i := by
  have entries (i : Fin 10) : (code.parityCheck.column? i).map bits = some (code.parityCheck.toMatrix.col i) := by
    obtain ⟨v, found, _, same⟩ := exists_column?_eq_some sys i
    rw [found, Option.map_some, same]
  have distinct : ((List.finRange 10).filter (· ∈ places)).Nodup := (List.nodup_finRange 10).filter _
  have set : ((List.finRange 10).filter (· ∈ places)).toFinset = places := by
    ext i
    simp
  rw [bits_sumRows, columns, List.map_filterMap]
  simp only [entries, List.filterMap_eq_map']
  rw [← List.sum_toFinset _ distinct, set]

/-- Flipping cells of a block of the code leaves the sum of their columns as syndrome. -/
theorem syndrome_flipCells (sys : code.Systematic) {b : Block} (zero : bits (code.syndrome b) = 0)
    (places : Finset (Fin 10)) : code.syndrome (flipCells b places) = sumRows (code.columns places) := by
  have binary : BinaryCells (code.syndrome (flipCells b places)).toList := BitMatrix.binaryCells_mulVec _ _
  apply eq_of_bits_eq binary (binaryCells_sumRows fun v => mem_columns sys)
  calc bits (code.syndrome (flipCells b places))
      = code.parityCheck.toMatrix.mulVec (bits b) +
          code.parityCheck.toMatrix.mulVec (∑ i ∈ places, Pi.single i 1) := by
        rw [bits_syndrome, bits_flipCells, Matrix.mulVec_add]
    _ = ∑ i ∈ places, code.parityCheck.toMatrix.col i := by
        rw [← bits_syndrome, zero, zero_add, Matrix.mulVec_sum]
        simp only [Matrix.mulVec_single_one]
    _ = bits (sumRows (code.columns places)) := (bits_sumRows_columns sys places).symm

/-- **Duality of generator and parity check matrix.** The syndrome is zero exactly on the blocks that
encoding gives, and these are the combinations of the rows of the seed. The matrices share their check
part, and the syndrome of a block of the code with a set of cells flipped is the sum of the columns of
these cells. -/
theorem dual_ofSeed (binary : seed.Binary) (built : ofSeed seed = .ok code) :
    (∀ b : Block, BinaryCells b.toList →
      [code.syndrome b = Vector.replicate 4 0,
        ∃ x, code.encode (Block.data b).toList = .ok x ∧ x.pop = b,
        bits b ∈ seed.rowSpace].TFAE) ∧
    (∃ P : BitMatrix 6 4, P.Binary ∧ code.generator = (BitMatrix.identity 6).beside P ∧
      code.parityCheck = P.transpose.beside (BitMatrix.identity 4)) ∧
    ∀ (source : List Cell) (x : Codeword), code.encode source = .ok x → ∀ places : Finset (Fin 10),
      code.syndrome (flipCells x.pop places) = sumRows (code.columns places) := by
  have sys := systematic_ofSeed binary built
  refine ⟨?_, ⟨code.checkPart, binary_checkPart sys, generator_eq_beside sys, rfl⟩, ?_⟩
  · intro b hb
    rw [syndrome_eq_zero_iff, bits_syndrome_eq_zero_iff sys hb, ← eq_block_iff_exists_encode hb,
      ← rowSpace_generator built, ← eq_block_iff_mem_rowSpace sys hb]
    tfae_finish
  · intro source x made places
    obtain ⟨w, _, hw, rfl⟩ := encode_eq_ok made
    apply syndrome_flipCells sys
    rw [pop_codeword, bits_syndrome_eq_zero_iff sys (binaryCells_block code w), data_block sys hw]

/-- A block of the standard code, alone and with three cells flipped. -/
theorem dual_ofSeed_standardSeed : standardSeed.Binary ∧ ofSeed standardSeed = .ok standard ∧
    bits (#v[1, 0, 0, 1, 1, 0, 0, 0, 1, 0] : Block) ∈ standardSeed.rowSpace ∧
    standard.syndrome (flipCells #v[1, 0, 0, 1, 1, 0, 0, 0, 1, 0] {0, 4, 7}) =
      sumRows (standard.columns {0, 4, 7}) := by
  have made : standard.encode [1, 0, 0, 1, 1, 0] = .ok #v[1, 0, 0, 1, 1, 0, 0, 0, 1, 0, 0] := by
    decide +kernel
  have zero : standard.syndrome #v[1, 0, 0, 1, 1, 0, 0, 0, 1, 0] = Vector.replicate 4 0 := by
    decide +kernel
  have cells : BinaryCells (#v[1, 0, 0, 1, 1, 0, 0, 0, 1, 0] : Block).toList := by decide +kernel
  obtain ⟨blocks, _, flips⟩ := dual_ofSeed binary_standardSeed ofSeed_standardSeed
  refine ⟨binary_standardSeed, ofSeed_standardSeed, ?_, flips _ _ made {0, 4, 7}⟩
  exact ((blocks _ cells).out 0 2).1 zero

end Code

end InstructionCard
