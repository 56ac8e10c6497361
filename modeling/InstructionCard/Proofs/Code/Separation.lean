import InstructionCard.Proofs.Code.Decoder

/-!
# When one wrong cell is repaired and two are refused

A code repairs every single wrong cell exactly when the columns of its parity check matrix are non-zero
and pairwise distinct, and exactly then it refuses every two wrong cells. Both are the injectivity of the
extended column. The code of the cards has this property, so a row with at most two wrong cells never
decodes to other data.
-/

set_option autoImplicit false

namespace InstructionCard.Code

variable {code : Code}

/-- The ten columns of the parity check matrix are non-zero and pairwise distinct. -/
def SeparatesCells (code : Code) : Prop :=
  (∀ i : Fin 10, code.parityCheck.column? i ≠ some (Vector.replicate 4 0)) ∧
    ∀ i j : Fin 10, i ≠ j → code.parityCheck.column? i ≠ code.parityCheck.column? j

instance (code : Code) : Decidable code.SeparatesCells :=
  inferInstanceAs (Decidable (_ ∧ _))

/-- A codeword with one cell flipped decodes to its data. -/
def RepairsOne (code : Code) : Prop :=
  ∀ w : Data, BinaryCells w.toList → ∃ x, code.encode w.toList = .ok x ∧
    ∀ i, code.decode (flipCell x i).toList = .corrected w

/-- A codeword with two cells flipped is not decoded. -/
def RefusesTwo (code : Code) : Prop :=
  ∀ w : Data, BinaryCells w.toList → ∃ x, code.encode w.toList = .ok x ∧
    ∀ i j, i ≠ j → code.decode (flipCell (flipCell x i) j).toList = .uncorrectable

/-- The parity column is told from the others by its zero syndrome, so the extended columns differ too. -/
theorem separatesCells_iff (sys : code.Systematic) :
    code.SeparatesCells ↔ Function.Injective code.extendedColumn := by
  have zero (i : Fin 10) : code.parityCheck.column? i = some (Vector.replicate 4 0) ↔
      code.parityCheck.toMatrix.col i = 0 := by
    rw [column?_eq_some_iff sys (binaryCells_zeros 4), bits_zeros, eq_comm]
  have same (i j : Fin 10) : code.parityCheck.column? i = code.parityCheck.column? j ↔
      code.parityCheck.toMatrix.col i = code.parityCheck.toMatrix.col j := by
    obtain ⟨v, column, hv, entries⟩ := exists_column?_eq_some sys j
    rw [column, column?_eq_some_iff sys hv, entries, eq_comm]
  unfold SeparatesCells
  simp only [Ne, zero, same]
  constructor
  · rintro ⟨nonzero, distinct⟩ i j equal
    cases i using Fin.lastCases with
    | last =>
      cases j using Fin.lastCases with
      | last => rfl
      | cast j =>
        rw [extendedColumn_last, extendedColumn_castSucc] at equal
        exact absurd (congrArg Prod.fst equal).symm (nonzero j)
    | cast i =>
      cases j using Fin.lastCases with
      | last =>
        rw [extendedColumn_last, extendedColumn_castSucc] at equal
        exact absurd (congrArg Prod.fst equal) (nonzero i)
      | cast j =>
        rw [extendedColumn_castSucc, extendedColumn_castSucc] at equal
        by_contra different
        exact distinct i j (fun e => different (congrArg _ e)) (congrArg Prod.fst equal)
  · intro injective
    constructor
    · intro i column
      have equal : code.extendedColumn i.castSucc = code.extendedColumn (Fin.last 10) := by
        rw [extendedColumn_castSucc, extendedColumn_last, column]
      exact absurd (injective equal) (Fin.castSucc_lt_last i).ne
    · intro i j different column
      have equal : code.extendedColumn i.castSucc = code.extendedColumn j.castSucc := by
        rw [extendedColumn_castSucc, extendedColumn_castSucc, column]
      exact different (Fin.castSucc_injective 10 (injective equal))

theorem extendedSyndrome_codeword (sys : code.Systematic) {w : Data} (hw : BinaryCells w.toList) :
    code.extendedSyndrome (code.codeword w) = 0 :=
  (isCodeword_iff sys (binaryCells_codeword code w)).1 (isCodeword_codeword hw)

/-- A codeword with one cell flipped decodes to the data of a codeword next to it. -/
theorem exists_decode_flipCell (sys : code.Systematic) {w : Data} (hw : BinaryCells w.toList) (i : Fin 11) :
    ∃ j, code.extendedColumn i = code.extendedColumn j ∧
      code.decode (flipCell (code.codeword w) i).toList =
        .corrected (Codeword.data (flipCell (flipCell (code.codeword w) i) j)) := by
  have diagnosis := diagnosis_decode sys (binaryCells_flipCell (binaryCells_codeword code w) i)
  have syndrome : code.extendedSyndrome (flipCell (code.codeword w) i) = code.extendedColumn i := by
    rw [extendedSyndrome_flipCell, extendedSyndrome_codeword sys hw, zero_add]
  generalize code.decode (flipCell (code.codeword w) i).toList = result at diagnosis
  cases diagnosis with
  | valid zero => exact absurd (syndrome.symm.trans zero) (extendedColumn_ne_zero code i)
  | corrected j column => exact ⟨j, syndrome.symm.trans column, rfl⟩
  | uncorrectable nonzero none => exact absurd syndrome (none i)

theorem flipCell_flipCell_ne {n : Nat} (v : Vector Cell n) {i j : Fin n} (h : i ≠ j) :
    flipCell (flipCell v i) j ≠ v := by
  intro same
  have cell : (flipCell (flipCell v i) j)[i.val] = v[i.val] := by rw [same]
  rw [getElem_flipCell, if_neg (fun e => h (Fin.ext e.symm)), getElem_flipCell, if_pos rfl] at cell
  exact cell_xor_one_ne _ cell

/-- The repaired cell is the flipped one when the extended columns tell the cells apart. -/
theorem decode_flipCell (sys : code.Systematic) (injective : Function.Injective code.extendedColumn)
    {w : Data} (hw : BinaryCells w.toList) (i : Fin 11) :
    code.decode (flipCell (code.codeword w) i).toList = .corrected w := by
  obtain ⟨j, column, decoded⟩ := exists_decode_flipCell sys hw i
  obtain rfl := injective column
  rw [decoded, flipCell_flipCell, data_codeword sys hw]

/-- With two cells flipped there is no repair: the parity is right, and the syndrome is zero only where
two extended columns agree. -/
theorem decode_flipCell_flipCell_iff (sys : code.Systematic) {w : Data} (hw : BinaryCells w.toList)
    (i j : Fin 11) : code.decode (flipCell (flipCell (code.codeword w) i) j).toList = .uncorrectable ↔
      code.extendedColumn i ≠ code.extendedColumn j := by
  have diagnosis := diagnosis_decode sys
    (binaryCells_flipCell (binaryCells_flipCell (binaryCells_codeword code w) i) j)
  have syndrome : code.extendedSyndrome (flipCell (flipCell (code.codeword w) i) j) =
      code.extendedColumn i + code.extendedColumn j := by
    rw [extendedSyndrome_flipCell, extendedSyndrome_flipCell, extendedSyndrome_codeword sys hw, zero_add]
  generalize code.decode (flipCell (flipCell (code.codeword w) i) j).toList = result at diagnosis
  have zero : code.extendedColumn i = code.extendedColumn j ↔
      code.extendedSyndrome (flipCell (flipCell (code.codeword w) i) j) = 0 := by
    rw [syndrome, CharTwo.add_eq_zero]
  rw [Ne, zero]
  cases diagnosis with
  | valid zero => exact ⟨nofun, fun nonzero => absurd zero nonzero⟩
  | corrected k column =>
    have parity : (1 : ZMod 2) + 1 = 1 := congrArg Prod.snd (syndrome.symm.trans column)
    exact absurd parity (by decide)
  | uncorrectable nonzero none => exact ⟨fun _ => nonzero, fun _ => rfl⟩

/-- Two cells with one column between them cannot both be repaired. -/
theorem repairsOne_iff (sys : code.Systematic) :
    code.RepairsOne ↔ Function.Injective code.extendedColumn := by
  constructor
  · intro repairs i j column
    by_contra different
    -- Two cells with one column: flipping both leads from one codeword to another, and the word
    -- between them cannot decode to the data of both.
    let x : Codeword := code.codeword (Vector.replicate 6 0)
    let y : Codeword := flipCell (flipCell x i) j
    have hx : BinaryCells x.toList := binaryCells_codeword code _
    have hy : BinaryCells y.toList := binaryCells_flipCell (binaryCells_flipCell hx i) j
    have codeword : y = code.codeword y.data := by
      rw [← extendedSyndrome_eq_zero_iff sys hy, extendedSyndrome_flipCell, extendedSyndrome_flipCell,
        extendedSyndrome_codeword sys (binaryCells_zeros 6), zero_add, column, CharTwo.add_self_eq_zero]
    obtain ⟨_, encoded, first⟩ := repairs _ (binaryCells_zeros 6)
    obtain ⟨_, rfl⟩ := encode_eq_ok_iff.1 encoded
    obtain ⟨_, encoded, second⟩ := repairs y.data (binaryCells_data hy)
    obtain ⟨_, rfl⟩ := encode_eq_ok_iff.1 encoded
    have between : code.decode (flipCell x i).toList = .corrected y.data := by
      have decoded := second j
      rwa [← codeword, flipCell_flipCell] at decoded
    have data : y.data = Vector.replicate 6 0 := Decoded.corrected.inj (between.symm.trans (first i))
    exact flipCell_flipCell_ne x different (codeword.trans (by rw [data]))
  · intro injective w hw
    exact ⟨_, encode_eq_ok_iff.2 ⟨hw, rfl⟩, decode_flipCell sys injective hw⟩

/-- Flipping two cells with the same column gives another codeword. -/
theorem refusesTwo_iff (sys : code.Systematic) :
    code.RefusesTwo ↔ Function.Injective code.extendedColumn := by
  constructor
  · intro refuses i j column
    by_contra different
    obtain ⟨_, encoded, refused⟩ := refuses _ (binaryCells_zeros 6)
    obtain ⟨_, rfl⟩ := encode_eq_ok_iff.1 encoded
    exact (decode_flipCell_flipCell_iff sys (binaryCells_zeros 6) i j).1 (refused i j different) column
  · intro injective w hw
    refine ⟨_, encode_eq_ok_iff.2 ⟨hw, rfl⟩, fun i j different => ?_⟩
    exact (decode_flipCell_flipCell_iff sys hw i j).2 (injective.ne different)

/-! ## The code of the cards -/

theorem separatesCells_standard : standard.SeparatesCells := by decide +kernel

theorem injective_extendedColumn_standard : Function.Injective standard.extendedColumn :=
  (separatesCells_iff systematic_standard).1 separatesCells_standard

/-- **Repair of one wrong cell and refusal of two** are both the same condition on the columns of the
parity check matrix, and the code of the cards meets it. -/
theorem repairsOne_and_refusesTwo_iff_separatesCells :
    (∀ (seed : BitMatrix 6 10) (code : Code), seed.Binary → ofSeed seed = .ok code →
      [code.SeparatesCells, code.RepairsOne, code.RefusesTwo].TFAE) ∧
    ofSeed standardSeed = .ok standard ∧ standard.SeparatesCells ∧ standard.RepairsOne ∧
      standard.RefusesTwo := by
  refine ⟨?_, ofSeed_standardSeed, separatesCells_standard, ?_, ?_⟩
  · intro seed code binary built
    have sys := systematic_ofSeed binary built
    simp only [separatesCells_iff sys, repairsOne_iff sys, refusesTwo_iff sys]
    tfae_finish
  · exact (repairsOne_iff systematic_standard).2 injective_extendedColumn_standard
  · exact (refusesTwo_iff systematic_standard).2 injective_extendedColumn_standard

theorem separatesCells_tfae_standardSeed : standardSeed.Binary ∧ ofSeed standardSeed = .ok standard ∧
    [standard.SeparatesCells, standard.RepairsOne, standard.RefusesTwo].TFAE :=
  ⟨binary_standardSeed, ofSeed_standardSeed, repairsOne_and_refusesTwo_iff_separatesCells.1 _ _
    binary_standardSeed ofSeed_standardSeed⟩

end InstructionCard.Code
