import Mathlib.Algebra.CharP.Pi
import Mathlib.Algebra.CharP.Two
import InstructionCard.Proofs.Code.Codeword

/-!
# What the decoder returns

The decoder is the bounded distance decoder of radius 1 of every code made from zeros and ones. A row
with extended syndrome zero is a codeword; a row whose extended syndrome is a column is repaired at the
first such cell; any other row is at distance 2 or more from every codeword.
-/

set_option autoImplicit false

namespace InstructionCard.Code

variable {code : Code}

/-- The codewords are what encoding gives. -/
def IsCodeword (code : Code) (x : Codeword) : Prop :=
  ∃ source : List Cell, code.encode source = .ok x

theorem encode_eq_ok {source : List Cell} {x : Codeword} (h : code.encode source = .ok x) :
    ∃ w : Data, w.toList = source ∧ BinaryCells w.toList ∧ x = code.codeword w := by
  unfold encode at h
  split at h
  · next w read =>
    obtain ⟨same, binary⟩ := readCells_eq_ok_iff.1 read
    cases h
    exact ⟨w, same, same ▸ binary, rfl⟩
  · cases h

theorem IsCodeword.binaryCells {x : Codeword} (h : code.IsCodeword x) : BinaryCells x.toList := by
  obtain ⟨source, made⟩ := h
  obtain ⟨w, _, _, rfl⟩ := encode_eq_ok made
  exact binaryCells_codeword code w

theorem isCodeword_codeword {w : Data} (h : BinaryCells w.toList) : code.IsCodeword (code.codeword w) :=
  ⟨w.toList, encode_toList h⟩

theorem binaryCells_data {x : Codeword} (h : BinaryCells x.toList) : BinaryCells x.data.toList := by
  rw [binaryCells_iff_getElem] at *
  intro i hi
  rw [Codeword.data, Block.getElem_data, Vector.getElem_pop]
  exact h i (by omega)

/-- The codewords are the rows of zeros and ones whose extended syndrome is zero. -/
theorem isCodeword_iff (sys : code.Systematic) {x : Codeword} (hx : BinaryCells x.toList) :
    code.IsCodeword x ↔ code.extendedSyndrome x = 0 := by
  constructor
  · rintro ⟨source, made⟩
    obtain ⟨w, _, hw, rfl⟩ := encode_eq_ok made
    rw [extendedSyndrome_eq_zero_iff sys hx, data_codeword sys hw]
  · intro zero
    rw [(extendedSyndrome_eq_zero_iff sys hx).1 zero]
    exact isCodeword_codeword (binaryCells_data hx)

/-- The extended syndrome is a column exactly when flipping that cell gives a codeword. -/
theorem isCodeword_flipCell_iff (sys : code.Systematic) {x : Codeword} (hx : BinaryCells x.toList)
    (i : Fin 11) : code.IsCodeword (flipCell x i) ↔ code.extendedSyndrome x = code.extendedColumn i := by
  rw [isCodeword_iff sys (binaryCells_flipCell hx i), extendedSyndrome_flipCell, CharTwo.add_eq_zero]

/-- Every cell counts for the parity, so one flipped cell never goes unnoticed. -/
theorem extendedColumn_ne_zero (code : Code) (i : Fin 11) : code.extendedColumn i ≠ 0 := by
  intro h
  exact one_ne_zero (congrArg Prod.snd h)

/-! ## The branches of the decoder -/

/-- What a row of zeros and ones decodes to, told by its extended syndrome. -/
inductive Diagnosis (code : Code) (x : Codeword) : Decoded → Prop where
  | valid (zero : code.extendedSyndrome x = 0) : Diagnosis code x (.valid x.data)
  | corrected (i : Fin 11) (column : code.extendedSyndrome x = code.extendedColumn i) :
      Diagnosis code x (.corrected (Codeword.data (flipCell x i)))
  | uncorrectable (nonzero : code.extendedSyndrome x ≠ 0)
      (none : ∀ i, code.extendedSyndrome x ≠ code.extendedColumn i) : Diagnosis code x .uncorrectable

theorem all_eq_zero_iff {n : Nat} {v : Vector Cell n} (h : BinaryCells v.toList) :
    v.all (· == 0) = true ↔ bits v = 0 := by
  rw [Vector.all_eq_true]
  constructor
  · intro zero
    funext i
    have cell := zero i i.isLt
    rw [beq_iff_eq] at cell
    rw [bits_mk, cell]
    rfl
  · intro zero i hi
    rw [beq_iff_eq]
    exact cell_eq_of_bit_eq (binaryCells_iff_getElem.1 h i hi) (.inl rfl) (congrFun zero ⟨i, hi⟩)

/-- Column access in terms of bits. -/
theorem exists_column?_eq_some (sys : code.Systematic) (i : Fin 10) :
    ∃ v, code.parityCheck.column? i = some v ∧ BinaryCells v.toList ∧
      bits v = code.parityCheck.toMatrix.col i := by
  refine ⟨code.parityCheck.transpose.row i, code.parityCheck.column?_eq_some i, ?_, ?_⟩
  · rw [binaryCells_iff_getElem]
    intro k hk
    rw [BitMatrix.row_eq_getElem, Fin.getElem_fin, BitMatrix.getElem_transpose]
    exact (binary_parityCheck sys).getElem k i hk i.isLt
  · exact congrFun code.parityCheck.toMatrix_transpose i

theorem column?_eq_some_iff (sys : code.Systematic) {s : Syndrome} (hs : BinaryCells s.toList) (i : Fin 10) :
    code.parityCheck.column? i = some s ↔ bits s = code.parityCheck.toMatrix.col i := by
  obtain ⟨v, column, hv, entries⟩ := exists_column?_eq_some sys i
  rw [column, Option.some_inj, ← entries]
  exact ⟨fun same => same ▸ rfl, fun same => (eq_of_bits_eq hs hv same).symm⟩

theorem decode_toList {x : Codeword} (hx : BinaryCells x.toList) :
    code.decode x.toList = code.decodeBlock x.pop x.back := by
  rw [decode, readCells_toList hx]

/-- Only eleven zeros and ones are looked at. -/
theorem decode_eq_uncorrectable_of_malformed {cells : List Cell}
    (h : ¬ (cells.length = 11 ∧ BinaryCells cells)) : code.decode cells = .uncorrectable := by
  unfold decode
  split
  · next x read =>
    obtain ⟨same, binary⟩ := readCells_eq_ok_iff.1 read
    exact absurd ⟨same ▸ x.length_toList, binary⟩ h
  · rfl

theorem data_flipCell_castSucc (x : Codeword) (i : Fin 10) :
    Codeword.data (flipCell x i.castSucc) = Block.data (flipCell x.pop i) := by
  have left : i.castSucc.val < 10 := i.isLt
  rw [Codeword.data, pop_flipCell, dif_pos left]
  rfl

theorem data_flipCell_last (x : Codeword) : Codeword.data (flipCell x (Fin.last 10)) = x.data := by
  rw [Codeword.data, pop_flipCell, dif_neg (by simp)]
  rfl

theorem extendedSyndrome_eq {x : Codeword} {s : Fin 4 → ZMod 2} {sum : ZMod 2}
    (block : bits (code.syndrome x.pop) = s) (cells : ∑ i, bits x i = sum) :
    code.extendedSyndrome x = (s, sum) := by
  rw [extendedSyndrome, block, cells]

/-- The decoder follows the extended syndrome. -/
theorem diagnosis_decode (sys : code.Systematic) {x : Codeword} (hx : BinaryCells x.toList) :
    code.Diagnosis x (code.decode x.toList) := by
  have last : x.back = 0 ∨ x.back = 1 := by
    rw [Vector.back_eq_getElem]
    exact binaryCells_iff_getElem.1 hx _ _
  have syndromeCells : BinaryCells (code.syndrome x.pop).toList := BitMatrix.binaryCells_mulVec _ _
  have even : parity x.pop.toList = x.back ↔ ∑ i, bits x i = 0 := by
    rw [sum_bits_eq, CharTwo.add_eq_zero]
    exact ⟨fun h => congrArg bit h, cell_eq_of_bit_eq (parity_eq_zero_or_one _) last⟩
  have odd : parity x.pop.toList ≠ x.back ↔ ∑ i, bits x i = 1 := by
    have one (z : ZMod 2) : z ≠ 0 ↔ z = 1 := by revert z; decide
    rw [Ne, even, ← one]
  rw [decode_toList hx]
  simp only [decodeBlock, all_eq_zero_iff syndromeCells, bne_iff_ne]
  by_cases zero : bits (code.syndrome x.pop) = 0
  · rw [if_pos zero]
    by_cases wrong : parity x.pop.toList ≠ x.back
    · rw [if_pos wrong, ← Codeword.data, ← data_flipCell_last]
      exact .corrected _ ((extendedSyndrome_eq zero (odd.1 wrong)).trans (extendedColumn_last code).symm)
    · rw [if_neg wrong, ← Codeword.data]
      exact .valid (extendedSyndrome_eq zero (even.1 (not_not.1 wrong)))
  · rw [if_neg zero]
    by_cases wrong : parity x.pop.toList ≠ x.back
    · rw [if_pos wrong]
      split
      · next i found =>
        have equal := List.find?_some found
        rw [beq_iff_eq, column?_eq_some_iff sys syndromeCells] at equal
        have column : code.extendedSyndrome x = code.extendedColumn i.castSucc :=
          (extendedSyndrome_eq equal (odd.1 wrong)).trans (extendedColumn_castSucc code i).symm
        have repaired := data_flipCell_castSucc x i
        exact repaired ▸ .corrected _ column
      · next missing =>
        refine .uncorrectable (fun h => zero (congrArg Prod.fst h)) ?_
        intro i same
        cases i using Fin.lastCases with
        | last =>
          rw [extendedColumn_last] at same
          exact zero (congrArg Prod.fst same)
        | cast i =>
          have different := List.find?_eq_none.1 missing i (List.mem_finRange _)
          rw [beq_iff_eq, column?_eq_some_iff sys syndromeCells] at different
          rw [extendedColumn_castSucc] at same
          exact different (congrArg Prod.fst same)
    · rw [if_neg wrong]
      refine .uncorrectable (fun h => zero (congrArg Prod.fst h)) ?_
      intro i same
      have second : ∑ j, bits x j = 1 := congrArg Prod.snd same
      exact wrong (odd.2 second)

/-! ## Bounded distance decoding -/

/-- A codeword is what its own word is encoded as. -/
theorem encode_data_of_isCodeword (sys : code.Systematic) {x : Codeword} (h : code.IsCodeword x) :
    code.encode x.data.toList = .ok x := by
  obtain ⟨source, made⟩ := h
  obtain ⟨w, rfl, hw, rfl⟩ := encode_eq_ok made
  rw [data_codeword sys hw]
  exact made

theorem distance_eq_one_iff_flipCell {x y : Codeword} (hx : BinaryCells x.toList) (hy : code.IsCodeword y) :
    distance x y = 1 ↔ ∃ i, flipCell x i = y :=
  distance_eq_one_iff hx hy.binaryCells

/-- The cells of a row decode as the bounded distance decoder of radius 1 has it. -/
structure DecodesWithinOne (code : Code) (cells : List Cell) : Prop where
  /-- Anything but eleven zeros and ones is refused. -/
  malformed : ¬ (cells.length = 11 ∧ BinaryCells cells) → code.decode cells = .uncorrectable
  valid : ∀ x : Codeword, x.toList = cells → BinaryCells cells → ∀ w,
    code.decode cells = .valid w ↔ code.encode w.toList = .ok x
  corrected : ∀ x : Codeword, x.toList = cells → BinaryCells cells →
    ((code.decode cells).verdict = .corrected ↔
      ¬ code.IsCodeword x ∧ ∃ y, code.IsCodeword y ∧ distance x y = 1)
  correctedData : ∀ x : Codeword, x.toList = cells → ∀ w, code.decode cells = .corrected w →
    ∃ y, code.encode w.toList = .ok y ∧ distance x y = 1
  uncorrectable : ∀ x : Codeword, x.toList = cells → BinaryCells cells →
    (code.decode cells = .uncorrectable ↔ ∀ y, code.IsCodeword y → 1 < distance x y)
  /-- Encoding six zeros and ones succeeds, and decoding gives them back. -/
  roundTrip : ∀ w : Data, BinaryCells w.toList → ∃ y, code.encode w.toList = .ok y ∧
    code.decode y.toList = .valid w
  /-- Data is returned unless the row is uncorrectable. -/
  returned : (code.decode cells).data?.isSome ↔ (code.decode cells).verdict ≠ .uncorrectable

section

variable (sys : code.Systematic) {x : Codeword} (hx : BinaryCells x.toList)
include sys hx

/-- A row is valid for a word exactly when the word is encoded as that row. -/
theorem decode_eq_valid_iff (w : Data) : code.decode x.toList = .valid w ↔ code.encode w.toList = .ok x := by
  have codeword := isCodeword_iff sys hx
  have diagnosis := diagnosis_decode sys hx
  have encoded (h : code.encode w.toList = .ok x) : code.extendedSyndrome x = 0 := codeword.1 ⟨_, h⟩
  generalize code.decode x.toList = result at diagnosis
  cases diagnosis with
  | valid zero =>
    constructor
    · intro same
      cases same
      exact encode_data_of_isCodeword sys (codeword.2 zero)
    · intro h
      obtain ⟨hw, rfl⟩ := encode_eq_ok_iff.1 h
      rw [data_codeword sys hw]
  | corrected i column =>
    refine ⟨nofun, fun h => ?_⟩
    exact absurd (column.symm.trans (encoded h)) (extendedColumn_ne_zero code i)
  | uncorrectable nonzero none =>
    exact ⟨nofun, fun h => absurd (encoded h) nonzero⟩

omit hx in
/-- A codeword decodes to its data. -/
theorem decode_codeword {w : Data} (hw : BinaryCells w.toList) : code.decode (code.codeword w).toList = .valid w :=
  (decode_eq_valid_iff sys (binaryCells_codeword code w) w).2 (encode_toList hw)

/-- A row is corrected exactly when it is no codeword but next to one. -/
theorem verdict_decode_eq_corrected_iff : (code.decode x.toList).verdict = .corrected ↔
    ¬ code.IsCodeword x ∧ ∃ y, code.IsCodeword y ∧ distance x y = 1 := by
  have diagnosis := diagnosis_decode sys hx
  rw [isCodeword_iff sys hx]
  generalize code.decode x.toList = result at diagnosis
  cases diagnosis with
  | valid zero => exact ⟨nofun, fun h => absurd zero h.1⟩
  | corrected i column =>
    refine ⟨fun _ => ⟨?_, ?_⟩, fun _ => rfl⟩
    · exact column ▸ extendedColumn_ne_zero code i
    · exact ⟨_, (isCodeword_flipCell_iff sys hx i).2 column, distance_self_flipCell hx i⟩
  | uncorrectable nonzero none =>
    refine ⟨nofun, ?_⟩
    rintro ⟨_, y, hy, one⟩
    obtain ⟨i, rfl⟩ := (distance_eq_one_iff_flipCell hx hy).1 one
    exact absurd ((isCodeword_flipCell_iff sys hx i).1 hy) (none i)

/-- The word of a corrected row has its codeword next to the row. -/
theorem encode_of_decode_eq_corrected {w : Data} (h : code.decode x.toList = .corrected w) :
    ∃ y, code.encode w.toList = .ok y ∧ distance x y = 1 := by
  have diagnosis := diagnosis_decode sys hx
  rw [h] at diagnosis
  cases diagnosis with
  | corrected i column =>
    have near := (isCodeword_flipCell_iff sys hx i).2 column
    exact ⟨_, encode_data_of_isCodeword sys near, distance_self_flipCell hx i⟩

/-- A row is given up exactly when no codeword is at distance 0 or 1. -/
theorem decode_eq_uncorrectable_iff : code.decode x.toList = .uncorrectable ↔
    ∀ y, code.IsCodeword y → 1 < distance x y := by
  have diagnosis := diagnosis_decode sys hx
  generalize code.decode x.toList = result at diagnosis
  cases diagnosis with
  | valid zero =>
    refine ⟨nofun, fun far => ?_⟩
    have self := far x ((isCodeword_iff sys hx).2 zero)
    rw [distance_eq_zero.2 rfl] at self
    omega
  | corrected i column =>
    refine ⟨nofun, fun far => ?_⟩
    have near := far _ ((isCodeword_flipCell_iff sys hx i).2 column)
    rw [distance_self_flipCell hx i] at near
    omega
  | uncorrectable nonzero none =>
    refine ⟨fun _ y hy => ?_, fun _ => rfl⟩
    have zero : distance x y ≠ 0 := by
      intro h
      obtain rfl := distance_eq_zero.1 h
      exact nonzero ((isCodeword_iff sys hx).1 hy)
    have one : distance x y ≠ 1 := by
      intro h
      obtain ⟨i, rfl⟩ := (distance_eq_one_iff_flipCell hx hy).1 h
      exact none i ((isCodeword_flipCell_iff sys hx i).1 hy)
    omega

end

/-- **Decoding is bounded distance decoding of radius 1**, for every code made from zeros and ones. -/
theorem decodesWithinOne_ofSeed {seed : BitMatrix 6 10} (binary : seed.Binary) (built : ofSeed seed = .ok code)
    (cells : List Cell) : code.DecodesWithinOne cells := by
  have sys := systematic_ofSeed binary built
  constructor
  case malformed => exact decode_eq_uncorrectable_of_malformed
  case valid =>
    rintro x rfl hx w
    exact decode_eq_valid_iff sys hx w
  case corrected =>
    rintro x rfl hx
    exact verdict_decode_eq_corrected_iff sys hx
  case correctedData =>
    rintro x rfl w h
    have hx : BinaryCells x.toList := by
      by_contra malformed
      rw [decode_eq_uncorrectable_of_malformed (fun both => malformed both.2)] at h
      cases h
    exact encode_of_decode_eq_corrected sys hx h
  case uncorrectable =>
    rintro x rfl hx
    exact decode_eq_uncorrectable_iff sys hx
  case roundTrip =>
    intro w hw
    have made : code.encode w.toList = .ok (code.codeword w) := encode_eq_ok_iff.2 ⟨hw, rfl⟩
    exact ⟨code.codeword w, made, (decode_eq_valid_iff sys (binaryCells_codeword code w) w).2 made⟩
  case returned => cases code.decode cells <;> simp [Decoded.data?, Decoded.verdict]

theorem decodesWithinOne_standardSeed : standardSeed.Binary ∧ ofSeed standardSeed = .ok standard ∧
    standard.DecodesWithinOne [1, 0, 1, 1, 0, 0, 1, 0, 0, 1, 1] :=
  ⟨binary_standardSeed, ofSeed_standardSeed, decodesWithinOne_ofSeed binary_standardSeed ofSeed_standardSeed _⟩

end InstructionCard.Code
