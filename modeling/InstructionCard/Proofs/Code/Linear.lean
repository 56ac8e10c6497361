import InstructionCard.Proofs.Binary.Product
import InstructionCard.Proofs.Code.Codeword

/-!
# Encoding is linear

Encoding puts the data first and adds cells until an even number is set. The block of a data word is the sum of
the generator rows its set cells choose, and the codeword of a sum is the sum of the codewords. Main result:
`Code.encodesLinearly_ofSeed`.
-/

set_option autoImplicit false

namespace InstructionCard

section Rows

variable {n : Nat}

theorem addRows_push (v w : Vector Cell n) (a b : Cell) :
    addRows (v.push a) (w.push b) = (addRows v w).push (a ^^^ b) := by
  ext i hi
  simp only [getElem_addRows, Vector.getElem_push]
  split
  · rfl
  · rfl

/-- The parity of a sum of rows is the exclusive or of their parities, on raw cells too. -/
theorem parity_addRows (v w : Vector Cell n) :
    parity (addRows v w).toList = parity v.toList ^^^ parity w.toList := by
  have sums : parity v.toList ^^^ parity w.toList = 0 ∨ parity v.toList ^^^ parity w.toList = 1 :=
    xor_eq_zero_or_one (parity_eq_zero_or_one _) (parity_eq_zero_or_one _)
  apply cell_eq_of_bit_eq (parity_eq_zero_or_one _) sums
  rw [bit_xor, bit_parity_toList, bit_parity_toList, bit_parity_toList, bits_addRows]
  exact Finset.sum_add_distrib

end Rows

/-- The parity of zeros and ones is that of the number of ones. -/
theorem bit_parity_eq_count {cells : List Cell} (binary : BinaryCells cells) :
    bit (parity cells) = (cells.count 1 : ZMod 2) := by
  induction cells with
  | nil => rfl
  | cons cell cells ih =>
    obtain ⟨valid, binary⟩ := binaryCells_cons.1 binary
    rw [parity_cons, bit_xor, bit_and, ih binary, List.count_cons]
    rcases valid with rfl | rfl
    · simp
    · simp [add_comm]

namespace Code

variable {code : Code}

theorem block_addRows (code : Code) (v w : Data) :
    code.block (addRows v w) = addRows (code.block v) (code.block w) :=
  code.generator.transpose.mulVec_addRows v w

/-- The codeword of a sum is the sum of the codewords, and its last cell keeps the parity even. -/
theorem codeword_addRows (code : Code) (v w : Data) :
    code.codeword (addRows v w) = addRows (code.codeword v) (code.codeword w) := by
  rw [codeword, codeword, codeword, addRows_push, block_addRows, parity_addRows]

/-- The last cell evens out the ones. -/
theorem even_count_codeword (code : Code) (w : Data) : Even ((code.codeword w).toList.count 1) := by
  have zero : bit (parity (code.codeword w).toList) = 0 := by
    rw [bit_parity_toList, sum_bits_eq, pop_codeword, back_codeword]
    exact CharTwo.add_self_eq_zero _
  rw [bit_parity_eq_count (binaryCells_codeword code w)] at zero
  exact ZMod.natCast_eq_zero_iff_even.1 zero

/-- The block is the sum of the generator rows at the odd cells of the word. -/
theorem block_eq_sumRows (binary : code.generator.Binary) (w : Data) :
    code.block w = sumRows (code.generator.rowsAt (oddPlaces w)) := by
  have unmasked : ∀ row ∈ code.generator.rowsAt (oddPlaces w), lowestBits row = id row := by
    intro row member
    obtain ⟨i, _, rfl⟩ := List.mem_map.1 member
    exact lowestBits_of_binary (binary i)
  rw [block, BitMatrix.vecMul_eq_sumRows, List.map_congr_left unmasked, List.map_id]

/-- A row of even weight that carries the data: it starts with the data, and its block is the sum of the generator
rows at the set cells of the data. -/
structure Carries (code : Code) (w : Data) (x : Codeword) : Prop where
  binary : BinaryCells x.toList
  data : x.data = w
  even : Even (x.toList.count 1)
  block : x.pop = sumRows (code.generator.rowsAt (oddPlaces w))

theorem carries_codeword (sys : code.Systematic) {w : Data} (hw : BinaryCells w.toList) :
    code.Carries w (code.codeword w) := by
  refine ⟨binaryCells_codeword code w, data_codeword sys hw, even_count_codeword code w, ?_⟩
  rw [pop_codeword, block_eq_sumRows sys.binary]

/-- Encoding as a systematic linear map into the rows of even weight. -/
structure EncodesLinearly (code : Code) : Prop where
  encodes : ∀ w : Data, BinaryCells w.toList →
    ∃ x : Codeword, code.encode w.toList = .ok x ∧ code.Carries w x
  /-- The codeword of a sum is the sum of the codewords. -/
  adds : ∀ v w : Data, BinaryCells v.toList → BinaryCells w.toList → ∃ x y : Codeword,
    code.encode v.toList = .ok x ∧ code.encode w.toList = .ok y ∧
      code.encode (addRows v w).toList = .ok (addRows x y)

/-- **Encoding is a systematic linear map of even weight**, for every code made from zeros and ones. -/
theorem encodesLinearly_ofSeed {seed : BitMatrix 6 10} (binary : seed.Binary) (built : ofSeed seed = .ok code) :
    code.EncodesLinearly := by
  have sys := systematic_ofSeed binary built
  constructor
  case encodes =>
    intro w hw
    exact ⟨code.codeword w, encode_toList hw, carries_codeword sys hw⟩
  case adds =>
    intro v w hv hw
    refine ⟨code.codeword v, code.codeword w, encode_toList hv, encode_toList hw, ?_⟩
    rw [encode_toList (binaryCells_addRows hv hw), codeword_addRows]

theorem encodesLinearly_standardSeed : standardSeed.Binary ∧ ofSeed standardSeed = .ok standard ∧
    standard.EncodesLinearly :=
  ⟨binary_standardSeed, ofSeed_standardSeed, encodesLinearly_ofSeed binary_standardSeed ofSeed_standardSeed⟩

end Code

end InstructionCard
