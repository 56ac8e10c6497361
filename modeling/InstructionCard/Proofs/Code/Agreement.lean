import InstructionCard.Proofs.Alphabet.Word
import InstructionCard.Proofs.Code.Decoder

/-!
# Codes and words read the same cells

A code reads data cells to encode them, a word is read from its bits. Both take exactly six zeros and ones and
report the same fault of other cells, and the word shows the bits that decoding its codeword gives back. Main
result: `Code.agreesWithWord_ofSeed`.
-/

set_option autoImplicit false

namespace InstructionCard.Code

variable {code : Code} {cells : List Cell}

/-! ## What encoding takes -/

theorem encode_of_length_ne (other : cells.length ≠ 6) :
    code.encode cells = .error (.length 6 cells.length) := by
  rw [encode, readCells_of_length_ne other]

/-- A code refuses six cells for the first one above 1. -/
theorem encode_append {before after : List Cell} {value : Cell} (length : (before ++ value :: after).length = 6)
    (binary : BinaryCells before) (large : 1 < value) :
    code.encode (before ++ value :: after) = .error (.invalidBit before.length value) := by
  rw [encode, readCells_append length binary large]

/-- Six zeros and ones are encoded, and nothing else is. -/
theorem exists_encode_iff : (∃ x, code.encode cells = .ok x) ↔ cells.length = 6 ∧ BinaryCells cells := by
  constructor
  · rintro ⟨x, made⟩
    obtain ⟨w, rfl, binary, _⟩ := encode_eq_ok made
    exact ⟨w.length_toList, binary⟩
  · rintro ⟨length, binary⟩
    obtain ⟨w, rfl⟩ : ∃ w : Data, w.toList = cells := ⟨⟨cells.toArray, length⟩, rfl⟩
    exact ⟨_, encode_toList binary⟩

/-! ## Agreement -/

/-- Encoding and reading a word agree on the cells. -/
structure AgreesWithWord (code : Code) (cells : List Cell) : Prop where
  /-- Exactly six zeros and ones are encoded. -/
  encoded : (∃ x, code.encode cells = .ok x) ↔ cells.length = 6 ∧ BinaryCells cells
  /-- Exactly six zeros and ones are a word. -/
  read : (∃ word, Word.ofBits cells = .ok word) ↔ cells.length = 6 ∧ BinaryCells cells
  /-- Another number of cells is reported, whatever they are. -/
  length : cells.length ≠ 6 → code.encode cells = .error (.length 6 cells.length) ∧
    Word.ofBits cells = .error (.length cells.length)
  /-- Of six cells, the first one above 1 is reported with its index. -/
  invalidBit : cells.length = 6 → ¬ BinaryCells cells → ∃ before value after,
    cells = before ++ value :: after ∧ BinaryCells before ∧ 1 < value ∧
      code.encode cells = .error (.invalidBit before.length value) ∧
      Word.ofBits cells = .error (.invalidBit before.length value)
  /-- The code of six bits is never too large for a word. -/
  inRange : ∀ number, Word.ofBits cells ≠ .error (.outOfRange number)
  /-- The word has the cells as its bits, and as its code the number they are the digits of. -/
  word : ∀ word, Word.ofBits cells = .ok word →
    word.bits.toList = cells ∧ word.code.val = binaryNumber cells
  /-- The codeword decodes to the cells. -/
  roundTrip : ∀ x, code.encode cells = .ok x → ∃ w : Data, w.toList = cells ∧ code.decode x.toList = .valid w

/-- Six cells that are not all zeros and ones are refused alike by the code and as a word. -/
theorem exists_invalidBit (length : cells.length = 6) (invalid : ¬ BinaryCells cells) :
    ∃ before value after, cells = before ++ value :: after ∧ BinaryCells before ∧ 1 < value ∧
      code.encode cells = .error (.invalidBit before.length value) ∧
      Word.ofBits cells = .error (.invalidBit before.length value) := by
  obtain ⟨before, value, after, rfl, binary, large⟩ := exists_first_invalid invalid
  exact ⟨before, value, after, rfl, binary, large, encode_append length binary large,
    Word.ofBits_append length binary large⟩

/-- **A code and the words read the same cells**, for every code made from zeros and ones. -/
theorem agreesWithWord_ofSeed {seed : BitMatrix 6 10} (binary : seed.Binary) (built : ofSeed seed = .ok code)
    (cells : List Cell) : code.AgreesWithWord cells := by
  have sys := systematic_ofSeed binary built
  constructor
  case encoded => exact exists_encode_iff
  case read => exact Word.exists_ofBits_iff
  case length =>
    intro other
    exact ⟨encode_of_length_ne other, Word.ofBits_of_length_ne other⟩
  case invalidBit => exact exists_invalidBit
  case inRange => exact Word.ofBits_ne_outOfRange cells
  case word =>
    intro word read
    obtain ⟨length, binary, value⟩ := Word.ofBits_eq_ok read
    exact ⟨Word.toList_bits binary length value, value⟩
  case roundTrip =>
    intro x made
    obtain ⟨w, rfl, hw, rfl⟩ := encode_eq_ok made
    exact ⟨w, rfl, decode_codeword sys hw⟩

/-- A word that is accepted, and cells that are refused for the 2 at place 2. -/
theorem agreesWithWord_standardSeed : standardSeed.Binary ∧ ofSeed standardSeed = .ok standard ∧
    standard.AgreesWithWord [0, 1, 1, 0, 1, 0] ∧ standard.AgreesWithWord [0, 1, 2, 1, 255, 0] :=
  ⟨binary_standardSeed, ofSeed_standardSeed, agreesWithWord_ofSeed binary_standardSeed ofSeed_standardSeed _,
    agreesWithWord_ofSeed binary_standardSeed ofSeed_standardSeed _⟩

end InstructionCard.Code
