import InstructionCard.Alphabet.Word
import InstructionCard.Proofs.Binary.Digits

/-!
# Cells as words

Six binary cells always make a word: its code is their number, and its bits are the cells. Of other cells the length
or the first cell above 1 is reported. The kind of a word always leads to its command.
-/

set_option autoImplicit false

namespace InstructionCard

namespace Word

/-- Looks up the command of a word by its kind. -/
def classify (word : Word) : Except WordError Command :=
  let code := UInt8.ofNat word.code
  match word.kind with
  | .operand => .ok (.operand (code &&& 15))
  | .instruction => (Instruction.ofCode code).map .instruction
  | .character => (Character.ofCode code).map .character

/-- No word is refused. -/
theorem classify_eq (word : Word) : word.classify = .ok word.command := by
  obtain ⟨code⟩ := word
  revert code
  decide

/-- A code below 128 has room for one more cell. -/
theorem toNat_shift {code bit : UInt8} (digit : bit.toNat < 2) (small : code.toNat < 128) :
    (code <<< 1 ||| bit).toNat = 2 * code.toNat + bit.toNat := by
  have shifted : (code <<< 1).toNat = code.toNat <<< 1 := by
    simp [UInt8.toNat_shiftLeft, Nat.shiftLeft_eq]
    omega
  rw [UInt8.toNat_or, shifted, ← Nat.shiftLeft_add_eq_or_of_lt (i := 1) digit, Nat.shiftLeft_eq]
  omega

/-- Binary cells are read as long as a byte has room for them. -/
theorem exists_readBits {cells : List Cell} (binary : BinaryCells cells) (code : UInt8) (index : Nat)
    (room : (code.toNat + 1) * 2 ^ cells.length ≤ 256) :
    ∃ result, readBits code index cells = .ok result ∧
      result.toNat = code.toNat * 2 ^ cells.length + binaryNumber cells := by
  induction cells generalizing code index with
  | nil => exact ⟨code, rfl, (Nat.mul_one _).symm⟩
  | cons bit bits ih =>
    obtain ⟨valid, binary⟩ := binaryCells_cons.1 binary
    have digit : bit.toNat < 2 := toNat_lt_two valid
    have split : (code.toNat + 1) * 2 ^ (bit :: bits).length = (2 * code.toNat + 2) * 2 ^ bits.length := by
      rw [List.length_cons, Nat.pow_succ]
      ring
    rw [split] at room
    have small : 2 * code.toNat + 2 ≤ 256 := Nat.le_trans (Nat.le_mul_of_pos_right _ (Nat.two_pow_pos _)) room
    have shifted : (code <<< 1 ||| bit).toNat = 2 * code.toNat + bit.toNat := toNat_shift digit (by omega)
    have next : (code <<< 1 ||| bit).toNat + 1 ≤ 2 * code.toNat + 2 := by omega
    obtain ⟨result, read, value⟩ := ih binary (code <<< 1 ||| bit) (index + 1)
      (Nat.le_trans (Nat.mul_le_mul_right _ next) room)
    refine ⟨result, by rw [readBits, if_pos valid, read], ?_⟩
    rw [value, shifted, binaryNumber_cons, List.length_cons, Nat.pow_succ]
    ring

/-- Reading stops at the first cell above 1. -/
theorem readBits_append {before after : List Cell} {value : Cell} (binary : BinaryCells before)
    (large : 1 < value) (code : UInt8) (index : Nat) :
    readBits code index (before ++ value :: after) = .error (.invalidBit (index + before.length) value) := by
  induction before generalizing code index with
  | nil =>
    have invalid : ¬ (value = 0 ∨ value = 1) := fun valid => not_one_lt_iff.2 valid large
    rw [List.nil_append, readBits, if_neg invalid, List.length_nil, Nat.add_zero]
  | cons cell before ih =>
    obtain ⟨valid, binary⟩ := binaryCells_cons.1 binary
    rw [List.cons_append, readBits, if_pos valid, ih binary, List.length_cons, Nat.add_right_comm, Nat.add_assoc]

/-- Six zeros and ones are read as the number whose binary digits they are. -/
theorem exists_ofBits {cells : List Cell} (binary : BinaryCells cells) (length : cells.length = 6) :
    ∃ word, ofBits cells = .ok word ∧ word.code.val = binaryNumber cells := by
  obtain ⟨code, read, value⟩ := exists_readBits binary 0 0 (by simp [length])
  have same : code.toNat = binaryNumber cells := by simpa using value
  have small : code.toNat < 64 := by
    have bound := binaryNumber_lt binary
    rw [length] at bound
    omega
  refine ⟨⟨code.toNat, small⟩, ?_, same⟩
  rw [ofBits, if_neg (not_not.2 length), read]
  exact dif_pos small

theorem ofBits_of_length_ne {cells : List Cell} (other : cells.length ≠ 6) :
    ofBits cells = .error (.length cells.length) :=
  if_pos other

/-- Six cells are refused for the first one above 1. -/
theorem ofBits_append {before after : List Cell} {value : Cell} (length : (before ++ value :: after).length = 6)
    (binary : BinaryCells before) (large : 1 < value) :
    ofBits (before ++ value :: after) = .error (.invalidBit before.length value) := by
  rw [ofBits, if_neg (not_not.2 length), readBits_append binary large, Nat.zero_add]

/-- What reading cells as a word comes to. -/
inductive Reading (cells : List Cell) : Except WordError Word → Prop where
  | length (other : cells.length ≠ 6) : Reading cells (.error (.length cells.length))
  | invalidBit {before after : List Cell} {value : Cell} (six : cells.length = 6)
      (split : cells = before ++ value :: after) (binary : BinaryCells before) (large : 1 < value) :
      Reading cells (.error (.invalidBit before.length value))
  | word {word : Word} (six : cells.length = 6) (binary : BinaryCells cells)
      (value : word.code.val = binaryNumber cells) : Reading cells (.ok word)

/-- The length is looked at first, then the cells, and what is left is in range. -/
theorem reading_ofBits (cells : List Cell) : Reading cells (ofBits cells) := by
  by_cases six : cells.length = 6
  · by_cases binary : BinaryCells cells
    · obtain ⟨word, read, value⟩ := exists_ofBits binary six
      rw [read]
      exact .word six binary value
    · obtain ⟨before, value, after, rfl, valid, large⟩ := exists_first_invalid binary
      rw [ofBits_append six valid large]
      exact .invalidBit six rfl valid large
  · rw [ofBits_of_length_ne six]
    exact .length six

theorem ofBits_eq_ok {cells : List Cell} {word : Word} (read : ofBits cells = .ok word) :
    cells.length = 6 ∧ BinaryCells cells ∧ word.code.val = binaryNumber cells := by
  have reading := reading_ofBits cells
  rw [read] at reading
  cases reading with
  | word six binary value => exact ⟨six, binary, value⟩

/-- Six binary digits never leave the alphabet. -/
theorem ofBits_ne_outOfRange (cells : List Cell) (number : UInt8) : ofBits cells ≠ .error (.outOfRange number) := by
  intro refused
  have reading := reading_ofBits cells
  rw [refused] at reading
  cases reading

/-- Six zeros and ones are read as a word, and nothing else is. -/
theorem exists_ofBits_iff {cells : List Cell} :
    (∃ word, ofBits cells = .ok word) ↔ cells.length = 6 ∧ BinaryCells cells := by
  constructor
  · rintro ⟨word, read⟩
    obtain ⟨six, binary, _⟩ := ofBits_eq_ok read
    exact ⟨six, binary⟩
  · rintro ⟨six, binary⟩
    obtain ⟨word, read, _⟩ := exists_ofBits binary six
    exact ⟨word, read⟩

/-- The bits of a word are the cells its code is the number of. -/
theorem toList_bits {cells : List Cell} {word : Word} (binary : BinaryCells cells) (length : cells.length = 6)
    (value : word.code.val = binaryNumber cells) : word.bits.toList = cells := by
  apply toList_digits binary length
  rw [UInt8.toNat_ofNat_of_lt' (Nat.lt_trans word.code.isLt (by decide)), value]

end Word

end InstructionCard
