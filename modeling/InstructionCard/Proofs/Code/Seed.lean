import InstructionCard.Proofs.Binary.Elimination
import InstructionCard.Proofs.Code.Decoder

/-!
# What a seed makes of a code

A code can be made from any cells, and row operations neither make nor lose cells other than 0 and 1. So a
code keeps its promises exactly when its seed consists of zeros and ones: from other cells there come
codes in which two data words have one codeword. Seeds of zeros and ones that are row equivalent make one
code.
-/

set_option autoImplicit false

namespace InstructionCard.Code

variable {seed : BitMatrix 6 10} {code : Code}

/-- Both matrices consist of zeros and ones, the generator starts with the identity, and every data word
comes back from its codeword. -/
structure Unbroken (code : Code) : Prop where
  generator : code.generator.Binary
  parityCheck : code.parityCheck.Binary
  identity : ∀ (i j : Nat) (hi : i < 6) (hj : j < 6), code.generator[i][j] = if i = j then 1 else 0
  roundTrip : ∀ w : Data, BinaryCells w.toList →
    ∃ x, code.encode w.toList = .ok x ∧ code.decode x.toList = .valid w

/-- A systematic code hands every word back. -/
theorem unbroken_of_systematic (sys : code.Systematic) : code.Unbroken := by
  constructor
  case generator => exact sys.binary
  case parityCheck => exact binary_parityCheck sys
  case identity =>
    intro i j hi hj
    exact sys.unit i j hi (by omega) hj
  case roundTrip =>
    intro w hw
    exact ⟨_, encode_toList hw, decode_codeword sys hw⟩

/-- **A code is unbroken exactly when its seed consists of zeros and ones**, for seeds of any cells. -/
theorem unbroken_iff_binary (built : ofSeed seed = .ok code) : code.Unbroken ↔ seed.Binary := by
  have run := systematicForm_of_ofSeed built
  constructor
  · intro unbroken
    exact (BitMatrix.rowOperations_systematicForm run).binary_iff.1 unbroken.generator
  · intro binary
    exact unbroken_of_systematic (systematic_ofSeed binary built)

theorem unbroken_iff_binary_standardSeed :
    ofSeed standardSeed = .ok standard ∧ (standard.Unbroken ↔ standardSeed.Binary) :=
  ⟨ofSeed_standardSeed, unbroken_iff_binary ofSeed_standardSeed⟩

/-- A seed whose first two rows agree in the lowest bits of its left block. -/
def crossedSeed : BitMatrix 6 10 := BitMatrix.ofLists 6 10
  [[1, 3, 0, 0, 0, 0, 2, 0, 0, 0],
   [3, 1, 0, 0, 0, 0, 0, 0, 0, 0],
   [0, 0, 1, 0, 0, 0, 1, 1, 0, 0],
   [0, 0, 0, 1, 0, 0, 1, 0, 1, 0],
   [0, 0, 0, 0, 1, 0, 0, 1, 1, 0],
   [0, 0, 0, 0, 0, 1, 1, 1, 1, 1]]

/-- The crossed seed is taken for a generator as it stands. Nothing an unbroken code has is left: two data
words have one codeword, and that decodes to a third one. -/
theorem broken_crossedSeed : ∃ code, ofSeed crossedSeed = .ok code ∧ ¬ code.generator.Binary ∧
    ¬ code.parityCheck.Binary ∧ code.generator[0][1] = 3 ∧
    code.encode [1, 0, 0, 0, 0, 0] = .ok #v[1, 1, 0, 0, 0, 0, 0, 0, 0, 0, 0] ∧
    code.encode [0, 1, 0, 0, 0, 0] = .ok #v[1, 1, 0, 0, 0, 0, 0, 0, 0, 0, 0] ∧
    code.decode [1, 1, 0, 0, 0, 0, 0, 0, 0, 0, 0] = .valid #v[1, 1, 0, 0, 0, 0] :=
  ⟨⟨crossedSeed⟩, by decide +kernel⟩

/-! ## Row equivalent seeds -/

/-- **The systematic form is canonical.** Row equivalent matrices of zeros and ones, which are those that
row operations lead to, have one systematic form or stop at one column; a systematic form is its own; and
row equivalent seeds make one code or fail alike. -/
theorem canonical_systematicForm :
    (∀ {r c : Nat} {M N : BitMatrix r c}, M.Binary → N.Binary → M.RowEquivalent N →
      M.systematicForm = N.systematicForm) ∧
    (∀ {r c : Nat} {M N : BitMatrix r c}, M.Binary → N.Binary →
      (M.RowEquivalent N ↔ BitMatrix.RowOperations M N)) ∧
    (∀ {r c : Nat} {M N : BitMatrix r c}, M.Binary → M.systematicForm = .ok N →
      N.systematicForm = .ok N) ∧
    ∀ {seed seed' : BitMatrix 6 10}, seed.Binary → seed'.Binary → seed.RowEquivalent seed' →
      ofSeed seed = ofSeed seed' := by
  refine ⟨fun hM hN h => h.systematicForm_eq hM hN, BitMatrix.rowEquivalent_iff_rowOperations, ?_, ?_⟩
  · intro r c M N hM run
    obtain ⟨reduced, equivalent⟩ := (BitMatrix.systematicForm_eq_ok_iff hM).1 run
    rw [← equivalent.systematicForm_eq hM reduced.binary, run]
  · intro seed seed' hseed hseed' h
    rw [ofSeed, ofSeed, h.systematicForm_eq hseed hseed']

/-- The standard seed with two rows exchanged and one added to another makes the standard code. -/
theorem canonical_systematicForm_standardSeed :
    standardSeed.Binary ∧ ((standardSeed.swapRows 0 4).addRow 2 3).Binary ∧
      standardSeed.RowEquivalent ((standardSeed.swapRows 0 4).addRow 2 3) ∧
      ofSeed standardSeed = ofSeed ((standardSeed.swapRows 0 4).addRow 2 3) := by
  have other : ((standardSeed.swapRows 0 4).addRow 2 3).Binary := by decide +kernel
  have reach : BitMatrix.RowOperations standardSeed ((standardSeed.swapRows 0 4).addRow 2 3) :=
    .tail (.single (.swap 0 4)) (.add 2 3 (by decide))
  exact ⟨binary_standardSeed, other, reach.rowEquivalent,
    canonical_systematicForm.2.2.2 binary_standardSeed other reach.rowEquivalent⟩

end InstructionCard.Code
