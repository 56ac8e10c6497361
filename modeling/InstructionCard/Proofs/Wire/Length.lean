import InstructionCard.Proofs.Wire.Lawful

/-!
# How long written values are

A bound for every wire format, put together from those of its parts. Main results: an event takes fourteen
bytes at most (`Wire.atMost_event`), the settings fifteen (`Wire.atMost_config`).
-/

set_option autoImplicit false

namespace InstructionCard

/-- At most `left` bytes stand in front of the last one. -/
theorem Varint.length_writeNat_le (n left : Nat) : (writeNat n left).length ≤ left + 1 := by
  induction left generalizing n with
  | zero => exact Nat.le_refl 1
  | succ left ih =>
    rw [writeNat]
    split
    · exact Nat.succ_le_succ (Nat.zero_le _)
    · exact Nat.succ_le_succ (ih (n / 128))

namespace Wire

/-- No written value takes more than `n` bytes. -/
def AtMost (α : Type) [Wire α] (n : Nat) : Prop :=
  ∀ a : α, (write a).length ≤ n

theorem atMost_uint32 : AtMost UInt32 5 :=
  fun n => Varint.length_writeNat_le n.toNat 4

theorem atMost_uint8 : AtMost UInt8 1 :=
  fun _ => Nat.le_refl 1

theorem atMost_bool : AtMost Bool 1 :=
  fun _ => Nat.le_refl 1

theorem atMost_vector (n : Nat) : AtMost (Vector UInt8 n) n :=
  fun bytes => Nat.le_of_eq bytes.length_toList

section

variable {α β : Type} [Wire α] [Wire β] {m n : Nat}

theorem AtMost.option (bound : AtMost α n) : AtMost (Option α) (n + 1)
  | none => Nat.succ_le_succ (Nat.zero_le n)
  | some a => Nat.succ_le_succ (bound a)

/-- The parts of a record add up. -/
theorem AtMost.prod (left : AtMost α m) (right : AtMost β n) : AtMost (α × β) (m + n) := by
  rintro ⟨a, b⟩
  change (write a ++ write b).length ≤ m + n
  rw [List.length_append]
  exact Nat.add_le_add (left a) (right b)

theorem length_writeIndex {index : Nat} (small : index < 128) : (writeIndex index).length = 1 := by
  rw [writeIndex, Varint.write, toNat_index (Nat.le_of_lt small), Varint.writeNat, if_pos small]
  rfl

theorem atMost_fin (small : n ≤ 128) : AtMost (Fin n) 1 :=
  fun i => Nat.le_of_eq (length_writeIndex (Nat.lt_of_lt_of_le i.isLt small))

/-- The index of a constructor takes one byte. -/
theorem AtMost.choice (bound : AtMost α m) (le : m ≤ n) {index : Nat} (small : index < 128) (a : α) :
    (writeIndex index ++ write a).length ≤ n + 1 := by
  rw [List.length_append, length_writeIndex small, Nat.add_comm]
  exact Nat.succ_le_succ (Nat.le_trans (bound a) le)

end

theorem atMost_verdict : AtMost Verdict 1 :=
  fun verdict => atMost_fin (by decide) verdict.index

theorem atMost_runState : AtMost RunState 1 :=
  fun state => atMost_fin (by decide) state.index

theorem atMost_symbol : AtMost Symbol 1 :=
  fun s => atMost_fin (by decide) s.index

theorem atMost_instruction : AtMost Instruction 1 :=
  fun i => atMost_fin (by decide) i.index

theorem atMost_character : AtMost Character 1 :=
  fun c => atMost_fin (by decide) c.index

theorem atMost_value : AtMost Value 2
  | .byte b => atMost_uint8.choice (by decide) (by decide) b
  | .symbol s => atMost_symbol.choice (by decide) (by decide) s

theorem atMost_command : AtMost Command 2
  | .operand value => atMost_uint8.choice (by decide) (by decide) value
  | .instruction i => atMost_instruction.choice (by decide) (by decide) i
  | .character c => atMost_character.choice (by decide) (by decide) c

/-- The longest events are decoded words and reports of steps. -/
theorem atMost_event : AtMost Event 14
  | .rowDecoded row data? verdict =>
    (atMost_uint32.prod ((atMost_vector 6).option.prod atMost_verdict)).choice (by decide) (by decide)
      (row, data?, verdict)
  | .reread row attempt => (atMost_uint32.prod atMost_uint32).choice (by decide) (by decide) (row, attempt)
  | .adjustmentRequested row attempt =>
    (atMost_uint32.prod atMost_uint32).choice (by decide) (by decide) (row, attempt)
  | .executed row command? state top? overflow =>
    (atMost_uint32.prod (atMost_command.option.prod (atMost_runState.prod
      (atMost_value.option.prod atMost_bool)))).choice (by decide) (by decide)
      (row, command?, state, top?, overflow)

theorem atMost_config : AtMost Config 15 :=
  fun config => (atMost_uint32.prod (atMost_uint32.prod atMost_uint32))
    (config.rows, config.rereads, config.adjustments)

end Wire

end InstructionCard
