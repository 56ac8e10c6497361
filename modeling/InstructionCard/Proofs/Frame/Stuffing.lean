import InstructionCard.Frame.Basic

/-!
# Stuffed bytes, cut and measured

What comes of stuffed bytes that are cut off: the cut is noticed if it goes through a block
(`Unstuffed.intact`), and if it falls between two blocks the reading can be taken up where it stopped
(`unstuffAfter_append`). Stuffing a short payload costs one byte, and unstuffing never needs more room than
there is.
-/

set_option autoImplicit false

namespace InstructionCard.Frame

/-- A code byte that points past the end writes no block, only the zero that was owed. -/
theorem unstuffAfter_past {code : UInt8} {rest : List UInt8} (past : rest.length < code.toNat - 1) (owed : Bool) :
    unstuffAfter 0 owed (code :: rest) = (⟨[], false⟩ : Unstuffed).after (if owed then [0] else []) := by
  change Unstuffed.after _ (if _ then _ else _) = _
  rw [if_pos past]

theorem unstuffAfter_succ (left : Nat) (owed : Bool) (byte : UInt8) (rest : List UInt8) :
    unstuffAfter (left + 1) owed (byte :: rest) = (unstuffAfter left owed rest).after [byte] := rfl

theorem after_after (first second : List UInt8) (u : Unstuffed) :
    (u.after second).after first = u.after (first ++ second) := by
  simp only [Unstuffed.after, List.append_assoc]

/-- Every byte that is written stands for one that was read: itself, or the code byte behind an owed zero. -/
theorem length_bytes_unstuffAfter_le (left : Nat) (owed : Bool) (bytes : List UInt8) :
    (unstuffAfter left owed bytes).bytes.length ≤ bytes.length := by
  induction bytes generalizing left owed with
  | nil => exact Nat.le_refl 0
  | cons byte rest ih =>
    cases left with
    | succ left =>
      show (byte :: (unstuffAfter left owed rest).bytes).length ≤ _
      exact Nat.succ_le_succ (ih left owed)
    | zero =>
      have zeros : (if owed then [(0 : UInt8)] else []).length ≤ 1 := by cases owed <;> decide
      rcases Nat.lt_or_ge rest.length (byte.toNat - 1) with past | covered
      · rw [unstuffAfter_past past]
        simp only [Unstuffed.after, List.append_nil, List.length_cons]
        omega
      · have block := ih (byte.toNat - 1) (byte != 255)
        rw [unstuffAfter_code _ _ _ covered]
        simp only [Unstuffed.after, List.length_append, List.length_cons]
        omega

/-- **A cut between two blocks.** Bytes that stop with a whole block can be followed by more. A zero is owed to
those, unless the block was a full one or there was none. -/
theorem unstuffAfter_append {left : Nat} {owed : Bool} {start : List UInt8} (covered : left ≤ start.length)
    (intact : (unstuffAfter left owed start).intact = true) :
    ∃ owed', (owed' = true ∨ 255 ≤ start.length ∨ start.length = left ∧ owed' = owed) ∧
      ∀ rest, unstuffAfter left owed (start ++ rest) =
        (unstuffAfter 0 owed' rest).after (unstuffAfter left owed start).bytes := by
  induction start generalizing left owed with
  | nil =>
    obtain rfl : left = 0 := Nat.le_zero.1 covered
    exact ⟨owed, .inr (.inr ⟨rfl, rfl⟩), fun rest => rfl⟩
  | cons byte start ih =>
    cases left with
    | succ left =>
      obtain ⟨owed', zero, follows⟩ := ih (Nat.le_of_succ_le_succ covered) intact
      refine ⟨owed', ?_, fun rest => ?_⟩
      · rw [List.length_cons]
        rcases zero with zero | long | ⟨length, same⟩
        · exact .inl zero
        · exact .inr (.inl (by omega))
        · exact .inr (.inr ⟨by omega, same⟩)
      · rw [List.cons_append, unstuffAfter_succ, follows, after_after]
        rfl
    | zero =>
      rcases Nat.lt_or_ge start.length (byte.toNat - 1) with past | covered
      · rw [unstuffAfter_past past] at intact
        cases intact
      · rw [unstuffAfter_code _ _ _ covered] at intact ⊢
        obtain ⟨owed', zero, follows⟩ := ih covered intact
        refine ⟨owed', ?_, fun rest => ?_⟩
        · rw [List.length_cons]
          rcases zero with zero | long | ⟨length, same⟩
          · exact .inl zero
          · exact .inr (.inl (by omega))
          · by_cases full : byte = 255
            · subst full
              exact .inr (.inl (by rw [length]; decide))
            · exact .inl (by rw [same]; simpa using full)
        · have more : byte.toNat - 1 ≤ (start ++ rest).length := by
            rw [List.length_append]
            omega
          rw [List.cons_append, unstuffAfter_code _ _ _ more, follows, after_after]
          rfl

/-- Of a stuffed payload that is cut off between two blocks, something is missing. -/
theorem exists_missing_of_intact {payload start rest : List UInt8} (parts : stuff payload = start ++ rest)
    (some : start ≠ []) (left : rest ≠ []) (short : start.length < 255) (intact : (unstuff start).intact = true) :
    ∃ missing, missing ≠ [] ∧ payload = (unstuff start).bytes ++ missing := by
  obtain ⟨owed, zero, follows⟩ := unstuffAfter_append (Nat.zero_le _) intact
  have owes : owed = true := by
    rcases zero with zero | long | ⟨none, _⟩
    · exact zero
    · omega
    · exact absurd (List.length_eq_zero_iff.1 none) some
  have whole : (unstuffAfter 0 owed rest).after (unstuff start).bytes = ⟨payload, true⟩ := by
    rw [← unstuff_stuff payload, parts]
    exact (follows rest).symm
  refine ⟨(unstuffAfter 0 owed rest).bytes, ?_, ?_⟩
  · -- The zero that is owed is missing at least.
    obtain ⟨code, rest, rfl⟩ := List.exists_cons_of_ne_nil left
    rw [owes]
    exact List.cons_ne_nil 0 _
  · have bytes := congrArg Unstuffed.bytes whole
    exact bytes.symm

/-- Without a full block there is one byte more than in the payload. -/
theorem length_stuffAfter {block bytes : List UInt8} (short : block.length + bytes.length ≤ 253) :
    (stuffAfter block bytes).length = block.length + bytes.length + 1 := by
  induction bytes generalizing block with
  | nil => rfl
  | cons byte rest ih =>
    rw [List.length_cons] at short
    rw [stuffAfter]
    split
    · have fresh : (stuffAfter [] rest).length = _ := ih (by rw [List.length_nil]; omega)
      rw [List.length_append, fresh, closeBlock, List.length_cons, List.length_cons, List.length_nil]
      omega
    · have room : block.length ≠ 253 := by omega
      have longer : (block ++ [byte]).length = block.length + 1 := by simp
      rw [if_neg room, ih (by rw [longer]; omega), longer, List.length_cons]
      omega

/-- One code byte is enough for a payload of up to 253 bytes. -/
theorem length_stuff {payload : List UInt8} (short : payload.length ≤ 253) :
    (stuff payload).length = payload.length + 1 := by
  have whole : (stuffAfter [] payload).length = _ := length_stuffAfter (by rw [List.length_nil]; omega)
  rwa [List.length_nil, Nat.zero_add] at whole

end InstructionCard.Frame
