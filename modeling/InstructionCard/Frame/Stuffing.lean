/-!
# Byte stuffing

Bytes are rewritten without zeros, so that a zero can end them. They are cut into blocks, each behind a
code byte that tells the distance to the next code byte. A block stands for its bytes and a zero, but
after the code 255 there is no zero, and the zero of the last block is not part of the bytes.
`stuff` writes this form and `unstuff` reads it. Main statements: stuffed bytes hold no zero
(`ne_zero_of_mem_stuff`) and are read back (`unstuff_stuff`).
-/

set_option autoImplicit false

namespace InstructionCard.Frame

/-- A block behind its code byte. -/
def closeBlock (block : List UInt8) : List UInt8 :=
  UInt8.ofNat (block.length + 1) :: block

/-- Stuffs the bytes after the zero-free `block` that is not yet closed. A block holds 254 bytes at
most. -/
def stuffAfter (block : List UInt8) : List UInt8 → List UInt8
  | [] => closeBlock block
  | byte :: rest =>
    if byte = 0 then closeBlock block ++ stuffAfter [] rest
    else if block.length = 253 then closeBlock (block ++ [byte]) ++ stuffAfter [] rest
    else stuffAfter (block ++ [byte]) rest

/-- The bytes without zeros. -/
def stuff (bytes : List UInt8) : List UInt8 :=
  stuffAfter [] bytes

/-- What came of reading stuffed bytes. -/
structure Unstuffed where
  /-- The bytes read, also when the reading broke off. -/
  bytes : List UInt8
  /-- Whether every block was there in full. -/
  intact : Bool
deriving DecidableEq, Repr

/-- The same with bytes read before. -/
def Unstuffed.after (bytes : List UInt8) (u : Unstuffed) : Unstuffed :=
  ⟨bytes ++ u.bytes, u.intact⟩

/-- Reads on with `left` bytes of a block to come; `owed` tells whether a zero stands between this block
and the next. A code byte that points past the end breaks the reading off. -/
def unstuffAfter (left : Nat) (owed : Bool) : List UInt8 → Unstuffed
  | [] => ⟨[], true⟩
  | byte :: rest =>
    match left with
    | left + 1 => (unstuffAfter left owed rest).after [byte]
    | 0 =>
      let block : Unstuffed :=
        if rest.length < byte.toNat - 1 then ⟨[], false⟩
        else unstuffAfter (byte.toNat - 1) (byte != 255) rest
      block.after (if owed then [0] else [])

/-- The bytes that zero-free bytes stand for. -/
def unstuff (bytes : List UInt8) : Unstuffed :=
  unstuffAfter 0 false bytes

/-! ## Stuffed bytes hold no zero -/

theorem toNat_code {n : Nat} (h : n ≤ 254) : (UInt8.ofNat (n + 1)).toNat = n + 1 := by
  rw [UInt8.toNat_ofNat']
  omega

theorem ne_zero_of_mem_closeBlock {block : List UInt8} (hl : block.length ≤ 254)
    (hb : ∀ b ∈ block, b ≠ 0) : ∀ b ∈ closeBlock block, b ≠ 0 := by
  intro b hm
  rcases List.mem_cons.1 hm with rfl | hm
  · intro h
    have := toNat_code hl
    rw [h] at this
    simp at this
  · exact hb b hm

theorem ne_zero_of_mem_stuffAfter {block bytes : List UInt8} (hl : block.length ≤ 253)
    (hb : ∀ b ∈ block, b ≠ 0) : ∀ b ∈ stuffAfter block bytes, b ≠ 0 := by
  induction bytes generalizing block with
  | nil => exact ne_zero_of_mem_closeBlock (by omega) hb
  | cons byte rest ih =>
    have fresh : ∀ b ∈ stuffAfter [] rest, b ≠ 0 := ih (by simp) (by simp)
    unfold stuffAfter
    by_cases h0 : byte = 0
    · rw [if_pos h0]
      intro b hm
      rcases List.mem_append.1 hm with hm | hm
      · exact ne_zero_of_mem_closeBlock (by omega) hb b hm
      · exact fresh b hm
    · have hb' : ∀ b ∈ block ++ [byte], b ≠ 0 := by
        intro b hm
        rcases List.mem_append.1 hm with hm | hm
        · exact hb b hm
        · rw [List.mem_singleton.1 hm]
          exact h0
      rw [if_neg h0]
      by_cases full : block.length = 253
      · rw [if_pos full]
        intro b hm
        rcases List.mem_append.1 hm with hm | hm
        · exact ne_zero_of_mem_closeBlock (by simp [full]) hb' b hm
        · exact fresh b hm
      · rw [if_neg full]
        exact ih (by simp; omega) hb'

theorem ne_zero_of_mem_stuff (bytes : List UInt8) : ∀ b ∈ stuff bytes, b ≠ 0 :=
  ne_zero_of_mem_stuffAfter (by simp) (by simp)

/-! ## Unstuffing undoes stuffing -/

theorem unstuffAfter_length_append (block rest : List UInt8) (owed : Bool) :
    unstuffAfter block.length owed (block ++ rest) = (unstuffAfter 0 owed rest).after block := by
  induction block with
  | nil => rfl
  | cons byte block ih =>
    show (unstuffAfter block.length owed (block ++ rest)).after [byte] = _
    rw [ih]
    rfl

theorem unstuffAfter_code (owed : Bool) (code : UInt8) (rest : List UInt8)
    (h : code.toNat - 1 ≤ rest.length) :
    unstuffAfter 0 owed (code :: rest) =
      (unstuffAfter (code.toNat - 1) (code != 255) rest).after (if owed then [0] else []) := by
  show Unstuffed.after _ (if _ then _ else _) = _
  rw [if_neg (Nat.not_lt.2 h)]

/-- A whole block is read back. Only after a full one no zero is owed. -/
theorem unstuffAfter_closeBlock_append {block : List UInt8} (hl : block.length ≤ 254)
    (rest : List UInt8) (owed : Bool) :
    unstuffAfter 0 owed (closeBlock block ++ rest) =
      ((unstuffAfter 0 (block.length != 254) rest).after block).after (if owed then [0] else []) := by
  have code : (UInt8.ofNat (block.length + 1)).toNat - 1 = block.length := by
    rw [toNat_code hl]
    rfl
  have last : (UInt8.ofNat (block.length + 1) != 255) = (block.length != 254) := by
    rw [Bool.eq_iff_iff]
    simp only [bne_iff_ne, ne_eq, ← UInt8.toNat_inj, toNat_code hl]
    show ¬ block.length + 1 = 255 ↔ _
    omega
  show unstuffAfter 0 owed (UInt8.ofNat (block.length + 1) :: (block ++ rest)) = _
  rw [unstuffAfter_code _ _ _ (by rw [code]; simp), code, last, unstuffAfter_length_append]

theorem unstuffAfter_stuffAfter {block bytes : List UInt8} (hl : block.length ≤ 253) (owed : Bool) :
    unstuffAfter 0 owed (stuffAfter block bytes) =
      ⟨(if owed then [0] else []) ++ block ++ bytes, true⟩ := by
  induction bytes generalizing block owed with
  | nil =>
    have h := unstuffAfter_closeBlock_append (show block.length ≤ 254 by omega) [] owed
    simpa [unstuffAfter, stuffAfter, Unstuffed.after] using h
  | cons byte rest ih =>
    unfold stuffAfter
    by_cases h0 : byte = 0
    · have short : (block.length != 254) = true := by
        simp
        omega
      rw [if_pos h0, unstuffAfter_closeBlock_append (by omega), ih (by simp)]
      simp [Unstuffed.after, short, h0]
    · rw [if_neg h0]
      by_cases full : block.length = 253
      · rw [if_pos full, unstuffAfter_closeBlock_append (by simp [full]), ih (by simp)]
        simp [Unstuffed.after, full]
      · rw [if_neg full, ih (by simp; omega)]
        simp

theorem unstuff_stuff (bytes : List UInt8) : unstuff (stuff bytes) = ⟨bytes, true⟩ :=
  unstuffAfter_stuffAfter (by simp) false

end InstructionCard.Frame
