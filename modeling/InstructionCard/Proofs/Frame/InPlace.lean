import InstructionCard.Proofs.Frame.Decode

/-!
# Unstuffing in place

The loop that undoes the stuffing inside the buffer, with one cursor for the code bytes it reads and one for
the bytes it writes. The second never passes the first, so what is still to be read is never overwritten:
the loop gives what `decode` and `unstuffInPlace` say (`decodeInPlace_eq`).
-/

set_option autoImplicit false

namespace InstructionCard.Frame

/-! ## The loop -/

/-- Copies so many bytes from `source` on to `target` and behind, one at a time. -/
def copyDown : Nat → Nat → Nat → List UInt8 → List UInt8
  | 0, _, _, buffer => buffer
  | count + 1, source, target, buffer =>
    copyDown count (source + 1) (target + 1) (buffer.set target (buffer.getD source 0))

/-- Unstuffs what is between `source` and `stop` and writes it from `target` on. Gives the end of the bytes
written, or nothing if a code byte points past `stop`. -/
def unstuffFrom (stop source target : Nat) (buffer : List UInt8) : Option Nat × List UInt8 :=
  if source < stop then
    let code := buffer.getD source 0
    let count := code.toNat - 1
    if stop < source + code.toNat ∧ code ≠ 1 then (none, buffer)
    else
      let buffer := copyDown count (source + 1) target buffer
      if code ≠ 255 ∧ source + 1 + count < stop then
        unstuffFrom stop (source + 1 + count) (target + count + 1) (buffer.set (target + count) 0)
      else unstuffFrom stop (source + 1 + count) (target + count) buffer
  else (some target, buffer)
termination_by stop - source

/-- Reads the frame at the start of a buffer and leaves the unstuffed bytes there. -/
def decodeInPlace {α : Type} [Wire α] (buffer : List UInt8) : Except FrameError α × List UInt8 :=
  if buffer.isEmpty then (.error (.wire .badEncoding), buffer)
  else match unstuffFrom (body buffer).length 0 0 buffer with
    | (none, buffer) => (.error (.wire .badEncoding), buffer)
    | (some stop, buffer) => match Wire.read (buffer.take stop) with
      | .ok (a, _) => (.ok a, buffer)
      | .error cause => (.error (.wire cause), buffer)

/-! ## Writing over the start of a buffer -/

/-- A buffer with other bytes in place of its first ones. -/
def overwrite (written original : List UInt8) : List UInt8 :=
  written ++ original.drop written.length

theorem overwrite_nil (original : List UInt8) : overwrite [] original = original := rfl

theorem unstuffInPlace_eq (buffer : List UInt8) :
    unstuffInPlace buffer = overwrite (unstuff (body buffer)).bytes buffer := rfl

variable {written original : List UInt8}

theorem set_overwrite (room : written.length < original.length) (byte : UInt8) :
    (overwrite written original).set written.length byte = overwrite (written ++ [byte]) original := by
  rw [overwrite, overwrite, List.set_append_right _ _ (Nat.le_refl _), Nat.sub_self, List.drop_eq_getElem_cons room,
    List.set_cons_zero, List.append_assoc, List.length_append, List.length_singleton, List.singleton_append]

/-- Bytes that are not yet written over are read as they were. -/
theorem getD_overwrite {source : Nat} {byte : UInt8} {rest : List UInt8} (behind : written.length ≤ source)
    (unread : original.drop source = byte :: rest) : (overwrite written original).getD source 0 = byte := by
  have there : original[source]? = some byte := by
    rw [← List.head?_drop, unread]
    rfl
  rw [List.getD_eq_getElem?_getD, overwrite, List.getElem?_append_right behind, List.getElem?_drop,
    Nat.add_sub_cancel' behind, there]
  rfl

theorem length_lt_of_drop {source : Nat} {byte : UInt8} {rest : List UInt8}
    (unread : original.drop source = byte :: rest) : source < original.length := by
  have lengths := congrArg List.length unread
  rw [List.length_drop, List.length_cons] at lengths
  omega

theorem drop_succ {source : Nat} {byte : UInt8} {rest : List UInt8}
    (unread : original.drop source = byte :: rest) : original.drop (source + 1) = rest := by
  rw [← List.drop_drop, unread]
  rfl

/-- Copying a block down writes it behind what is written, as it has not been overwritten yet. -/
theorem copyDown_overwrite {source : Nat} {block later : List UInt8} (behind : written.length ≤ source)
    (unread : original.drop source = block ++ later) :
    copyDown block.length source written.length (overwrite written original) =
      overwrite (written ++ block) original := by
  induction block generalizing source written with
  | nil =>
    rw [List.append_nil]
    rfl
  | cons byte block ih =>
    have room : written.length < original.length := Nat.lt_of_le_of_lt behind (length_lt_of_drop unread)
    have stillBehind : (written ++ [byte]).length ≤ source + 1 := by simpa using behind
    have next := ih stillBehind (drop_succ unread)
    rw [List.length_append, List.length_singleton] at next
    rw [List.length_cons, copyDown, getD_overwrite behind unread, set_overwrite room, next, List.append_assoc,
      List.singleton_append]

/-! ## The loop is unstuffing -/

/-- The zero owed after a block is only written if another block follows. -/
theorem unstuffAfter_owed {bytes : List UInt8} (more : bytes ≠ []) :
    unstuffAfter 0 true bytes = (unstuff bytes).after [0] := by
  obtain ⟨code, rest, rfl⟩ := List.exists_cons_of_ne_nil more
  show Unstuffed.after [0] _ = (Unstuffed.after [] _).after [0]
  rw [after_after]
  rfl

/-- The bytes of the block behind a code byte. -/
def blockBytes (code : UInt8) (block later : List UInt8) : List UInt8 :=
  if code ≠ 255 ∧ later ≠ [] then block ++ [0] else block

/-- One whole block is unstuffed, then the rest. -/
theorem unstuff_cons {code : UInt8} {block later : List UInt8} (whole : block.length = code.toNat - 1) :
    unstuff (code :: (block ++ later)) = (unstuff later).after (blockBytes code block later) := by
  have covered : code.toNat - 1 ≤ (block ++ later).length := by
    rw [List.length_append]
    omega
  rw [unstuff, unstuffAfter_code _ _ _ covered, ← whole, unstuffAfter_length_append, after_after, blockBytes]
  by_cases zero : code ≠ 255 ∧ later ≠ []
  · have owed : (code != 255) = true := by simpa using zero.1
    rw [if_pos zero, owed, unstuffAfter_owed zero.2, after_after]
    rfl
  · rw [if_neg zero]
    by_cases full : code = 255
    · subst full
      rfl
    · obtain rfl : later = [] := by
        by_contra more
        exact zero ⟨full, more⟩
      rfl

/-- The end of the bytes written, unless the unstuffing breaks off. -/
def Unstuffed.stop? (u : Unstuffed) (target : Nat) : Option Nat :=
  if u.intact then some (target + u.bytes.length) else none

/-- The end moves on by what was written before. -/
theorem Unstuffed.stop?_after (u : Unstuffed) (bytes : List UInt8) (target : Nat) :
    (u.after bytes).stop? target = u.stop? (target + bytes.length) := by
  rw [stop?, stop?, after, List.length_append, Nat.add_assoc]

section

variable {source : Nat} {code : UInt8} {behind : List UInt8}

/-- A block that reaches past the end breaks the loop off with its bytes left as they were. -/
theorem unstuffFrom_past {rest : List UInt8} (apart : written.length ≤ source)
    (unread : original.drop source = code :: (rest ++ behind)) (past : rest.length < code.toNat - 1) :
    unstuffFrom (source + 1 + rest.length) source written.length (overwrite written original) =
      (none, overwrite written original) := by
  have inside : source < source + 1 + rest.length := by omega
  have broken : source + 1 + rest.length < source + code.toNat ∧ code ≠ 1 := by
    refine ⟨by omega, ?_⟩
    rintro rfl
    exact Nat.not_lt_zero _ past
  rw [unstuffFrom, if_pos inside]
  simp only [getD_overwrite apart unread]
  rw [if_pos broken]

/-- **One turn of the loop.** What is still to be read is as it was, because nothing is written behind
`source`. -/
theorem unstuffFrom_turn {block later : List UInt8} (apart : written.length ≤ source)
    (unread : original.drop source = code :: (block ++ later ++ behind)) (whole : block.length = code.toNat - 1) :
    unstuffFrom (source + 1 + (block ++ later).length) source written.length (overwrite written original) =
      unstuffFrom (source + 1 + block.length + later.length) (source + 1 + block.length)
        (written ++ blockBytes code block later).length
        (overwrite (written ++ blockBytes code block later) original) := by
  have length : source + 1 + (block ++ later).length = source + 1 + block.length + later.length := by
    rw [List.length_append]
    omega
  have inside : source < source + 1 + block.length + later.length := by omega
  have intact : ¬ (source + 1 + block.length + later.length < source + code.toNat ∧ code ≠ 1) := by omega
  have next : original.drop (source + 1) = block ++ (later ++ behind) := by
    rw [drop_succ unread, List.append_assoc]
  rw [length, unstuffFrom, if_pos inside]
  simp only [getD_overwrite apart unread]
  rw [if_neg intact, ← whole, copyDown_overwrite (Nat.le_succ_of_le apart) next, ← List.length_append, blockBytes]
  by_cases zero : code ≠ 255 ∧ later ≠ []
  · have more : 0 < later.length := List.length_pos_iff.2 zero.2
    have room : (written ++ block).length < original.length := by
      have lengths := congrArg List.length next
      rw [List.length_drop, List.length_append, List.length_append] at lengths
      rw [List.length_append]
      omega
    have longer : (written ++ block ++ [0]).length = (written ++ block).length + 1 := by
      rw [List.length_append, List.length_singleton]
    rw [if_pos ⟨zero.1, by omega⟩, if_pos zero, set_overwrite room, ← List.append_assoc, longer]
  · have last : ¬ (code ≠ 255 ∧ source + 1 + block.length < source + 1 + block.length + later.length) := by
      rintro ⟨notFull, more⟩
      exact zero ⟨notFull, List.length_pos_iff.1 (by omega)⟩
    rw [if_neg last, if_neg zero]

theorem length_blockBytes_le (code : UInt8) (block later : List UInt8) :
    (blockBytes code block later).length ≤ block.length + 1 := by
  rw [blockBytes]
  split
  · rw [List.length_append, List.length_singleton]
  · exact Nat.le_succ _

/-- **The loop from any turn on.** -/
theorem unstuffFrom_overwrite {unread : List UInt8} (apart : written.length ≤ source)
    (there : original.drop source = unread ++ behind) :
    unstuffFrom (source + unread.length) source written.length (overwrite written original) =
      ((unstuff unread).stop? written.length, overwrite (written ++ (unstuff unread).bytes) original) := by
  induction length : unread.length using Nat.strongRecOn generalizing source written unread with
  | ind n ih =>
    subst length
    cases unread with
    | nil =>
      rw [List.length_nil, Nat.add_zero, unstuffFrom, if_neg (Nat.lt_irrefl _)]
      show _ = (some (written.length + 0), overwrite (written ++ []) original)
      rw [List.append_nil, Nat.add_zero]
    | cons code rest =>
      rw [List.length_cons, Nat.add_comm rest.length 1, ← Nat.add_assoc]
      rcases Nat.lt_or_ge rest.length (code.toNat - 1) with past | covered
      · rw [unstuffFrom_past apart there past]
        have broken : unstuff (code :: rest) = ⟨[], false⟩ := unstuffAfter_past past false
        rw [broken, List.append_nil]
        rfl
      · obtain ⟨block, later, rfl, whole⟩ : ∃ block later, rest = block ++ later ∧ block.length = code.toNat - 1 :=
          ⟨_, _, (List.take_append_drop (code.toNat - 1) rest).symm, List.length_take_of_le covered⟩
        have laterAt : original.drop (source + 1 + block.length) = later ++ behind := by
          have next : original.drop (source + 1) = block ++ later ++ behind := drop_succ there
          rw [← List.drop_drop, next, List.append_assoc, List.drop_left]
        have shorter : later.length < (code :: (block ++ later)).length := by
          rw [List.length_cons, List.length_append]
          omega
        have stillApart : (written ++ blockBytes code block later).length ≤ source + 1 + block.length := by
          have zero := length_blockBytes_le code block later
          rw [List.length_append]
          omega
        rw [unstuffFrom_turn apart there whole, ih _ shorter stillApart laterAt rfl, unstuff_cons whole,
          Unstuffed.stop?_after, List.length_append, List.append_assoc]
        rfl

end

/-- **Reading in place is reading.** The loop finds the value that `decode` finds and leaves the buffer that
`unstuffInPlace` describes. -/
theorem decodeInPlace_eq {α : Type} [Wire α] (buffer : List UInt8) :
    decodeInPlace (α := α) buffer = (decode buffer, unstuffInPlace buffer) := by
  have parts : buffer.drop 0 = body buffer ++ buffer.dropWhile (· != 0) := List.takeWhile_append_dropWhile.symm
  have start : ([] : List UInt8).length ≤ 0 := Nat.le_refl 0
  have loop := unstuffFrom_overwrite start parts
  rw [overwrite_nil, List.nil_append, ← unstuffInPlace_eq, List.length_nil, Nat.zero_add] at loop
  rw [decodeInPlace, decode, loop, Unstuffed.stop?]
  cases buffer with
  | nil => rfl
  | cons byte rest =>
    cases (unstuff (body (byte :: rest))).intact with
    | false => rfl
    | true =>
      have payload : (unstuffInPlace (byte :: rest)).take (0 + (unstuff (body (byte :: rest))).bytes.length) =
          (unstuff (body (byte :: rest))).bytes := by
        rw [Nat.zero_add]
        exact List.take_left
      simp only [if_true, payload]
      cases (Wire.read (unstuff (body (byte :: rest))).bytes : Except WireError (α × List UInt8)) <;> rfl

end InstructionCard.Frame
