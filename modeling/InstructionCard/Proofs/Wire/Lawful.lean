import InstructionCard.Wire.Records

/-!
# Lawful wire formats

Two laws make values readable from a stream: what was written is read back whatever follows it, and what
is read does not change when more bytes follow. Together they say that no part of a written value reads as
a value: `Wire.exists_read_eq_error`.
-/

set_option autoImplicit false

namespace InstructionCard

namespace Wire

/-! ## Stable readers -/

section

variable {α β : Type}

/-- More bytes behind those that a reader takes go to the rest. -/
def Stable (reader : List UInt8 → Except WireError (α × List UInt8)) : Prop :=
  ∀ ⦃bytes a rest⦄, reader bytes = .ok (a, rest) → ∀ more, reader (bytes ++ more) = .ok (a, rest ++ more)

theorem stable_ok (a : α) : Stable fun bytes => .ok (a, bytes) := by
  intro bytes b rest h more
  cases h
  rfl

theorem stable_error (cause : WireError) : Stable (α := α) fun _ => .error cause :=
  nofun

/-- Readers one after the other are stable if each of them is. -/
theorem Stable.bind {reader : List UInt8 → Except WireError (α × List UInt8)}
    {next : α → List UInt8 → Except WireError (β × List UInt8)} (stable : Stable reader)
    (nextStable : ∀ a, Stable (next a)) :
    Stable fun bytes => (do
      let (a, bytes) ← reader bytes
      next a bytes) := by
  intro bytes b rest h more
  cases taken : reader bytes with
  | error cause =>
    simp only [taken] at h
    cases h
  | ok pair =>
    obtain ⟨a, later⟩ := pair
    simp only [taken] at h
    simp only [stable taken more]
    exact nextStable a h more

theorem Stable.ite {condition : Prop} [Decidable condition]
    {yes no : List UInt8 → Except WireError (α × List UInt8)} (stableYes : Stable yes) (stableNo : Stable no) :
    Stable fun bytes => if condition then yes bytes else no bytes := by
  by_cases holds : condition
  · simpa only [holds, if_true] using stableYes
  · simpa only [holds, if_false] using stableNo

/-- A reader that looks at one byte first. -/
theorem stable_of_cons {reader : List UInt8 → Except WireError (α × List UInt8)}
    {next : UInt8 → List UInt8 → Except WireError (α × List UInt8)} {cause : WireError}
    (onNil : reader [] = .error cause) (onCons : ∀ byte rest, reader (byte :: rest) = next byte rest)
    (stable : ∀ byte, Stable (next byte)) : Stable reader := by
  intro bytes a rest h more
  cases bytes with
  | nil =>
    rw [onNil] at h
    cases h
  | cons byte bytes =>
    rw [onCons] at h
    rw [List.cons_append, onCons]
    exact stable byte h more

end

end Wire

/-! ## The laws -/

/-- A wire format whose values can follow each other. -/
class LawfulWire (α : Type) [Wire α] : Prop where
  read_write (a : α) (rest : List UInt8) : Wire.read (Wire.write a ++ rest) = .ok (a, rest)
  stable : Wire.Stable (Wire.read (α := α))

namespace Wire

section

variable {α β : Type} [Wire α] [LawfulWire α]

/-- What is written is read back, whatever follows. -/
theorem read_write (a : α) (rest : List UInt8) : read (write a ++ rest) = .ok (a, rest) :=
  LawfulWire.read_write a rest

theorem stable_read : Stable (read (α := α)) :=
  LawfulWire.stable

/-- **Part of a written value is no value.** -/
theorem exists_read_eq_error (a : α) {start rest : List UInt8} (parts : write a = start ++ rest)
    (left : rest ≠ []) : ∃ cause, (read start : Except WireError (α × List UInt8)) = .error cause := by
  cases taken : (read start : Except WireError (α × List UInt8)) with
  | error cause => exact ⟨cause, rfl⟩
  | ok pair =>
    obtain ⟨b, later⟩ := pair
    -- The whole is read back without a rest, but what was taken of the start leaves one.
    have whole : read (write a) = .ok (a, []) := by simpa using read_write a []
    rw [parts, stable_read taken rest] at whole
    cases later with
    | nil =>
      cases whole
      exact absurd rfl left
    | cons byte later => cases whole

theorem readAs_write (make : α → β) (a : α) (rest : List UInt8) :
    readAs make (write a ++ rest) = .ok (make a, rest) := by
  rw [readAs, read_write]
  rfl

theorem stable_readAs (make : α → β) : Stable (readAs make) :=
  stable_read.bind fun a => stable_ok (make a)

/-- Values written by way of others are lawful if none gets lost on the way. -/
theorem lawfulVia (toPlain : β → α) (ofPlain : α → β) (back : ∀ b, ofPlain (toPlain b) = b) :
    @LawfulWire β (via toPlain ofPlain) :=
  @LawfulWire.mk β (via toPlain ofPlain)
    (fun b rest => by
      have whole := readAs_write ofPlain (toPlain b) rest
      rwa [back] at whole)
    (stable_readAs ofPlain)

end

end Wire

/-! ## Numbers, bytes and flags -/

namespace Varint

theorem stable_readNat (left : Nat) : Wire.Stable (readNat left) := by
  induction left with
  | zero =>
    exact Wire.stable_of_cons rfl (fun _ _ => rfl) fun byte => .ite (Wire.stable_ok _) (Wire.stable_error _)
  | succ left ih =>
    exact Wire.stable_of_cons rfl (fun _ _ => rfl) fun byte => .ite (Wire.stable_ok _)
      (ih.bind fun high => Wire.stable_ok (byte.toNat - 128 + 128 * high))

theorem stable_read : Wire.Stable read :=
  (stable_readNat 4).bind fun _ => Wire.stable_ok _

end Varint

namespace Wire

instance : LawfulWire UInt32 where
  read_write := Varint.read_write
  stable := Varint.stable_read

instance : LawfulWire UInt8 where
  read_write _ _ := rfl
  stable := stable_of_cons rfl (fun _ _ => rfl) stable_ok

instance : LawfulWire Bool where
  read_write
    | false, _ => rfl
    | true, _ => rfl
  stable := stable_of_cons rfl (fun _ _ => rfl) fun _ =>
    .ite (stable_ok false) (.ite (stable_ok true) (stable_error .badBool))

instance (n : Nat) : LawfulWire (Vector UInt8 n) where
  read_write bytes rest := by
    have enough : n ≤ (bytes.toList ++ rest).length := by simp
    have taken : (bytes.toList ++ rest).take n = bytes.toList := List.take_left' bytes.length_toList
    have left : (bytes.toList ++ rest).drop n = rest := List.drop_left' bytes.length_toList
    change (if h : n ≤ (bytes.toList ++ rest).length then Except.ok ((⟨((bytes.toList ++ rest).take n).toArray,
      by simp⟩ : Vector UInt8 n), (bytes.toList ++ rest).drop n) else _) = _
    rw [dif_pos enough]
    simp only [taken, left]
    rfl
  stable := by
    intro bytes taken rest h more
    change (if h : n ≤ bytes.length then _ else _) = _ at h
    change (if h : n ≤ (bytes ++ more).length then _ else _) = _
    by_cases enough : n ≤ bytes.length
    · rw [dif_pos enough] at h
      cases h
      rw [dif_pos (by rw [List.length_append]; omega)]
      simp [List.take_append_of_le_length enough, List.drop_append_of_le_length enough]
    · rw [dif_neg enough] at h
      cases h

/-! ## Records and choices -/

section

variable {α β : Type} [Wire α] [LawfulWire α] [Wire β] [LawfulWire β]

instance : LawfulWire (Option α) where
  read_write
    | none, _ => rfl
    | some a, rest => readAs_write some a rest
  stable := stable_of_cons rfl (fun _ _ => rfl) fun _ =>
    .ite (stable_ok none) (.ite (stable_readAs some) (stable_error .badOption))

instance : LawfulWire (α × β) where
  read_write
    | (a, b), rest => by
      change (read (write a ++ write b ++ rest) >>= fun pair => readAs (fun b : β => (pair.1, b)) pair.2) = _
      rw [List.append_assoc, read_write]
      exact readAs_write (fun b => (a, b)) b rest
  stable := stable_read.bind fun a => stable_readAs fun b : β => (a, b)

end

theorem toNat_index {index : Nat} (small : index ≤ 128) : (UInt32.ofNat index).toNat = index :=
  UInt32.toNat_ofNat_of_lt' (Nat.lt_of_le_of_lt small (by decide))

/-- The index of a constructor is read back. -/
theorem readIndex_writeIndex {n index : Nat} (named : index < n) (small : n ≤ 128) (rest : List UInt8) :
    readIndex n (writeIndex index ++ rest) = .ok (⟨index, named⟩, rest) := by
  have same := toNat_index (Nat.le_trans (Nat.le_of_lt named) small)
  have number : Varint.read (writeIndex index ++ rest) = _ := Varint.read_write _ rest
  rw [readIndex, number]
  change dite ((UInt32.ofNat index).toNat < n) _ _ = _
  rw [dif_pos (by rwa [same])]
  simp only [same]

theorem stable_readIndex (n : Nat) : Stable (readIndex n) := by
  have named (number : UInt32) : Stable fun bytes =>
      if h : number.toNat < n then .ok ((⟨number.toNat, h⟩ : Fin n), bytes) else .error .badVariant := by
    by_cases less : number.toNat < n
    · simpa only [less, dif_pos] using stable_ok _
    · simpa only [less, dif_neg, not_false_iff] using stable_error _
  exact Varint.stable_read.bind named

theorem lawfulFin {n : Nat} (small : n ≤ 128) : LawfulWire (Fin n) where
  read_write i rest := readIndex_writeIndex i.isLt small rest
  stable := stable_readIndex n

section

variable {α : Type} {n : Nat} {choice : Fin n → List UInt8 → Except WireError (α × List UInt8)}

/-- The index that was written chooses the reader of the parts. -/
theorem readChoice_writeIndex {index : Nat} (named : index < n) (small : n ≤ 128) (parts rest : List UInt8) :
    readChoice n choice (writeIndex index ++ parts ++ rest) = choice ⟨index, named⟩ (parts ++ rest) := by
  rw [List.append_assoc, readChoice, readIndex_writeIndex named small]
  rfl

theorem stable_readChoice (stable : ∀ index, Stable (choice index)) : Stable (readChoice n choice) :=
  (stable_readIndex n).bind stable

end

end Wire

/-! ## Events and settings -/

open Wire

instance : LawfulWire Verdict :=
  have : LawfulWire (Fin 3) := lawfulFin (by decide)
  lawfulVia Verdict.index Verdict.ofIndex Verdict.ofIndex_index

instance : LawfulWire RunState :=
  have : LawfulWire (Fin 3) := lawfulFin (by decide)
  lawfulVia RunState.index RunState.ofIndex RunState.ofIndex_index

instance : LawfulWire Symbol :=
  have : LawfulWire (Fin 27) := lawfulFin (by decide)
  lawfulVia Symbol.index Symbol.ofIndex Symbol.ofIndex_index

instance : LawfulWire Instruction :=
  have : LawfulWire (Fin 16) := lawfulFin (by decide)
  lawfulVia Instruction.index Instruction.ofIndex Instruction.ofIndex_index

instance : LawfulWire Character :=
  have : LawfulWire (Fin 32) := lawfulFin (by decide)
  lawfulVia Character.index Character.ofIndex Character.ofIndex_index

instance : LawfulWire Value where
  read_write
    | .byte b, rest => (readChoice_writeIndex (by decide) (by decide) _ _).trans (readAs_write Value.byte b rest)
    | .symbol s, rest =>
      (readChoice_writeIndex (by decide) (by decide) _ _).trans (readAs_write Value.symbol s rest)
  stable := stable_readChoice fun
    | 0 => stable_readAs _
    | 1 => stable_readAs _

instance : LawfulWire Command where
  read_write
    | .operand value, rest =>
      (readChoice_writeIndex (by decide) (by decide) _ _).trans (readAs_write Command.operand value rest)
    | .instruction i, rest =>
      (readChoice_writeIndex (by decide) (by decide) _ _).trans (readAs_write Command.instruction i rest)
    | .character c, rest =>
      (readChoice_writeIndex (by decide) (by decide) _ _).trans (readAs_write Command.character c rest)
  stable := stable_readChoice fun
    | 0 => stable_readAs _
    | 1 => stable_readAs _
    | 2 => stable_readAs _

instance : LawfulWire Event where
  read_write
    | .rowDecoded row data? verdict, rest =>
      (readChoice_writeIndex (by decide) (by decide) _ _).trans (readAs_write _ (row, data?, verdict) rest)
    | .reread row attempt, rest =>
      (readChoice_writeIndex (by decide) (by decide) _ _).trans (readAs_write _ (row, attempt) rest)
    | .adjustmentRequested row attempt, rest =>
      (readChoice_writeIndex (by decide) (by decide) _ _).trans (readAs_write _ (row, attempt) rest)
    | .executed row command? state top? overflow, rest =>
      (readChoice_writeIndex (by decide) (by decide) _ _).trans
        (readAs_write _ (row, command?, state, top?, overflow) rest)
  stable := stable_readChoice fun
    | 0 => stable_readAs _
    | 1 => stable_readAs _
    | 2 => stable_readAs _
    | 3 => stable_readAs _

instance : LawfulWire Config :=
  lawfulVia (fun config : Config => (config.rows, config.rereads, config.adjustments))
    (fun (rows, rereads, adjustments) => ⟨rows, rereads, adjustments⟩) fun _ => rfl

end InstructionCard
