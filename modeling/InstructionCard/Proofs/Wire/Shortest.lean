import InstructionCard.Proofs.Wire.Length

/-!
# Written values are the shortest

Reading accepts longer forms than writing produces: numbers with idle bytes at their high end. What a reader takes
for a value is never shorter than the value as it is written. Main result: a `ShortestWire` instance for events and
one for the settings.
-/

set_option autoImplicit false

namespace InstructionCard

namespace Wire

/-! ## Readers that take enough -/

section

variable {α β : Type}

/-- For a value of size `n` at least `n` bytes are taken. -/
def Takes (size : α → Nat) (reader : List UInt8 → Except WireError (α × List UInt8)) : Prop :=
  ∀ ⦃bytes a rest⦄, reader bytes = .ok (a, rest) → size a + rest.length ≤ bytes.length

theorem takes_ok {size : α → Nat} (a : α) (free : size a = 0) : Takes size fun bytes => .ok (a, bytes) := by
  intro bytes b rest h
  cases h
  exact Nat.le_of_eq (by rw [free, Nat.zero_add])

theorem takes_error (size : α → Nat) (cause : WireError) : Takes size fun _ => .error cause :=
  nofun

theorem Takes.mono {size size' : α → Nat} {reader : List UInt8 → Except WireError (α × List UInt8)}
    (takes : Takes size reader) (le : ∀ a, size' a ≤ size a) : Takes size' reader := by
  intro bytes a rest h
  exact Nat.le_trans (Nat.add_le_add_right (le a) _) (takes h)

/-- What the first reader takes counts for the value of the second. -/
theorem Takes.bind {size : α → Nat} {size' : β → Nat}
    {reader : List UInt8 → Except WireError (α × List UInt8)}
    {next : α → List UInt8 → Except WireError (β × List UInt8)} (takes : Takes size reader)
    (nextTakes : ∀ a, Takes (fun b => size' b - size a) (next a)) :
    Takes size' fun bytes => (do
      let (a, bytes) ← reader bytes
      next a bytes) := by
  intro bytes b rest h
  cases taken : reader bytes with
  | error cause =>
    simp only [taken] at h
    cases h
  | ok pair =>
    obtain ⟨a, later⟩ := pair
    simp only [taken] at h
    have first := takes taken
    have second := nextTakes a h
    dsimp only at second
    omega

theorem Takes.ite {size : α → Nat} {condition : Prop} [Decidable condition]
    {yes no : List UInt8 → Except WireError (α × List UInt8)} (takesYes : condition → Takes size yes)
    (takesNo : ¬ condition → Takes size no) : Takes size fun bytes => if condition then yes bytes else no bytes := by
  by_cases holds : condition
  · simpa only [holds, if_true] using takesYes holds
  · simpa only [holds, if_false] using takesNo holds

/-- A reader that looks at one byte first has taken that byte. -/
theorem takes_of_cons {size : α → Nat} {reader : List UInt8 → Except WireError (α × List UInt8)}
    {next : UInt8 → List UInt8 → Except WireError (α × List UInt8)} {cause : WireError}
    (onNil : reader [] = .error cause) (onCons : ∀ byte rest, reader (byte :: rest) = next byte rest)
    (takes : ∀ byte, Takes (fun a => size a - 1) (next byte)) : Takes size reader := by
  intro bytes a rest h
  cases bytes with
  | nil =>
    rw [onNil] at h
    cases h
  | cons byte bytes =>
    rw [onCons] at h
    have behind := takes byte h
    dsimp only at behind
    rw [List.length_cons]
    omega

end

end Wire

/-! ## The law -/

/-- A wire format that writes every value in the shortest form that reads as it. -/
class ShortestWire (α : Type) [Wire α] : Prop where
  takes : Wire.Takes (fun a : α => (Wire.write a).length) Wire.read

namespace Wire

section

variable {α β : Type} [Wire α] [ShortestWire α]

theorem takes_read : Takes (fun a : α => (write a).length) read :=
  ShortestWire.takes

theorem takes_readAs {size : β → Nat} {make : α → β} (le : ∀ a, size (make a) ≤ (write a).length) :
    Takes size (readAs make) :=
  takes_read.bind fun a => takes_ok (make a) (Nat.sub_eq_zero_of_le (le a))

/-- Values written by way of others are shortest if the way back leads to the same ones. -/
theorem shortestVia {toPlain : β → α} {ofPlain : α → β} (there : ∀ a, toPlain (ofPlain a) = a) :
    @ShortestWire β (via toPlain ofPlain) :=
  @ShortestWire.mk β (via toPlain ofPlain) (takes_readAs fun a => Nat.le_of_eq (by
    show (write (toPlain (ofPlain a))).length = _
    rw [there]))

end

end Wire

/-! ## Numbers, bytes and flags -/

namespace Varint

/-- One digit more takes at most one byte more. -/
theorem length_writeNat_succ (n left : Nat) :
    (writeNat n (left + 1)).length ≤ (writeNat (n / 128) left).length + 1 := by
  rw [writeNat]
  split
  · exact Nat.le_add_left 1 _
  · exact Nat.le_refl _

theorem length_writeNat_pos (n left : Nat) : 1 ≤ (writeNat n left).length := by
  cases left with
  | zero => exact Nat.le_refl 1
  | succ left =>
    rw [writeNat]
    split
    · exact Nat.le_refl 1
    · exact Nat.le_add_left 1 _

/-- A smaller number is never written longer. -/
theorem length_writeNat_mono {m n : Nat} (le : m ≤ n) (left : Nat) :
    (writeNat m left).length ≤ (writeNat n left).length := by
  induction left generalizing m n with
  | zero => exact Nat.le_refl 1
  | succ left ih =>
    by_cases small : m < 128
    · rw [writeNat, if_pos small]
      exact length_writeNat_pos n (left + 1)
    · have large : ¬ n < 128 := by omega
      rw [writeNat, if_neg small, writeNat, if_neg large]
      exact Nat.succ_le_succ (ih (Nat.div_le_div_right le))

/-- Idle bytes at the high end only make a number longer. -/
theorem takes_readNat (left : Nat) : Wire.Takes (fun n => (writeNat n left).length) (readNat left) := by
  induction left with
  | zero =>
    exact Wire.takes_of_cons rfl (fun _ _ => rfl) fun byte =>
      .ite (fun _ => Wire.takes_ok _ rfl) fun _ => Wire.takes_error _ _
  | succ left ih =>
    refine Wire.takes_of_cons rfl (fun _ _ => rfl) fun byte => .ite (fun small => Wire.takes_ok _ ?_) fun _ =>
      ih.bind fun high => Wire.takes_ok (byte.toNat - 128 + 128 * high) ?_
    · have one : byte.toNat < 128 := small
      rw [writeNat, if_pos one]
      rfl
    · have digit : (byte.toNat - 128 + 128 * high) / 128 = high := by
        have := byte.toNat_lt
        omega
      have longer := length_writeNat_succ (byte.toNat - 128 + 128 * high) left
      rw [digit] at longer
      omega

theorem takes_read : Wire.Takes (fun n => (write n).length) read :=
  (takes_readNat 4).bind fun n => Wire.takes_ok _ (Nat.sub_eq_zero_of_le (by
    have le : (UInt32.ofNat n).toNat ≤ n := by
      rw [UInt32.toNat_ofNat']
      exact Nat.mod_le _ _
    exact length_writeNat_mono le 4))

end Varint

namespace Wire

instance : ShortestWire UInt32 where
  takes := Varint.takes_read

instance : ShortestWire UInt8 where
  takes := takes_of_cons rfl (fun _ _ => rfl) fun _ => takes_ok _ rfl

instance : ShortestWire Bool where
  takes := takes_of_cons rfl (fun _ _ => rfl) fun _ =>
    .ite (fun _ => takes_ok _ rfl) fun _ => .ite (fun _ => takes_ok _ rfl) fun _ => takes_error _ _

instance (n : Nat) : ShortestWire (Vector UInt8 n) where
  takes := by
    intro bytes taken rest h
    have length : (write taken).length = n := taken.length_toList
    change (if h : n ≤ bytes.length then _ else _) = _ at h
    by_cases enough : n ≤ bytes.length
    · rw [dif_pos enough] at h
      cases h
      dsimp only
      rw [length, List.length_drop]
      omega
    · rw [dif_neg enough] at h
      cases h

/-! ## Records and choices -/

section

variable {α β : Type} [Wire α] [ShortestWire α] [Wire β] [ShortestWire β]

instance : ShortestWire (Option α) where
  takes := takes_of_cons rfl (fun _ _ => rfl) fun _ =>
    .ite (fun _ => takes_ok _ rfl) fun _ => .ite (fun _ => takes_readAs fun _ => Nat.le_refl _) fun _ => takes_error _ _

instance : ShortestWire (α × β) where
  takes := takes_read.bind fun a => takes_readAs fun b : β => by
    have second : (write a ++ write b).length - (write a).length = (write b).length := by
      rw [List.length_append, Nat.add_sub_cancel_left]
    exact Nat.le_of_eq second

end

/-- The shortest form of an index is that of its number. -/
theorem takes_readIndex (n : Nat) : Takes (fun index : Fin n => (writeIndex index).length) (readIndex n) := by
  have named (number : UInt32) : Takes (fun index : Fin n => (writeIndex index).length - (Varint.write number).length)
      fun bytes => if h : number.toNat < n then .ok (⟨number.toNat, h⟩, bytes) else .error .badVariant := by
    by_cases less : number.toNat < n
    · have same : (writeIndex number.toNat).length - (Varint.write number).length = 0 := by
        rw [writeIndex, UInt32.ofNat_toNat, Nat.sub_self]
      simpa only [less, dif_pos] using takes_ok (⟨number.toNat, less⟩ : Fin n) same
    · simpa only [less, dif_neg, not_false_iff] using takes_error _ _
  exact Varint.takes_read.bind named

instance (n : Nat) : ShortestWire (Fin n) where
  takes := takes_readIndex n

section

variable {α : Type} {size : α → Nat} {n : Nat} {choice : Fin n → List UInt8 → Except WireError (α × List UInt8)}

/-- The index takes a byte at least, and the reader it chooses takes enough for the parts. -/
theorem takes_readChoice (takes : ∀ index, Takes (fun a => size a - 1) (choice index)) :
    Takes size (readChoice n choice) := by
  refine (takes_readIndex n).bind fun index => (takes index).mono fun a => ?_
  have one : 1 ≤ (writeIndex index).length := Varint.length_writeNat_pos _ 4
  omega

/-- The parts of a value behind the index of its constructor. -/
theorem takes_parts {β : Type} [Wire β] [ShortestWire β] [Wire α] {make : β → α} {index : Nat} (small : index < 128)
    (written : ∀ b, write (make b) = writeIndex index ++ write b) :
    Takes (fun a => (write a).length - 1) (readAs make) :=
  takes_readAs fun b => Nat.le_of_eq (by
    rw [written, List.length_append, length_writeIndex small, Nat.add_sub_cancel_left])

end

end Wire

/-! ## Events and settings -/

open Wire

theorem Verdict.index_ofIndex (i : Fin 3) : (ofIndex i).index = i := by
  revert i
  decide

theorem RunState.index_ofIndex (i : Fin 3) : (ofIndex i).index = i := by
  revert i
  decide

instance : ShortestWire Verdict := shortestVia Verdict.index_ofIndex

instance : ShortestWire RunState := shortestVia RunState.index_ofIndex

instance : ShortestWire Symbol := shortestVia Symbol.index_ofIndex

instance : ShortestWire Instruction := shortestVia Instruction.index_ofIndex

instance : ShortestWire Character := shortestVia Character.index_ofIndex

instance : ShortestWire Value where
  takes := takes_readChoice fun
    | 0 => takes_parts (by decide) fun _ => rfl
    | 1 => takes_parts (by decide) fun _ => rfl

instance : ShortestWire Command where
  takes := takes_readChoice fun
    | 0 => takes_parts (by decide) fun _ => rfl
    | 1 => takes_parts (by decide) fun _ => rfl
    | 2 => takes_parts (by decide) fun _ => rfl

instance : ShortestWire Event where
  takes := takes_readChoice fun
    | 0 => takes_parts (by decide) fun _ => rfl
    | 1 => takes_parts (by decide) fun _ => rfl
    | 2 => takes_parts (by decide) fun _ => rfl
    | 3 => takes_parts (by decide) fun _ => rfl

instance : ShortestWire Config := shortestVia fun _ => rfl

end InstructionCard
