import InstructionCard.Proofs.Code.Separation
import InstructionCard.Reader.Word

/-!
# Garbled rows

A row that shows a word with up to two wrong cells, or with a cell that is unclear, never decodes to another
word. With at most one wrong cell and no unclear one it decodes to the word.
-/

set_option autoImplicit false

namespace InstructionCard

namespace Row

/-- Every cell was sensed as 0 or 1. -/
def Clear (cells : Row) : Prop :=
  ∀ cell ∈ cells.toList, cell = some 0 ∨ cell = some 1

instance (cells : Row) : Decidable cells.Clear :=
  inferInstanceAs (Decidable (∀ cell ∈ cells.toList, _))

/-- At most `k` cells are not as they were printed for the word. -/
def Within (cells : Row) (k : Nat) (w : Data) : Prop :=
  ∃ x, Code.standard.encode w.toList = .ok x ∧ distance (x.map some) cells ≤ k

instance (cells : Row) (k : Nat) (w : Data) : Decidable (cells.Within k w) :=
  match encoded : Code.standard.encode w.toList with
  | .ok x => decidable_of_iff (distance (x.map some) cells ≤ k) (by simp [Within, encoded])
  | .error e => isFalse (by simp [Within, encoded])

/-- What a sensing may make of a row that carries the word. -/
def Garbles (cells : Row) (w : Data) : Prop :=
  ¬ cells.Clear ∨ cells.Within 2 w

instance (cells : Row) (w : Data) : Decidable (cells.Garbles w) :=
  inferInstanceAs (Decidable (_ ∨ _))

/-- The word can still be read off the cells. -/
def Legible (cells : Row) (w : Data) : Prop :=
  cells.Clear ∧ cells.Within 1 w

instance (cells : Row) (w : Data) : Decidable (cells.Legible w) :=
  inferInstanceAs (Decidable (_ ∧ _))

/-! ## Cells of a row -/

theorem mapM_id_eq_some_iff {α : Type} {cells : List (Option α)} {found : List α} :
    cells.mapM id = some found ↔ cells = found.map some := by
  induction cells generalizing found with
  | nil => cases found <;> simp
  | cons cell cells ih =>
    cases cell with
    | none => cases found <;> simp [List.mapM_cons]
    | some a => cases found <;> simp [List.mapM_cons, Option.bind_eq_some_iff, ih, and_comm]

theorem decode_map_some (x : Codeword) : Row.decode (x.map some) = Code.standard.decode x.toList := by
  have cells : (x.map some).toList.mapM id = some x.toList := by
    rw [mapM_id_eq_some_iff, Vector.toList_map]
  rw [Row.decode, cells]

/-- A row with a cell that was not sensed as 0 or 1 is not decoded. -/
theorem decode_of_not_clear {cells : Row} (h : ¬ cells.Clear) : cells.decode = .uncorrectable := by
  unfold Row.decode
  split
  · next found sensed =>
    apply Code.decode_eq_uncorrectable_of_malformed
    rintro ⟨_, binary⟩
    apply h
    intro cell mem
    rw [mapM_id_eq_some_iff.1 sensed] at mem
    obtain ⟨a, inside, rfl⟩ := List.mem_map.1 mem
    simpa using binary a inside
  · rfl

theorem exists_codeword_of_clear {cells : Row} (h : cells.Clear) :
    ∃ x : Codeword, cells = x.map some ∧ BinaryCells x.toList := by
  have cell (i : Nat) (hi : i < 11) : cells[i] = some 0 ∨ cells[i] = some 1 :=
    h _ (Vector.mem_toList_iff.2 (Vector.getElem_mem hi))
  refine ⟨cells.map (·.getD 0), ?_, ?_⟩
  · ext i hi : 1
    rcases cell i hi with zero | one
    · simp [zero]
    · simp [one]
  · rw [binaryCells_iff_getElem]
    intro i hi
    rcases cell i hi with zero | one
    · simp [zero]
    · simp [one]

/-- Sensing every cell keeps distances. -/
theorem distance_map_some {n : Nat} (v w : Vector Cell n) :
    distance (v.map some) (w.map some) = distance v w := by
  unfold distance
  have cells (v : Vector Cell n) : (v.map some).get = fun i => some (v.get i) :=
    funext fun i => Vector.getElem_map some i.isLt
  rw [cells, cells]
  exact hammingDist_comp (fun _ => some) fun _ => Option.some_injective _

variable {w : Data} (hw : BinaryCells w.toList)
include hw

/-- Being within some cells of a word is a matter of the distance to its codeword. -/
theorem within_iff {cells : Row} {k : Nat} :
    cells.Within k w ↔ distance ((Code.standard.codeword w).map some) cells ≤ k := by
  constructor
  · rintro ⟨x, encoded, near⟩
    obtain ⟨_, rfl⟩ := Code.encode_eq_ok_iff.1 encoded
    exact near
  · intro near
    exact ⟨_, Code.encode_eq_ok_iff.2 ⟨hw, rfl⟩, near⟩

/-! ## Decoding garbled rows -/

/-- A legible row decodes to its word. -/
theorem data?_decode_of_legible {cells : Row} (h : cells.Legible w) : cells.decode.data? = some w := by
  obtain ⟨x, rfl, hx⟩ := exists_codeword_of_clear h.1
  have near := (within_iff hw).1 h.2
  have hy := Code.binaryCells_codeword Code.standard w
  rw [distance_map_some] at near
  rw [decode_map_some]
  rcases Nat.le_one_iff_eq_zero_or_eq_one.1 near with zero | one
  · obtain rfl := distance_eq_zero.1 zero
    have encoded : Code.standard.encode w.toList = .ok (Code.standard.codeword w) :=
      Code.encode_eq_ok_iff.2 ⟨hw, rfl⟩
    rw [(Code.decode_eq_valid_iff Code.systematic_standard hy w).2 encoded]
    rfl
  · obtain ⟨i, rfl⟩ := (distance_eq_one_iff hy hx).1 one
    rw [Code.decode_flipCell Code.systematic_standard Code.injective_extendedColumn_standard hw i]
    rfl

/-- Two wrong cells are noticed, fewer are repaired. -/
theorem data?_decode_of_garbles {cells : Row} (h : cells.Garbles w) :
    cells.decode.data? = none ∨ cells.decode.data? = some w := by
  by_cases clear : cells.Clear
  · have near := (within_iff hw).1 (h.resolve_left (not_not_intro clear))
    rcases Nat.lt_or_eq_of_le near with less | two
    · have legible : cells.Legible w := ⟨clear, (within_iff hw).2 (Nat.le_of_lt_succ less)⟩
      exact .inr (data?_decode_of_legible hw legible)
    · left
      obtain ⟨x, rfl, hx⟩ := exists_codeword_of_clear clear
      rw [distance_map_some] at two
      obtain ⟨i, j, different, rfl⟩ :=
        exists_flipCell_of_distance_eq_two (Code.binaryCells_codeword Code.standard w) hx two
      have columns := Code.injective_extendedColumn_standard.ne different
      rw [decode_map_some,
        (Code.decode_flipCell_flipCell_iff Code.systematic_standard hw i j).2 columns]
      rfl
  · left
    rw [decode_of_not_clear clear]
    rfl

end Row

end InstructionCard
