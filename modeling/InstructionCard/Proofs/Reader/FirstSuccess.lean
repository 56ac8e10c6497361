import InstructionCard.Proofs.Reader.Garbled
import InstructionCard.Proofs.Reader.Sensing
import InstructionCard.Reader.Script

/-!
# The first sensing that decodes

When no call fails, a row is sensed until its cells decode, and given up after a number of sensings that
depends on the settings alone. What the reader asks and reports up to the sensing `j` has a closed form,
`readingTrace`. Main result: `obtainData_firstSuccess`.
-/

set_option autoImplicit false

namespace InstructionCard

/-- No cell is missing, and the cells decode to the word. -/
def Row.Reads (cells : Row) (w : Data) : Prop :=
  ∃ x : Codeword, cells = x.map some ∧ (Code.standard.decode x.toList).data? = some w

/-- Cells read as a word exactly when they decode to it. -/
theorem Row.reads_iff {cells : Row} {w : Data} : cells.Reads w ↔ cells.decode.data? = some w := by
  constructor
  · rintro ⟨x, rfl, decoded⟩
    rwa [decode_map_some]
  · intro decoded
    by_cases clear : cells.Clear
    · obtain ⟨x, rfl, _⟩ := exists_codeword_of_clear clear
      rw [decode_map_some] at decoded
      exact ⟨x, rfl, decoded⟩
    · rw [decode_of_not_clear clear] at decoded
      cases decoded

theorem Row.data?_eq_none_of_unread {cells : Row} (unread : ∀ w, ¬ cells.Reads w) : cells.decode.data? = none :=
  Option.eq_none_iff_forall_ne_some.2 fun w decoded => unread w (Row.reads_iff.2 decoded)

/-- The report on decoded cells. -/
def decodedEvent (row : UInt32) (cells : Row) : Event :=
  .rowDecoded row cells.decode.data? cells.decode.verdict

/-- What the reader does to get the cells of the `i`-th sensing when those before it did not decode. -/
def approach (config : Config) (row : UInt32) : (i : Nat) → List Activity
  | 0 => [.asked (.sense row)]
  | i + 1 =>
    if (i + 1) % (config.rereads.toNat + 1) = 0 then
      [.reported (.adjustmentRequested row (.ofNat ((i + 1) / (config.rereads.toNat + 1)))),
        .asked (.straighten row), .asked (.resense row)]
    else
      [.reported (.reread row (.ofNat ((i + 1) % (config.rereads.toNat + 1)))), .asked (.resense row)]

/-- What the reader does for the `i`-th sensing, which shows `cells i`. -/
def roundTrace (config : Config) (row : UInt32) (cells : Nat → Row) (i : Nat) : List Activity :=
  approach config row i ++ [.reported (decodedEvent row (cells i))]

/-- What the reader does up to and with the decoding of the `j`-th sensing. -/
def readingTrace (config : Config) (row : UInt32) (cells : Nat → Row) (j : Nat) : List Activity :=
  (List.range (j + 1)).flatMap (roundTrace config row cells)

/-- What the reader does up to the `j`-th sensing, before it decodes what that shows. -/
def sensingTrace (config : Config) (row : UInt32) (cells : Nat → Row) (j : Nat) : List Activity :=
  (List.range j).flatMap (roundTrace config row cells) ++ approach config row j

section

variable (config : Config) (row : UInt32) (cells : Nat → Row) (j : Nat)

theorem readingTrace_eq : readingTrace config row cells j =
    sensingTrace config row cells j ++ [.reported (decodedEvent row (cells j))] := by
  rw [readingTrace, sensingTrace, List.range_succ, List.flatMap_append, List.flatMap_singleton, roundTrace,
    List.append_assoc]

/-- The next sensing comes after the reading of the one before and what prepares it. -/
theorem sensingTrace_succ : sensingTrace config row cells (j + 1) =
    readingTrace config row cells j ++ approach config row (j + 1) := rfl

/-- One sensing more is one reread more, and an adjustment after every full round of rereads. -/
theorem requests_readingTrace :
    let asked := requests (readingTrace config row cells j)
    asked.count (.sense row) = 1 ∧ asked.count (.resense row) = j ∧
      asked.count (.straighten row) = j / (config.rereads.toNat + 1) ∧
      asked.length = 1 + j + j / (config.rereads.toNat + 1) := by
  induction j with
  | zero => simp [readingTrace, roundTrace, approach]
  | succ j ih =>
    obtain ⟨sensed, resensed, straightened, length⟩ := ih
    have later : requests (readingTrace config row cells (j + 1)) =
        requests (readingTrace config row cells j) ++ requests (approach config row (j + 1)) := by
      simp [readingTrace_eq, sensingTrace_succ]
    rw [later, Nat.succ_div]
    by_cases round : (j + 1) % (config.rereads.toNat + 1) = 0
    · simp [approach, round, Nat.dvd_iff_mod_eq_zero, sensed, resensed, straightened, length]
      omega
    · simp [approach, round, Nat.dvd_iff_mod_eq_zero, sensed, resensed, straightened, length]
      omega

end

section

variable {σ ε : Type} [Source σ ε]

/-- The `i`-th sensing shows the cells. Neither it nor the adjustment before it fails. -/
def Senses (config : Config) (row : UInt32) (source : σ) : (i : Nat) → Row → Prop
  | 0, cells => (sensing config row source 0).1 = .ok cells
  | i + 1, cells => (sensing config row source (i + 1)).1 = .ok cells ∧
      ((i + 1) % (config.rereads.toNat + 1) = 0 →
        (Source.straighten row (sensing config row source i).2).1 = .ok ())

instance [DecidableEq ε] (config : Config) (row : UInt32) (source : σ) :
    (i : Nat) → (cells : Row) → Decidable (Senses config row source i cells)
  | 0, _ => inferInstanceAs (Decidable (_ = _))
  | _ + 1, _ => inferInstanceAs (Decidable (_ ∧ (_ → _)))

variable {config : Config} {row : UInt32} {source : σ}

/-- Between two sensings that do not fail lie the calls and reports of `approach`. -/
theorem retryFrom_of_senses {i : Nat} {next : Row} (h : Senses config row source (i + 1) next) (left : Nat) :
    (retryFrom config row i (left + 1) : Session σ ε Data) (sensing config row source i).2 =
      let rest := readFrom config row (i + 1) left next (sensing config row source (i + 1)).2
      { rest with trace := approach config row (i + 1) ++ rest.trace } := by
  obtain ⟨shows, adjusts⟩ := h
  rw [sensing] at *
  rw [retryFrom, prepare, approach, Session.resense]
  by_cases round : (i + 1) % (config.rereads.toNat + 1) = 0
  · simp only [round, if_true] at *
    rw [bind_assoc, Session.report_bind, Session.straighten, Session.ask_bind_of_ok (adjusts trivial),
      Session.ask_bind_of_ok shows]
    rfl
  · simp only [round, if_false] at *
    rw [Session.report_bind, Session.ask_bind_of_ok shows]
    rfl

/-- As long as nothing fails and nothing decodes, the reader senses the row again. -/
theorem obtainData_of_unread {cells : Nat → Row} (j left : Nat) (budget : j + left + 1 = config.sensings)
    (senses : ∀ i ≤ j, Senses config row source i (cells i)) (unread : ∀ i < j, ∀ w, ¬ (cells i).Reads w) :
    (obtainData config row : Session σ ε Data) source =
      let rest := readFrom config row j left (cells j) (sensing config row source j).2
      { rest with trace := sensingTrace config row cells j ++ rest.trace } := by
  -- Each sensing that does not decode uses up one of those that are left.
  induction j generalizing left with
  | zero =>
    have shows : (Source.sense row source).1 = .ok (cells 0) := senses 0 (Nat.le_refl 0)
    rw [obtainData_eq, Session.sense, Session.ask_bind_of_ok shows, ← budget, Nat.zero_add, Nat.add_sub_cancel]
    rfl
  | succ j ih =>
    have refused := Row.data?_eq_none_of_unread (unread j (Nat.lt_succ_self j))
    have before : j + (left + 1) + 1 = config.sensings := by omega
    rw [ih (left + 1) before (fun i le => senses i (Nat.le_succ_of_le le)) (fun i less => unread i (Nat.lt_succ_of_lt less)),
      readFrom_of_refused refused, retryFrom_of_senses (senses (j + 1) (Nat.le_refl _))]
    simp only [sensingTrace_succ, readingTrace_eq, decodedEvent, refused, List.append_assoc,
      List.cons_append, List.nil_append]

end

/-- The number of an attempt is never cut off. -/
theorem toNat_attempt {config : Config} {i : Nat} (less : i < config.sensings) :
    (UInt32.ofNat (i / (config.rereads.toNat + 1))).toNat = i / (config.rereads.toNat + 1) ∧
      (UInt32.ofNat (i % (config.rereads.toNat + 1))).toNat = i % (config.rereads.toNat + 1) := by
  have round : i / (config.rereads.toNat + 1) < config.adjustments.toNat + 1 :=
    Nat.div_lt_of_lt_mul (by rwa [Nat.mul_comm])
  have inRound := Nat.mod_lt i (Nat.succ_pos config.rereads.toNat)
  exact ⟨UInt32.toNat_ofNat_of_lt' (Nat.lt_of_lt_of_le round config.adjustments.toNat_lt),
    UInt32.toNat_ofNat_of_lt' (Nat.lt_of_lt_of_le inRound config.rereads.toNat_lt)⟩

/-- **The first sensing that decodes** is the word of the row, and without one the row is given up. Up to
the last sensing nothing else is asked or reported than `readingTrace` says. -/
theorem obtainData_firstSuccess {σ ε : Type} [Source σ ε] (config : Config) (row : UInt32) (source : σ)
    (cells : Nat → Row) :
    (∀ j < config.sensings, (∀ i ≤ j, Senses config row source i (cells i)) →
      (∀ i < j, ∀ w, ¬ (cells i).Reads w) → ∀ w, (cells j).Reads w →
        obtainData config row source =
          ⟨.ok w, (sensing config row source j).2, readingTrace config row cells j⟩) ∧
    ((∀ i < config.sensings, Senses config row source i (cells i)) →
      (∀ i < config.sensings, ∀ w, ¬ (cells i).Reads w) →
        obtainData config row source = ⟨.error (.unreadable row),
          (sensing config row source (config.sensings - 1)).2,
          readingTrace config row cells (config.sensings - 1)⟩) ∧
    (∀ j, let asked := requests (readingTrace config row cells j)
      asked.count (.sense row) = 1 ∧ asked.count (.resense row) = j ∧
        asked.count (.straighten row) = j / (config.rereads.toNat + 1) ∧
        asked.length = 1 + j + j / (config.rereads.toNat + 1)) ∧
    (config.sensings - 1) / (config.rereads.toNat + 1) = config.adjustments.toNat ∧
    ∀ i < config.sensings,
      (UInt32.ofNat (i / (config.rereads.toNat + 1))).toNat = i / (config.rereads.toNat + 1) ∧
        (UInt32.ofNat (i % (config.rereads.toNat + 1))).toNat = i % (config.rereads.toNat + 1) := by
  have granted : 0 < config.sensings := Nat.mul_pos (Nat.succ_pos _) (Nat.succ_pos _)
  refine ⟨?_, ?_, requests_readingTrace config row cells, ?_, fun i => toNat_attempt⟩
  · intro j less senses unread w reads
    obtain ⟨left, budget⟩ : ∃ left, j + left + 1 = config.sensings := ⟨config.sensings - 1 - j, by omega⟩
    have decoded := Row.reads_iff.1 reads
    rw [obtainData_of_unread j left budget senses unread, readFrom_of_decoded decoded, readingTrace_eq, decodedEvent,
      decoded]
  · intro senses unread
    obtain ⟨last, budget⟩ : ∃ last, last + 0 + 1 = config.sensings := ⟨config.sensings - 1, by omega⟩
    have refused := Row.data?_eq_none_of_unread (unread last (by omega))
    have final : config.sensings - 1 = last := by omega
    rw [obtainData_of_unread last 0 budget (fun i le => senses i (by omega)) (fun i less => unread i (by omega)),
      readFrom_of_refused refused, final, readingTrace_eq, decodedEvent, refused]
    rfl
  · have last : config.sensings - 1 =
        config.rereads.toNat + (config.rereads.toNat + 1) * config.adjustments.toNat := by
      rw [Config.sensings, Nat.succ_mul, Nat.mul_comm]
      omega
    rw [last, Nat.add_mul_div_left _ _ (Nat.succ_pos _), Nat.div_eq_of_lt (Nat.lt_succ_self _), Nat.zero_add]

/-- Row 0 carries the word, but nothing is sensed there before the first sensing after an adjustment. -/
def lateScript (w : Data) : Script where
  rows := [.ok Script.unsensed]
  rereads := [.ok Script.unsensed, .ok ((Code.standard.codeword w).map some)]

def lateCells (w : Data) : Nat → Row
  | 2 => (Code.standard.codeword w).map some
  | _ => Script.unsensed

theorem not_reads_unsensed (w : Data) : ¬ Row.Reads Script.unsensed w := by
  have refused : Row.decode Script.unsensed = .uncorrectable := rfl
  rw [Row.reads_iff, refused]
  nofun

theorem obtainData_firstSuccess_lateScript :
    let config : Config := { rereads := 1, adjustments := 1 }
    let w : Data := Vector.mk #[0, 0, 0, 1, 0, 1] rfl
    let blank : Script := { rows := [.ok Script.unsensed] }
    (obtainData config 0 (lateScript w) : Session.Result Script String Data) =
      ⟨.ok w, (sensing config 0 (lateScript w) 2).2, readingTrace config 0 (lateCells w) 2⟩ ∧
    (obtainData config 0 blank : Session.Result Script String Data) =
      ⟨.error (.unreadable 0), (sensing config 0 blank 3).2, readingTrace config 0 (fun _ => Script.unsensed) 3⟩ := by
  intro config w blank
  have senses : ∀ i ≤ 2, Senses config 0 (lateScript w) i (lateCells w i) := by decide +kernel
  have unread : ∀ i < 2, ∀ v, ¬ (lateCells w i).Reads v
    | 0, _ => not_reads_unsensed
    | 1, _ => not_reads_unsensed
  have reads : (lateCells w 2).Reads w := Row.reads_iff.2 (by decide +kernel)
  have blankSenses : ∀ i < config.sensings, Senses config 0 blank i Script.unsensed := by decide +kernel
  constructor
  · exact (obtainData_firstSuccess config 0 (lateScript w) (lateCells w)).1 2 (by decide) senses unread w reads
  · exact (obtainData_firstSuccess config 0 blank fun _ => Script.unsensed).2.1 blankSenses
      fun _ _ => not_reads_unsensed

end InstructionCard
