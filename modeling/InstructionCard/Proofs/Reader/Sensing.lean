import InstructionCard.Proofs.Reader.Session
import InstructionCard.Reader.Word

/-!
# The sensings of a row

The rereads and the adjustments of a row are one loop over its sensings: before each but the first, the
card is adjusted when the rereads are used up. Main result: `obtainData_eq`.
-/

set_option autoImplicit false

namespace InstructionCard

variable {σ ε : Type}

/-- How often a row may be sensed. -/
def Config.sensings (config : Config) : Nat :=
  (config.adjustments.toNat + 1) * (config.rereads.toNat + 1)

section

variable [Source σ ε]

/-- What the source answers when the row is sensed for the `i`-th time, counted from 0, and the source
after that. -/
def sensing (config : Config) (row : UInt32) (source : σ) : (i : Nat) → Except ε Row × σ
  | 0 => Source.sense row source
  | i + 1 =>
    let before := (sensing config row source i).2
    if (i + 1) % (config.rereads.toNat + 1) = 0 then
      Source.resense row (Source.straighten row before).2
    else Source.resense row before

/-- What happens between two sensings. The next one is the `i`-th. -/
def prepare (config : Config) (row : UInt32) (i : Nat) : Session σ ε Unit :=
  if i % (config.rereads.toNat + 1) = 0 then do
    Session.report (.adjustmentRequested row (.ofNat (i / (config.rereads.toNat + 1))))
    Session.straighten row
  else Session.report (.reread row (.ofNat (i % (config.rereads.toNat + 1))))

/-- Keeps the data that was decoded; without data the reading goes on with `next`. -/
def keepOr (next : Session σ ε Data) : Option Data → Session σ ε Data
  | some data => pure data
  | none => next

/-- Decodes the cells of the `i`-th sensing, and senses the row again while that fails and sensings are
left. -/
def readFrom (config : Config) (row : UInt32) : (i left : Nat) → Row → Session σ ε Data
  | _, 0, cells => decodeRow row cells >>= keepOr (Session.fail (.unreadable row))
  | i, left + 1, cells => decodeRow row cells >>= keepOr (do
      prepare config row (i + 1)
      let cells ← Session.resense row
      readFrom config row (i + 1) left cells)

/-- What is left to do when the cells of the `i`-th sensing did not decode. -/
def retryFrom (config : Config) (row : UInt32) (i : Nat) : (left : Nat) → Session σ ε Data
  | 0 => Session.fail (.unreadable row)
  | left + 1 => do
    prepare config row (i + 1)
    let cells ← Session.resense row
    readFrom config row (i + 1) left cells

/-- Decode what was sensed, and keep it or sense again. -/
theorem readFrom_eq (config : Config) (row : UInt32) (i left : Nat) (cells : Row) :
    (readFrom config row i left cells : Session σ ε Data) =
      decodeRow row cells >>= keepOr (retryFrom config row i left) := by
  cases left <;> rfl

theorem readFrom_of_decoded {config : Config} {row : UInt32} {i left : Nat} {cells : Row} {data : Data}
    (h : (Row.decode cells).data? = some data) (source : σ) :
    (readFrom config row i left cells : Session σ ε Data) source =
      ⟨.ok data, source, [.reported (.rowDecoded row (some data) (Row.decode cells).verdict)]⟩ := by
  rw [readFrom_eq, decodeRow, bind_assoc, Session.report_bind, pure_bind, h]
  rfl

theorem readFrom_of_refused {config : Config} {row : UInt32} {i left : Nat} {cells : Row}
    (h : (Row.decode cells).data? = none) (source : σ) :
    (readFrom config row i left cells : Session σ ε Data) source =
      { retryFrom config row i left source with
        trace := .reported (.rowDecoded row none (Row.decode cells).verdict) ::
          (retryFrom config row i left source).trace } := by
  rw [readFrom_eq, decodeRow, bind_assoc, Session.report_bind, pure_bind, h]
  rfl

/-- A round of rereads is a stretch of the loop. `k` is how many of them are done, `next` what follows
when the round is over. -/
theorem rereadUntilDecoded_bind (config : Config) (row : UInt32) (round left k l : Nat) (cells : Row)
    (h : k + l = config.rereads.toNat) :
    (rereadUntilDecoded row (.ofNat (k + 1)) l cells >>=
        keepOr (retryFrom config row (round * (config.rereads.toNat + 1) + config.rereads.toNat) left) :
      Session σ ε Data) =
      readFrom config row (round * (config.rereads.toNat + 1) + k) (l + left) cells := by
  induction l generalizing k cells with
  | zero =>
    obtain rfl : k = config.rereads.toNat := by omega
    rw [rereadUntilDecoded, Nat.zero_add, readFrom_eq]
  | succ l ih =>
    have attempt : (round * (config.rereads.toNat + 1) + k + 1) % (config.rereads.toNat + 1) = k + 1 := by
      rw [Nat.add_assoc, Nat.mul_add_mod_self_right, Nat.mod_eq_of_lt (by omega)]
    rw [rereadUntilDecoded, bind_assoc, show l + 1 + left = (l + left) + 1 by omega, readFrom]
    congr 1
    funext data?
    cases data? with
    | some data => exact pure_bind _ _
    | none =>
      have next : UInt32.ofNat (k + 1) + 1 = .ofNat (k + 1 + 1) := (UInt32.ofNat_add _ _).symm
      simp only [keepOr, prepare, attempt, bind_assoc, Nat.add_one_ne_zero, if_false, next]
      congr 1
      funext _
      congr 1
      funext cells
      exact ih (k + 1) cells (by omega)

/-- The rounds of rereads make up the loop. `done` is how many adjustments are done. -/
theorem adjustUntilDecoded_eq (config : Config) (row : UInt32) (done left : Nat) (cells : Row) :
    (adjustUntilDecoded config row (.ofNat (done + 1)) left cells : Session σ ε Data) =
      readFrom config row (done * (config.rereads.toNat + 1))
        (config.rereads.toNat + left * (config.rereads.toNat + 1)) cells := by
  have stretch (done left : Nat) (cells : Row) :
      (rereadUntilDecoded row 1 config.rereads.toNat cells >>=
          keepOr (retryFrom config row (done * (config.rereads.toNat + 1) + config.rereads.toNat) left) :
        Session σ ε Data) =
        readFrom config row (done * (config.rereads.toNat + 1)) (config.rereads.toNat + left) cells :=
    rereadUntilDecoded_bind config row done left 0 config.rereads.toNat cells (Nat.zero_add _)
  induction left generalizing done cells with
  | zero =>
    rw [Nat.zero_mul, ← stretch, adjustUntilDecoded]
    rfl
  | succ left ih =>
    have rest : (left + 1) * (config.rereads.toNat + 1) =
        config.rereads.toNat + left * (config.rereads.toNat + 1) + 1 := by
      rw [Nat.succ_mul]
      omega
    have round : done * (config.rereads.toNat + 1) + config.rereads.toNat + 1 =
        (done + 1) * (config.rereads.toNat + 1) := by
      rw [Nat.succ_mul]
      omega
    have next : UInt32.ofNat (done + 1) + 1 = .ofNat (done + 1 + 1) := (UInt32.ofNat_add _ _).symm
    rw [rest, ← stretch, adjustUntilDecoded]
    congr 1
    funext data?
    cases data? with
    | some data => rfl
    | none =>
      simp only [keepOr, retryFrom, prepare, round, Nat.mul_mod_left, if_true, bind_assoc,
        Nat.mul_div_cancel _ (Nat.succ_pos config.rereads.toNat), next]
      congr 1
      funext _
      congr 1
      funext _
      congr 1
      funext cells
      exact ih (done + 1) cells

/-- **Reading a row is one loop over its sensings**, however the rereads and adjustments are counted. -/
theorem obtainData_eq (config : Config) (row : UInt32) :
    (obtainData config row : Session σ ε Data) = (do
      let cells ← Session.sense row
      readFrom config row 0 (config.sensings - 1) cells) := by
  have left : config.sensings - 1 =
      config.rereads.toNat + config.adjustments.toNat * (config.rereads.toNat + 1) := by
    rw [Config.sensings, Nat.succ_mul]
    omega
  rw [obtainData, left]
  congr 1
  funext cells
  exact (adjustUntilDecoded_eq config row 0 config.adjustments.toNat cells).trans (by rw [Nat.zero_mul])

end

end InstructionCard
