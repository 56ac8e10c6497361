import InstructionCard.Proofs.Reader.Garbled
import InstructionCard.Proofs.Reader.Recording

/-!
# Admissible answers

The answers of a source are admissible for a list of words when no call failed and every sensing of a row
only garbles the word of that row. Reading a row then comes to its word or to nothing, and it comes to the
word when one of the sensings that the reader grants the row is legible: `obtainData_admissible`.
-/

set_option autoImplicit false

namespace InstructionCard

variable {σ ε α β : Type}

/-! ## What is assumed of the answers -/

/-- The call succeeded, and a sensed row only garbles the word of its row. -/
def Answer.Admissible (words : List Data) : Answer ε → Prop
  | sensed row (.ok cells) => ∀ w ∈ words[row.toNat]?, cells.Garbles w
  | sensed _ (.error _) => False
  | moved (.ok _) => True
  | moved (.error _) => False

instance (words : List Data) : DecidablePred (Answer.Admissible words (ε := ε))
  | .sensed row (.ok _) => Option.decidableForallMem words[row.toNat]?
  | .sensed _ (.error _) => isFalse nofun
  | .moved (.ok _) => isTrue trivial
  | .moved (.error _) => isFalse nofun

theorem Answer.Admissible.sensed {words : List Data} {row : UInt32} {cells? : Except ε Row}
    (h : (Answer.sensed row cells?).Admissible words) :
    ∃ cells, cells? = .ok cells ∧ ∀ w, words[row.toNat]? = some w → cells.Garbles w := by
  cases cells? with
  | error e => cases h
  | ok cells => exact ⟨cells, rfl, h⟩

theorem Answer.Admissible.moved {words : List Data} {done : Except ε Unit}
    (h : (Answer.moved done).Admissible words) : done = .ok () := by
  cases done with
  | error e => cases h
  | ok done => rfl

/-- All answers of the source so far are admissible. -/
def Recorded.Admissible (words : List Data) (r : Recorded σ ε) : Prop :=
  ∀ answer ∈ r.answers, answer.Admissible words

instance (words : List Data) (r : Recorded σ ε) : Decidable (r.Admissible words) :=
  inferInstanceAs (Decidable (∀ answer ∈ r.answers, _))

/-- Every earlier part of an admissible record is admissible. -/
theorem Recorded.Admissible.of_prefix {words : List Data} {r s : Recorded σ ε} (h : s.Admissible words)
    (grows : r.answers <+: s.answers) : r.Admissible words :=
  fun answer mem => h answer (grows.subset mem)

/-- What a session records stays recorded, so an admissible whole has an admissible first part. -/
theorem admissible_of_bind {words : List Data} {first : Session (Recorded σ ε) ε α}
    {next : α → Session (Recorded σ ε) ε β} {r : Recorded σ ε}
    (grows : ∀ a s, s.answers <+: (next a s).source.answers)
    (h : ((first >>= next) r).source.Admissible words) : (first r).source.Admissible words := by
  cases result : (first r).result with
  | error e =>
    rw [Session.bind_of_error result] at h
    exact h
  | ok a =>
    rw [Session.bind_of_ok result] at h
    exact h.of_prefix (grows a _)

/-- A recorded answer that is admissible tells what the call came to. -/
theorem ask_sensed {request : Request} {call : Recorded σ ε → Except ε Row × Recorded σ ε} {row : UInt32}
    {words : List Data} {r : Recorded σ ε} (recorded : .sensed row (call r).1 ∈ (call r).2.answers)
    (h : (Session.ask request call r).source.Admissible words) : ∃ cells, (call r).1 = .ok cells ∧
      (Session.ask request call r).result = .ok cells ∧ ∀ w, words[row.toNat]? = some w → cells.Garbles w := by
  obtain ⟨cells, sensed, garbles⟩ := (h _ recorded).sensed
  exact ⟨cells, sensed, Session.ask_of_ok sensed, garbles⟩

theorem ask_moved {request : Request} {call : Recorded σ ε → Except ε Unit × Recorded σ ε} {words : List Data}
    {r : Recorded σ ε} (recorded : .moved (call r).1 ∈ (call r).2.answers)
    (h : (Session.ask request call r).source.Admissible words) :
    (Session.ask request call r).result = .ok () :=
  Session.ask_of_ok (h _ recorded).moved

section

variable [Source σ ε]

/-- The word can be read off the `i`-th sensing of the row. -/
def LegibleAt (config : Config) (row : UInt32) (source : σ) (i : Nat) (w : Data) : Prop :=
  ∃ cells, (sensing config row source i).1 = .ok cells ∧ cells.Legible w

instance (config : Config) (row : UInt32) (source : σ) (i : Nat) (w : Data) :
    Decidable (LegibleAt config row source i w) :=
  match sensed : (sensing config row source i).1 with
  | .ok cells => decidable_of_iff (cells.Legible w) (by simp [LegibleAt, sensed])
  | .error _ => isFalse (by simp [LegibleAt, sensed])

/-- The word can be read off one of the sensings that the reader grants the row. -/
def LegibleInTime (config : Config) (row : UInt32) (source : σ) (w : Data) : Prop :=
  ∃ i < config.sensings, LegibleAt config row source i w

instance (config : Config) (row : UInt32) (source : σ) (w : Data) :
    Decidable (LegibleInTime config row source w) :=
  inferInstanceAs (Decidable (∃ i < config.sensings, _))

/-! ## One row -/

theorem source_prepare (config : Config) (row : UInt32) (i : Nat) (r : Recorded σ ε) :
    (prepare config row i r).source.source =
      if i % (config.rereads.toNat + 1) = 0 then (Source.straighten row r.source).2 else r.source := by
  unfold prepare
  split <;> rfl

/-- Preparing a sensing never fails where no call does. -/
theorem prepare_admissible {config : Config} {row : UInt32} {i : Nat} {words : List Data} {r : Recorded σ ε}
    (h : (prepare config row i r).source.Admissible words) : (prepare config row i r).result = .ok () := by
  by_cases round : i % (config.rereads.toNat + 1) = 0
  · simp only [prepare, if_pos round, Session.report_bind] at *
    exact ask_moved List.mem_concat_self h
  · simp only [prepare, if_neg round]
    rfl

/-- One more sensing keeps the loop in step with the sensings of the row, which started at `source`. -/
theorem retryFrom_admissible {config : Config} {row : UInt32} {i left : Nat} {words : List Data} {source : σ}
    {cells : Row} {r : Recorded σ ε} (inStep : sensing config row source i = (.ok cells, r.source))
    (h : (retryFrom config row i (left + 1) r).source.Admissible words) : ∃ (next : Row) (s : Recorded σ ε),
      sensing config row source (i + 1) = (.ok next, s.source) ∧
      (∀ w, words[row.toNat]? = some w → next.Garbles w) ∧
      (retryFrom config row i (left + 1) r).result = (readFrom config row (i + 1) left next s).result ∧
      (readFrom config row (i + 1) left next s).source.Admissible words := by
  have later (cells : Row) := Follows.readFrom (σ := σ) (ε := ε) config row (i + 1) left cells
  have prepared : (prepare config row (i + 1) r).source.Admissible words :=
    admissible_of_bind (fun _ => ((Follows.resense row).bind later).grows) h
  rw [retryFrom, Session.bind_of_ok (prepare_admissible prepared)] at *
  have sensed : (Session.resense row (prepare config row (i + 1) r).source).source.Admissible words :=
    admissible_of_bind (fun cells => (later cells).grows) h
  obtain ⟨next, answer, result, garbles⟩ := ask_sensed List.mem_concat_self sensed
  have result' : (Session.resense row (prepare config row (i + 1) r).source).result = .ok next := result
  rw [Session.bind_of_ok result'] at *
  have stepped : sensing config row source (i + 1) =
      Source.resense row (prepare config row (i + 1) r).source.source := by
    rw [sensing, inStep, source_prepare]
    split <;> rfl
  exact ⟨next, _, stepped.trans (Prod.ext answer rfl), garbles, rfl, h⟩

section

variable {config : Config} {row : UInt32} {words : List Data} {w : Data} (binary : BinaryCells w.toList)
include binary

/-- A sensing that did not decode is none of the legible ones. -/
theorem ne_of_legible {source s : σ} {i j : Nat} {cells : Row}
    (inStep : sensing config row source i = (.ok cells, s)) (refused : cells.decode.data? = none)
    (legible : LegibleAt config row source j w) : j ≠ i := by
  rintro rfl
  obtain ⟨next, sensed, legible⟩ := legible
  rw [inStep] at sensed
  cases sensed
  rw [Row.data?_decode_of_legible binary legible] at refused
  cases refused

variable (word : words[row.toNat]? = some w)
include word

/-- The loop comes to the word or to nothing, and to the word when a sensing it has left is legible. -/
theorem readFrom_admissible {source : σ} {i left : Nat} {cells : Row} {r : Recorded σ ε}
    (inStep : sensing config row source i = (.ok cells, r.source)) (garbles : cells.Garbles w)
    (h : (readFrom config row i left cells r).source.Admissible words) :
    ((readFrom config row i left cells r).result = .ok w ∨
        (readFrom config row i left cells r).result = .error (.unreadable row)) ∧
      ((∃ j, i ≤ j ∧ j ≤ i + left ∧ LegibleAt config row source j w) →
        (readFrom config row i left cells r).result = .ok w) := by
  induction left generalizing i cells r with
  | zero =>
    rcases Row.data?_decode_of_garbles binary garbles with refused | decoded
    · rw [readFrom_of_refused refused]
      refine ⟨.inr rfl, ?_⟩
      rintro ⟨j, low, high, legible⟩
      exact absurd (by omega) (ne_of_legible binary inStep refused legible)
    · rw [readFrom_of_decoded decoded]
      exact ⟨.inl rfl, fun _ => rfl⟩
  | succ left ih =>
    rcases Row.data?_decode_of_garbles binary garbles with refused | decoded
    · rw [readFrom_of_refused refused] at *
      obtain ⟨next, s, inStep', garbles', result, admissible⟩ := retryFrom_admissible inStep h
      obtain ⟨word', complete⟩ := ih inStep' (garbles' w word) admissible
      rw [← result] at word' complete
      refine ⟨word', ?_⟩
      rintro ⟨j, low, high, legible⟩
      have other := ne_of_legible binary inStep refused legible
      exact complete ⟨j, by omega, by omega, legible⟩
    · rw [readFrom_of_decoded decoded]
      exact ⟨.inl rfl, fun _ => rfl⟩

/-- **One row.** The word of the row is read, or none; it is read when it is legible in time. -/
theorem obtainData_admissible {r : Recorded σ ε} (h : (obtainData config row r).source.Admissible words) :
    ((obtainData config row r).result = .ok w ∨
        (obtainData config row r).result = .error (.unreadable row)) ∧
      (LegibleInTime config row r.source w → (obtainData config row r).result = .ok w) := by
  rw [obtainData_eq] at *
  have later (cells : Row) := Follows.readFrom (σ := σ) (ε := ε) config row 0 (config.sensings - 1) cells
  have sensed : (Session.sense row r).source.Admissible words :=
    admissible_of_bind (fun cells => (later cells).grows) h
  obtain ⟨cells, answer, result, garbles⟩ := ask_sensed List.mem_concat_self sensed
  have result' : (Session.sense row r).result = .ok cells := result
  rw [Session.bind_of_ok result'] at *
  have inStep : sensing config row r.source 0 = (.ok cells, (Session.sense row r).source.source) :=
    Prod.ext answer rfl
  obtain ⟨word', complete⟩ := readFrom_admissible binary word inStep (garbles w word) h
  refine ⟨word', ?_⟩
  rintro ⟨i, less, legible⟩
  exact complete ⟨i, Nat.zero_le i, by omega, legible⟩

end

end

end InstructionCard
