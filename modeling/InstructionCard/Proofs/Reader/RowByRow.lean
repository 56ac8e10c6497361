import InstructionCard.Proofs.Reader.LastCall

/-!
# Row by row

A card is its rows, taken up one after the other: the word of a row is obtained and run, the step is reported,
and the card moves on if the machine keeps running. The first row that does not get so far ends the card.
Main result: `runCard_rowByRow`.
-/

set_option autoImplicit false

namespace InstructionCard

/-- A row that is taken up: the machine before it, and how obtaining its word goes. -/
structure Visit (σ ε : Type) where
  row : UInt32
  machine : Machine
  read : Session.Result σ ε Data

namespace Visit

section

variable {σ ε : Type} (limits : Limits) (v : Visit σ ε)

/-- The word of the row, if it was obtained. -/
def word? : Option Data :=
  v.read.result.toOption

/-- The step that runs the word of the row. -/
def step? : Option (RunState × Machine) :=
  v.word?.map fun w => v.machine.runBits limits w.toList

/-- What is done for the row: its word is obtained, the step is reported with what the machine has to show after
it, and the card is fed if the machine keeps running. -/
def trace : List Activity :=
  v.read.trace ++ (v.step? limits).elim [] fun (state, after) =>
    .reported (.executed v.row after.lastCommand state after.stack.head? after.overflow) ::
      if state = .running then [.asked .feed] else []

variable [Source σ ε]

/-- The machine and the source after the row. -/
def leaves : Machine × σ :=
  match v.step? limits with
  | some (.running, after) => (after, (Session.feed v.read.source).source)
  | some (_, after) => (after, v.read.source)
  | none => (v.machine, v.read.source)

/-- The machine keeps running after the word of the row, and the card moves on. -/
def Passed : Prop :=
  ∃ after, v.step? limits = some (.running, after) ∧ (Session.feed v.read.source).result = .ok ()

/-- What the card comes to at this row if the row does not pass. -/
inductive Ends : Except (ReadError ε) CardEnd → Prop where
  | unread (e : ReadError ε) (read : v.read.result = .error e) : Ends (.error e)
  | stopped (after : Machine) (ran : v.step? limits = some (.stopped, after)) : Ends (.ok (.stopped v.row))
  | faulted (after : Machine) (ran : v.step? limits = some (.error, after)) :
      Ends (.ok (.faulted v.row after.lastError))
  | stuck (after : Machine) (e : ReadError ε) (ran : v.step? limits = some (.running, after))
      (fed : (Session.feed v.read.source).result = .error e) : Ends (.error e)

end

section

variable {σ ε : Type} {v : Visit σ ε}

theorem step?_eq_some_iff {limits : Limits} {step : RunState × Machine} : v.step? limits = some step ↔
    ∃ w, v.read.result = .ok w ∧ v.machine.runBits limits w.toList = step := by
  cases read : v.read.result <;> simp [step?, word?, read, Except.toOption]

/-- There is one report of a step if the word was obtained, and none otherwise. -/
theorem executedEvents_trace (limits : Limits) (unreported : executedEvents v.read.trace = []) :
    executedEvents (v.trace limits) = ((v.step? limits).map fun (state, after) =>
      .executed v.row after.lastCommand state after.stack.head? after.overflow).toList := by
  rw [trace, executedEvents_append, unreported]
  cases v.step? limits with
  | none => rfl
  | some step =>
    rcases step with ⟨_ | _ | _, after⟩ <;> rfl

/-- Words are decoded while the row is read, and not after that. -/
theorem decodedWords_trace (limits : Limits) : decodedWords (v.trace limits) = decodedWords v.read.trace := by
  rw [trace, decodedWords_append]
  cases v.step? limits with
  | none => exact List.append_nil _
  | some step =>
    rcases step with ⟨_ | _ | _, after⟩ <;> exact List.append_nil _

theorem step?_of_ok (limits : Limits) {w : Data} (read : v.read.result = .ok w) :
    v.step? limits = some (v.machine.runBits limits w.toList) := by
  rw [step?, word?, read]
  rfl

theorem step?_of_error (limits : Limits) {e : ReadError ε} (read : v.read.result = .error e) :
    v.step? limits = none := by
  rw [step?, word?, read]
  rfl

variable [Source σ ε] {limits : Limits}

/-- A row passes or the card ends with it. -/
theorem passed_or_ends (limits : Limits) (v : Visit σ ε) :
    v.Passed limits ∨ ∃ outcome, v.Ends limits outcome := by
  cases read : v.read.result with
  | error e => exact .inr ⟨_, .unread e read⟩
  | ok w =>
    have step := step?_of_ok limits read
    rcases ran : v.machine.runBits limits w.toList with ⟨state, after⟩
    rw [ran] at step
    cases state with
    | stopped => exact .inr ⟨_, .stopped after step⟩
    | error => exact .inr ⟨_, .faulted after step⟩
    | running =>
      cases fed : (Session.feed v.read.source).result with
      | error e => exact .inr ⟨_, .stuck after e step fed⟩
      | ok done => exact .inl ⟨after, step, fed⟩

theorem ends_stopped_iff {row : UInt32} : v.Ends limits (.ok (.stopped row)) ↔
    v.row = row ∧ ∃ after, v.step? limits = some (.stopped, after) := by
  constructor
  · rintro ⟨⟩
    exact ⟨rfl, _, ‹_›⟩
  · rintro ⟨rfl, after, ran⟩
    exact .stopped after ran

theorem ends_faulted_iff {row : UInt32} {reason? : Option Fault} : v.Ends limits (.ok (.faulted row reason?)) ↔
    v.row = row ∧ ∃ after, v.step? limits = some (.error, after) ∧ after.lastError = reason? := by
  constructor
  · rintro ⟨⟩
    exact ⟨rfl, _, ‹_›, rfl⟩
  · rintro ⟨rfl, after, ran, rfl⟩
    exact .faulted after ran

theorem ends_error_iff {e : ReadError ε} : v.Ends limits (.error e) ↔
    v.read.result = .error e ∨ ∃ after, v.step? limits = some (.running, after) ∧
      (Session.feed v.read.source).result = .error e := by
  constructor
  · intro ends
    cases ends with
    | unread _ read => exact .inl read
    | stuck after _ ran fed => exact .inr ⟨after, ran, fed⟩
  · rintro (read | ⟨after, ran, fed⟩)
    · exact .unread e read
    · exact .stuck after e ran fed

theorem not_ends_completed : ¬ v.Ends limits (.ok .completed) :=
  nofun

/-- A row the card ends with did not pass. -/
theorem Ends.not_passed {outcome : Except (ReadError ε) CardEnd} (ends : v.Ends limits outcome) :
    ¬ v.Passed limits := by
  rintro ⟨after, ran, fed⟩
  cases ends with
  | unread e read =>
    rw [step?_of_error limits read] at ran
    cases ran
  | stopped after' ran' =>
    rw [ran] at ran'
    cases ran'
  | faulted after' ran' =>
    rw [ran] at ran'
    cases ran'
  | stuck after' e ran' fed' =>
    rw [fed] at fed'
    cases fed'

/-- The machine runs the word of the row if there is one. -/
theorem machine_leaves (limits : Limits) (v : Visit σ ε) :
    (v.leaves limits).1 = v.machine.run limits (v.word?.toList.map fun w => .bits w.toList) := by
  cases read : v.read.result with
  | error e =>
    have word : v.word? = none := by
      rw [word?, read]
      rfl
    rw [leaves, step?_of_error limits read, word]
    rfl
  | ok w =>
    have word : v.word? = some w := by
      rw [word?, read]
      rfl
    have after : (v.leaves limits).1 = (v.machine.runBits limits w.toList).2 := by
      rw [leaves, step?_of_ok limits read]
      rcases v.machine.runBits limits w.toList with ⟨_ | _ | _, after⟩ <;> rfl
    rw [after, word]
    rfl

end

end Visit

section

variable {σ ε : Type} [Source σ ε] (config : Config) (limits : Limits) (machine : Machine) (source : σ)

/-- The row as it goes with the given machine and source. -/
def takeUp (row : UInt32) (start : Machine × σ) : Visit σ ε :=
  ⟨row, start.1, obtainData config row start.2⟩

/-- What the `k`-th row starts with when the rows before it are taken up one after the other. -/
def rowStart : (k : Nat) → Machine × σ
  | 0 => (machine, source)
  | k + 1 => (takeUp config (.ofNat k) (rowStart k)).leaves limits

/-- The `k`-th row of the card. -/
def visit (k : Nat) : Visit σ ε :=
  takeUp config (.ofNat k) (rowStart config limits machine source k)

/-- What is done for the first `n` rows. -/
def rowsTrace (n : Nat) : List Activity :=
  (List.range n).flatMap fun k => (visit config limits machine source k).trace limits

/-- The words that are obtained for the first `n` rows. -/
def rowsWords (n : Nat) : List Data :=
  (List.range n).filterMap fun k => (visit config limits machine source k).word?

end

section

variable {σ ε : Type} [Source σ ε] {config : Config} {limits : Limits}

/-! ## One row -/

/-- A row that passes is done, and the other rows go on from what it leaves. -/
theorem runRows_of_passed_row {row : UInt32} {start : Machine × σ}
    (passed : (takeUp config row start).Passed limits) (left : Nat) :
    runRows config limits (left + 1) row start.1 start.2 =
      let v := takeUp config row start
      let rest := runRows config limits left (row + 1) (v.leaves limits).1 (v.leaves limits).2
      { rest with trace := v.trace limits ++ rest.trace } := by
  obtain ⟨after, ran, fed⟩ := passed
  obtain ⟨w, read, stepped⟩ := Visit.step?_eq_some_iff.1 ran
  simp only [Visit.trace, Visit.leaves, ran]
  simp only [takeUp] at *
  simp only [runRows, read, stepped, fed, executedEvent_mk]
  simp [Session.feed, Session.ask]

/-- A row that does not pass is the last thing that is done. -/
theorem runRows_of_ends {row : UInt32} {start : Machine × σ} {outcome : Except (ReadError ε) CardEnd}
    (ends : (takeUp config row start).Ends limits outcome) (left : Nat) :
    runRows config limits (left + 1) row start.1 start.2 =
      let v := takeUp config row start
      ⟨outcome, (v.leaves limits).1, (v.leaves limits).2, v.trace limits⟩ := by
  cases ends with
  | unread e read =>
    simp only [Visit.trace, Visit.leaves, Visit.step?_of_error limits read]
    simp only [takeUp] at *
    simp only [runRows, read]
    simp
  | stopped after ran =>
    obtain ⟨w, read, stepped⟩ := Visit.step?_eq_some_iff.1 ran
    simp only [Visit.trace, Visit.leaves, ran]
    simp only [takeUp] at *
    simp only [runRows, read, stepped, executedEvent_mk]
    simp
  | faulted after ran =>
    obtain ⟨w, read, stepped⟩ := Visit.step?_eq_some_iff.1 ran
    simp only [Visit.trace, Visit.leaves, ran]
    simp only [takeUp] at *
    simp only [runRows, read, stepped, executedEvent_mk]
    simp
  | stuck after e ran fed =>
    obtain ⟨w, read, stepped⟩ := Visit.step?_eq_some_iff.1 ran
    simp only [Visit.trace, Visit.leaves, ran]
    simp only [takeUp] at *
    simp only [runRows, read, stepped, fed, executedEvent_mk]
    simp [Session.feed, Session.ask]

/-! ## All rows -/

variable {machine : Machine} {source : σ}

theorem filterMap_range_succ {α : Type} (f : Nat → Option α) (n : Nat) :
    (List.range (n + 1)).filterMap f = (List.range n).filterMap f ++ (f n).toList := by
  rw [List.range_succ, List.filterMap_append]
  cases h : f n <;> simp [h]

theorem rowsTrace_succ (n : Nat) : rowsTrace config limits machine source (n + 1) =
    rowsTrace config limits machine source n ++ (visit config limits machine source n).trace limits := by
  rw [rowsTrace, List.range_succ, List.flatMap_append, List.flatMap_singleton, rowsTrace]

/-- The machine before a row ran the words of the rows before it. -/
theorem machine_rowStart (n : Nat) : (rowStart config limits machine source n).1 =
    machine.run limits ((rowsWords config limits machine source n).map fun w => .bits w.toList) := by
  induction n with
  | zero => rfl
  | succ n ih =>
    have words : rowsWords config limits machine source (n + 1) =
        rowsWords config limits machine source n ++ (visit config limits machine source n).word?.toList :=
      filterMap_range_succ _ n
    rw [rowStart, Visit.machine_leaves, words, List.map_append, Machine.run_append, ← ih]
    rfl

/-- A row has one report of a step if its word was obtained, and none otherwise. -/
theorem executedEvents_rowsTrace (n : Nat) : executedEvents (rowsTrace config limits machine source n) =
    (List.range n).filterMap fun k =>
      ((visit config limits machine source k).step? limits).map fun (state, after) =>
        .executed (.ofNat k) after.lastCommand state after.stack.head? after.overflow := by
  induction n with
  | zero => rfl
  | succ n ih =>
    have unreported : executedEvents (visit config limits machine source n).read.trace = [] :=
      (yields_obtainData config (.ofNat n) (rowStart config limits machine source n).2).2
    rw [rowsTrace_succ, executedEvents_append, ih, Visit.executedEvents_trace limits unreported,
      filterMap_range_succ]
    rfl

/-- After rows that pass, the card goes on with the next one. -/
theorem runRows_of_passed (k left : Nat)
    (passed : ∀ i < k, (visit config limits machine source i).Passed limits) :
    runRows config limits (k + left) 0 machine source =
      let start := rowStart config limits machine source k
      let rest := runRows config limits left (.ofNat k) start.1 start.2
      { rest with trace := rowsTrace config limits machine source k ++ rest.trace } := by
  -- The last of the rows that pass is the first of those that are left after the others.
  induction k generalizing left with
  | zero => simp [rowStart, rowsTrace]
  | succ k ih =>
    have next : UInt32.ofNat k + 1 = .ofNat (k + 1) := (UInt32.ofNat_add _ _).symm
    rw [Nat.add_right_comm, Nat.add_assoc, ih (left + 1) fun i less => passed i (Nat.lt_succ_of_lt less)]
    simp only [runRows_of_passed_row (passed k (Nat.lt_succ_self k)), rowsTrace_succ, next, List.append_assoc]
    rfl

/-- All rows passed: the card is completed. -/
theorem runCard_of_passed
    (passed : ∀ k < config.rows.toNat, (visit config limits machine source k).Passed limits) :
    runCard config limits machine source =
      let last := rowStart config limits machine source config.rows.toNat
      ⟨.ok .completed, last.1, last.2, rowsTrace config limits machine source config.rows.toNat⟩ := by
  have whole := runRows_of_passed config.rows.toNat 0 passed
  simpa [runCard, runRows] using whole

/-- The first row that does not pass ends the card. -/
theorem runCard_of_ends {r : Nat} {outcome : Except (ReadError ε) CardEnd} (less : r < config.rows.toNat)
    (passed : ∀ k < r, (visit config limits machine source k).Passed limits)
    (ends : (visit config limits machine source r).Ends limits outcome) :
    runCard config limits machine source =
      let last := rowStart config limits machine source (r + 1)
      ⟨outcome, last.1, last.2, rowsTrace config limits machine source (r + 1)⟩ := by
  obtain ⟨left, count⟩ : ∃ left, config.rows.toNat = r + (left + 1) := ⟨config.rows.toNat - r - 1, by omega⟩
  rw [runCard, count, runRows_of_passed r (left + 1) passed]
  simp only [runRows_of_ends ends, rowsTrace_succ]
  rfl

/-- All rows pass, or there is a first one that does not. -/
theorem passed_or_first_ends (config : Config) (limits : Limits) (machine : Machine) (source : σ) (n : Nat) :
    (∀ k < n, (visit config limits machine source k).Passed limits) ∨
    ∃ r < n, (∀ k < r, (visit config limits machine source k).Passed limits) ∧
      ∃ outcome, (visit config limits machine source r).Ends limits outcome := by
  induction n with
  | zero => exact .inl fun k less => absurd less (Nat.not_lt_zero k)
  | succ n ih =>
    rcases ih with passed | ⟨r, less, first⟩
    · rcases Visit.passed_or_ends limits (visit config limits machine source n) with pass | ends
      · refine .inl fun k less => ?_
        rcases Nat.lt_or_eq_of_le (Nat.le_of_lt_succ less) with less | rfl
        · exact passed k less
        · exact pass
      · exact .inr ⟨n, Nat.lt_succ_self n, passed, ends⟩
    · exact .inr ⟨r, Nat.lt_succ_of_lt less, first⟩

/-- What the card comes to, row by row. -/
theorem runCard_result_iff {outcome : Except (ReadError ε) CardEnd} :
    (runCard config limits machine source).result = outcome ↔
      (outcome = .ok .completed ∧ ∀ k < config.rows.toNat, (visit config limits machine source k).Passed limits) ∨
      ∃ r < config.rows.toNat, (∀ k < r, (visit config limits machine source k).Passed limits) ∧
        (visit config limits machine source r).Ends limits outcome := by
  constructor
  · rintro rfl
    rcases passed_or_first_ends config limits machine source config.rows.toNat with
      passed | ⟨r, less, passed, outcome, ends⟩
    · rw [runCard_of_passed passed]
      exact .inl ⟨rfl, passed⟩
    · rw [runCard_of_ends less passed ends]
      exact .inr ⟨r, less, passed, ends⟩
  · rintro (⟨rfl, passed⟩ | ⟨r, less, passed, ends⟩)
    · rw [runCard_of_passed passed]
    · rw [runCard_of_ends less passed ends]

end

/-- The number of a row of the card tells which row it is. -/
theorem exists_row_iff {rows row : UInt32} (p q : Nat → Prop) :
    (∃ r < rows.toNat, p r ∧ UInt32.ofNat r = row ∧ q r) ↔ row < rows ∧ p row.toNat ∧ q row.toNat := by
  constructor
  · rintro ⟨r, less, passed, rfl, ended⟩
    have number : (UInt32.ofNat r).toNat = r :=
      UInt32.toNat_ofNat_of_lt' (Nat.lt_trans less rows.toNat_lt)
    rw [UInt32.lt_iff_toNat_lt, number]
    exact ⟨less, passed, ended⟩
  · rintro ⟨less, passed, ended⟩
    exact ⟨row.toNat, UInt32.lt_iff_toNat_lt.1 less, passed, UInt32.ofNat_toNat, ended⟩

/-- **A card is its rows, one after the other.** The rows up to the first one that does not pass are taken up.
What is done is what is done for them, and the machine runs the words that were obtained. Each step is reported
once, with the command, the state, the top value and the overflow flag it leaves. The row that does not pass
tells what the card comes to, and a call that fails is the last thing that is done. -/
theorem runCard_rowByRow {σ ε : Type} [Source σ ε] (config : Config) (limits : Limits) (machine : Machine)
    (source : σ) :
    let run := runCard config limits machine source
    let v := visit config limits machine source
    (∃ n ≤ config.rows.toNat, (∀ k, k + 1 < n → (v k).Passed limits) ∧
      (n < config.rows.toNat → 0 < n ∧ ¬ (v (n - 1)).Passed limits) ∧
      run.trace = (List.range n).flatMap (fun k => (v k).trace limits) ∧
      executedEvents run.trace =
        (List.range n).filterMap (fun k => ((v k).step? limits).map fun (state, after) =>
          .executed (.ofNat k) after.lastCommand state after.stack.head? after.overflow) ∧
      run.machine = machine.run limits
        (((List.range n).filterMap fun k => (v k).word?).map fun w => .bits w.toList)) ∧
    (run.result = .ok .completed ↔ ∀ k < config.rows.toNat, (v k).Passed limits) ∧
    (∀ row, run.result = .ok (.stopped row) ↔ row < config.rows ∧
      (∀ k < row.toNat, (v k).Passed limits) ∧
      ∃ after, (v row.toNat).step? limits = some (.stopped, after)) ∧
    (∀ row reason?, run.result = .ok (.faulted row reason?) ↔ row < config.rows ∧
      (∀ k < row.toNat, (v k).Passed limits) ∧
      ∃ after, (v row.toNat).step? limits = some (.error, after) ∧ after.lastError = reason?) ∧
    (∀ e, run.result = .error e ↔ ∃ r < config.rows.toNat, (∀ k < r, (v k).Passed limits) ∧
      ((v r).read.result = .error e ∨ ∃ after, (v r).step? limits = some (.running, after) ∧
        (Session.feed (v r).read.source).result = .error e)) ∧
    EndsAtFailure run.result run.trace
      (runCard config limits machine (⟨source, []⟩ : Recorded σ ε)).source.answers := by
  intro run v
  refine ⟨?_, ?_, ?_, ?_, ?_, ?_⟩
  · rcases passed_or_first_ends config limits machine source config.rows.toNat with
      passed | ⟨r, less, passed, outcome, ends⟩
    · have whole : run = _ := runCard_of_passed passed
      refine ⟨config.rows.toNat, Nat.le_refl _, fun k less => passed k (by omega),
        fun less => absurd less (Nat.lt_irrefl _), ?_⟩
      rw [whole]
      exact ⟨rfl, executedEvents_rowsTrace _, machine_rowStart _⟩
    · have whole : run = _ := runCard_of_ends less passed ends
      refine ⟨r + 1, less, fun k less => passed k (Nat.lt_of_succ_lt_succ less),
        fun _ => ⟨Nat.succ_pos r, ends.not_passed⟩, ?_⟩
      rw [whole]
      exact ⟨rfl, executedEvents_rowsTrace _, machine_rowStart _⟩
  · rw [runCard_result_iff]
    constructor
    · rintro (⟨_, passed⟩ | ⟨r, _, _, ends⟩)
      · exact passed
      · exact absurd ends Visit.not_ends_completed
    · exact fun passed => .inl ⟨rfl, passed⟩
  · intro row
    rw [runCard_result_iff]
    simp only [Visit.ends_stopped_iff, reduceCtorEq, Except.ok.injEq, false_and, false_or]
    exact exists_row_iff (fun r => ∀ k < r, (v k).Passed limits) fun r =>
      ∃ after, (v r).step? limits = some (.stopped, after)
  · intro row reason?
    rw [runCard_result_iff]
    simp only [Visit.ends_faulted_iff, reduceCtorEq, Except.ok.injEq, false_and, false_or]
    exact exists_row_iff (fun r => ∀ k < r, (v k).Passed limits) fun r =>
      ∃ after, (v r).step? limits = some (.error, after) ∧ after.lastError = reason?
  · intro e
    rw [runCard_result_iff]
    simp only [Visit.ends_error_iff, reduceCtorEq, false_and, false_or]
    exact Iff.rfl
  · have recorded := runRows_recorded config limits config.rows.toNat 0 machine (⟨source, []⟩ : Recorded σ ε)
    obtain ⟨answers, all, ended⟩ :=
      runRows_endsAtFailure config limits config.rows.toNat 0 machine (⟨source, []⟩ : Recorded σ ε)
    have same : run = _ := recorded.1
    rw [same, runCard, all]
    exact ended

end InstructionCard
