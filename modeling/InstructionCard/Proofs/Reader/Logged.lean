import InstructionCard.Proofs.Frame.Log
import InstructionCard.Proofs.Reader.Replay
import InstructionCard.Reader.Script

/-!
# Replaying a card from its log

A log with enough room keeps every event of a card, and the events tell the whole run: each word that was
decoded is followed at once by the report of its step, and the words alone, run on the machine the card
started with, give those reports and the machine the card leaves. Main result: `runCard_logged`.
-/

set_option autoImplicit false

namespace InstructionCard

/-! ## A log with room -/

/-- With room for all of them, short events are all kept and none is counted. -/
theorem Log.recordAll_of_room {limits : Limits} (log : Log) {events : List Event}
    (short : ∀ event ∈ events, (Frame.ofValue event).length ≤ limits.frame)
    (room : log.frames.length + events.length ≤ limits.capacity) :
    log.recordAll limits events = { log with frames := log.frames ++ events.map Frame.ofValue } := by
  induction events generalizing log with
  | nil =>
    rw [List.map_nil, List.append_nil]
    rfl
  | cons event events ih =>
    rw [List.length_cons] at room
    have kept := keep_of_short log (short event List.mem_cons_self)
    rw [if_pos (by omega)] at kept
    have recorded : log.record limits event = { log with frames := log.frames ++ [Frame.ofValue event] } := by
      rw [record, kept]
    have rest := ih (log.record limits event) (fun e mem => short e (List.mem_cons_of_mem _ mem)) (by
      rw [recorded, List.length_append, List.length_singleton]
      omega)
    show (log.record limits event).recordAll limits events = _
    rw [rest, recorded, List.append_assoc, List.map_cons, List.singleton_append]

/-! ## Words and their reports -/

/-- Among the events, each decoded word is followed at once by the report of its step, at the same row, and
there are no other such reports. -/
inductive Paired : List Event → Prop where
  | nil : Paired []
  | other (event : Event) (rest : List Event) (noWord : event.decodedWord? = none)
      (notExecuted : event.isExecuted = false) (paired : Paired rest) : Paired (event :: rest)
  | word (row : UInt32) (data : Data) (verdict : Verdict) (command? : Option Command) (state : RunState)
      (top? : Option Value) (overflow : Bool) (rest : List Event) (paired : Paired rest) :
      Paired (.rowDecoded row (some data) verdict :: .executed row command? state top? overflow :: rest)

theorem Paired.append {events rest : List Event} (noWord : ∀ event ∈ events, event.decodedWord? = none)
    (notExecuted : ∀ event ∈ events, event.isExecuted = false) (paired : Paired rest) :
    Paired (events ++ rest) := by
  induction events with
  | nil => exact paired
  | cons event events ih =>
    obtain ⟨noWordFirst, noWord⟩ := List.forall_mem_cons.1 noWord
    obtain ⟨notExecutedFirst, notExecuted⟩ := List.forall_mem_cons.1 notExecuted
    exact .other event _ noWordFirst notExecutedFirst (ih noWord notExecuted)

/-- A trace without words and reports can stand in front. -/
theorem Paired.append_quiet {trace : List Activity} {rest : List Event} (noWords : decodedWords trace = [])
    (noneExecuted : executedEvents trace = []) (paired : Paired rest) : Paired (reportedEvents trace ++ rest) := by
  refine .append (List.filterMap_eq_nil_iff.1 noWords) (fun event mem => ?_) paired
  simpa using List.filter_eq_nil_iff.1 noneExecuted event mem

variable {σ ε α : Type}

/-- A session that comes to a word reports it last. -/
def Session.ReportsLast (row : UInt32) (session : Session σ ε Data) : Prop :=
  ∀ source data, (session source).result = .ok data → ∃ before verdict,
    (session source).trace = before ++ [.reported (.rowDecoded row (some data) verdict)]

/-- It is the last part that comes to the word. -/
theorem Session.ReportsLast.bind {row : UInt32} {first : Session σ ε α} {next : α → Session σ ε Data}
    (last : ∀ a, (next a).ReportsLast row) : (first >>= next).ReportsLast row := by
  intro source data result
  cases h : (first source).result with
  | error e =>
    rw [bind_of_error h] at result
    cases result
  | ok a =>
    rw [bind_of_ok h] at result ⊢
    obtain ⟨before, verdict, trace⟩ := last a _ data result
    exact ⟨(first source).trace ++ before, verdict, by simp only [trace, List.append_assoc]⟩

theorem Session.reportsLast_fail (row : UInt32) (e : ReadError ε) :
    (Session.fail e : Session σ ε Data).ReportsLast row := by
  intro source data result
  cases result

/-- Either the cells decode and nothing follows, or what follows comes to the word. -/
theorem reportsLast_decodeRow {row : UInt32} {next : Session σ ε Data} (last : next.ReportsLast row) (cells : Row) :
    (decodeRow row cells >>= keepOr next).ReportsLast row := by
  intro source data result
  rw [decodeRow, bind_assoc, Session.report_bind, pure_bind] at result ⊢
  cases h : (Row.decode cells).data? with
  | some decoded =>
    rw [h] at result
    cases result
    exact ⟨[], _, rfl⟩
  | none =>
    rw [h] at result
    obtain ⟨before, verdict, trace⟩ := last source data result
    refine ⟨.reported (.rowDecoded row none (Row.decode cells).verdict) :: before, verdict, ?_⟩
    show _ :: (next source).trace = _
    rw [trace, List.cons_append]

section

variable [Source σ ε]

/-- However many sensings are left, the word is reported last. -/
theorem reportsLast_readFrom (config : Config) (row : UInt32) (i left : Nat) (cells : Row) :
    (readFrom config row i left cells : Session σ ε Data).ReportsLast row := by
  induction left generalizing i cells with
  | zero => exact reportsLast_decodeRow (Session.reportsLast_fail row _) cells
  | succ left ih => exact reportsLast_decodeRow (.bind fun _ => .bind fun cells => ih (i + 1) cells) cells

theorem reportsLast_obtainData (config : Config) (row : UInt32) :
    (obtainData config row : Session σ ε Data).ReportsLast row := by
  rw [obtainData_eq]
  exact .bind fun cells => reportsLast_readFrom config row 0 _ cells

/-- A word that is read and run is a pair in front of what follows. -/
theorem Paired.word_append {row : UInt32} {data : Data} {verdict : Verdict} (step : RunState × Machine)
    {read before later : List Activity} (decoded : decodedWords read = [(row, data)])
    (executed : executedEvents read = [])
    (last : read = before ++ [.reported (.rowDecoded row (some data) verdict)])
    (paired : Paired (reportedEvents later)) :
    Paired (reportedEvents (read ++ [.reported (executedEvent row step)] ++ later)) := by
  subst last
  have noWords : decodedWords before = [] := by
    have only : decodedWords before ++ [(row, data)] = [(row, data)] := by rwa [decodedWords_append] at decoded
    simpa using only
  have noneExecuted : executedEvents before = [] := by
    rw [executedEvents_append] at executed
    exact (List.append_eq_nil_iff.1 executed).1
  have parts : reportedEvents (before ++ [.reported (.rowDecoded row (some data) verdict)] ++
      [.reported (executedEvent row step)] ++ later) = reportedEvents before ++
      (.rowDecoded row (some data) verdict :: executedEvent row step :: reportedEvents later) := by
    simp [reportedEvents, Activity.event?]
  rw [parts]
  exact .append_quiet noWords noneExecuted (.word _ _ _ _ _ _ _ _ paired)

/-- **Words and their reports alternate**, whatever the source does and however the card ends. -/
theorem paired_runRows (config : Config) (limits : Limits) (left : Nat) (row : UInt32) (machine : Machine)
    (source : σ) : Paired (reportedEvents (runRows config limits left row machine source).trace) := by
  induction left generalizing row machine source with
  | zero => exact .nil
  | succ left ih =>
    have first := firstRow_runRows config limits left row machine source
    generalize runRows config limits (left + 1) row machine source = run at first
    obtain ⟨decoded, executed⟩ := yields_obtainData (ε := ε) config row source
    have last := reportsLast_obtainData (ε := ε) config row source
    generalize obtainData config row source = word at first decoded executed last
    have noneLater : Paired (reportedEvents []) := .nil
    cases first with
    | unread e read =>
      rw [read] at decoded
      have quiet := Paired.append_quiet decoded executed .nil
      rwa [List.append_nil] at quiet
    | stopped data after read ran =>
      rw [read] at decoded
      obtain ⟨before, verdict, trace⟩ := last data read
      have ended := Paired.word_append (.stopped, after) decoded executed trace noneLater
      rwa [List.append_nil] at ended
    | faulted data after read ran =>
      rw [read] at decoded
      obtain ⟨before, verdict, trace⟩ := last data read
      have ended := Paired.word_append (.error, after) decoded executed trace noneLater
      rwa [List.append_nil] at ended
    | stuck data after e read ran fed =>
      rw [read] at decoded
      obtain ⟨before, verdict, trace⟩ := last data read
      exact Paired.word_append (.running, after) decoded executed trace .nil
    | moved data after rest read ran fed next =>
      rw [read] at decoded
      obtain ⟨before, verdict, trace⟩ := last data read
      have later := ih (row + 1) after (Session.feed word.source).source
      rw [next] at later
      have moved : Paired (reportedEvents ([.asked .feed] ++ rest.trace)) := later
      have ended := Paired.word_append (.running, after) decoded executed trace moved
      rwa [← List.append_assoc] at ended

/-! ## The log of a card -/

/-- **A card can be replayed from its log.** An empty log with room keeps every event and drops none, whatever
the source does. The decoded words in it are run by the machine the card started with as they were by the card:
they give the machine the card leaves, and after each of them the machine has the command, the state, the top
value and the overflow flag that its report in the log names. Nothing is counted as dropped in a log that was
new or cleared before, nor in one that other operations left empty, as long as it may hold an event at all. -/
theorem runCard_logged (config : Config) (limits : Limits) (machine : Machine) (source : σ)
    (logLimits : Log.Limits) (log : Log) (empty : log.isEmpty = true) (frame : 16 ≤ logLimits.frame)
    (room : (reportedEvents (runCard config limits machine source).trace).length ≤ logLimits.capacity) :
    let run := runCard config limits machine source
    let events := reportedEvents run.trace
    let words := events.filterMap Event.decodedWord?
    let filled := log.recordAll logLimits events
    filled.events = events.map .ok ∧ filled.dropped = log.dropped ∧
      ((log = {} ∨ ∃ earlier : Log, log = earlier.clear) → filled.dropped = 0) ∧
      (∀ operations, log = Log.run logLimits {} operations → 0 < logLimits.capacity → filled.dropped = 0) ∧
      Paired events ∧
      events.filter Event.isExecuted = (words.map Prod.fst).zipWith
        (fun row (state, after) => .executed row after.lastCommand state after.stack.head? after.overflow)
        (machine.history limits (inputs words)) ∧
      run.machine = machine.run limits (inputs words) := by
  intro run events words filled
  have none : log.frames = [] := List.isEmpty_iff.1 empty
  have kept : filled = { log with frames := events.map Frame.ofValue } := by
    have short : ∀ event ∈ events, (Frame.ofValue event).length ≤ logLimits.frame := fun event _ =>
      Nat.le_trans (Frame.length_ofValue_event_le event) frame
    have all := log.recordAll_of_room short (by simpa [none] using room)
    rwa [none, List.nil_append] at all
  have same : filled.dropped = log.dropped := by rw [kept]
  have replay : Replays limits machine run.machine run.trace := runRows_replay config limits _ 0 machine source
  refine ⟨?_, same, ?_, ?_, paired_runRows config limits _ 0 machine source, replay.reports, replay.machine⟩
  · rw [kept, Log.events, List.map_map]
    exact List.map_congr_left fun event _ => Frame.decode_ofValue event
  · rintro (rfl | ⟨earlier, rfl⟩) <;> exact same
  · rintro operations rfl capacity
    rw [same]
    refine (Log.holds_run logLimits operations).dropped_of_isEmpty (fun offer _ => ?_) capacity empty
    exact decide_eq_true (Nat.le_trans (Frame.length_ofValue_event_le offer.event) frame)

end

/-- Row 0 carries the word and is sensed when it is read again. Then the card is stuck. -/
def jammedScript (w : Data) : Script where
  rows := [.ok Script.unsensed]
  rereads := [.ok ((Code.standard.codeword w).map some)]
  advances := [.error "jammed"]

/-- The log of a card that was read at the second sensing, ran its word and got stuck. -/
theorem runCard_logged_jammedScript :
    let w : Data := Vector.mk #[0, 0, 0, 1, 0, 1] rfl
    let run := runCard {} {} {} (jammedScript w)
    let events := reportedEvents run.trace
    let after := Log.recordAll { frame := 16, capacity := 4 } {} events
    run.result = .error (.source "jammed") ∧ events.length = 4 ∧ after.events = events.map .ok ∧
      after.dropped = 0 ∧ Paired events ∧
      events.filter Event.isExecuted = [.executed 0 (some (.operand 5)) .running (some (.byte 5)) false] ∧
      run.machine = Machine.run {} {} (inputs [(0, w)]) := by
  intro w run events after
  have length : events.length = 4 := by decide +kernel
  have words : events.filterMap Event.decodedWord? = [(0, w)] := by decide +kernel
  obtain ⟨shown, -, fresh, -, paired, reports, left⟩ := runCard_logged {} {} {} (jammedScript w)
    { frame := 16, capacity := 4 } {} rfl (Nat.le_refl 16) (Nat.le_of_eq length)
  rw [words] at reports left
  exact ⟨by decide +kernel, length, shown, fresh (.inl rfl), paired, reports.trans (by decide +kernel), left⟩

end InstructionCard
