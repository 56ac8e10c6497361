import Mathlib.Data.List.Forall2
import InstructionCard.Proofs.Reader.Recording

/-!
# The last call

A reader makes one call after the other and gets an answer to each. An answer that reports a failure is
the last one, nothing is reported after it, and its failure is what the reading comes to. Main result:
`runRows_endsAtFailure`.
-/

set_option autoImplicit false

namespace InstructionCard

variable {σ ε α β : Type}

namespace Answer

/-- The failure that the answer reports. -/
def failure? : Answer ε → Option ε
  | sensed _ (.error e) | moved (.error e) => some e
  | sensed _ (.ok _) | moved (.ok _) => none

/-- The answer is one to the call. -/
def Replies : Answer ε → Request → Prop
  | sensed row _, .sense row' | sensed row _, .resense row' => row = row'
  | moved _, .straighten _ | moved _, .feed => True
  | sensed _ _, .straighten _ | sensed _ _, .feed | moved _, .sense _ | moved _, .resense _ => False

end Answer

/-- What calls come to, what is done for them, and the answers to them. -/
inductive EndsAtFailure : Except (ReadError ε) α → List Activity → List (Answer ε) → Prop where
  /-- No call failed. -/
  | fine (result : Except (ReadError ε) α) (trace : List Activity) (answers : List (Answer ε))
      (replied : List.Forall₂ Answer.Replies answers (requests trace))
      (fine : ∀ answer ∈ answers, answer.failure? = none) (own : ∀ e, result ≠ .error (.source e)) :
      EndsAtFailure result trace answers
  /-- The last call failed. -/
  | failed (e : ε) (request : Request) (trace : List Activity) (answer : Answer ε) (answers : List (Answer ε))
      (replied : List.Forall₂ Answer.Replies answers (requests trace))
      (fine : ∀ answer ∈ answers, answer.failure? = none) (last : answer.Replies request)
      (failure : answer.failure? = some e) :
      EndsAtFailure (.error (.source e)) (trace ++ [.asked request]) (answers ++ [answer])

namespace EndsAtFailure

/-- Calls that succeeded come before those of a session that follows. -/
theorem append {earlier trace : List Activity} {before answers : List (Answer ε)}
    {result : Except (ReadError ε) β}
    (replied : List.Forall₂ Answer.Replies before (requests earlier))
    (noneFailed : ∀ answer ∈ before, answer.failure? = none) (later : EndsAtFailure result trace answers) :
    EndsAtFailure result (earlier ++ trace) (before ++ answers) := by
  have all {answers : List (Answer ε)} (fine : ∀ answer ∈ answers, answer.failure? = none) :
      ∀ answer ∈ before ++ answers, answer.failure? = none :=
    fun answer mem => (List.mem_append.1 mem).elim (noneFailed answer) (fine answer)
  cases later with
  | fine _ _ _ replied' fine own =>
    refine .fine _ _ _ ?_ (all fine) own
    rw [requests_append]
    exact List.rel_append replied replied'
  | failed e request trace answer answers replied' fine last failure =>
    rw [← List.append_assoc, ← List.append_assoc]
    refine .failed e request _ answer _ ?_ (all fine) last failure
    rw [requests_append]
    exact List.rel_append replied replied'

/-- A failure is passed on as it is. -/
theorem error {e : ReadError ε} {trace : List Activity} {answers : List (Answer ε)}
    (h : EndsAtFailure (.error e : Except (ReadError ε) α) trace answers) :
    EndsAtFailure (.error e : Except (ReadError ε) β) trace answers := by
  cases h with
  | fine _ _ _ replied fine own =>
    refine .fine _ _ _ replied fine ?_
    rintro e' ⟨⟩
    exact own e' rfl
  | failed e request trace answer answers replied fine last failure =>
    exact .failed e request trace answer answers replied fine last failure

/-- What succeeded made no call that failed. -/
theorem ok {a : α} {trace : List Activity} {answers : List (Answer ε)}
    (h : EndsAtFailure (.ok a : Except (ReadError ε) α) trace answers) :
    List.Forall₂ Answer.Replies answers (requests trace) ∧ ∀ answer ∈ answers, answer.failure? = none := by
  cases h with
  | fine _ _ _ replied fine own => exact ⟨replied, fine⟩

end EndsAtFailure

namespace Session

/-- Whatever the source answered before, the answers to this session end at the first failure. -/
def StopsAtFailure (session : Session (Recorded σ ε) ε α) : Prop :=
  ∀ r, ∃ answers, (session r).source.answers = r.answers ++ answers ∧
    EndsAtFailure (session r).result (session r).trace answers

namespace StopsAtFailure

theorem pure (a : α) : StopsAtFailure (pure a : Session (Recorded σ ε) ε α) :=
  fun _ => ⟨[], (List.append_nil _).symm, .fine _ _ _ .nil (List.forall_mem_nil _) nofun⟩

theorem fail (row : UInt32) : StopsAtFailure (Session.fail (.unreadable row) : Session (Recorded σ ε) ε α) :=
  fun _ => ⟨[], (List.append_nil _).symm, .fine _ _ _ .nil (List.forall_mem_nil _) nofun⟩

theorem report (event : Event) : StopsAtFailure (Session.report event : Session (Recorded σ ε) ε Unit) :=
  fun _ => ⟨[], (List.append_nil _).symm, .fine _ _ _ .nil (List.forall_mem_nil _) nofun⟩

/-- A call is one request with one answer. -/
theorem ask {request : Request} {call : Recorded σ ε → Except ε α × Recorded σ ε}
    (answered : ∀ r, ∃ answer : Answer ε, (call r).2.answers = r.answers ++ [answer] ∧
      answer.Replies request ∧ ∀ e, answer.failure? = some e ↔ (call r).1 = .error e) :
    StopsAtFailure (Session.ask request call) := by
  intro r
  obtain ⟨answer, grown, replies, failure⟩ := answered r
  refine ⟨[answer], grown, ?_⟩
  cases h : (call r).1 with
  | error e =>
    have failed := EndsAtFailure.failed (α := α) e request [] answer [] .nil (List.forall_mem_nil _) replies
      ((failure e).2 h)
    simpa [Session.ask, h, Except.mapError] using failed
  | ok a =>
    have fine : answer.failure? = none :=
      Option.eq_none_iff_forall_ne_some.2 fun e failed => by simp [(failure e).1 failed] at h
    have succeeded := EndsAtFailure.fine (.ok a) [.asked request] [answer] (.cons replies .nil)
      (by simpa using fine) nofun
    simpa [Session.ask, h, Except.mapError] using succeeded

/-- A failure in the first part ends the whole, and otherwise the second part decides. -/
theorem bind {first : Session (Recorded σ ε) ε α} {next : α → Session (Recorded σ ε) ε β}
    (before : StopsAtFailure first) (after : ∀ a, StopsAtFailure (next a)) :
    StopsAtFailure (first >>= next) := by
  intro r
  obtain ⟨answers, grown, ended⟩ := before r
  cases h : (first r).result with
  | error e =>
    rw [Session.bind_of_error h]
    rw [h] at ended
    exact ⟨answers, grown, ended.error⟩
  | ok a =>
    rw [Session.bind_of_ok h]
    rw [h] at ended
    obtain ⟨replied, fine⟩ := ended.ok
    obtain ⟨more, grown', later⟩ := after a (first r).source
    refine ⟨answers ++ more, ?_, later.append replied fine⟩
    rw [← List.append_assoc, ← grown]
    exact grown'

theorem decodeRow (row : UInt32) (cells : Row) :
    StopsAtFailure (decodeRow row cells : Session (Recorded σ ε) ε (Option Data)) :=
  (report _).bind fun _ => pure _

variable [Source σ ε]

theorem sense (row : UInt32) : StopsAtFailure (Session.sense row : Session (Recorded σ ε) ε Row) := by
  refine ask fun r => ⟨.sensed row _, rfl, rfl, ?_⟩
  intro e
  cases h : (Source.sense row r).1 <;> simp [Answer.failure?]

theorem resense (row : UInt32) : StopsAtFailure (Session.resense row : Session (Recorded σ ε) ε Row) := by
  refine ask fun r => ⟨.sensed row _, rfl, rfl, ?_⟩
  intro e
  cases h : (Source.resense row r).1 <;> simp [Answer.failure?]

theorem straighten (row : UInt32) :
    StopsAtFailure (Session.straighten row : Session (Recorded σ ε) ε Unit) := by
  refine ask fun r => ⟨.moved _, rfl, trivial, ?_⟩
  intro e
  cases h : (Source.straighten row r).1 <;> simp [Answer.failure?]

theorem feed : StopsAtFailure (Session.feed : Session (Recorded σ ε) ε Unit) := by
  refine ask fun r => ⟨.moved _, rfl, trivial, ?_⟩
  intro e
  cases h : (Source.feed r).1 <;> simp [Answer.failure?]

theorem prepare (config : Config) (row : UInt32) (i : Nat) :
    StopsAtFailure (prepare config row i : Session (Recorded σ ε) ε Unit) := by
  unfold InstructionCard.prepare
  split
  · exact (report _).bind fun _ => straighten row
  · exact report _

/-- However many sensings are left, a call that fails is the last one. -/
theorem readFrom (config : Config) (row : UInt32) (i left : Nat) (cells : Row) :
    StopsAtFailure (readFrom config row i left cells : Session (Recorded σ ε) ε Data) := by
  induction left generalizing i cells with
  | zero =>
    refine (decodeRow row cells).bind fun data? => ?_
    cases data? with
    | none => exact fail row
    | some data => exact pure data
  | succ left ih =>
    refine (decodeRow row cells).bind fun data? => ?_
    cases data? with
    | none => exact (prepare config row (i + 1)).bind fun _ => (resense row).bind fun cells => ih (i + 1) cells
    | some data => exact pure data

theorem obtainData (config : Config) (row : UInt32) :
    StopsAtFailure (obtainData config row : Session (Recorded σ ε) ε Data) := by
  rw [obtainData_eq]
  exact (sense row).bind fun cells => readFrom config row 0 _ cells

end StopsAtFailure

end Session

variable [Source σ ε]

/-- **No call follows one that failed.** Nothing is reported after it either, and its failure is what the
reading of the rows comes to. Otherwise no call failed. -/
theorem runRows_endsAtFailure (config : Config) (limits : Limits) (left : Nat) (row : UInt32)
    (machine : Machine) (r : Recorded σ ε) : ∃ answers,
      (runRows config limits left row machine r).source.answers = r.answers ++ answers ∧
      EndsAtFailure (runRows config limits left row machine r).result
        (runRows config limits left row machine r).trace answers := by
  induction left generalizing row machine r with
  | zero => exact ⟨[], (List.append_nil _).symm, .fine _ _ _ .nil (List.forall_mem_nil _) nofun⟩
  | succ left ih =>
    have first := firstRow_runRows config limits left row machine r
    generalize runRows config limits (left + 1) row machine r = run at first
    obtain ⟨answers, grown, ended⟩ := Session.StopsAtFailure.obtainData config row r
    obtain ⟨more, fed, feeding⟩ := (Session.StopsAtFailure.feed (σ := σ) (ε := ε)) (obtainData config row r).source
    generalize obtainData config row r = word at first grown ended fed feeding
    -- What is done for a row that was read, with its report, before the card is fed.
    have soFar {data : Data} (event : Event) (read : word.result = .ok data) :
        List.Forall₂ Answer.Replies answers (requests (word.trace ++ [.reported event])) ∧
          ∀ answer ∈ answers, answer.failure? = none := by
      rw [read] at ended
      simpa using ended.ok
    cases first with
    | unread e read =>
      rw [read] at ended
      exact ⟨answers, grown, ended.error⟩
    | stopped data after done ran =>
      obtain ⟨replied, fine⟩ := soFar (executedEvent row (.stopped, after)) done
      exact ⟨answers, grown, .fine _ _ _ replied fine nofun⟩
    | faulted data after done ran =>
      obtain ⟨replied, fine⟩ := soFar (executedEvent row (.error, after)) done
      exact ⟨answers, grown, .fine _ _ _ replied fine nofun⟩
    | stuck data after e done ran stuck =>
      obtain ⟨replied, fine⟩ := soFar (executedEvent row (.running, after)) done
      rw [stuck] at feeding
      refine ⟨answers ++ more, ?_, feeding.error.append replied fine⟩
      rw [← List.append_assoc, ← grown]
      exact fed
    | moved data after rest done ran moved next =>
      obtain ⟨replied, fine⟩ := soFar (executedEvent row (.running, after)) done
      obtain ⟨latest, grown', later⟩ := ih (row + 1) after (Session.feed word.source).source
      rw [moved] at feeding
      rw [next] at grown' later
      obtain ⟨replied', fine'⟩ := (feeding.append replied fine).ok
      refine ⟨answers ++ more ++ latest, ?_, later.append replied' fine'⟩
      rw [← List.append_assoc, ← List.append_assoc, ← grown, ← fed]
      exact grown'

end InstructionCard
