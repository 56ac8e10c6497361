import InstructionCard.Proofs.Reader.Replay

/-!
# Recorded sources

A recorded source answers as the source it wraps does and keeps every answer. A reader cannot tell the
two apart: `runRows_recorded`. What is assumed about a source can thus be said of the answers it really
gave.
-/

set_option autoImplicit false

namespace InstructionCard

/-- What a source answered to a call. -/
inductive Answer (ε : Type) where
  /-- The row was sensed, for the first time or again. -/
  | sensed (row : UInt32) (cells : Except ε Row)
  /-- The card was straightened or fed. -/
  | moved (done : Except ε Unit)

/-- A source together with its answers so far. -/
structure Recorded (σ ε : Type) where
  source : σ
  answers : List (Answer ε) := []

variable {σ ε α β : Type}

section

variable [Source σ ε]

instance : Source (Recorded σ ε) ε where
  sense row recorded :=
    let (cells, after) := Source.sense row recorded.source
    (cells, ⟨after, recorded.answers ++ [.sensed row cells]⟩)
  resense row recorded :=
    let (cells, after) := Source.resense row recorded.source
    (cells, ⟨after, recorded.answers ++ [.sensed row cells]⟩)
  straighten row recorded :=
    let (done, after) := Source.straighten row recorded.source
    (done, ⟨after, recorded.answers ++ [.moved done]⟩)
  feed recorded :=
    let (done, after) := Source.feed recorded.source
    (done, ⟨after, recorded.answers ++ [.moved done]⟩)

end

/-! ## Sessions with a recorded source -/

/-- A session that goes the same way with a recorded source and only adds to the answers. -/
structure Follows (recorded : Session (Recorded σ ε) ε α) (plain : Session σ ε α) : Prop where
  same : ∀ r, plain r.source = ⟨(recorded r).result, (recorded r).source.source, (recorded r).trace⟩
  grows : ∀ r, r.answers <+: (recorded r).source.answers

namespace Follows

theorem pure (a : α) : Follows (pure a : Session (Recorded σ ε) ε α) (pure a) :=
  ⟨fun _ => rfl, fun _ => List.prefix_rfl⟩

theorem fail (e : ReadError ε) : Follows (Session.fail e : Session (Recorded σ ε) ε α) (Session.fail e) :=
  ⟨fun _ => rfl, fun _ => List.prefix_rfl⟩

theorem report (event : Event) :
    Follows (Session.report event : Session (Recorded σ ε) ε Unit) (Session.report event) :=
  ⟨fun _ => rfl, fun _ => List.prefix_rfl⟩

/-- A session that follows another part by part follows it as a whole. -/
theorem bind {first : Session (Recorded σ ε) ε α} {first' : Session σ ε α}
    {next : α → Session (Recorded σ ε) ε β} {next' : α → Session σ ε β} (before : Follows first first')
    (after : ∀ a, Follows (next a) (next' a)) : Follows (first >>= next) (first' >>= next') := by
  constructor
  · intro r
    have same := before.same r
    cases h : (first r).result with
    | error e =>
      rw [Session.bind_of_error h, Session.bind_of_error (by rw [same]; exact h), same]
    | ok a =>
      rw [Session.bind_of_ok h, Session.bind_of_ok (by rw [same]; exact h), same, (after a).same]
  · intro r
    cases h : (first r).result with
    | error e =>
      rw [Session.bind_of_error h]
      exact before.grows r
    | ok a =>
      rw [Session.bind_of_ok h]
      exact (before.grows r).trans ((after a).grows _)

theorem decodeRow (row : UInt32) (cells : Row) :
    Follows (decodeRow row cells : Session (Recorded σ ε) ε (Option Data)) (decodeRow row cells) :=
  (report _).bind fun _ => pure _

variable [Source σ ε]

theorem sense (row : UInt32) :
    Follows (Session.sense row : Session (Recorded σ ε) ε Row) (Session.sense row) :=
  ⟨fun _ => rfl, fun _ => List.prefix_append _ _⟩

theorem resense (row : UInt32) :
    Follows (Session.resense row : Session (Recorded σ ε) ε Row) (Session.resense row) :=
  ⟨fun _ => rfl, fun _ => List.prefix_append _ _⟩

theorem straighten (row : UInt32) :
    Follows (Session.straighten row : Session (Recorded σ ε) ε Unit) (Session.straighten row) :=
  ⟨fun _ => rfl, fun _ => List.prefix_append _ _⟩

theorem feed : Follows (Session.feed : Session (Recorded σ ε) ε Unit) Session.feed :=
  ⟨fun _ => rfl, fun _ => List.prefix_append _ _⟩

theorem prepare (config : Config) (row : UInt32) (i : Nat) :
    Follows (prepare config row i : Session (Recorded σ ε) ε Unit) (prepare config row i) := by
  unfold InstructionCard.prepare
  split
  · exact (report _).bind fun _ => straighten row
  · exact report _

/-- However many sensings are left, recording the answers changes nothing else. -/
theorem readFrom (config : Config) (row : UInt32) (i left : Nat) (cells : Row) :
    Follows (readFrom config row i left cells : Session (Recorded σ ε) ε Data)
      (readFrom config row i left cells) := by
  induction left generalizing i cells with
  | zero =>
    refine (decodeRow row cells).bind fun data? => ?_
    cases data? with
    | some data => exact pure data
    | none => exact fail _
  | succ left ih =>
    refine (decodeRow row cells).bind fun data? => ?_
    cases data? with
    | some data => exact pure data
    | none => exact (prepare config row (i + 1)).bind fun _ => (resense row).bind fun cells => ih (i + 1) cells

/-- Obtaining a word does not depend on whether the answers are recorded. -/
theorem obtainData (config : Config) (row : UInt32) :
    Follows (obtainData config row : Session (Recorded σ ε) ε Data) (obtainData config row) := by
  rw [obtainData_eq, obtainData_eq]
  exact (sense row).bind fun cells => readFrom config row 0 _ cells

end Follows

/-! ## Cards -/

section

variable [Source σ ε]

/-- The card as it went, without the answers. -/
def CardRun.unrecorded (run : CardRun (Recorded σ ε) ε) : CardRun σ ε :=
  ⟨run.result, run.machine, run.source.source, run.trace⟩

/-- **A reader cannot tell a recorded source from the source it wraps**, and no answer gets lost. -/
theorem runRows_recorded (config : Config) (limits : Limits) (left : Nat) (row : UInt32) (machine : Machine)
    (r : Recorded σ ε) :
    runRows config limits left row machine r.source = (runRows config limits left row machine r).unrecorded ∧
      r.answers <+: (runRows config limits left row machine r).source.answers := by
  induction left generalizing row machine r with
  | zero => exact ⟨rfl, List.prefix_rfl⟩
  | succ left ih =>
    have first := firstRow_runRows config limits left row machine r
    generalize runRows config limits (left + 1) row machine r = run at first
    have same := (Follows.obtainData (σ := σ) (ε := ε) config row).same r
    have grows := (Follows.obtainData (σ := σ) (ε := ε) config row).grows r
    generalize obtainData config row r = word at first same grows
    have moved := (Follows.feed (σ := σ) (ε := ε)).same word.source
    have more := grows.trans ((Follows.feed (σ := σ) (ε := ε)).grows word.source)
    rw [runRows, same]
    cases first with
    | unread e read =>
      simp only [read]
      exact ⟨rfl, grows⟩
    | stopped data after read ran =>
      simp only [read, ran]
      exact ⟨rfl, grows⟩
    | faulted data after read ran =>
      simp only [read, ran]
      exact ⟨rfl, grows⟩
    | stuck data after e read ran fed =>
      simp only [read, ran, moved, fed]
      exact ⟨rfl, more⟩
    | moved data after rest read ran fed next =>
      obtain ⟨later, longer⟩ := ih (row + 1) after (Session.feed word.source).source
      rw [next] at later longer
      simp only [read, ran, moved, fed, later]
      exact ⟨rfl, more.trans longer⟩

end

end InstructionCard
