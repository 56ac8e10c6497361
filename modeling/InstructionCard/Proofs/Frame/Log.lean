import Mathlib.Data.List.DropRight
import InstructionCard.Frame.Log
import InstructionCard.Proofs.Frame.Decode

/-!
# What a log holds

A log is measured against the list of the events offered to it since it was last cleared. It holds the
frames of the first of them that are short enough, as many as it may hold, and counts the others as far as
they were recorded: `run_refines`. One operation is compared with one more entry of the list in
`Holds.step`.
-/

set_option autoImplicit false

namespace InstructionCard.Log

/-! ## The list of offers -/

/-- An event offered to a log. Only a recorded one is counted if it is not kept. -/
structure Offer where
  event : Event
  recorded : Bool

def Operation.offer? : Operation → Option Offer
  | .keep event => some ⟨event, false⟩
  | .record event => some ⟨event, true⟩
  | .clear => none
  | .dump => none

/-- The events offered after the last `clear`, oldest first. -/
def offers (operations : List Operation) : List Offer :=
  (operations.rtakeWhile (· ≠ .clear)).filterMap Operation.offer?

/-- Whether the frame is short enough. -/
def Limits.takes (limits : Limits) (offer : Offer) : Bool :=
  (Frame.ofValue offer.event).length ≤ limits.frame

/-- The first ones that are short enough. -/
def kept (limits : Limits) (offers : List Offer) : List Offer :=
  (offers.filter limits.takes).take limits.capacity

/-- Those that are too long and those that came too late. -/
def refused (limits : Limits) (offers : List Offer) : List Offer :=
  offers.filter (fun offer => !limits.takes offer) ++ (offers.filter limits.takes).drop limits.capacity

/-- Every offer is kept or refused. -/
theorem kept_append_refused_perm (limits : Limits) (offers : List Offer) :
    (kept limits offers ++ refused limits offers).Perm offers := by
  have shorts : kept limits offers ++ (offers.filter limits.takes).drop limits.capacity =
      offers.filter limits.takes := List.take_append_drop _ _
  have regroup : (kept limits offers ++ refused limits offers).Perm
      (offers.filter limits.takes ++ offers.filter fun offer => !limits.takes offer) := by
    rw [← shorts, List.append_assoc]
    exact List.perm_append_comm.append_left _
  exact regroup.trans (List.filter_append_perm limits.takes offers)

/-! ## One offer more -/

section

variable {limits : Limits} {before : List Offer} {offer : Offer}

theorem length_kept_le : (kept limits before).length ≤ limits.capacity :=
  List.length_take_le _ _

/-- A short offer is kept while there is room. -/
theorem kept_concat_of_room (short : limits.takes offer = true)
    (room : (kept limits before).length < limits.capacity) :
    kept limits (before ++ [offer]) = kept limits before ++ [offer] := by
  rw [kept, List.length_take] at room
  have all : (before.filter limits.takes ++ [offer]).length ≤ limits.capacity := by
    rw [List.length_append, List.length_singleton]
    omega
  rw [kept, kept, List.filter_append, List.filter_singleton, short, cond_true, List.take_of_length_le all,
    List.take_of_length_le (by omega)]

/-- A full log keeps nothing more. -/
theorem kept_concat_of_full (full : (kept limits before).length = limits.capacity) :
    kept limits (before ++ [offer]) = kept limits before := by
  rw [kept, List.length_take] at full
  rw [kept, kept, List.filter_append, List.take_append_of_le_length (by omega)]

/-- A frame that is too long is never kept. -/
theorem kept_concat_of_long (long : limits.takes offer = false) :
    kept limits (before ++ [offer]) = kept limits before := by
  rw [kept, kept, List.filter_append, List.filter_singleton, long, cond_false, List.append_nil]

/-- What is refused follows from what is kept. -/
theorem refused_concat_of_kept (keeps : kept limits (before ++ [offer]) = kept limits before ++ [offer]) :
    (refused limits (before ++ [offer])).Perm (refused limits before) := by
  have now := kept_append_refused_perm limits (before ++ [offer])
  have earlier := (kept_append_refused_perm limits before).append_right [offer]
  rw [keeps, List.append_assoc] at now
  rw [List.append_assoc] at earlier
  exact (List.perm_append_left_iff [offer]).1
    ((List.perm_append_left_iff _).1 (now.trans earlier.symm) |>.trans List.perm_append_comm)

/-- What is not kept is refused. -/
theorem refused_concat_of_refused (refuses : kept limits (before ++ [offer]) = kept limits before) :
    (refused limits (before ++ [offer])).Perm (refused limits before ++ [offer]) := by
  have now := kept_append_refused_perm limits (before ++ [offer])
  have earlier := (kept_append_refused_perm limits before).append_right [offer]
  rw [refuses] at now
  rw [List.append_assoc] at earlier
  exact (List.perm_append_left_iff _).1 (now.trans earlier.symm)

end

/-! ## One operation -/

section

variable {limits : Limits}

/-- What is kept has the size it is copied to. -/
theorem copy_of_encode {event : Event} {frame : List UInt8}
    (encoded : Frame.encode event limits.frame = .ok frame) : copy limits frame = .ok frame := by
  obtain ⟨fits, rfl⟩ := Frame.encode_eq_ok_iff.1 encoded
  rw [copy, if_pos fits]

theorem keep_of_long (log : Log) {event : Event} (long : limits.frame < (Frame.ofValue event).length) :
    log.keep limits event = .error (.wire .bufferFull) := by
  have encoded : Frame.encode event limits.frame = .error (.wire .bufferFull) :=
    Frame.encode_eq_error_iff.2 ⟨long, rfl⟩
  rw [keep, encoded]
  rfl

theorem keep_of_short (log : Log) {event : Event} (short : (Frame.ofValue event).length ≤ limits.frame) :
    log.keep limits event =
      if log.frames.length < limits.capacity then .ok { log with frames := log.frames ++ [Frame.ofValue event] }
      else .error .logFull := by
  have encoded : Frame.encode event limits.frame = .ok (Frame.ofValue event) :=
    Frame.encode_eq_ok_iff.2 ⟨short, rfl⟩
  rw [keep, encoded]
  show (copy limits (Frame.ofValue event) >>= _) = _
  rw [copy_of_encode encoded]
  rfl

/-- The three ways in which keeping an event can go. -/
theorem keep_cases (limits : Limits) (log : Log) (event : Event) :
    limits.frame < (Frame.ofValue event).length ∧ log.keep limits event = .error (.wire .bufferFull) ∨
      (Frame.ofValue event).length ≤ limits.frame ∧ limits.capacity ≤ log.frames.length ∧
        log.keep limits event = .error .logFull ∨
      (Frame.ofValue event).length ≤ limits.frame ∧ log.frames.length < limits.capacity ∧
        log.keep limits event = .ok { log with frames := log.frames ++ [Frame.ofValue event] } := by
  rcases Nat.lt_or_ge limits.frame (Frame.ofValue event).length with long | short
  · exact .inl ⟨long, keep_of_long log long⟩
  · have result := keep_of_short log short
    rcases Nat.lt_or_ge log.frames.length limits.capacity with room | full
    · rw [if_pos room] at result
      exact .inr (.inr ⟨short, room, result⟩)
    · rw [if_neg (Nat.not_lt.2 full)] at result
      exact .inr (.inl ⟨short, full, result⟩)

end

/-- The log holds what the list of offers says. -/
structure Holds (limits : Limits) (offers : List Offer) (log : Log) : Prop where
  frames : log.frames = (kept limits offers).map fun offer => Frame.ofValue offer.event
  dropped : log.dropped = min ((refused limits offers).countP Offer.recorded) mostDropped

theorem holds_nil (limits : Limits) : Holds limits [] {} where
  frames := by
    rw [kept, List.filter_nil, List.take_nil]
    rfl
  dropped := by
    rw [refused, List.filter_nil, List.filter_nil, List.drop_nil]
    rfl

namespace Holds

variable {limits : Limits} {before : List Offer} {log : Log} {offer : Offer}

theorem length_frames (holds : Holds limits before log) : log.frames.length = (kept limits before).length := by
  rw [holds.frames, List.length_map]

theorem length_frames_le (holds : Holds limits before log) : log.frames.length ≤ limits.capacity := by
  rw [holds.length_frames]
  exact length_kept_le

theorem dropped_le (holds : Holds limits before log) : log.dropped ≤ mostDropped := by
  rw [holds.dropped]
  exact Nat.min_le_right _ _

/-- Keeping an offer puts its frame at the end and leaves the count alone. -/
theorem keeps (holds : Holds limits before log)
    (same : kept limits (before ++ [offer]) = kept limits before ++ [offer]) :
    Holds limits (before ++ [offer]) { log with frames := log.frames ++ [Frame.ofValue offer.event] } where
  frames := by rw [same, List.map_append, holds.frames, List.map_singleton]
  dropped := by rw [(refused_concat_of_kept same).countP_eq, holds.dropped]

/-- Refusing an offer leaves the frames alone and counts it if it was recorded. -/
theorem refuses (holds : Holds limits before log)
    (same : kept limits (before ++ [offer]) = kept limits before) {after : Log} (frames : after.frames = log.frames)
    (dropped : after.dropped = min (log.dropped + if offer.recorded then 1 else 0) mostDropped) :
    Holds limits (before ++ [offer]) after where
  frames := by rw [same, frames, holds.frames]
  dropped := by
    rw [(refused_concat_of_refused same).countP_eq, List.countP_append, List.countP_singleton, dropped,
      holds.dropped]
    omega

/-- An event that is kept was short and found room. -/
theorem keep_ok (holds : Holds limits before log) {after : Log} (result : log.keep limits offer.event = .ok after) :
    Holds limits (before ++ [offer]) after := by
  obtain ⟨-, answer⟩ | ⟨-, -, answer⟩ | ⟨short, room, answer⟩ := keep_cases limits log offer.event <;>
    rw [answer] at result <;> cases result
  rw [holds.length_frames] at room
  exact holds.keeps (kept_concat_of_room (decide_eq_true short) room)

/-- An event that is not kept was too long or came too late. -/
theorem keep_error (holds : Holds limits before log) {e : FrameError}
    (result : log.keep limits offer.event = .error e) : kept limits (before ++ [offer]) = kept limits before := by
  obtain ⟨long, -⟩ | ⟨-, full, -⟩ | ⟨-, -, answer⟩ := keep_cases limits log offer.event
  · exact kept_concat_of_long (decide_eq_false (Nat.not_le.2 long))
  · rw [holds.length_frames] at full
    exact kept_concat_of_full (Nat.le_antisymm length_kept_le full)
  · rw [answer] at result
    cases result

end Holds

/-! ## All operations -/

theorem offers_concat_clear (operations : List Operation) : offers (operations ++ [.clear]) = [] := by
  rw [offers, List.rtakeWhile_concat, if_neg (by simp)]
  rfl

/-- Every operation but `clear` adds its offer, if it makes one. -/
theorem offers_concat (operations : List Operation) {operation : Operation} (other : operation ≠ .clear) :
    offers (operations ++ [operation]) = offers operations ++ operation.offer?.toList := by
  rw [offers, List.rtakeWhile_concat, if_pos (by simpa using other), List.filterMap_append, offers]
  cases operation <;> rfl

/-- **One operation more.** -/
theorem Holds.step {limits : Limits} {operations : List Operation} {log : Log}
    (holds : Holds limits (offers operations) log) (operation : Operation) :
    Holds limits (offers (operations ++ [operation])) (log.step limits operation).2 := by
  cases operation with
  | clear =>
    rw [offers_concat_clear]
    exact holds_nil limits
  | dump =>
    rw [offers_concat operations (by simp)]
    show Holds limits (offers operations ++ []) log
    rwa [List.append_nil]
  | keep event =>
    rw [offers_concat operations (by simp)]
    show Holds limits (offers operations ++ [⟨event, false⟩]) (log.step limits (.keep event)).2
    rw [Log.step]
    cases result : log.keep limits event with
    | ok after => exact holds.keep_ok result
    | error e => exact holds.refuses (holds.keep_error result) rfl (Nat.min_eq_left holds.dropped_le).symm
  | record event =>
    rw [offers_concat operations (by simp)]
    show Holds limits (offers operations ++ [⟨event, true⟩]) (log.record limits event)
    rw [record]
    cases result : log.keep limits event with
    | ok after => exact holds.keep_ok result
    | error e => exact holds.refuses (holds.keep_error result) rfl rfl

/-- The invariant holds after all operations on a new log. -/
theorem holds_run (limits : Limits) (operations : List Operation) :
    Holds limits (offers operations) (run limits {} operations) := by
  induction operations using List.reverseRecOn with
  | nil => exact holds_nil limits
  | append_singleton operations operation ih =>
    rw [run, List.foldl_concat]
    exact ih.step operation

/-! ## What a log shows and answers -/

namespace Holds

variable {limits : Limits} {offers : List Offer} {log : Log}

/-- Every frame in the log decodes to the event it was made of. -/
theorem events (holds : Holds limits offers log) :
    log.events = (kept limits offers).map fun offer => .ok offer.event := by
  rw [Log.events, holds.frames, List.map_map]
  exact List.map_congr_left fun offer _ => Frame.decode_ofValue offer.event

/-- No recorded event is lost sight of: it is in the log or in the count. -/
theorem size_add_dropped (holds : Holds limits offers log) (allRecorded : ∀ offer ∈ offers, offer.recorded = true)
    (few : offers.length ≤ mostDropped) : log.size + log.dropped = offers.length := by
  have whole := kept_append_refused_perm limits offers
  have counted : (refused limits offers).countP Offer.recorded = (refused limits offers).length :=
    List.countP_eq_length.2 fun offer mem => allRecorded offer (whole.subset (List.mem_append_right _ mem))
  have lengths := whole.length_eq
  rw [List.length_append] at lengths
  rw [size, holds.length_frames, holds.dropped, counted]
  omega

/-- A log that may hold a frame and holds none was offered no short one. -/
theorem dropped_of_isEmpty (holds : Holds limits offers log) (short : ∀ offer ∈ offers, limits.takes offer = true)
    (room : 0 < limits.capacity) (empty : log.isEmpty = true) : log.dropped = 0 := by
  have frames : (kept limits offers).map (fun offer => Frame.ofValue offer.event) = [] := by
    rw [← holds.frames]
    exact List.isEmpty_iff.1 empty
  have none : offers = [] := by
    have taken : offers.take limits.capacity = [] := by
      rw [← List.filter_eq_self.2 short]
      exact List.map_eq_nil_iff.1 frames
    rcases List.take_eq_nil_iff.1 taken with zero | none
    · omega
    · exact none
  rw [holds.dropped, none, refused, List.filter_nil, List.filter_nil, List.drop_nil]
  rfl

end Holds

/-- What a log answers when an event is to be kept, and when it is dumped. -/
structure Answers (limits : Limits) (log : Log) : Prop where
  kept : ∀ event, (log.step limits (.keep event)).1 = .kept (.ok ()) ↔
    (Frame.ofValue event).length ≤ limits.frame ∧ log.size < limits.capacity
  tooLong : ∀ event, (∃ cause, (log.step limits (.keep event)).1 = .kept (.error (.wire cause)) ∧
    cause.message = "The serialize buffer is full") ↔ limits.frame < (Frame.ofValue event).length
  full : ∀ event, (log.step limits (.keep event)).1 = .kept (.error .logFull) ↔
    (Frame.ofValue event).length ≤ limits.frame ∧ log.size = limits.capacity
  failed : ∀ event e, (log.step limits (.keep event)).1 = .kept (.error e) →
    (log.step limits (.keep event)).2 = log
  dumped : log.step limits .dump = (.dumped log.frames log.events, log)

/-- The answers depend on the size of the frame and the number of frames held. -/
theorem answers_of_size_le {limits : Limits} {log : Log} (size : log.size ≤ limits.capacity) :
    Answers limits log where
  kept event := by
    rw [Log.size]
    obtain ⟨long, answer⟩ | ⟨short, full, answer⟩ | ⟨short, room, answer⟩ := keep_cases limits log event <;>
      simp [step, answer] <;> omega
  tooLong event := by
    obtain ⟨long, answer⟩ | ⟨short, full, answer⟩ | ⟨short, room, answer⟩ := keep_cases limits log event
    · simp [step, answer, long, WireError.message]
    · simp [step, answer]
      omega
    · simp [step, answer]
      omega
  full event := by
    rw [Log.size] at size ⊢
    obtain ⟨long, answer⟩ | ⟨short, full, answer⟩ | ⟨short, room, answer⟩ := keep_cases limits log event <;>
      simp [step, answer] <;> omega
  failed event e := by
    obtain ⟨long, answer⟩ | ⟨short, full, answer⟩ | ⟨short, room, answer⟩ := keep_cases limits log event <;>
      simp [step, answer]
  dumped := rfl

/-- What a log shows and answers after the offers. -/
structure Refines (limits : Limits) (offers : List Offer) (log : Log) : Prop where
  frames : log.frames = (kept limits offers).map fun offer => Frame.ofValue offer.event
  events : log.events = (kept limits offers).map fun offer => .ok offer.event
  size : log.size = (kept limits offers).length
  size_le : log.size ≤ limits.capacity
  dropped : log.dropped = min ((refused limits offers).countP Offer.recorded) mostDropped
  allRecorded : (∀ offer ∈ offers, offer.recorded = true) → offers.length ≤ mostDropped →
    log.size + log.dropped = offers.length
  answers : Answers limits log

/-- **A log is the list of the first offers that fit, and a count of the others.** -/
theorem run_refines (limits : Limits) (operations : List Operation) :
    Refines limits (offers operations) (run limits {} operations) :=
  have holds := holds_run limits operations
  { frames := holds.frames
    events := holds.events
    size := holds.length_frames
    size_le := holds.length_frames_le
    dropped := holds.dropped
    allRecorded := holds.size_add_dropped
    answers := answers_of_size_le holds.length_frames_le }

end InstructionCard.Log
