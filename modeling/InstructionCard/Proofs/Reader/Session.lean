import InstructionCard.Reader.Session

/-!
# Laws of sessions

Sessions form a monad. `Session.bind_of_ok` and `Session.bind_of_error` are the two ways in which two
sessions in a row can go: the traces are joined, or what comes after the failure never happens.
-/

set_option autoImplicit false

namespace InstructionCard

/-- The call an activity makes. -/
def Activity.request? : Activity → Option Request
  | asked request => some request
  | reported _ => none

/-- The calls in a trace, in order. -/
def requests (trace : List Activity) : List Request :=
  trace.filterMap Activity.request?

@[simp] theorem requests_nil : requests [] = [] := rfl

@[simp] theorem requests_asked (request : Request) (trace : List Activity) :
    requests (.asked request :: trace) = request :: requests trace := rfl

@[simp] theorem requests_reported (event : Event) (trace : List Activity) :
    requests (.reported event :: trace) = requests trace := rfl

@[simp] theorem requests_append (first second : List Activity) :
    requests (first ++ second) = requests first ++ requests second :=
  List.filterMap_append

namespace Session

variable {σ ε α β : Type}

theorem pure_run (a : α) (source : σ) :
    (pure a : Session σ ε α) source = ⟨.ok a, source, []⟩ := rfl

/-- After a first part that goes through, the second one goes on from its source and its trace. -/
theorem bind_of_ok {first : Session σ ε α} {next : α → Session σ ε β} {source : σ} {a : α}
    (h : (first source).result = .ok a) : (first >>= next) source =
      { next a (first source).source with
        trace := (first source).trace ++ (next a (first source).source).trace } := by
  change Session.bind first next source = _
  simp only [Session.bind, h]

/-- A failure ends the session where it is. -/
theorem bind_of_error {first : Session σ ε α} {next : α → Session σ ε β} {source : σ} {e : ReadError ε}
    (h : (first source).result = .error e) :
    (first >>= next) source = ⟨.error e, (first source).source, (first source).trace⟩ := by
  change Session.bind first next source = _
  simp only [Session.bind, h]

/-- Reporting first only adds the event in front of the trace. -/
theorem report_bind (event : Event) (next : Unit → Session σ ε β) (source : σ) :
    (report event >>= next) source =
      { next () source with trace := .reported event :: (next () source).trace } :=
  bind_of_ok rfl

theorem ask_of_ok {request : Request} {call : σ → Except ε α × σ} {source : σ} {a : α}
    (h : (call source).1 = .ok a) : (ask request call source).result = .ok a := by
  change (call source).1.mapError _ = _
  rw [h]
  rfl

/-- A call that does not fail is followed by what comes next. -/
theorem ask_bind_of_ok {request : Request} {call : σ → Except ε α × σ} {source : σ} {a : α}
    (h : (call source).1 = .ok a) (next : α → Session σ ε β) : (ask request call >>= next) source =
      { next a (call source).2 with trace := .asked request :: (next a (call source).2).trace } :=
  bind_of_ok (ask_of_ok h)

instance : LawfulMonad (Session σ ε) := LawfulMonad.mk' _
  (by
    intro α x
    funext source
    change (x >>= pure) source = x source
    cases h : (x source).result with
    | error e => rw [bind_of_error h, ← h]
    | ok a => rw [bind_of_ok h, pure_run, List.append_nil, ← h])
  (by
    intro α β a next
    funext source
    rw [bind_of_ok rfl]
    rfl)
  (by
    intro α β γ x next last
    funext source
    cases h : (x source).result with
    | error e =>
      have stopped : (x >>= next) source = _ := bind_of_error h
      rw [bind_of_error h, bind_of_error (by rw [stopped]), stopped]
    | ok a =>
      have continued : (x >>= next) source = _ := bind_of_ok h
      rw [bind_of_ok h]
      cases h' : (next a (x source).source).result with
      | error e =>
        rw [bind_of_error h', bind_of_error (by rw [continued]; exact h'), continued]
      | ok b =>
        rw [bind_of_ok h', bind_of_ok (by rw [continued]; exact h'), continued, List.append_assoc])

end Session

end InstructionCard
