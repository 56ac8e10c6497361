import InstructionCard.Reader.Source

/-!
# Sessions with a source

A session calls a source and reports events. It keeps a trace of both, and it ends at the first call that
fails.
-/

set_option autoImplicit false

namespace InstructionCard

/-- Why a card cannot be read further. -/
inductive ReadError (ε : Type) where
  | source (cause : ε)
  | unreadable (row : UInt32)
deriving DecidableEq, Repr

def ReadError.message : ReadError String → String
  | source cause => "codeword source failed: " ++ cause
  | unreadable row => s!"row {row.toNat} could not be read"

/-- What a session comes to. -/
structure Session.Result (σ ε α : Type) where
  result : Except (ReadError ε) α
  source : σ
  trace : List Activity

/-- A session with a source of type `σ`. -/
def Session (σ ε α : Type) := σ → Session.Result σ ε α

namespace Session

variable {σ ε α β : Type}

protected def pure (a : α) : Session σ ε α := fun source =>
  ⟨.ok a, source, []⟩

/-- The second session starts with the source that the first one leaves. -/
protected def bind (first : Session σ ε α) (next : α → Session σ ε β) : Session σ ε β := fun source =>
  let before := first source
  match before.result with
  | .error e => ⟨.error e, before.source, before.trace⟩
  | .ok a =>
    let after := next a before.source
    { after with trace := before.trace ++ after.trace }

instance : Monad (Session σ ε) where
  pure := Session.pure
  bind := Session.bind

def fail (e : ReadError ε) : Session σ ε α := fun source =>
  ⟨.error e, source, []⟩

def report (event : Event) : Session σ ε Unit := fun source =>
  ⟨.ok (), source, [.reported event]⟩

/-- Calls the source. -/
def ask (request : Request) (call : σ → Except ε α × σ) : Session σ ε α := fun source =>
  let answer := call source
  ⟨answer.1.mapError .source, answer.2, [.asked request]⟩

variable [Source σ ε]

def sense (row : UInt32) : Session σ ε Row :=
  ask (.sense row) (Source.sense row)

def resense (row : UInt32) : Session σ ε Row :=
  ask (.resense row) (Source.resense row)

def straighten (row : UInt32) : Session σ ε Unit :=
  ask (.straighten row) (Source.straighten row)

def feed : Session σ ε Unit :=
  ask .feed Source.feed

end Session

end InstructionCard
