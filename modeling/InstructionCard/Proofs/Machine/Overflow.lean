import Mathlib.Tactic.MkIffOfInductiveProp
import InstructionCard.Proofs.Machine.Books
import InstructionCard.Proofs.Machine.Exact

/-!
# What the overflow flag tells

The flag is about the last fresh value: whether the command that put it on the stack missed the exact result. All
that moves values about, speaks, stops or fails leaves the flag alone, however much of it comes between. Main result:
`Machine.overflow_run`.
-/

set_option autoImplicit false

namespace InstructionCard

/-- Whether the command puts a value on the stack that was not there before. -/
def Command.putsFresh : Command → Bool
  | .operand _ | .character (.symbol _) => true
  | .character .speak | .character (.nop _) => false
  | .instruction i => match i with
    | .stp | .dup | .del | .swp => false
    | .add | .sub | .mul | .div | .exp | .mod | .shl | .shr | .hex | .fac | .not | .xor => true

/-- On this stack, top first, the exact result of the command is no byte: it is above 255, or it is below zero. -/
@[mk_iff]
inductive Overshoots : Command → List ExactValue → Prop where
  | add (a b : Nat) (rest : List ExactValue) (large : 255 < a + b) :
      Overshoots (.instruction .add) (.number b :: .number a :: rest)
  | mul (a b : Nat) (rest : List ExactValue) (large : 255 < a * b) :
      Overshoots (.instruction .mul) (.number b :: .number a :: rest)
  | exp (a b : Nat) (rest : List ExactValue) (large : 255 < a ^ b) :
      Overshoots (.instruction .exp) (.number b :: .number a :: rest)
  | fac (a : Nat) (rest : List ExactValue) (large : 255 < a.factorial) :
      Overshoots (.instruction .fac) (.number a :: rest)
  | shl (a b : Nat) (rest : List ExactValue) (large : 255 < a * 2 ^ b) :
      Overshoots (.instruction .shl) (.number b :: .number a :: rest)
  | sub (a b : Nat) (rest : List ExactValue) (borrow : a < b) :
      Overshoots (.instruction .sub) (.number b :: .number a :: rest)

theorem Overshoots.putsFresh {command : Command} {stack : List ExactValue} (h : Overshoots command stack) :
    command.putsFresh = true := by
  cases h <;> rfl

namespace ExactState

variable {state after : ExactState}

/-- The flag is that of the one operation on the top. -/
theorem overflow_onTop {op : Nat → Nat × Bool} {command : Command} (h : state.onTop op = some after)
    (flag : ∀ a rest, (op a).2 = true ↔ Overshoots command (.number a :: rest)) :
    after.overflow = true ↔ Overshoots command state.stack := by
  unfold onTop at h
  split at h
  · next a rest stack =>
    cases h
    rw [stack]
    exact flag a rest
  · cases h

/-- The flag is that of the one operation on the two values on top. -/
theorem overflow_onTopTwo {op : Nat → Nat → Option (Nat × Bool)} {command : Command}
    (h : state.onTopTwo op = some after)
    (flag : ∀ a b rest result, op a b = some result →
      (result.2 = true ↔ Overshoots command (.number b :: .number a :: rest))) :
    after.overflow = true ↔ Overshoots command state.stack := by
  unfold onTopTwo at h
  split at h
  · next b a rest stack =>
    obtain ⟨result, computed, rfl⟩ := Option.map_eq_some_iff.1 h
    rw [stack]
    exact flag a b rest result computed
  · cases h

/-- A computation that cannot fail. -/
theorem overflow_onTopTwo_total {value : Nat → Nat → Nat} {lost : Nat → Nat → Bool} {command : Command}
    (h : state.onTopTwo (fun a b => some (value a b, lost a b)) = some after)
    (flag : ∀ a b rest, lost a b = true ↔ Overshoots command (.number b :: .number a :: rest)) :
    after.overflow = true ↔ Overshoots command state.stack := by
  refine overflow_onTopTwo h fun a b rest result same => ?_
  cases same
  exact flag a b rest

/-- A computation that is not defined for the divisor zero. -/
theorem overflow_onTopTwo_divisor {value : Nat → Nat → Nat} {command : Command}
    (h : state.onTopTwo (fun a b => if b = 0 then none else some (value a b, false)) = some after)
    (never : ∀ stack, ¬ Overshoots command stack) :
    after.overflow = true ↔ Overshoots command state.stack := by
  refine overflow_onTopTwo h fun a b rest result same => ?_
  split at same
  · cases same
  · cases same
    exact iff_of_false Bool.false_ne_true (never _)

/-- The flag after an instruction that computes. -/
theorem overflow_performInstruction {i : Instruction} (fresh : (Command.instruction i).putsFresh = true)
    (h : state.performInstruction i = some after) :
    after.overflow = true ↔ Overshoots (.instruction i) state.stack := by
  cases i with
  | stp | dup | del | swp => cases fresh
  | add | sub | mul | exp | shl | shr | xor => exact overflow_onTopTwo_total h fun _ _ _ => by simp [overshoots_iff]
  | div | mod => exact overflow_onTopTwo_divisor h fun _ => by simp [overshoots_iff]
  | fac | not => exact overflow_onTop h fun _ _ => by simp [overshoots_iff]
  | hex =>
    simp only [performInstruction] at h
    split at h
    · obtain ⟨_, _, h⟩ := Option.bind_eq_some_iff.1 h
      obtain ⟨_, _, h⟩ := Option.bind_eq_some_iff.1 h
      cases h
      simp [overshoots_iff]
    · cases h

/-- The flag after a command that puts a fresh value on the stack. -/
theorem overflow_of_putsFresh {command : Command} (fresh : command.putsFresh = true)
    (h : state.perform command = some after) : after.overflow = true ↔ Overshoots command state.stack := by
  match command with
  | .operand value =>
    cases h
    simp [overshoots_iff]
  | .instruction i => exact overflow_performInstruction fresh h
  | .character (.nop _) => cases fresh
  | .character .speak => cases fresh
  | .character (.symbol s) =>
    cases h
    simp [overshoots_iff]

/-- The instructions that move values about, and STP. -/
theorem overflow_performInstruction_of_not_putsFresh {i : Instruction}
    (other : (Command.instruction i).putsFresh = false) (h : state.performInstruction i = some after) :
    after.overflow = state.overflow := by
  cases i with
  | stp =>
    cases h
    rfl
  | dup | del | swp =>
    simp only [performInstruction] at h
    split at h
    · cases h
      rfl
    · cases h
  | _ => cases other

/-- Any other command leaves the flag as it was. -/
theorem overflow_of_not_putsFresh {command : Command} (other : command.putsFresh = false)
    (h : state.perform command = some after) : after.overflow = state.overflow := by
  match command with
  | .operand _ => cases other
  | .instruction i => exact overflow_performInstruction_of_not_putsFresh other h
  | .character (.nop _) =>
    cases h
    rfl
  | .character .speak =>
    simp only [perform] at h
    split at h
    · split at h
      · cases h
        rfl
      · cases h
    · cases h
  | .character (.symbol _) => cases other

end ExactState

namespace Machine

/-- One step of a run: the machine it found, its input and its answer. -/
structure Move where
  before : Machine
  input : Input
  answer : RunState

namespace Move

/-- The command went through, and the machine goes on. -/
def Ran (move : Move) (command : Command) : Prop :=
  move.input.command? = some command ∧ move.answer = .running

def PutFresh (move : Move) : Prop :=
  ∃ command, move.Ran command ∧ command.putsFresh = true

def Overshot (move : Move) : Prop :=
  ∃ command, move.Ran command ∧ Overshoots command move.before.exact.stack

theorem Overshot.putFresh {move : Move} (h : move.Overshot) : move.PutFresh :=
  h.imp fun _ ⟨ran, overshoots⟩ => ⟨ran, overshoots.putsFresh⟩

/-- Some move overshot, and none after it put a fresh value on the stack. -/
def Raised (moves : List Move) : Prop :=
  ∃ earlier move later, moves = earlier ++ move :: later ∧ move.Overshot ∧ ∀ next ∈ later, ¬ next.PutFresh

/-- The first move decides only if no later one puts a fresh value. -/
theorem raised_cons {move : Move} {moves : List Move} :
    Raised (move :: moves) ↔ Raised moves ∨ move.Overshot ∧ ∀ next ∈ moves, ¬ next.PutFresh := by
  constructor
  · rintro ⟨earlier, last, later, split, overshot, rest⟩
    cases earlier with
    | nil =>
      cases split
      exact .inr ⟨overshot, rest⟩
    | cons _ earlier =>
      cases split
      exact .inl ⟨earlier, last, later, rfl, overshot, rest⟩
  · rintro (⟨earlier, last, later, rfl, overshot, rest⟩ | ⟨overshot, rest⟩)
    · exact ⟨move :: earlier, last, later, rfl, overshot, rest⟩
    · exact ⟨[], move, moves, rfl, overshot, rest⟩

end Move

def move (limits : Limits) (m : Machine) (input : Input) : Move :=
  ⟨m, input, (m.step limits input).1⟩

/-- The steps of a run. -/
def moves (limits : Limits) (m : Machine) : List Input → List Move
  | [] => []
  | input :: inputs => m.move limits input :: (m.step limits input).2.moves limits inputs

variable {limits : Limits} {m : Machine} {input : Input}

/-! ## One step -/

theorem ran_move {command : Command} :
    (m.move limits input).Ran command ↔ input.command? = some command ∧ (m.step limits input).1 = .running := .rfl

/-- A move that ran a command is a step of the exact machine. -/
theorem exact_of_ran {command : Command} (ran : (m.move limits input).Ran command) :
    m.exact.perform command = some (m.step limits input).2.exact := by
  obtain ⟨reads, running⟩ := ran_move.1 ran
  obtain ⟨word, wellFormed, rfl⟩ := Option.map_eq_some_iff.1 reads
  rw [step_of_word?_eq_some wellFormed] at *
  have silent : (m.runWord limits word).2.lastError = none :=
    (keeps_runWord wellFormed).silent.2 (.inl running)
  exact exact_perform_runWord silent

/-- A step that puts a fresh value sets the flag anew. -/
theorem overflow_step_of_putFresh (fresh : (m.move limits input).PutFresh) :
    (m.step limits input).2.overflow = true ↔ (m.move limits input).Overshot := by
  obtain ⟨command, ran, putsFresh⟩ := fresh
  have flag : (m.step limits input).2.overflow = true ↔ Overshoots command m.exact.stack :=
    ExactState.overflow_of_putsFresh putsFresh (exact_of_ran ran)
  rw [flag]
  constructor
  · exact fun overshoots => ⟨command, ran, overshoots⟩
  · rintro ⟨other, ran', overshoots⟩
    have same : command = other := Option.some.inj (ran.1.symm.trans ran'.1)
    rw [same]
    exact overshoots

/-- Every other step leaves the flag alone. -/
theorem overflow_step_of_not_putFresh (other : ¬ (m.move limits input).PutFresh) :
    (m.step limits input).2.overflow = m.overflow := by
  by_cases running : (m.step limits input).1 = .running
  · cases reads : input.command? with
    | none =>
      have malformed : input.word? = none := Option.map_eq_none_iff.1 reads
      obtain ⟨cause, failed⟩ := step_of_word?_eq_none malformed
      rw [failed]
      rfl
    | some command =>
      have ran : (m.move limits input).Ran command := ⟨reads, running⟩
      have idle : command.putsFresh = false := Bool.eq_false_iff.2 fun fresh => other ⟨command, ran, fresh⟩
      exact (ExactState.overflow_of_not_putsFresh idle (exact_of_ran ran) :)
  · exact (sameWork_step running).1.overflow.symm

/-! ## Runs -/

/-- The flag of a run is that of its last fresh value, or the one it started with. -/
theorem overflow_run_iff (limits : Limits) (m : Machine) (inputs : List Input) :
    (m.run limits inputs).overflow = true ↔
      Move.Raised (m.moves limits inputs) ∨
        m.overflow = true ∧ ∀ move ∈ m.moves limits inputs, ¬ move.PutFresh := by
  induction inputs generalizing m with
  | nil => simp [run, moves, Move.Raised]
  | cons input inputs ih =>
    rw [run, moves, ih, Move.raised_cons, List.forall_mem_cons, or_assoc]
    apply or_congr_right
    -- A fresh value settles the flag anew, any other step hands it on.
    by_cases fresh : (m.move limits input).PutFresh
    · rw [overflow_step_of_putFresh fresh]
      simp only [fresh, not_true_eq_false, false_and, and_false, or_false]
    · have quiet : ¬ (m.move limits input).Overshot := fun overshot => fresh overshot.putFresh
      rw [overflow_step_of_not_putFresh fresh]
      simp only [fresh, quiet, not_false_eq_true, true_and, false_and, false_or]

theorem inPlace_moves (fits : m.Fits limits) (inputs : List Input) :
    ∀ move ∈ m.moves limits inputs, move.before.stepInPlace limits move.input = move.before.step limits move.input := by
  induction inputs generalizing m with
  | nil => exact List.forall_mem_nil _
  | cons input inputs ih => exact List.forall_mem_cons.2 ⟨stepInPlace_eq fits.stack input, ih (fits.step input)⟩

/-- **The overflow flag tells of the last fresh value.** After any run of a new machine the flag is set if and only
if some step of the run went through with an exact result that is no byte, and no step after it put a fresh value
on the stack. No step of the run changes anything before it fails. Malformed bits, steps that do not go through and
commands that put no fresh value on the stack never change the flag of any machine. -/
theorem overflow_run (limits : Limits) (inputs : List Input) :
    let new : Machine := {}
    ((new.run limits inputs).overflow = true ↔
      ∃ earlier move later, new.moves limits inputs = earlier ++ move :: later ∧ move.Overshot ∧
        ∀ next ∈ later, ¬ next.PutFresh) ∧
    (∀ move ∈ new.moves limits inputs,
      move.before.stepInPlace limits move.input = move.before.step limits move.input) ∧
    ∀ (m : Machine) (input : Input),
      (input.command? = none ∨ (m.step limits input).1 ≠ .running ∨
        ∃ command, input.command? = some command ∧ command.putsFresh = false) →
      (m.step limits input).2.overflow = m.overflow := by
  intro new
  refine ⟨?_, inPlace_moves (fits_new limits) inputs, fun m input idle => overflow_step_of_not_putFresh ?_⟩
  · have lowered : ¬ (new.overflow = true ∧ ∀ move ∈ new.moves limits inputs, ¬ move.PutFresh) := nofun
    rw [overflow_run_iff, or_iff_left lowered]
    rfl
  · rintro ⟨command, ran, fresh⟩
    obtain ⟨reads, running⟩ := ran_move.1 ran
    obtain malformed | failed | ⟨other, same, stale⟩ := idle
    · rw [reads] at malformed
      cases malformed
    · exact failed running
    · rw [reads] at same
      cases same
      rw [fresh] at stale
      cases stale

/-- A power of 15 overshoots. Two copies fill the stack, so that the operand after them finds no room, and
malformed bits follow: the flag is still up. -/
theorem overflow_run_fullStack :
    let inputs : List Input :=
      [.word ⟨15⟩, .word ⟨15⟩, .word ⟨24⟩, .word ⟨17⟩, .word ⟨17⟩, .word ⟨5⟩, .bits [0, 2]]
    let new : Machine := {}
    let full := new.run ⟨3, 0⟩ (inputs.take 5)
    (new.run ⟨3, 0⟩ inputs).overflow = true ∧
      (∃ earlier move later, new.moves ⟨3, 0⟩ inputs = earlier ++ move :: later ∧ move.Overshot ∧
        ∀ next ∈ later, ¬ next.PutFresh) ∧
      (full.step ⟨3, 0⟩ (.word ⟨5⟩)).1 = .error ∧
      (full.step ⟨3, 0⟩ (.word ⟨5⟩)).2.overflow = full.overflow := by
  intro inputs new full
  have raised : (new.run ⟨3, 0⟩ inputs).overflow = true := by decide
  have failed : (full.step ⟨3, 0⟩ (.word ⟨5⟩)).1 = .error := by decide
  obtain ⟨flag, -, unchanged⟩ := overflow_run ⟨3, 0⟩ inputs
  exact ⟨raised, flag.1 raised, failed, unchanged full (.word ⟨5⟩) (.inr (.inl (by rw [failed]; exact nofun)))⟩

end Machine

end InstructionCard
