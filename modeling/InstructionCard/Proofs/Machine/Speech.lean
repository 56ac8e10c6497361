import Mathlib.Data.Set.List
import InstructionCard.Proofs.Machine.Books

/-!
# Speech

SPEAK says the values below its count as one line or does nothing. So a card can have any line said that fits: it
puts the values on the stack, the last one first, then their number, and speaks. Main result: `Machine.speaks_back`.
-/

set_option autoImplicit false

namespace InstructionCard

/-! ## How values read -/

/-- The decimal digits of a number, the highest first, without zeros in front. -/
inductive Decimal : Nat → List Char → Prop where
  | digit (n : Nat) (small : n < 10) : Decimal n [n.digitChar]
  | more (n : Nat) (digits : List Char) (large : 10 ≤ n) (front : Decimal (n / 10) digits) :
      Decimal n (digits ++ [(n % 10).digitChar])

/-- The digits the library gives are the decimal ones. -/
theorem decimal_toDigits (n : Nat) : Decimal n (Nat.toDigits 10 n) := by
  induction n using Nat.strongRecOn with
  | ind n ih =>
    rcases Nat.lt_or_ge n 10 with small | large
    · rw [Nat.toDigits_of_lt_base small]
      exact .digit n small
    · rw [Nat.toDigits_of_base_le (by decide) large]
      exact .more n _ large (ih (n / 10) (by omega))

namespace Value

/-- A byte reads as its decimal digits, a letter as itself and the blank as a blank. -/
inductive Reads : Value → String → Prop where
  | byte (b : UInt8) (digits : List Char) (decimal : Decimal b.toNat digits) : Reads (byte b) (String.ofList digits)
  | letter (i : Fin 26) : Reads (symbol (.letter i)) (String.singleton (Char.ofNat ('A'.toNat + i)))
  | blank : Reads (symbol .space) " "

/-- Every value reads as it is spoken. -/
theorem reads_text (v : Value) : v.Reads v.text := by
  match v with
  | byte b =>
    rw [text, Nat.repr_eq_ofList_toDigits]
    exact .byte b _ (decimal_toDigits b.toNat)
  | symbol (.letter i) => exact .letter i
  | symbol .space => exact .blank

/-- The values that a single word puts on the stack. -/
def Pushable : Value → Prop
  | byte b => b.toNat < 16
  | symbol _ => True

/-- The command that puts the value on the stack. -/
def putCommand : Value → Command
  | byte b => .operand b
  | symbol s => .character (.symbol s)

theorem putCommand_ne_stp (v : Value) : v.putCommand ≠ .instruction .stp := by
  cases v <;> simp [putCommand]

end Value

theorem Word.exists_command_operand {b : UInt8} (small : b.toNat < 16) : ∃ word : Word, word.command = .operand b :=
  ⟨⟨b.toNat, by omega⟩, by simp [command, small]⟩

theorem Word.exists_command_character (c : Character) : ∃ word : Word, word.command = .character c := by
  have index := c.index.isLt
  refine ⟨⟨c.index.val + 32, by omega⟩, ?_⟩
  simp [command, Character.ofIndex_index]

theorem Value.Pushable.exists_word {v : Value} (pushable : v.Pushable) : ∃ word : Word, word.command = v.putCommand := by
  cases v with
  | byte b => exact Word.exists_command_operand pushable
  | symbol s => exact Word.exists_command_character (.symbol s)

/-- The commands that have a line said: its values, the last one first, their number, and SPEAK. -/
def speechCommands (values : List Value) : List Command :=
  values.reverse.map Value.putCommand ++ [.operand (UInt8.ofNat values.length), .character .speak]

/-- Up to 15 values a word can put, their count and SPEAK can be written on a card. -/
theorem exists_words_speechCommands {values : List Value} (pushable : ∀ v ∈ values, v.Pushable)
    (few : values.length ≤ 15) : ∃ words : List Word, words.map Word.command = speechCommands values := by
  have puts : ∀ c ∈ values.reverse.map Value.putCommand, ∃ word : Word, word.command = c := by
    intro c mem
    obtain ⟨v, named, rfl⟩ := List.mem_map.1 mem
    exact (pushable v (List.mem_reverse.1 named)).exists_word
  have count : ∃ word : Word, word.command = .operand (UInt8.ofNat values.length) :=
    Word.exists_command_operand (by rw [UInt8.toNat_ofNat']; omega)
  have each : ∀ c ∈ speechCommands values, ∃ word : Word, word.command = c := by
    intro c mem
    rcases List.mem_append.1 mem with mem | mem
    · exact puts c mem
    · rcases List.mem_pair.1 mem with rfl | rfl
      · exact count
      · exact Word.exists_command_character .speak
  have written : speechCommands values ∈ Set.range (List.map Word.command) := by
    rw [Set.range_list_map]
    exact each
  exact written

namespace Machine

variable {limits : Limits} {m : Machine}

/-! ## One step -/

theorem step_of_done {input : Input} {command : Command} {after : Machine} (asks : input.command? = some command)
    (goes : command ≠ .instruction .stp) (done : (m.started command).perform limits command = .ok after) :
    m.step limits input = (.running, after) := by
  obtain ⟨word, read, rfl⟩ := Option.map_eq_some_iff.1 asks
  rw [step_of_word?_eq_some read, runWord_of_ok done, if_neg goes]

theorem step_of_failed {input : Input} {command : Command} {fault : Fault} (asks : input.command? = some command)
    (failed : (m.started command).perform limits command = .error fault) :
    m.step limits input = (m.started command).fail fault := by
  obtain ⟨word, read, rfl⟩ := Option.map_eq_some_iff.1 asks
  rw [step_of_word?_eq_some read, runWord_of_error failed]

/-- What SPEAK comes to when there are enough values. -/
theorem speak_of_stack {count : UInt8} {values rest : List Value} (stack : m.stack = .byte count :: (values ++ rest))
    (length : values.length = count.toNat) :
    m.speak limits =
      if (String.join (values.map Value.text)).utf8ByteSize ≤ limits.speech then
        .ok { m with
          stack := rest
          lastSpeech := String.join (values.map Value.text)
          spoken := m.spoken ++ [String.join (values.map Value.text)] }
      else .error .speechTooLong := by
  have enough : ¬ (values ++ rest).length < count.toNat := by
    rw [List.length_append]
    omega
  rw [speak, stack]
  dsimp only
  rw [if_neg enough, ← length, List.take_left, List.drop_left]

/-- SPEAK says the values as one line and takes them off the stack with their count, or it does nothing. -/
structure WholeLine (limits : Limits) (m : Machine) (values rest : List Value) (input : Input) : Prop where
  inPlace : m.stepInPlace limits input = m.step limits input
  whole : (String.join (values.map Value.text)).utf8ByteSize ≤ limits.speech →
    m.step limits input = (.running, { m with
      stack := rest
      lastCommand := some (.character .speak)
      lastError := none
      lastSpeech := String.join (values.map Value.text)
      spoken := m.spoken ++ [String.join (values.map Value.text)] })
  nothing : limits.speech < (String.join (values.map Value.text)).utf8ByteSize →
    m.step limits input = (.error, { m with
      lastCommand := some (.character .speak)
      lastError := some .speechTooLong })

/-- The line is said as a whole if it is short enough, and otherwise nothing happens but the report. -/
theorem wholeLine_of_stack (fits : m.stack.length ≤ limits.stack) {input : Input}
    (asks : input.command? = some (.character .speak)) {count : UInt8} {values rest : List Value}
    (stack : m.stack = .byte count :: (values ++ rest)) (length : values.length = count.toNat) :
    WholeLine limits m values rest input := by
  have spoken : (m.started (.character .speak)).speak limits = _ := speak_of_stack stack length
  refine ⟨stepInPlace_eq fits input, fun short => ?_, fun long => ?_⟩
  · rw [if_pos short] at spoken
    exact step_of_done asks nofun spoken
  · rw [if_neg (Nat.not_le.2 long)] at spoken
    exact step_of_failed asks spoken

theorem perform_putCommand (limits : Limits) (m : Machine) (v : Value) :
    m.perform limits v.putCommand = m.putFresh limits v := by
  cases v <;> rfl

/-- A step that puts a value answers running. -/
theorem step_put {input : Input} {v : Value} (asks : input.command? = some v.putCommand)
    (room : m.stack.length < limits.stack) :
    m.step limits input =
      (.running, { m.started v.putCommand with stack := v :: m.stack, overflow := false }) := by
  have fresh : (m.started v.putCommand).putFresh limits v =
      .ok { m.started v.putCommand with stack := v :: m.stack, overflow := false } := by
    have free : (m.started v.putCommand).stack.length < limits.stack := room
    rw [putFresh, put, if_pos free]
    rfl
  exact step_of_done asks v.putCommand_ne_stp ((perform_putCommand _ _ _).trans fresh)

/-! ## Runs -/

theorem history_append (limits : Limits) (m : Machine) (first second : List Input) :
    m.history limits (first ++ second) = m.history limits first ++ (m.run limits first).history limits second := by
  induction first generalizing m with
  | nil => rfl
  | cons input inputs ih =>
    rw [List.cons_append, history, history, ih, List.cons_append, run]

/-- Every step answers running, and at its end the run left `stack` and had said `lines`. -/
structure Goes (limits : Limits) (m : Machine) (inputs : List Input) (stack : List Value) (lines : List String) :
    Prop where
  answers : ∀ step ∈ m.history limits inputs, step.1 = .running
  stack : (m.run limits inputs).stack = stack
  spoken : (m.run limits inputs).spoken = lines

theorem Goes.nil : Goes limits m [] m.stack m.spoken where
  answers := by simp [history]
  stack := rfl
  spoken := rfl

/-- Runs one after the other. -/
theorem Goes.append {first second : List Input} {between stack : List Value} {said lines : List String}
    (before : Goes limits m first between said) (after : Goes limits (m.run limits first) second stack lines) :
    Goes limits m (first ++ second) stack lines where
  answers := by
    rw [history_append]
    exact List.forall_mem_append.2 ⟨before.answers, after.answers⟩
  stack := by rw [run_append, after.stack]
  spoken := by rw [run_append, after.spoken]

/-- A single step that answers running. -/
theorem Goes.step {input : Input} {after : Machine} (answer : m.step limits input = (.running, after)) :
    Goes limits m [input] after.stack after.spoken where
  answers := by simp [history, answer]
  stack := by rw [run, run, answer]
  spoken := by rw [run, run, answer]

theorem goes_put {input : Input} {v : Value} (asks : input.command? = some v.putCommand)
    (room : m.stack.length < limits.stack) : Goes limits m [input] (v :: m.stack) m.spoken :=
  Goes.step (step_put asks room)

/-- Values put one after the other end up on the stack with the last one on top. -/
theorem goes_puts {inputs : List Input} {values : List Value}
    (asks : inputs.map Input.command? = values.map fun v => some v.putCommand)
    (room : m.stack.length + values.length ≤ limits.stack) :
    Goes limits m inputs (values.reverse ++ m.stack) m.spoken := by
  induction values generalizing m inputs with
  | nil =>
    obtain rfl : inputs = [] := List.map_eq_nil_iff.1 asks
    exact .nil
  | cons v values ih =>
    obtain ⟨input, inputs, rfl, first, others⟩ := List.map_eq_cons_iff.1 asks
    rw [List.length_cons] at room
    have put := goes_put first (show m.stack.length < limits.stack by omega)
    have depth : (m.run limits [input]).stack.length + values.length ≤ limits.stack := by
      rw [put.stack, List.length_cons]
      omega
    have later := ih others depth
    rw [put.stack, put.spoken] at later
    rw [List.reverse_cons, List.append_assoc, List.singleton_append]
    exact put.append later

/-- **A line is said and its values are gone.** -/
theorem goes_speech {inputs : List Input} {values : List Value}
    (asks : inputs.map Input.command? = (speechCommands values).map some) (few : values.length ≤ 15)
    (room : m.stack.length + values.length + 1 ≤ limits.stack)
    (short : (String.join (values.map Value.text)).utf8ByteSize ≤ limits.speech) :
    Goes limits m inputs m.stack (m.spoken ++ [String.join (values.map Value.text)]) := by
  rw [speechCommands, List.map_append, List.map_map] at asks
  obtain ⟨puts, others, rfl, putting, ending⟩ := List.map_eq_append_iff.1 asks
  obtain ⟨number, others, rfl, counting, ending⟩ := List.map_eq_cons_iff.1 ending
  obtain ⟨speak, others, rfl, speaking, ending⟩ := List.map_eq_cons_iff.1 ending
  obtain rfl : others = [] := List.map_eq_nil_iff.1 ending
  have laid : Goes limits m puts (values ++ m.stack) m.spoken := by
    have room : m.stack.length + values.reverse.length ≤ limits.stack := by
      rw [List.length_reverse]
      omega
    have turned := goes_puts putting room
    rwa [List.reverse_reverse] at turned
  have depth : (m.run limits puts).stack.length < limits.stack := by
    rw [laid.stack, List.length_append]
    omega
  have counted : Goes limits (m.run limits puts) [number]
      (.byte (UInt8.ofNat values.length) :: (values ++ m.stack)) m.spoken := by
    have put := goes_put (v := .byte (UInt8.ofNat values.length)) counting depth
    rwa [laid.stack, laid.spoken] at put
  have count : values.length = (UInt8.ofNat values.length).toNat := by
    rw [UInt8.toNat_ofNat']
    omega
  have fits : ((m.run limits puts).run limits [number]).stack.length ≤ limits.stack := by
    rw [counted.stack, ← laid.stack]
    exact depth
  have said := Goes.step ((wholeLine_of_stack fits speaking counted.stack count).whole short)
  rw [counted.spoken] at said
  exact laid.append (counted.append said)

/-- **SPEAK is exact and speaks back what was put on the stack.** Values read as they should, SPEAK says as many as
its count tells or nothing, and the commands that lay out a line have it said and leave the stack as it was. -/
theorem speaks_back (limits : Limits) (m : Machine) (fits : m.stack.length ≤ limits.stack) :
    (∀ v : Value, v.Reads v.text) ∧
    (∀ (input : Input) (count : UInt8) (values rest : List Value), input.command? = some (.character .speak) →
      m.stack = .byte count :: (values ++ rest) → values.length = count.toNat → WholeLine limits m values rest input) ∧
    ∀ values : List Value, (∀ v ∈ values, v.Pushable) → values.length ≤ 15 →
      m.stack.length + values.length + 1 ≤ limits.stack →
      (String.join (values.map Value.text)).utf8ByteSize ≤ limits.speech →
      (∃ words : List Word, words.map Word.command = speechCommands values) ∧
      ∀ inputs : List Input, inputs.map Input.command? = (speechCommands values).map some →
        Goes limits m inputs m.stack (m.spoken ++ [String.join (values.map Value.text)]) :=
  ⟨Value.reads_text, fun _ _ _ _ asks stack length => wholeLine_of_stack fits asks stack length,
    fun _ pushable few room short =>
      ⟨exists_words_speechCommands pushable few, fun _ asks => goes_speech asks few room short⟩⟩

/-- H15 is laid out and said above a blank and its count of one, which stay. SPEAK alone says the blank. -/
theorem speaks_back_overBlank :
    let limits : Limits := { stack := 6, speech := 3 }
    let m : Machine := { stack := [.byte 1, .symbol .space, .byte 9], overflow := true, spoken := ["A"] }
    let values : List Value := [.symbol (.letter 7), .byte 15]
    let inputs : List Input := [.word ⟨15⟩, .bits [1, 0, 1, 0, 1, 1], .word ⟨2⟩, .word ⟨33⟩]
    m.stack.length ≤ limits.stack ∧ inputs.map Input.command? = (speechCommands values).map some ∧
      String.join (values.map Value.text) = "H15" ∧ Goes limits m inputs m.stack ["A", "H15"] ∧
      m.step limits (.word ⟨33⟩) = (.running, { m with
        stack := [.byte 9]
        lastCommand := some (.character .speak)
        lastSpeech := " "
        spoken := ["A", " "] }) := by
  intro limits m values inputs
  have fits : m.stack.length ≤ limits.stack := by decide
  have asks : inputs.map Input.command? = (speechCommands values).map some := by decide
  have line : String.join (values.map Value.text) = "H15" := by decide
  have blank : String.join ([Value.symbol .space].map Value.text) = " " := by decide
  have pushable : ∀ v ∈ values, v.Pushable := by simp [values, Value.Pushable]
  obtain ⟨-, lines, back⟩ := speaks_back limits m fits
  have goes := (back values pushable (by decide) (by decide) (by rw [line]; decide)).2 inputs asks
  have alone := (lines (.word ⟨33⟩) 1 [.symbol .space] [.byte 9] (by decide) rfl rfl).whole (by decide)
  rw [line] at goes
  rw [blank] at alone
  exact ⟨fits, asks, line, goes, alone⟩

end Machine

end InstructionCard
