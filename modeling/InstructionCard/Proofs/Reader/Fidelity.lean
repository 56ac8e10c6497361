import InstructionCard.Proofs.Reader.Admissible
import InstructionCard.Reader.Script

/-!
# Fidelity of the reader

Whatever a source does to the rows of a card, as long as its answers are admissible, the reader runs the
words of the card from the first row on, each at its row. If every row that is reached is legible in time,
the card ends as its words run directly. Main result: `runCard_faithful`.
-/

set_option autoImplicit false

namespace InstructionCard

/-! ## Words run directly -/

/-- The words of a card, each with its row. -/
def numbered (words : List Data) : List (UInt32 × Data) :=
  words.mapIdx fun i w => (.ofNat i, w)

/-- Runs numbered words until the first one that does not keep the machine running. -/
def Machine.runWords (limits : Limits) (m : Machine) : List (UInt32 × Data) → CardEnd × Machine
  | [] => (.completed, m)
  | (row, data) :: words =>
    match m.runBits limits data.toList with
    | (.running, after) => after.runWords limits words
    | (.stopped, after) => (.stopped row, after)
    | (.error, after) => (.faulted row after.lastError, after)

theorem drop_numbered {words : List Data} {row : UInt32} {w : Data} (h : words[row.toNat]? = some w) :
    (numbered words).drop row.toNat = (row, w) :: (numbered words).drop (row.toNat + 1) := by
  obtain ⟨less, rfl⟩ := List.getElem?_eq_some_iff.1 h
  rw [List.drop_eq_getElem_cons (by simpa [numbered] using less)]
  simp [numbered]

theorem toNat_add_one {row : UInt32} (h : row.toNat + 1 < UInt32.size) : (row + 1).toNat = row.toNat + 1 := by
  rw [UInt32.toNat_add]
  exact Nat.mod_eq_of_lt h

/-! ## Rows with admissible answers -/

section

variable {σ ε : Type} [Source σ ε]

/-- What the first rows left to a card is what the rest of it starts with. -/
theorem runRows_succ_of_moved {config : Config} {limits : Limits} {row : UInt32} {machine after : Machine}
    {source : σ} {data : Data} (read : (obtainData config row source).result = .ok data)
    (ran : machine.runBits limits data.toList = (.running, after))
    (fed : (Session.feed (obtainData config row source).source).result = .ok ()) (left : Nat) :
    let rest := runRows config limits left (row + 1) after
      (Session.feed (obtainData config row source).source).source
    (runRows config limits (left + 1) row machine source).result = rest.result ∧
      (runRows config limits (left + 1) row machine source).source = rest.source := by
  simp only [runRows, read, ran, fed]
  exact ⟨trivial, trivial⟩

/-- How the first of the remaining rows, which carries the word `w`, goes when every answer is admissible. -/
inductive CarriedRow (config : Config) (limits : Limits) (words : List Data) (left : Nat) (row : UInt32)
    (machine : Machine) (r : Recorded σ ε) (w : Data) : CardRun (Recorded σ ε) ε → Prop where
  | unreadable (source : Recorded σ ε) (trace : List Activity) (decoded : decodedWords trace = [])
      (illegible : ¬ LegibleInTime config row r.source w) :
      CarriedRow config limits words left row machine r w ⟨.error (.unreadable row), machine, source, trace⟩
  | stopped (after : Machine) (source : Recorded σ ε) (trace : List Activity)
      (decoded : decodedWords trace = [(row, w)])
      (ran : machine.runBits limits w.toList = (.stopped, after)) :
      CarriedRow config limits words left row machine r w ⟨.ok (.stopped row), after, source, trace⟩
  | faulted (after : Machine) (source : Recorded σ ε) (trace : List Activity)
      (decoded : decodedWords trace = [(row, w)])
      (ran : machine.runBits limits w.toList = (.error, after)) :
      CarriedRow config limits words left row machine r w
        ⟨.ok (.faulted row after.lastError), after, source, trace⟩
  | moved (after : Machine) (s : Recorded σ ε) (rest : CardRun (Recorded σ ε) ε) (trace : List Activity)
      (decoded : decodedWords trace = (row, w) :: decodedWords rest.trace)
      (ran : machine.runBits limits w.toList = (.running, after))
      (next : runRows config limits left (row + 1) after s = rest) (admissible : rest.source.Admissible words)
      (shift : ∀ k, (runRows config limits (k + 1) row machine r).result =
          (runRows config limits k (row + 1) after s).result ∧
        (runRows config limits (k + 1) row machine r).source = (runRows config limits k (row + 1) after s).source) :
      CarriedRow config limits words left row machine r w { rest with trace := trace }

/-- Where the sensings only garble the words, a row goes one of the ways of `CarriedRow`. -/
theorem carriedRow_runRows {config : Config} {limits : Limits} {words : List Data} {left : Nat} {row : UInt32}
    {machine : Machine} {r : Recorded σ ε} {w : Data} (bits : BinaryCells w.toList)
    (word : words[row.toNat]? = some w)
    (h : (runRows config limits (left + 1) row machine r).source.Admissible words) :
    CarriedRow config limits words left row machine r w (runRows config limits (left + 1) row machine r) := by
  have first := firstRow_runRows config limits left row machine r
  have decoded := (yields_obtainData (ε := ε) config row r).1
  have spec (fine : (obtainData config row r).source.Admissible words) := obtainData_admissible bits word fine
  have carried {data : Data} (fine : (obtainData config row r).source.Admissible words)
      (read : (obtainData config row r).result = .ok data) :
      data = w ∧ decodedWords (obtainData config row r).trace = [(row, w)] := by
    rcases (spec fine).1 with result | impossible
    · rw [result] at decoded read
      cases read
      exact ⟨rfl, decoded⟩
    · cases impossible.symm.trans read
  generalize runRows config limits (left + 1) row machine r = run at first h
  cases first with
  | unread e read =>
    obtain ⟨result, complete⟩ := spec h
    obtain rfl : e = .unreadable row := by
      rcases result with impossible | same
      · cases impossible.symm.trans read
      · cases same.symm.trans read
        rfl
    rw [read] at decoded complete
    exact .unreadable _ _ decoded fun legible => nomatch complete legible
  | stopped data after read ran =>
    obtain ⟨rfl, decoded⟩ := carried h read
    refine .stopped after _ _ ?_ ran
    rw [decodedWords_append, decoded]
    rfl
  | faulted data after read ran =>
    obtain ⟨rfl, decoded⟩ := carried h read
    refine .faulted after _ _ ?_ ran
    rw [decodedWords_append, decoded]
    rfl
  | stuck data after e read ran fed =>
    have moved : (Session.feed (obtainData config row r).source).result = .ok () :=
      ask_moved List.mem_concat_self h
    cases moved.symm.trans fed
  | moved data after rest read ran fed next =>
    have grows := (runRows_recorded config limits left (row + 1) after
      (Session.feed (obtainData config row r).source).source).2
    rw [next] at grows
    have fedFine : (Session.feed (obtainData config row r).source).source.Admissible words := h.of_prefix grows
    have readFine := fedFine.of_prefix (Follows.feed.grows (obtainData config row r).source)
    obtain ⟨rfl, decoded⟩ := carried readFine read
    refine .moved after _ rest _ ?_ ran next h (runRows_succ_of_moved read ran fed)
    rw [decodedWords_append, decodedWords_append, decodedWords_append, decoded]
    rfl

section

variable {config : Config} {limits : Limits} {words : List Data} (binary : ∀ w ∈ words, BinaryCells w.toList)
  (small : words.length < UInt32.size) {left : Nat} {row : UInt32} {machine : Machine} {r : Recorded σ ε}
  (size : row.toNat + left = words.length)
  (h : (runRows config limits left row machine r).source.Admissible words)
include binary small size h

/-- The words are decoded in their order, each at its row. -/
theorem decodedWords_runRows_prefix :
    decodedWords (runRows config limits left row machine r).trace <+: (numbered words).drop row.toNat := by
  induction left generalizing row machine r with
  | zero => exact List.nil_prefix
  | succ left ih =>
    obtain ⟨w, word⟩ : ∃ w, words[row.toNat]? = some w := ⟨_, List.getElem?_eq_getElem (by omega)⟩
    have succ : (row + 1).toNat = row.toNat + 1 := toNat_add_one (by omega)
    have carried := carriedRow_runRows (binary w (List.mem_of_getElem? word)) word h
    generalize runRows config limits (left + 1) row machine r = run at carried
    rw [drop_numbered word, ← succ]
    cases carried with
    | unreadable source trace decoded illegible =>
      rw [decoded]
      exact List.nil_prefix
    | stopped after source trace decoded ran =>
      rw [decoded]
      exact ⟨_, rfl⟩
    | faulted after source trace decoded ran =>
      rw [decoded]
      exact ⟨_, rfl⟩
    | moved after s rest trace decoded ran next admissible shift =>
      subst next
      rw [decoded]
      exact (List.prefix_cons_inj _).2 (ih (by omega) admissible)

/-- When every row that is reached is legible in time, the card ends as its words do. -/
theorem runRows_eq_runWords (legible : ∀ k w, words[row.toNat + k]? = some w →
      (runRows config limits k row machine r).result = .ok .completed →
      LegibleInTime config (row + .ofNat k) (runRows config limits k row machine r).source.source w) :
    ∃ outcome, (runRows config limits left row machine r).result = .ok outcome ∧
      (outcome, (runRows config limits left row machine r).machine) =
        machine.runWords limits ((numbered words).drop row.toNat) := by
  induction left generalizing row machine r with
  | zero =>
    have none : (numbered words).drop row.toNat = [] :=
      List.drop_eq_nil_of_le (by simp [numbered]; omega)
    rw [none]
    exact ⟨.completed, rfl, rfl⟩
  | succ left ih =>
    obtain ⟨w, word⟩ : ∃ w, words[row.toNat]? = some w := ⟨_, List.getElem?_eq_getElem (by omega)⟩
    have succ : (row + 1).toNat = row.toNat + 1 := toNat_add_one (by omega)
    have legibleFirst : LegibleInTime config row r.source w := by
      have first := legible 0 w word rfl
      have same : row + .ofNat 0 = row := UInt32.add_zero row
      rwa [same] at first
    have carried := carriedRow_runRows (binary w (List.mem_of_getElem? word)) word h
    generalize runRows config limits (left + 1) row machine r = run at carried
    rw [drop_numbered word, ← succ]
    cases carried with
    | unreadable source trace decoded illegible => exact absurd legibleFirst illegible
    | stopped after source trace decoded ran =>
      rw [Machine.runWords, ran]
      exact ⟨_, rfl, rfl⟩
    | faulted after source trace decoded ran =>
      rw [Machine.runWords, ran]
      exact ⟨_, rfl, rfl⟩
    | moved after s rest trace decoded ran next admissible shift =>
      subst next
      rw [Machine.runWords, ran]
      apply ih (by omega) admissible
      intro k w' word' completed
      obtain ⟨result, source⟩ := shift k
      have later := legible (k + 1) w' (by rw [← word', succ]; congr 1; omega) (result.trans completed)
      rw [source] at later
      have number : row + .ofNat (k + 1) = row + 1 + .ofNat k := by
        rw [UInt32.ofNat_add, UInt32.add_assoc, UInt32.add_comm (.ofNat k)]
        rfl
      rwa [number] at later

end

theorem inputs_take_numbered (words : List Data) (k : Nat) :
    inputs ((numbered words).take k) = (words.take k).map fun w => .bits w.toList := by
  have all : inputs (numbered words) = words.map fun w => .bits w.toList :=
    List.ext_getElem (by simp [inputs, numbered]) (by simp [inputs, numbered])
  rw [List.map_take, ← all, inputs, inputs, List.map_take]

/-- **Fidelity.** When no call fails and every sensing only garbles the word of its row, a prefix of the
words is run, each at its row, and the machine is what that prefix makes of it. When moreover every row that
is reached is legible in time, reading ends without an error, as the words end when they run directly. -/
theorem runCard_faithful (config : Config) (limits : Limits) (machine : Machine) (source : σ)
    (words : List Data) (size : words.length = config.rows.toNat) (binary : ∀ w ∈ words, BinaryCells w.toList)
    (admissible : (runCard config limits machine (⟨source, []⟩ : Recorded σ ε)).source.Admissible words) :
    let run := runCard config limits machine source
    (∃ k ≤ words.length, decodedWords run.trace = (numbered words).take k ∧
      executedEvents run.trace = machine.reports limits ((numbered words).take k) ∧
      run.machine = machine.run limits ((words.take k).map fun w => .bits w.toList)) ∧
    ((∀ row w, words[row]? = some w →
        let reached := runRows config limits row 0 machine source
        reached.result = .ok .completed → LegibleInTime config (.ofNat row) reached.source w) →
      ∃ outcome, run.result = .ok outcome ∧
        (outcome, run.machine) = machine.runWords limits (numbered words)) := by
  intro run
  have small : words.length < UInt32.size := size ▸ config.rows.toNat_lt
  have numbers : (0 : UInt32).toNat + config.rows.toNat = words.length := by
    rw [size]
    exact Nat.zero_add _
  have same (left : Nat) := (runRows_recorded config limits left 0 machine (⟨source, []⟩ : Recorded σ ε)).1
  have traces : run.trace = _ := congrArg CardRun.trace (same config.rows.toNat)
  have results : run.result = _ := congrArg CardRun.result (same config.rows.toNat)
  have machines : run.machine = _ := congrArg CardRun.machine (same config.rows.toNat)
  constructor
  · have ordered : decodedWords run.trace <+: numbered words := by
      rw [traces]
      exact decodedWords_runRows_prefix binary small numbers admissible
    have decoded := List.prefix_iff_eq_take.1 ordered
    have replay : Replays limits machine run.machine run.trace :=
      runRows_replay config limits config.rows.toNat 0 machine source
    refine ⟨(decodedWords run.trace).length, ?_, decoded, ?_, ?_⟩
    · simpa [numbered] using ordered.length_le
    · rw [← decoded]
      exact replay.reports
    · rw [← inputs_take_numbered, ← decoded]
      exact replay.machine
  · intro legible
    have ended := runRows_eq_runWords binary small numbers admissible
    rw [results, machines]
    apply ended
    intro k w word completed
    have reached := legible k w (by rwa [UInt32.toNat_zero, Nat.zero_add] at word)
    rw [same] at reached
    have number : (0 : UInt32) + .ofNat k = .ofNat k := UInt32.zero_add _
    rw [number]
    exact reached completed

end

/-- The operand 5, then STP. -/
def shortCard : List Data :=
  [Vector.mk #[0, 0, 0, 1, 0, 1] rfl, Vector.mk #[0, 1, 0, 0, 0, 0] rfl]

theorem binaryCells_shortCard : ∀ w ∈ shortCard, BinaryCells w.toList := by
  simp only [shortCard, List.forall_mem_cons]
  exact ⟨by decide +kernel, by decide +kernel, nofun⟩

/-- The first row takes a reread, the second an adjustment and a reread. -/
def garblingScript : Script where
  rows := [
    .ok (Vector.mk #[some 1, some 0, some 0, some 1, some 0, some 1, some 1, some 0, some 0, some 1, some 1] rfl),
    .ok (Vector.mk #[some 0, none, some 1, some 1, some 1, some 0, some 0, some 0, some 0, some 0, some 0] rfl)]
  rereads := [
    .ok (Vector.mk #[some 0, some 0, some 0, some 1, some 0, some 1, some 0, some 0, some 0, some 1, some 0] rfl),
    .ok (Vector.mk #[some 1, some 1, some 1, some 0, some 0, some 0, some 0, some 0, some 1, some 1, some 1] rfl),
    .ok Script.unsensed,
    .ok (Vector.mk #[some 0, some 1, some 0, some 0, some 0, some 0, some 0, some 0, some 1, some 0, some 1] rfl)]

theorem runCard_faithful_garblingScript :
    let config : Config := { rows := 2, adjustments := 1 }
    shortCard.length = config.rows.toNat ∧ (∀ w ∈ shortCard, BinaryCells w.toList) ∧
      (runCard config {} {} (⟨garblingScript, []⟩ : Recorded Script String)).source.Admissible shortCard ∧
      (∀ row w, shortCard[row]? = some w →
        let reached := runRows config {} row 0 {} garblingScript
        reached.result = .ok .completed → LegibleInTime config (.ofNat row) reached.source w) ∧
      ∃ outcome, (runCard config {} {} garblingScript).result = .ok outcome ∧
        (outcome, (runCard config {} {} garblingScript).machine) = Machine.runWords {} {} (numbered shortCard) := by
  intro config
  have admissible : (runCard config {} {} (⟨garblingScript, []⟩ : Recorded Script String)).source.Admissible
      shortCard := by decide +kernel
  have legible : ∀ row w, shortCard[row]? = some w →
      LegibleInTime config (.ofNat row) (runRows config {} row 0 {} garblingScript).source w := by
    intro row w word
    match row with
    | 0 =>
      cases word
      decide +kernel
    | 1 =>
      cases word
      decide +kernel
    | row + 2 => cases word
  refine ⟨rfl, binaryCells_shortCard, admissible, fun row w word _ => legible row w word, ?_⟩
  exact (runCard_faithful config {} {} garblingScript shortCard rfl binaryCells_shortCard admissible).2
    fun row w word _ => legible row w word

end InstructionCard
