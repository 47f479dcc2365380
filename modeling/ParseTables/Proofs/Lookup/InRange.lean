import ParseTables.Proofs.Lookup.Documents

namespace ParseTables

open Driver Grammar

variable {g : Grammar}

/-- All lines of a trace are there, and only one that is too wide keeps the trace from being written. -/
def Driver.Trace.ShowsInRange {Step : Type} (trace : Trace Step) (title : String)
    (cells? : List Nat → Step → Option (List String)) (text? : Trace Step → Option String) : Prop :=
  ∃ lines, trace.steps.mapM (cells? trace.input) = some lines ∧
    (text? trace = none ↔ Text.TooWide ([title, "input", "action"] :: lines))

theorem Driver.Trace.RunsInRange.shows {Step : Type} {InRange : List Nat → Step → Prop}
    {trace : Trace Step} (runs : trace.RunsInRange g InRange) (title : String)
    {cells? : List Nat → Step → Option (List String)}
    (each : ∀ step, InRange trace.input step → ∃ cells, cells? trace.input step = some cells) :
    trace.ShowsInRange title cells? (fun trace => do
      let lines ← trace.steps.mapM (cells? trace.input)
      Render.traceText? title lines (← trace.verdict.text? g)) := by
  obtain ⟨lines, shown⟩ := exists_mapM fun step member => each step (runs.steps step member)
  obtain ⟨verdict, told⟩ := runs.verdict
  have written :
      Render.traceText? title lines verdict = none ↔
          Text.TooWide ([title, "input", "action"] :: lines) := by
    rw [Render.traceText?, Option.map_eq_none_iff, Text.alignColumns?_eq_none_iff]
  exact ⟨lines, shown, by simpa [shown, told] using written⟩

theorem Predictive.Step.InRange.cells (wf : g.WellFormed) {input : List Nat} {step : Predictive.Step}
    (terminals : ∀ terminal ∈ input, g.HasSymbol terminal) (inRange : step.InRange g input) :
    ∃ cells, step.cells? g input = some cells := by
  obtain ⟨stack, stacked⟩ := exists_namesOf inRange.stack
  obtain ⟨rest, unread⟩ := exists_namesOf fun terminal (member : terminal ∈ input.drop step.position) =>
    terminals terminal (List.mem_of_mem_drop member)
  obtain ⟨action, done⟩ : ∃ action, step.action.text? g = some action := by
    cases known : step.action with
    | matched terminal =>
      obtain ⟨name, named⟩ := inRange.matched terminal known
      simp [Action.text?, named]
    | expand number => exact (inRange.expanded number known).text wf
    | accept | reject => exact ⟨_, rfl⟩
  simp [cells?, stacked, unread, done]

theorem ShiftReduce.Step.InRange.cells (wf : g.WellFormed) {input : List Nat} {step : ShiftReduce.Step}
    (terminals : ∀ terminal ∈ input, g.HasSymbol terminal) (inRange : step.InRange g input) :
    ∃ cells, step.cells? g input = some cells := by
  obtain ⟨rest, unread⟩ := exists_namesOf fun terminal (member : terminal ∈ input.drop step.position) =>
    terminals terminal (List.mem_of_mem_drop member)
  obtain ⟨action, done⟩ : ∃ action, actionText? g step.action = some action := by
    cases known : step.action with
    | none => exact ⟨_, rfl⟩
    | some action =>
      cases action with
      | shift | accept => exact ⟨_, rfl⟩
      | reduce number =>
        obtain ⟨rule, defined, -⟩ := inRange.reduced number known
        obtain ⟨production, written⟩ := HasRule.production wf ⟨rule, defined⟩
        simp [actionText?, Render.Action.of?, written]
  simp [cells?, unread, done]

theorem Predictive.showsInRange (wf : g.WellFormed) (tokens : List String) :
    (trace g.llTable g tokens).ShowsInRange "stack" (Step.cells? g) (traceText? g) :=
  have runs := runsInRange wf tokens
  runs.shows "stack" fun _ => Step.InRange.cells wf runs.input

theorem ShiftReduce.showsInRange (wf : g.WellFormed) (tokens : List String) :
    (trace g.slrTable g tokens).ShowsInRange "states" (Step.cells? g) (traceText? g) :=
  have runs := runsInRange wf tokens
  runs.shows "states" fun _ => Step.InRange.cells wf runs.input

/-- All that is looked up on the whole way is there, for a list of tokens. -/
structure Analysis.InRange (a : Analysis) (tokens : List String) : Prop where
  builds : a.BuildsInRange
  documents : a.ShowsInRange
  predictiveRun : (Predictive.trace a.predictive a.grammar tokens).RunsInRange a.grammar
    (Predictive.Step.InRange a.grammar)
  predictiveTrace : (Predictive.trace a.predictive a.grammar tokens).ShowsInRange "stack"
    (Predictive.Step.cells? a.grammar) (Predictive.traceText? a.grammar)
  shiftReduceRun : (ShiftReduce.trace a.actions a.grammar tokens).RunsInRange a.grammar
    (ShiftReduce.Step.InRange a.grammar)
  shiftReduceTrace : (ShiftReduce.trace a.actions a.grammar tokens).ShowsInRange "states"
    (ShiftReduce.Step.cells? a.grammar) (ShiftReduce.traceText? a.grammar)

/-- What is looked up while the tables of an accepted list of rules are built, while both parsers run on
some tokens, and while the tables and the traces are written, is there. A table or trace is missing just
if it is too wide. -/
theorem analysis_inRange {pairs : List (String × String)} {designated : Option String}
    (built : ofRules pairs designated = .ok g) (policy : ReducePolicy) (tokens : List String) :
    (Analysis.ofGrammar g policy).InRange tokens where
  builds := Analysis.buildsInRange (wellFormed_ofRules built) policy
  documents := Analysis.showsInRange built policy
  predictiveRun := Predictive.runsInRange (wellFormed_ofRules built) tokens
  predictiveTrace := Predictive.showsInRange (wellFormed_ofRules built) tokens
  shiftReduceRun := ShiftReduce.runsInRange (wellFormed_ofRules built) tokens
  shiftReduceTrace := ShiftReduce.showsInRange (wellFormed_ofRules built) tokens

/-- Sums without brackets. They have LL(1) conflicts and SLR(1) conflicts. -/
theorem analysis_inRange_sums : ∃ g, ofRules [("E", "E + E"), ("E", "n"), ("E", "e")] none = .ok g ∧
    (Analysis.ofGrammar g .followOverlap).InRange ["n", "+", "n", "n"] := by
  have built : ofRules [("E", "E + E"), ("E", "n"), ("E", "e")] none =
      .ok ⟨"E'", #["E"], #["+", "n"], 1, [⟨1, [1, 2, 1]⟩, ⟨1, [3]⟩, ⟨1, []⟩]⟩ := by cbv
  exact ⟨_, built, analysis_inRange built .followOverlap ["n", "+", "n", "n"]⟩

/-- The rule `S -> a b`. -/
def twoLetters : Grammar := ⟨"S'", #["S"], #["a", "b"], 1, [⟨1, [2, 3]⟩]⟩

theorem ofRules_twoLetters : ofRules [("S", "a b")] none = .ok twoLetters := by cbv

theorem length_letters (n : Nat) :
    (" ".intercalate (List.replicate n "b" ++ ["$"])).length = 2 * n + 1 := by
  induction n with
  | zero => rfl
  | succ n ih =>
    rw [List.replicate_succ, List.cons_append, String.intercalate_cons_of_ne_nil (by simp),
      String.length_append,
      String.length_append, ih, show "b".length = 1 from rfl, show " ".length = 1 from rfl]
    omega

theorem namesOf?_letters (n : Nat) :
    twoLetters.namesOf? (List.replicate n 3) = some (List.replicate n "b") := by
  rw [namesOf?_eq_some_iff, List.map_replicate, List.map_replicate]
  rfl

/-- The predictive parser rejects any number of letters at once. -/
theorem trace_twoLetters (n : Nat) :
    Predictive.trace twoLetters.llTable twoLetters (List.replicate (n + 1) "b") =
      ⟨List.replicate (n + 1) 3 ++ [twoLetters.endMark], [⟨[1], 0, .reject⟩],
        .rejected (.noEntry 1 3)⟩ := by
  have isWord : twoLetters.IsWord (List.replicate (n + 1) 3) := fun terminal member =>
    List.eq_of_mem_replicate member ▸ by decide
  have resolved :=
    resolve_names (wellFormed_ofRules ofRules_twoLetters) isWord (namesOf?_letters (n + 1)) (Or.inl rfl)
  have stops : Predictive.Stops twoLetters.llTable twoLetters
      (.initial twoLetters (List.replicate (n + 1) 3 ++ [twoLetters.endMark])) _ _ :=
    .noEntry rfl rfl (by decide) (by decide +kernel)
  -- the first step is the last: nothing is expanded by a letter that begins no rule
  have halts : HaltsWith (Predictive.machine twoLetters.llTable twoLetters).advance
      (.initial twoLetters (List.replicate (n + 1) 3 ++ [twoLetters.endMark])) [⟨[1], 0, .reject⟩]
      (.rejected (.noEntry 1 3)) := ⟨[], _, _, .refl, stops.advance_eq, rfl⟩
  rw [Predictive.trace_of_ok resolved, Machine.run_eq halts]

/-- All letters are in the line that is written of it. -/
theorem traceText?_twoLetters (n : Nat) :
    Predictive.traceText? twoLetters
        (Predictive.trace twoLetters.llTable twoLetters (List.replicate (n + 1) "b")) = none ↔
      Text.widestField < 2 * (n + 1) + 1 := by
  have cells : Predictive.Step.cells? twoLetters (List.replicate (n + 1) 3 ++ [twoLetters.endMark])
      ⟨[1], 0, .reject⟩ =
      some ["$ S", " ".intercalate (List.replicate (n + 1) "b" ++ ["$"]), "error"] := by
    have stack : twoLetters.namesOf? (Predictive.Step.symbols twoLetters ⟨[1], 0, .reject⟩) =
        some ["$", "S"] := by
      decide +kernel
    have rest : twoLetters.namesOf? (List.replicate (n + 1) 3 ++ [twoLetters.endMark]) =
        some (List.replicate (n + 1) "b" ++ ["$"]) := by
      rw [namesOf?_eq_some_iff, List.map_append, List.map_append,
        namesOf?_eq_some_iff.mp (namesOf?_letters (n + 1))]
      rfl
    simp only [Predictive.Step.cells?, stack, List.drop_zero, rest]
    rfl
  obtain ⟨lines, shown, written⟩ :=
    Predictive.showsInRange (wellFormed_ofRules ofRules_twoLetters) (List.replicate (n + 1) "b")
  rw [trace_twoLetters] at shown written ⊢
  obtain rfl : lines = [_] := by simpa [cells] using shown.symm
  have narrow : ∀ cell ∈ ["stack", "input", "action", "$ S", "error"],
      ¬ Text.widestField < cell.length := by decide
  rw [written]
  simp [Text.TooWide, length_letters, -not_lt, narrow]

/-- The letter b, 32768 times. -/
theorem letters_not_written : ∃ g, ofRules [("S", "a b")] none = .ok g ∧
    Predictive.traceText? g (Predictive.trace (Analysis.ofGrammar g .anyMultiple).predictive g
      (List.replicate 32768 "b")) = none :=
  ⟨twoLetters, ofRules_twoLetters, (traceText?_twoLetters 32767).mpr (by decide)⟩

end ParseTables
