import ParseTables.Predictive.Driver

namespace ParseTables.Predictive

open Driver

/-- The expansion of a non-terminal would repeat one kept in mind. -/
def Config.Repeats (config : Config) (nonTerminal : Nat) : Prop :=
  ∃ made ∈ config.expansions, made.nonTerminal = nonTerminal

/-- The step that is recorded for an action. -/
def Config.record (config : Config) (action : Action) : Step := ⟨config.stack, config.position, action⟩

variable {table : PredictiveTable} {g : Grammar} {config next : Config} {step : Step}
  {recorded : Option Step} {verdict : Verdict}

/-- How the parser goes on. -/
inductive Moves (table : PredictiveTable) (g : Grammar) (config : Config) : Step → Config → Prop
  | matched {top below later} : config.stack = top :: below → config.rest = top :: later →
      g.isTerminal top →
      Moves table g config (config.record (.matched top)) ⟨below, config.position + 1, later, []⟩
  | expand {top below current later number rule} : config.stack = top :: below →
      config.rest = current :: later → ¬ g.isTerminal top → table.rule? top current = some number →
      ¬ config.Repeats top → g.rule? number = some rule →
      Moves table g config (config.record (.expand number))
        ⟨rule.body ++ below, config.position, config.rest,
          config.remember top (rule.body ++ below).length⟩

/-- How the parser stops. -/
inductive Stops (table : PredictiveTable) (g : Grammar) (config : Config) :
    Option Step → Verdict → Prop
  | accept : config.stack = [] → config.rest.length = 1 →
      Stops table g config (config.record .accept) .accepted
  | leftover : config.stack = [] → config.rest.length ≠ 1 →
      Stops table g config (config.record .reject) (.rejected (.leftoverInput config.rest))
  | exhausted {top below} : config.stack = top :: below → config.rest = [] →
      Stops table g config (config.record .reject) (.rejected (.inputExhausted top))
  | mismatch {top below current later} : config.stack = top :: below → config.rest = current :: later →
      g.isTerminal top → top ≠ current →
      Stops table g config (config.record .reject) (.rejected (.mismatch top current))
  | noEntry {top below current later} : config.stack = top :: below → config.rest = current :: later →
      ¬ g.isTerminal top → table.rule? top current = none →
      Stops table g config (config.record .reject) (.rejected (.noEntry top current))
  | cycle {top below current later number} : config.stack = top :: below →
      config.rest = current :: later → ¬ g.isTerminal top → table.rule? top current = some number →
      config.Repeats top →
      Stops table g config (config.record .reject) (.rejected (.expansionCycle top current))
  | undefined {top below current later number} : config.stack = top :: below →
      config.rest = current :: later → ¬ g.isTerminal top → table.rule? top current = some number →
      ¬ config.Repeats top → g.rule? number = none →
      Stops table g config none (.undefinedRule number)

theorem repeats_iff {nonTerminal : Nat} : config.Repeats nonTerminal ↔
    config.expansions.any (·.nonTerminal = nonTerminal) = true := by
  simp [Config.Repeats]

theorem Moves.advance_eq (moves : Moves table g config step next) :
    advance table g config = .go step next := by
  cases moves with
  | matched stacked unread isTerminal =>
    simp [advance, stacked, unread, isTerminal, Config.record]
  | expand stacked unread nonTerminal cell fresh defined =>
    rw [repeats_iff] at fresh
    simp [advance, stacked, unread, nonTerminal, cell, fresh, defined, Config.record]

theorem Stops.advance_eq (stops : Stops table g config recorded verdict) :
    advance table g config = .stop recorded verdict := by
  cases stops with
  | accept stacked one => simp [advance, stacked, one, Config.record]
  | leftover stacked more => simp [advance, stacked, more, Config.record]
  | exhausted stacked ended => simp [advance, stacked, ended, Config.record]
  | mismatch stacked unread isTerminal different =>
    simp [advance, stacked, unread, isTerminal, different, Config.record]
  | noEntry stacked unread nonTerminal cell =>
    simp [advance, stacked, unread, nonTerminal, cell, Config.record]
  | cycle stacked unread nonTerminal cell again =>
    rw [repeats_iff] at again
    simp [advance, stacked, unread, nonTerminal, cell, again, Config.record]
  | undefined stacked unread nonTerminal cell fresh missing =>
    rw [repeats_iff] at fresh
    simp [advance, stacked, unread, nonTerminal, cell, fresh, missing]

theorem moves_or_stops (table : PredictiveTable) (g : Grammar) (config : Config) :
    (∃ step next, Moves table g config step next) ∨
      ∃ recorded verdict, Stops table g config recorded verdict := by
  cases stacked : config.stack with
  | nil =>
    by_cases one : config.rest.length = 1
    · exact Or.inr ⟨_, _, .accept stacked one⟩
    · exact Or.inr ⟨_, _, .leftover stacked one⟩
  | cons top below =>
    cases unread : config.rest with
    | nil => exact Or.inr ⟨_, _, .exhausted stacked unread⟩
    | cons current later =>
      by_cases isTerminal : g.isTerminal top
      · by_cases same : top = current
        · exact Or.inl ⟨_, _, .matched stacked (same ▸ unread) isTerminal⟩
        · exact Or.inr ⟨_, _, .mismatch stacked unread isTerminal same⟩
      · cases cell : table.rule? top current with
        | none => exact Or.inr ⟨_, _, .noEntry stacked unread isTerminal cell⟩
        | some number =>
          by_cases again : config.Repeats top
          · exact Or.inr ⟨_, _, .cycle stacked unread isTerminal cell again⟩
          · cases defined : g.rule? number with
            | none => exact Or.inr ⟨_, _, .undefined stacked unread isTerminal cell again defined⟩
            | some rule => exact Or.inl ⟨_, _, .expand stacked unread isTerminal cell again defined⟩

theorem advance_eq_go : advance table g config = .go step next ↔ Moves table g config step next := by
  refine ⟨fun moved => ?_, Moves.advance_eq⟩
  rcases moves_or_stops table g config with ⟨step', next', moves⟩ | ⟨recorded, verdict, stops⟩
  · obtain ⟨rfl, rfl⟩ := Progress.go.inj (moved.symm.trans moves.advance_eq)
    exact moves
  · exact absurd (moved.symm.trans stops.advance_eq) (by simp)

theorem advance_eq_stop :
    advance table g config = .stop recorded verdict ↔ Stops table g config recorded verdict := by
  refine ⟨fun stopped => ?_, Stops.advance_eq⟩
  rcases moves_or_stops table g config with ⟨step', next', moves⟩ | ⟨recorded', verdict', stops⟩
  · exact absurd (stopped.symm.trans moves.advance_eq) (by simp)
  · obtain ⟨rfl, rfl⟩ := Progress.stop.inj (stopped.symm.trans stops.advance_eq)
    exact stops

theorem trace_of_error {tokens : List String} {reason : Rejection}
    (resolved : g.resolve tokens = .error reason) : trace table g tokens = .unresolved reason := by
  rw [trace, resolved]

theorem trace_of_ok {tokens : List String} {input : List Nat} (resolved : g.resolve tokens = .ok input) :
    trace table g tokens = ⟨input, ((machine table g).run (.initial g input)).steps,
      ((machine table g).run (.initial g input)).verdict⟩ := by
  rw [trace, resolved]

end ParseTables.Predictive
