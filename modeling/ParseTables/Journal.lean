import ParseTables.Analysis
import ParseTables.Text.Quoted

namespace ParseTables.Journal

inductive Level where
  | warn
  | info
  | debug
  | trace
deriving DecidableEq

/-- An entry of the journal of an analysis or of runs of its parsers. -/
structure Entry where
  level : Level
  message : String

/-- The warning about a conflict in the LL(1) table. -/
def predictiveWarning? (g : Grammar) (conflict : PredictiveConflict) : Option Entry := do
  let nonTerminal ← g.name? conflict.nonTerminal
  let terminal ← g.name? conflict.terminal
  return ⟨.warn, "LL(1) conflict at [" ++ nonTerminal ++ ", " ++ terminal ++ "]: rule " ++
    toString conflict.previous ++ " replaced by rule " ++ toString conflict.chosen⟩

/-- The warning about an SLR(1) conflict. -/
def conflictWarning? (g : Grammar) : SLRConflict → Option Entry
  | .shiftReduce state terminal rule => do
    let name ← g.name? terminal
    return ⟨.warn, "shift-reduce conflict in state " ++ toString state ++ " on '" ++ name ++
      "' with rule " ++ toString rule⟩
  | .reduceReduce state rules =>
    some ⟨.warn, "reduce-reduce conflict in state " ++ toString state ++ " between rules " ++
      Text.bracketed (rules.map toString)⟩

/-- What an analysis notes about itself: the passes made for the First sets, the conflicts, the number
of states, and the classes of the grammar. -/
def ofAnalysis? (a : Analysis) : Option (List Entry) := do
  let negation (holds : Bool) : String := if holds then "" else "not "
  let passes : Entry := ⟨.debug,
    "first sets converged after " ++ toString a.grammar.firstPasses.2 ++ " passes"⟩
  let predictive ← a.predictive.conflicts.toList.mapM (predictiveWarning? a.grammar)
  let states : Entry := ⟨.debug,
    "LR(0) automaton has " ++ toString a.automaton.states.length ++ " states"⟩
  let conflicts ← a.conflicts.mapM (conflictWarning? a.grammar)
  let classes : Entry := ⟨.info, "grammar is " ++ negation a.isLL ++ "LL(1) and " ++
    negation a.isSLR ++ "SLR(1)"⟩
  return passes :: predictive ++ states :: conflicts ++ [classes]

/-- Names between brackets. -/
def nameList? (g : Grammar) (symbols : List Nat) : Option String :=
  (g.namesOf? symbols).map fun names => Text.bracketed (names.map Text.quoted)

def predictiveAction : Predictive.Action → String
  | .matched terminal => "Match(" ++ toString terminal ++ ")"
  | .expand rule => "Expand(" ++ toString rule ++ ")"
  | .accept => "Accept"
  | .reject => "Reject"

def shiftReduceAction : Option LRAction → String
  | some (.shift state) => "Some(Shift(" ++ toString state ++ "))"
  | some (.reduce rule) => "Some(Reduce(" ++ toString rule ++ "))"
  | some .accept => "Some(Accept)"
  | none => "None"

def predictiveStep? (g : Grammar) (input : List Nat) (step : Predictive.Step) : Option Entry := do
  let stack ← nameList? g (step.symbols g)
  let rest ← nameList? g (input.drop step.position)
  return ⟨.trace, "stack: " ++ stack ++ ", input: " ++ rest ++ ", " ++ predictiveAction step.action⟩

def shiftReduceStep? (g : Grammar) (input : List Nat) (step : ShiftReduce.Step) : Option Entry := do
  let rest ← nameList? g (input.drop step.position)
  return ⟨.trace, "states: " ++ Text.bracketed (step.states.reverse.map toString) ++ ", input: " ++
    rest ++ ", " ++ shiftReduceAction step.action⟩

/-- The steps of both parsers on the same tokens, those of the predictive parser first. -/
def ofRuns? (a : Analysis) (tokens : List String) : Option (List Entry) := do
  let predictive := Predictive.trace a.predictive a.grammar tokens
  let shiftReduce := ShiftReduce.trace a.actions a.grammar tokens
  return (← predictive.steps.mapM (predictiveStep? a.grammar predictive.input)) ++
    (← shiftReduce.steps.mapM (shiftReduceStep? a.grammar shiftReduce.input))

end ParseTables.Journal
