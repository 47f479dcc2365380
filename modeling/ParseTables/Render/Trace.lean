import ParseTables.Predictive.Driver
import ParseTables.Render.ActionTable
import ParseTables.ShiftReduce.Driver

namespace ParseTables

open Driver

/-- The verdict in words. There are none for a run that its table led astray. -/
def Driver.Verdict.text? (g : Grammar) : Verdict → Option String
  | accepted => some "accepted"
  | rejected reason => (reason.message? g).map fun message => "rejected: " ++ message
  | undefinedRule _ => none

/-- The lines of a trace, each as its three cells, and the verdict below them. -/
def Render.traceText? (stackTitle : String) (lines : List (List String)) (verdict : String) :
    Option String :=
  (Text.alignColumns? ([stackTitle, "input", "action"] :: lines)).map fun aligned =>
    aligned ++ "\n" ++ verdict

namespace Predictive

def Action.text? (g : Grammar) : Action → Option String
  | matched terminal => (g.name? terminal).map fun name => "match " ++ name
  | expand rule => g.ruleText? rule
  | accept => some "accept"
  | reject => some "error"

/-- The cells of a step. The stack is written from the bottom up. -/
def Step.cells? (g : Grammar) (input : List Nat) (step : Step) : Option (List String) := do
  let stack ← g.namesOf? (step.symbols g)
  let rest ← g.namesOf? (input.drop step.position)
  return [" ".intercalate stack, " ".intercalate rest, ← step.action.text? g]

def traceText? (g : Grammar) (trace : Trace Step) : Option String := do
  let lines ← trace.steps.mapM (Step.cells? g trace.input)
  Render.traceText? "stack" lines (← trace.verdict.text? g)

end Predictive

namespace ShiftReduce

/-- An action in words. An empty cell is an error. -/
def actionText? (g : Grammar) : Option LRAction → Option String
  | some action => (Render.Action.of? g action).map Render.Action.plain
  | none => some "error"

/-- The cells of a step. The states are written from the bottom up. -/
def Step.cells? (g : Grammar) (input : List Nat) (step : Step) : Option (List String) := do
  let rest ← g.namesOf? (input.drop step.position)
  return [" ".intercalate (step.states.reverse.map toString), " ".intercalate rest,
    ← actionText? g step.action]

def traceText? (g : Grammar) (trace : Trace Step) : Option String := do
  let lines ← trace.steps.mapM (Step.cells? g trace.input)
  Render.traceText? "states" lines (← trace.verdict.text? g)

end ShiftReduce

end ParseTables
