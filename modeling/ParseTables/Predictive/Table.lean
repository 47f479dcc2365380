import ParseTables.Lookahead.Follow
import Std.Data.TreeMap

namespace ParseTables

/-- A cell of an LL(1) table, by its row and its column. -/
structure PredictiveCell where
  nonTerminal : Nat
  terminal : Nat
deriving DecidableEq

namespace PredictiveCell

/-- Cells are ordered row by row. -/
instance : Ord PredictiveCell := ⟨compareLex (compareOn nonTerminal) (compareOn terminal)⟩

instance : Std.TransOrd PredictiveCell :=
  inferInstanceAs (Std.TransCmp (compareLex (compareOn nonTerminal) (compareOn terminal)))

instance : Std.LawfulEqOrd PredictiveCell where
  compare_self := @fun cell =>
    @Std.ReflCmp.compare_self _ (compareLex (compareOn nonTerminal) (compareOn terminal)) _ cell
  eq_of_compare := @fun a b same => by
    obtain ⟨rows, columns⟩ := Ordering.then_eq_eq.mp same
    cases a
    cases b
    exact congr (congrArg mk (Std.LawfulEqOrd.eq_of_compare rows))
      (Std.LawfulEqOrd.eq_of_compare columns)

end PredictiveCell

/-- Two rules with different bodies for one cell, of which the later one was chosen. -/
structure PredictiveConflict where
  nonTerminal : Nat
  terminal : Nat
  previous : Nat
  chosen : Nat
deriving DecidableEq

/-- An LL(1) table with the conflicts that arose while it was filled, in order. -/
structure PredictiveTable where
  /-- The rules in the filled cells. -/
  cells : Std.TreeMap PredictiveCell Nat
  conflicts : Array PredictiveConflict

namespace PredictiveTable

def empty : PredictiveTable := ⟨∅, #[]⟩

def rule? (table : PredictiveTable) (nonTerminal terminal : Nat) : Option Nat :=
  table.cells[(⟨nonTerminal, terminal⟩ : PredictiveCell)]?

def hasConflict (table : PredictiveTable) : Bool := !table.conflicts.isEmpty

/-- Puts a rule into a cell. It takes the place of an earlier one there, and a conflict is recorded if
the two have different bodies. -/
def enter (table : PredictiveTable) (g : Grammar) (cell : PredictiveCell) (rule : Nat) :
    PredictiveTable :=
  let previous := table.cells[cell]?
  let cells := table.cells.insert cell rule
  match previous with
  | none => { table with cells }
  | some previous =>
    if (g.rule? previous).map Rule.body = (g.rule? rule).map Rule.body then { table with cells }
    else ⟨cells, table.conflicts.push ⟨cell.nonTerminal, cell.terminal, previous, rule⟩⟩

end PredictiveTable

namespace Grammar

/-- The terminals on which a rule is entered: those that begin its body, and, if the body can vanish,
those that follow its head after them. -/
def predictors (g : Grammar) (first : FirstSets) (follow : FollowSets) (rule : Rule) : List Nat :=
  let body := first.ofSequence g rule.body
  body.terminals.toList ++
    if body.nullable then ((follow.get? rule.head).getD ∅).toList else []

/-- The cells with their rules in the order in which they are filled. -/
def predictions (g : Grammar) (first : FirstSets) (follow : FollowSets) :
    List (PredictiveCell × Nat) :=
  g.numberedRules.flatMap fun (rule, number) =>
    (g.predictors first follow rule).map fun terminal => (⟨rule.head, terminal⟩, number)

/-- The LL(1) table: the rule by which a non-terminal is expanded, by the terminal that comes next.
Rules are entered in order. -/
def predictiveTable (g : Grammar) (first : FirstSets) (follow : FollowSets) : PredictiveTable :=
  (g.predictions first follow).foldl (fun table (cell, rule) => table.enter g cell rule) .empty

end Grammar

end ParseTables
