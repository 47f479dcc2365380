import ParseTables.Predictive.Table
import ParseTables.Render.Production

namespace ParseTables

open Render

/-- A conflict in words, with the two rules written out. -/
def PredictiveConflict.text? (g : Grammar) (conflict : PredictiveConflict) : Option String := do
  return "conflict at [" ++ (← g.name? conflict.nonTerminal) ++ ", " ++
    (← g.name? conflict.terminal) ++ "]: " ++ (← g.ruleText? conflict.previous) ++ " replaced by " ++
    (← g.ruleText? conflict.chosen)

namespace Render

open Text (Json)

/-- The row of a non-terminal. A cell without a rule is a production without alternatives. -/
structure PredictiveRow where
  name : String
  cells : List Production

/-- The LL(1) table written out: a row for each non-terminal, a column for each terminal, and the
conflicts. -/
structure PredictiveGrid where
  terminals : List String
  rows : List PredictiveRow
  conflicts : List String

def predictiveCell? (g : Grammar) (table : PredictiveTable) (name : String)
    (nonTerminal terminal : Nat) : Option Production :=
  match table.rule? nonTerminal terminal with
  | none => some ⟨name, []⟩
  | some number => do
    return ⟨name, [← g.bodyNames? (← g.rule? number).body]⟩

namespace PredictiveGrid

def of? (g : Grammar) (table : PredictiveTable) : Option PredictiveGrid := do
  let terminals ← g.namesOf? g.terminals
  let rows ← g.nonTerminals.mapM fun nonTerminal => do
    let name ← g.name? nonTerminal
    return ⟨name, ← g.terminals.mapM (predictiveCell? g table name nonTerminal)⟩
  return ⟨terminals, rows, ← table.conflicts.toList.mapM (PredictiveConflict.text? g)⟩

/-- The lines of cells. In each the head is padded to the length of its own encoding. -/
def cellTexts? (grid : PredictiveGrid) : Option (List (List String)) := do
  let rows ← grid.rows.mapM fun row => do
    return row.name :: (← row.cells.mapM fun cell => cell.plain? row.name.utf8ByteSize false)
  return ("" :: grid.terminals) :: rows

/-- Aligned columns, with a line for each conflict after them. -/
def plain? (grid : PredictiveGrid) : Option String := do
  let aligned ← Text.alignColumns? (← grid.cellTexts?)
  return "\n".intercalate (aligned :: grid.conflicts)

def latex [Text.TeX] (grid : PredictiveGrid) : String :=
  let columns := String.join (grid.terminals.map fun _ => "|l")
  let header := " & ".intercalate
    (("\\[\\begin\x7barray\x7d\x7bc" ++ columns ++ "\x7d\n") ::
      grid.terminals.map fun name => Text.TeX.command "text" (Text.TeX.escape name))
  let lines := grid.rows.map fun row =>
    " & ".intercalate
      (Text.TeX.escape row.name :: row.cells.map fun cell => cell.latex false grid.terminals)
  header ++ "\\\\\\hline\n" ++ "\\\\\n".intercalate lines ++ "\n\\end\x7barray\x7d\\]"

/-- An object of the names of the columns, the rows and the conflicts. -/
def json (grid : PredictiveGrid) : Json :=
  .object [
    ("terminals", .texts grid.terminals),
    ("rows", .list (grid.rows.map fun row =>
      .list [.text row.name, .list (row.cells.map Production.json)])),
    ("conflicts", .texts grid.conflicts)]

end PredictiveGrid

end ParseTables.Render
