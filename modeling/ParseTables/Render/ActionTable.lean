import ParseTables.Render.Production
import ParseTables.ShiftReduce.Table

namespace ParseTables.Render

open Text (Json)

/-- An action with its production written out. -/
inductive Action where
  | shift (state : Nat)
  | reduce (production : Production)
  | accept

namespace Action

def of? (g : Grammar) : LRAction → Option Action
  | .shift state => some (shift state)
  | .reduce rule => (g.production? rule).map reduce
  | .accept => some accept

def plain : Action → String
  | shift state => "s" ++ toString state
  | reduce production => "r(" ++ production.line ++ ")"
  | accept => "acc"

def latex [Text.TeX] (terminals : List String) : Action → String
  | shift state => "shift " ++ toString state
  | reduce production => "reduce $" ++ production.latex false terminals ++ "$"
  | accept => "accept"

/-- An object of the kind of action and its subject, or just the kind. -/
def json : Action → Json
  | shift state => .object [("Shift", .number state)]
  | reduce production => .object [("Reduce", production.json)]
  | accept => .text "Accept"

end Action

structure ActionRow where
  actions : List (List Action)
  targets : List (Option Nat)

/-- The SLR(1) table written out: a row for each state, with columns for the terminals and the
non-terminals. -/
structure ActionGrid where
  terminals : List String
  nonTerminals : List String
  rows : List ActionRow

namespace ActionGrid

def of? (g : Grammar) (table : ActionTable) : Option ActionGrid := do
  let terminals ← g.namesOf? table.terminals
  let nonTerminals ← g.namesOf? table.nonTerminals
  let actions ← table.action.mapM fun row => row.mapM fun cell => cell.mapM (Action.of? g)
  return ⟨terminals, nonTerminals, List.zipWith ActionRow.mk actions table.goto⟩

def targetText : Option Nat → String
  | some target => toString target
  | none => ""

def plain? (grid : ActionGrid) : Option String :=
  Text.alignColumns?
    (("" :: grid.terminals ++ grid.nonTerminals) ::
      grid.rows.zipIdx.map fun (row, number) =>
        toString number :: row.actions.map (fun cell => "; ".intercalate (cell.map Action.plain)) ++
          row.targets.map targetText)

/-- A cell in TeX, in red if it holds several actions. -/
def latexCell [Text.TeX] (terminals : List String) (cell : List Action) : String :=
  let actions := "; ".intercalate (cell.map (Action.latex terminals))
  if 1 < cell.length then "\x7b\\color\x7bred\x7d" ++ actions ++ "\x7d" else actions

def latexRow [Text.TeX] (grid : ActionGrid) (row : ActionRow) (number : Nat) : String :=
  " & ".intercalate
    (toString number :: row.actions.map (latexCell grid.terminals) ++ row.targets.map targetText)

/-- A table with a header of two lines. -/
def latex [Text.TeX] (grid : ActionGrid) : String :=
  let names := grid.terminals ++ grid.nonTerminals
  let columns := String.join (names.map fun _ => "|l")
  let span (count : Nat) (style title : String) : String :=
    "\\multicolumn\x7b" ++ toString count ++ "\x7d\x7b" ++ style ++ "\x7d\x7b" ++ title ++ "\x7d"
  "\\begin\x7btabular\x7d\x7bc" ++ columns ++ "\x7d\n & " ++
    span grid.terminals.length "c" "action" ++ " & " ++
    span grid.nonTerminals.length "|c" "goto" ++ "\\\\\n" ++
    " & ".intercalate ("" :: names.map Text.TeX.escape) ++ " \\\\\\hline\n" ++
    " \\\\\n".intercalate (grid.rows.zipIdx.map fun (row, number) => grid.latexRow row number) ++
    "\n\\end\x7btabular\x7d"

/-- An object of the names of the columns and the rows of both halves. -/
def json (grid : ActionGrid) : Json :=
  .object [
    ("terminals", .texts grid.terminals),
    ("non_terminals", .texts grid.nonTerminals),
    ("action", .list (grid.rows.map fun row =>
      .list (row.actions.map fun cell => .list (cell.map Action.json)))),
    ("goto", .list (grid.rows.map fun row =>
      .list (row.targets.map fun target => (target.map Json.number).getD .null)))]

end ActionGrid

end ParseTables.Render
