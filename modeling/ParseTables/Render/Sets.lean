import ParseTables.Lookahead.Follow
import ParseTables.Render.Production

namespace ParseTables

/-- The names of symbols in ascending order. -/
def Grammar.sortedNames? (g : Grammar) (symbols : List Nat) : Option (List String) :=
  (g.namesOf? symbols).map fun names => names.mergeSort fun a b => a ≤ b

namespace Render

open Text (Json)

/-- The row of a non-terminal. The empty word stands last in First if it belongs there. -/
structure SetsRow where
  name : String
  nullable : Bool
  first : List String
  follow : List String

namespace SetsRow

def of? (g : Grammar) (first : FirstSets) (follow : FollowSets) (nonTerminal : Nat) :
    Option SetsRow := do
  let begins := (first.get? nonTerminal).getD .nothing
  let after := (follow.get? nonTerminal).getD ∅
  let name ← g.name? nonTerminal
  let firstNames ← g.sortedNames? begins.terminals.toList
  let followNames ← g.sortedNames? after.toList
  return ⟨name, begins.nullable, firstNames ++ if begins.nullable then [emptyWord] else [], followNames⟩

/-- The four parts between bars. -/
def plain (row : SetsRow) : String :=
  row.name ++ " | " ++ toString row.nullable ++ " | " ++ ", ".intercalate row.first ++ " | " ++
    ", ".intercalate row.follow

/-- Every letter `ε` of a text replaced by the symbol for the empty string. -/
def latexEmptyWords (text : String) : String :=
  String.ofList (text.toList.flatMap fun c => if c = 'ε' then "$\\epsilon$".toList else [c])

/-- The entries of a set with forced blanks between them. -/
def latexEntries [Text.TeX] (entries : List String) : String :=
  latexEmptyWords ("\\ ".intercalate (entries.map Text.TeX.escape))

def latex [Text.TeX] (row : SetsRow) : String :=
  Text.TeX.escape row.name ++ " & " ++ toString row.nullable ++ " & " ++ latexEntries row.first ++
    " & " ++ latexEntries row.follow

def json (row : SetsRow) : Json :=
  .object [("name", .text row.name), ("nullable", .bool row.nullable), ("first", .texts row.first),
    ("follow", .texts row.follow)]

end SetsRow

structure SetsTable where
  rows : List SetsRow

namespace SetsTable

def of? (g : Grammar) (first : FirstSets) (follow : FollowSets) : Option SetsTable := do
  return ⟨← g.nonTerminals.mapM (SetsRow.of? g first follow)⟩

def plain (table : SetsTable) : String := "\n".intercalate (table.rows.map SetsRow.plain)

def latex [Text.TeX] (table : SetsTable) : String :=
  "\\begin\x7btabular\x7d\x7bc|c|c|c\x7d\nSymbol & Nullable & First & Follow\\\\\\hline\n" ++
    "\\\\\n ".intercalate (table.rows.map SetsRow.latex) ++ "\\\\\n\\end\x7btabular\x7d"

def json (table : SetsTable) : Json := .object [("data", .list (table.rows.map SetsRow.json))]

end SetsTable

end ParseTables.Render
