import ParseTables.Item.Basic
import ParseTables.Text.TeX

namespace ParseTables

/-- Joins a dot to the front of the name at a position. At the end of the names it stands alone. -/
def dottedNames (names : List String) (position : Nat) : List String :=
  match names, position with
  | [], 0 => ["."]
  | name :: rest, 0 => ("." ++ name) :: rest
  | [], _ + 1 => []
  | name :: rest, position + 1 => name :: dottedNames rest position

/-- Puts a dot as an entry of its own before the name at a position or at the end. -/
def insertDot (names : List String) (position : Nat) : List String :=
  if position ≤ names.length then names.take position ++ "." :: names.drop position else names

namespace Item

/-- The item in plain text. A dot beyond the end of the body is not shown. -/
def text? (g : Grammar) (item : Item) : Option String := do
  let rule ← g.rule? item.rule
  let head ← g.name? rule.head
  let names ← g.namesOf? rule.body
  return head ++ " ->" ++
    String.join ((dottedNames names item.position).map fun name => " " ++ name)

def latex? [Text.TeX] (g : Grammar) (item : Item) : Option String := do
  let rule ← g.rule? item.rule
  let head ← g.name? rule.head
  let names ← g.namesOf? rule.body
  return "$" ++ Text.TeX.escape head ++ " \\rightarrow " ++
    " ".intercalate (insertDot (names.map Text.TeX.escape) item.position) ++ "$"

end Item

end ParseTables
