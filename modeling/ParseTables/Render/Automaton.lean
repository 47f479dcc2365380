import ParseTables.Automaton
import ParseTables.Render.Item
import ParseTables.Text.Json

namespace ParseTables.Render

open Text (Json)

/-- A state with its items and symbols written out. -/
structure StateBox where
  kernel : List String
  extension : List String
  edges : List (String × Nat)
  /-- All items as formulas. -/
  formulas : List String

namespace StateBox

def of? [Text.TeX] (g : Grammar) (state : LRState) : Option StateBox := do
  let kernel ← state.kernel.toList.mapM (Item.text? g)
  let extension ← state.extension.mapM (Item.text? g)
  let edges ← state.edges.mapM fun edge => do return (← g.name? edge.symbol, edge.target)
  return ⟨kernel, extension, edges, ← state.items.toList.mapM (Item.latex? g)⟩

/-- The kernel, the other items below a rule, and the edges below another one. -/
def plain (box : StateBox) : String :=
  let added := if box.extension = [] then "" else "\n---\n" ++ "\n".intercalate box.extension
  let arrows := if box.edges = [] then "" else
    "\n===\n" ++ "\n".intercalate
      (box.edges.map fun (name, target) => "- " ++ name ++ " -> " ++ toString target)
  "\n".intercalate box.kernel ++ added ++ arrows

/-- Where the node of a state is drawn: even numbers in one column, odd numbers beside them. -/
def placement : Nat → String
  | 0 => ""
  | n + 1 =>
    if n % 2 = 1 then " [below of = I_" ++ toString (n - 1) ++ "] "
    else " [right of = I_" ++ toString n ++ "] "

def node (box : StateBox) (number : Nat) : String :=
  let name := "I_" ++ toString number
  "\\node [block] (" ++ name ++ ")" ++ placement number ++ "\n\x7b\n$" ++ name ++ "$\\\\\n" ++
    " \\\\ \n".intercalate box.formulas ++ "\n\x7d;"

def arrow [Text.TeX] (number : Nat) (name : String) (target : Nat) : String :=
  "\\path [->] (I_" ++ toString number ++ ") edge " ++
    (if number = target then "[loop left]" else "[right]") ++ " node [above]\x7b" ++
    Text.TeX.escape name ++ "\x7d (I_" ++ toString target ++ ");"

def arrows [Text.TeX] (box : StateBox) (number : Nat) : String :=
  "\n".intercalate (box.edges.map fun (name, target) => arrow number name target)

/-- An object of the items in plain text and the edges. -/
def json (box : StateBox) : Json :=
  .object [
    ("kernel", .texts box.kernel),
    ("extend", .texts box.extension),
    ("edges", .list (box.edges.map fun (name, target) => .list [.text name, .number target]))]

end StateBox

structure Diagram where
  boxes : List StateBox

namespace Diagram

def of? [Text.TeX] (g : Grammar) (automaton : Automaton) : Option Diagram := do
  return ⟨← automaton.states.mapM (StateBox.of? g)⟩

def plain (diagram : Diagram) : String :=
  "\n\n".intercalate (diagram.boxes.zipIdx.map fun (box, number) =>
    "I" ++ toString number ++ "\n" ++ box.plain) ++ "\n\nstart: 0"

/-- A picture: all nodes, then all arrows. -/
def latex [Text.TeX] (diagram : Diagram) : String :=
  let numbered := diagram.boxes.zipIdx
  "\\begin\x7btikzpicture\x7d[node distance=5cm,block/.style=\x7bstate, rectangle, text width=6em\x7d]\n" ++
    "\n".intercalate
      ((numbered.map fun (box, number) => box.node number) ++
        numbered.map fun (box, number) => box.arrows number) ++
    "\n\\end\x7btikzpicture\x7d"

/-- An object of the states and the number of the first. -/
def json (diagram : Diagram) : Json :=
  .object [("states", .list (diagram.boxes.map StateBox.json)), ("start", .number 0)]

end Diagram

end ParseTables.Render
