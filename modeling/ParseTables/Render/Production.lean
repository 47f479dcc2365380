import ParseTables.Grammar.Basic
import ParseTables.Text.Columns
import ParseTables.Text.Json
import ParseTables.Text.TeX

namespace ParseTables.Render

open Text (Json)

/-- The name of a head and the names in each of its alternatives. -/
structure Production where
  left : String
  rights : List (List String)

namespace Production

/-- One alternative after another, on lines of their own or all on one line. The head is padded to a
width, and bars on later lines stand below the arrow. -/
def layout (production : Production) (width : Nat) (multiline : Bool) : String :=
  match production.rights with
  | [] => ""
  | first :: others =>
    let opening := Text.padLeft width production.left ++ " -> " ++ " ".intercalate first
    let bar := if multiline then Text.padLeft width "" ++ "  | " else " | "
    (if multiline then "\n" else "").intercalate
      (opening :: others.map fun right => bar ++ " ".intercalate right)

/-- The layout for a width, unless there is something to pad and no field can be that wide. -/
def plain? (production : Production) (width : Nat) (multiline : Bool) : Option String :=
  if production.rights = [] ∨ width ≤ Text.widestField then some (production.layout width multiline)
  else none

def line (production : Production) : String := production.layout 0 false

/-- A symbol in TeX. Terminals stand in upright type. -/
def latexSymbol [Text.TeX] (terminals : List String) (name : String) : String :=
  if name = emptyWord then "\\epsilon"
  else if name ∈ terminals then Text.TeX.command "text" (Text.TeX.escape name)
  else Text.TeX.escape name

/-- A formula, with its arrow in a column of its own or not. -/
def latex [Text.TeX] (production : Production) (aligned : Bool) (terminals : List String) : String :=
  match production.rights with
  | [] => ""
  | rights =>
    Text.TeX.escape production.left ++ (if aligned then " & \\rightarrow &" else " \\rightarrow ") ++
      " \\mid ".intercalate
        (rights.map fun right => " \\ ".intercalate (right.map (latexSymbol terminals)))

def json (production : Production) : Json :=
  .object [("left", .text production.left), ("rights", .list (production.rights.map .texts))]

end Production

end Render

open Render

namespace Grammar

/-- The names in a body. The empty string is shown as one word. -/
def bodyNames? (g : Grammar) (body : List Nat) : Option (List String) :=
  if body = [] then some [emptyWord] else g.namesOf? body

/-- The production of a single rule. -/
def production? (g : Grammar) (number : Nat) : Option Production := do
  let rule ← g.rule? number
  return ⟨← g.name? rule.head, [← g.bodyNames? rule.body]⟩

def ruleText? (g : Grammar) (number : Nat) : Option String :=
  (g.production? number).map Production.line

def productionsOf? (g : Grammar) (nonTerminal : Nat) : Option Production := do
  let rights ← (g.productions nonTerminal).mapM fun number => do
    g.bodyNames? (← g.rule? number).body
  return ⟨← g.name? nonTerminal, rights⟩

end Grammar

namespace Render

open Text (Json)

/-- The productions of all non-terminals, together with the names of the terminals. -/
structure Listing where
  productions : List Production
  terminals : List String

namespace Listing

def ofGrammar? (g : Grammar) : Option Listing := do
  return ⟨← g.nonTerminals.mapM g.productionsOf?, ← g.namesOf? g.terminals⟩

/-- Every alternative on a line of its own, with the arrows below each other. -/
def plain? (listing : Listing) : Option String := do
  let width := Text.widest (listing.productions.map fun production => production.left.length)
  return "\n".intercalate
    (← listing.productions.mapM fun production => production.plain? width true)

def latex [Text.TeX] (listing : Listing) : String :=
  "\\\\\n".intercalate
    (["\\[\\begin\x7barray\x7d\x7bcll\x7d"] ++
      listing.productions.map (fun production => production.latex true listing.terminals) ++
      ["\\end\x7barray\x7d\\]"])

def json (listing : Listing) : Json :=
  .object [("productions", .list (listing.productions.map Production.json))]

end Listing

end ParseTables.Render
