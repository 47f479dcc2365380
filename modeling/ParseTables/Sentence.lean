import ParseTables.Rejection
import ParseTables.Text.Split

namespace ParseTables

/-- Cuts a text into tokens: its words when there are blanks between its ends, and otherwise its
single characters. -/
def splitInput (text : String) : List String :=
  let inner := Text.trimChars text.toList
  if inner.any Text.isBlank then (Text.wordsOfChars inner).map String.ofList
  else inner.map Char.toString

namespace Grammar

def terminal? (g : Grammar) (token : String) : Option Nat :=
  (g.index? token).filter g.isTerminal

/-- A string of terminals that ends with the end mark, which is added unless it is there. -/
def closeInput (g : Grammar) (terminals : List Nat) : List Nat :=
  if terminals.getLast? = some g.endMark then terminals else terminals ++ [g.endMark]

/-- The terminals of the tokens with the end mark after them. The first token that is no terminal is
the reason for a rejection. -/
def resolve (g : Grammar) (tokens : List String) : Except Rejection (List Nat) := do
  let terminals ← tokens.mapM fun token =>
    match g.terminal? token with
    | some terminal => .ok terminal
    | none => .error (.unknownSymbol token)
  return g.closeInput terminals

end Grammar

end ParseTables
