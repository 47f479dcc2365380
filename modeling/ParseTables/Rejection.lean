import ParseTables.Grammar.Basic

namespace ParseTables

/-- Why a driver rejected its input. Symbols stand by their numbers, and `message?` names them in a
grammar. -/
inductive Rejection where
  | unknownSymbol (token : String)
  | mismatch (expected found : Nat)
  | inputExhausted (expected : Nat)
  | noEntry (nonTerminal terminal : Nat)
  | leftoverInput (rest : List Nat)
  | noAction (state terminal : Nat)
  | noGoto (state nonTerminal : Nat)
  /-- A non-terminal would be expanded again before any input is matched. -/
  | expansionCycle (nonTerminal terminal : Nat)
  /-- A reduction would be made again before any input is shifted. -/
  | reductionCycle (state terminal : Nat)
  /-- A reduction would remove the bottom of the stack. -/
  | stackUnderflow (rule : Nat)
deriving DecidableEq

def Rejection.message? (g : Grammar) : Rejection → Option String
  | unknownSymbol token => some ("'" ++ token ++ "' is not a terminal of the grammar")
  | mismatch expected found => do
    return "expected '" ++ (← g.name? expected) ++ "', found '" ++ (← g.name? found) ++ "'"
  | inputExhausted expected => do
    return "input exhausted while expecting '" ++ (← g.name? expected) ++ "'"
  | noEntry nonTerminal terminal => do
    return "no rule for [" ++ (← g.name? nonTerminal) ++ ", " ++ (← g.name? terminal) ++ "]"
  | leftoverInput rest => do
    return "input left over after the derivation finished: " ++
      " ".intercalate (← g.namesOf? rest)
  | noAction state terminal => do
    return "no action in state " ++ toString state ++ " on '" ++ (← g.name? terminal) ++ "'"
  | noGoto state nonTerminal => do
    return "no goto from state " ++ toString state ++ " on '" ++ (← g.name? nonTerminal) ++ "'"
  | expansionCycle nonTerminal terminal => do
    return "'" ++ (← g.name? nonTerminal) ++ "' derives itself on '" ++ (← g.name? terminal) ++
      "' without consuming input"
  | reductionCycle state terminal => do
    return "reductions in state " ++ toString state ++ " on '" ++ (← g.name? terminal) ++
      "' never reach a shift"
  | stackUnderflow rule =>
    some ("reducing by rule " ++ toString rule ++ " pops more states than the stack holds")

end ParseTables
