namespace ParseTables

/-- What is wrong with one rule or one line. -/
inductive RuleFault where
  | emptyLeftSide
  | blankInLeftSide
  | reservedLeftSide (name : String)
  | endMarkInBody
  | tooManyArrows
  | missingArrow
  | noRuleToContinue
deriving DecidableEq

def RuleFault.message : RuleFault → String
  | emptyLeftSide => "empty left side"
  | blankInLeftSide => "left side contains whitespace"
  | reservedLeftSide name => "'" ++ name ++ "' cannot be the left side of a rule"
  | endMarkInBody => "'$' is reserved for the end of input"
  | tooManyArrows => "too many \"->\""
  | missingArrow => "missing \"->\""
  | noRuleToContinue => "cannot find left side"

/-- Why a grammar was refused. -/
inductive GrammarError where
  /-- A faulty rule, by its line in a text or else by its position in the list, counted from one. -/
  | malformedRule (line : Nat) (fault : RuleFault)
  /-- A symbol that looks like a non-terminal, in a rule of `head`, but heads no rule. -/
  | undefinedSymbol (symbol head : String)
  /-- The designated start symbol heads no rule. -/
  | unknownStart (name : String)
  | empty
deriving DecidableEq

def GrammarError.message : GrammarError → String
  | malformedRule line fault => "line " ++ toString line ++ ": " ++ fault.message
  | undefinedSymbol symbol head =>
    "'" ++ symbol ++ "' appears in a production of '" ++ head ++ "' but no rule defines it"
  | unknownStart name => "start symbol '" ++ name ++ "' is not the left side of any rule"
  | empty => "the grammar has no rules"

end ParseTables
