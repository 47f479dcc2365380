import ParseTables.Grammar.Draft

namespace ParseTables

/-- The head and the alternatives of a line that is not blank, given the head of the rule before. -/
def readLine (previous : Option String) (line : List Char) :
    Except RuleFault (String × List String) :=
  match Text.splitArrows line with
  | [left, right] => do
    let head ← leftSideWord (String.ofList left)
    return (head, (right.splitOn '|').map String.ofList)
  | [whole] =>
    match Text.trimChars whole, previous with
    | '|' :: alternatives, some head => .ok (head, (alternatives.splitOn '|').map String.ofList)
    | '|' :: _, none => .error .noRuleToContinue
    | _, _ => .error .missingArrow
  | _ => .error .tooManyArrows

/-- Reads numbered lines after a rule for `previous`. -/
def readLines (previous : Option String) : List (String × Nat) → Except GrammarError (List RuleEntry)
  | [] => .ok []
  | (line, number) :: rest =>
    if Text.isBlankText line then readLines previous rest
    else
      match readLine previous line.toList with
      | .error fault => .error (.malformedRule number fault)
      | .ok (head, alternatives) => do
        let later ← readLines (some head) rest
        return alternatives.map (fun body => ⟨number, head, body⟩) ++ later

/-- Reads a grammar from text. A line holds a head, an arrow and alternatives between bars; a line that
begins with a bar adds alternatives to the rule before it; blank lines do not count. The head of the
first rule is the start symbol. -/
def Grammar.ofText (text : String) : Except GrammarError Grammar := do
  let entries ← readLines none ((Text.lines text).zipIdx 1)
  Grammar.ofEntries entries none

end ParseTables
