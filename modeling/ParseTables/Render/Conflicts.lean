import ParseTables.Render.Production
import ParseTables.ShiftReduce.Conflict

namespace ParseTables

/-- A conflict in words, with its rules written out. -/
def SLRConflict.text? (g : Grammar) : SLRConflict → Option String
  | shiftReduce state terminal rule => do
    return "shift-reduce conflict in state " ++ toString state ++ " on " ++ (← g.name? terminal) ++
      ": shift or reduce " ++ (← g.ruleText? rule)
  | reduceReduce state rules => do
    return "reduce-reduce conflict in state " ++ toString state ++ ": " ++
      " / ".intercalate (← rules.mapM g.ruleText?)

namespace Render

open Text (Json)

/-- The conflicts in words. -/
structure ConflictReport where
  conflicts : List String

namespace ConflictReport

def of? (g : Grammar) (conflicts : List SLRConflict) : Option ConflictReport := do
  return ⟨← conflicts.mapM (SLRConflict.text? g)⟩

def isClean (report : ConflictReport) : Bool := report.conflicts.isEmpty

def verdict (report : ConflictReport) : String := "SLR(1): " ++ toString report.isClean

def plain (report : ConflictReport) : String :=
  "\n".intercalate (report.verdict :: report.conflicts)

/-- The same lines with line breaks of TeX. -/
def latex [Text.TeX] (report : ConflictReport) : String :=
  "\\\\\n".intercalate (report.verdict :: report.conflicts.map Text.TeX.escape)

/-- An object of the verdict and the conflicts. -/
def json (report : ConflictReport) : Json :=
  .object [("slr1", .bool report.isClean), ("conflicts", .texts report.conflicts)]

end ConflictReport

end ParseTables.Render
