import ParseTables.Predictive.Driver
import ParseTables.ShiftReduce.Driver

namespace ParseTables

inductive ParserKind where
  | predictive
  | shiftReduce
deriving DecidableEq

/-- The class of grammars that a parser is made for. -/
def ParserKind.grammarClass : ParserKind → String
  | predictive => "LL1"
  | shiftReduce => "SLR1"

/-- Whether the grammar has no SLR(1) conflict when every state with several reductions counts. -/
def Grammar.isSLR (g : Grammar) (follow : FollowSets) : Bool :=
  (g.automaton.conflicts g follow .anyMultiple).isEmpty

/-- A grammar with everything that is derived from it. -/
structure Analysis where
  grammar : Grammar
  first : FirstSets
  follow : FollowSets
  predictive : PredictiveTable
  automaton : Automaton
  /-- The SLR(1) conflicts under the policy of the analysis. -/
  conflicts : List SLRConflict
  actions : ActionTable

namespace Analysis

def ofGrammar (g : Grammar) (policy : ReducePolicy) : Analysis :=
  let first := g.firstSets
  let follow := g.followSets first
  let automaton := g.automaton
  { grammar := g
    first
    follow
    predictive := g.predictiveTable first follow
    automaton
    conflicts := automaton.conflicts g follow policy
    actions := automaton.actionTable g follow }

/-- Whether the LL(1) table is free of conflicts. -/
def isLL (a : Analysis) : Bool := !a.predictive.hasConflict

/-- Whether the grammar has no SLR(1) conflict. -/
def isSLR (a : Analysis) : Bool := a.conflicts.isEmpty

/-- The predictive parser for an LL(1) grammar, and otherwise the shift-reduce parser for an SLR(1)
grammar. -/
def preferred? (a : Analysis) : Option ParserKind :=
  if a.isLL then some .predictive else if a.isSLR then some .shiftReduce else none

/-- Runs a parser of the grammar on tokens. -/
def parse (a : Analysis) (kind : ParserKind) (tokens : List String) : Driver.Verdict :=
  match kind with
  | .predictive => (Predictive.trace a.predictive a.grammar tokens).verdict
  | .shiftReduce => (ShiftReduce.trace a.actions a.grammar tokens).verdict

end Analysis

end ParseTables
