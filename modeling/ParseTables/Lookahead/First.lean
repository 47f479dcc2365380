import ParseTables.Grammar.Basic
import ParseTables.Lookahead.ByNonTerminal
import ParseTables.Saturation
import ParseTables.SortedSet

namespace ParseTables

/-- The terminals that begin a string of symbols, and whether it derives the empty string. -/
structure FirstSet where
  terminals : SortedSet Nat
  nullable : Bool
deriving DecidableEq

namespace FirstSet

/-- Nothing is known to begin the string. -/
def nothing : FirstSet := ⟨∅, false⟩

/-- What either of two sets allows. -/
def merge (s t : FirstSet) : FirstSet := ⟨s.terminals ∪ t.terminals, s.nullable || t.nullable⟩

/-- The number of terminals, and one more if the empty string is allowed. -/
def size (s : FirstSet) : Nat := s.terminals.size + s.nullable.toNat

end FirstSet

/-- The First sets of the non-terminals of a grammar. -/
abbrev FirstSets := ByNonTerminal FirstSet

/-- First of a string of symbols. A symbol that is neither a terminal nor has a set ends the string
without anything to begin with. -/
def FirstSets.ofSequence (sets : FirstSets) (g : Grammar) : List Nat → FirstSet
  | [] => ⟨∅, true⟩
  | symbol :: rest =>
    if g.isTerminal symbol then ⟨.singleton symbol, false⟩
    else
      match sets.get? symbol with
      | none => .nothing
      | some first =>
        if first.nullable then
          let later := ofSequence sets g rest
          ⟨first.terminals ∪ later.terminals, later.nullable⟩
        else first

namespace Grammar

/-- Adds First of a rule's body to the set of its head. -/
def firstStep (g : Grammar) (sets : FirstSets) (rule : Rule) : FirstSets :=
  let first := sets.ofSequence g rule.body
  sets.update (·.merge first) rule.head

/-- One pass over all listed rules, each of which sees what those before it have added. -/
def firstPass (g : Grammar) (sets : FirstSets) : FirstSets :=
  g.listed.foldl g.firstStep sets

/-- How much the sets fall short of allowing everything. -/
def firstMissing (g : Grammar) (sets : FirstSets) : Nat :=
  sets.total fun first => g.terminalCount + 1 - first.size

/-- The First sets together with the number of passes that were made to find them. The last pass is
the one that added nothing. -/
def firstPasses (g : Grammar) : FirstSets × Nat :=
  saturate g.firstMissing g.firstPass (.replicate g.nonTerminalCount .nothing)

def firstSets (g : Grammar) : FirstSets := g.firstPasses.1

end Grammar

end ParseTables
