import ParseTables.Lookahead.First

namespace ParseTables

/-- The Follow sets of the non-terminals of a grammar. -/
abbrev FollowSets := ByNonTerminal (SortedSet Nat)

/-- Each symbol of a string with the part of the string after it. -/
def occurrences : List Nat → List (Nat × List Nat)
  | [] => []
  | symbol :: rest => (symbol, rest) :: occurrences rest

/-- Says that all that follows `source` follows `target`. -/
structure FollowLink where
  source : Nat
  target : Nat
deriving DecidableEq

/-- Carries the terminals after the source of a link over to its target. -/
def FollowSets.relay (sets : FollowSets) (link : FollowLink) : FollowSets :=
  let carried := (sets.get? link.source).getD ∅
  sets.update (carried ∪ ·) link.target

namespace Grammar

/-- The occurrences of non-terminals in the body of a rule. -/
def nonTerminalOccurrences (g : Grammar) (rule : Rule) : List (Nat × List Nat) :=
  (occurrences rule.body).filter fun entry => !g.isTerminal entry.1

/-- What follows without any link: the end mark after the start symbol, and First of the rest of the
body after each occurrence. -/
def followSeeds (g : Grammar) (first : FirstSets) : FollowSets :=
  let withEnd : FollowSets :=
    (ByNonTerminal.replicate g.nonTerminalCount ∅).update (·.insert g.endMark) g.start
  (g.listed.flatMap g.nonTerminalOccurrences).foldl
    (fun sets (symbol, rest) =>
      let later := (first.ofSequence g rest).terminals
      sets.update (later ∪ ·) symbol)
    withEnd

/-- The links from the heads of rules to the occurrences that can end their bodies. If the rest of a
body after an occurrence can vanish, all that follows the head follows the occurrence too. -/
def followLinks (g : Grammar) (first : FirstSets) : List FollowLink :=
  g.listed.flatMap fun rule =>
    (g.nonTerminalOccurrences rule).filterMap fun (symbol, rest) =>
      if (first.ofSequence g rest).nullable ∧ rule.head ≠ symbol then some ⟨rule.head, symbol⟩
      else none

/-- How much the sets fall short of holding every terminal. -/
def followMissing (g : Grammar) (sets : FollowSets) : Nat :=
  sets.total fun follow => g.terminalCount - follow.size

/-- The Follow sets found by sweeps along the given links, in the order given. -/
def followSetsAlong (g : Grammar) (first : FirstSets) (links : List FollowLink) : FollowSets :=
  (saturate g.followMissing (links.foldl FollowSets.relay) (g.followSeeds first)).1

/-- The Follow sets of the grammar: the terminals that can stand right after each non-terminal. -/
def followSets (g : Grammar) (first : FirstSets) : FollowSets :=
  g.followSetsAlong first (g.followLinks first)

end Grammar

end ParseTables
