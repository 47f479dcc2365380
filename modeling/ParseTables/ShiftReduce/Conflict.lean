import ParseTables.Automaton
import ParseTables.Lookahead.Follow

namespace ParseTables

/-- When several reductions in one state count as a conflict. -/
inductive ReducePolicy where
  /-- Always. -/
  | anyMultiple
  /-- Only if two of their heads can be followed by the same terminal. -/
  | followOverlap
deriving DecidableEq

/-- A conflict of a state: it could shift a terminal on which it can reduce by a rule, or it could
reduce by several rules. -/
inductive SLRConflict where
  | shiftReduce (state terminal rule : Nat)
  | reduceReduce (state : Nat) (rules : List Nat)
deriving DecidableEq

/-- The rules by which a state with these items can reduce, those of the complete items. The hidden
rule leads to acceptance and is not among them. -/
def ItemSet.reductions (g : Grammar) (items : ItemSet) : List Nat :=
  (items.toList.filter fun item => item.isComplete g && !item.isAccepting g).map Item.rule

/-- The terminals that a state with these items can shift. -/
def ItemSet.shifts (g : Grammar) (items : ItemSet) : SortedSet Nat :=
  (items.transitions g).filter g.isTerminal

/-- The terminals on which a rule is reduced: those that follow its head. -/
def Grammar.reduceOn (g : Grammar) (follow : FollowSets) (rule : Nat) : SortedSet Nat :=
  ((g.rule? rule).bind fun found => follow.get? found.head).getD ∅

/-- Whether any two of the sets have a member in common. -/
def anyOverlap : List (SortedSet Nat) → Bool
  | [] => false
  | s :: rest => (rest.any fun t => s.toList.any fun a => a ∈ t) || anyOverlap rest

/-- Whether these reductions of one state conflict with each other. -/
def ReducePolicy.refuses (policy : ReducePolicy) (g : Grammar) (follow : FollowSets)
    (reductions : List Nat) : Bool :=
  match policy with
  | anyMultiple => 1 < reductions.length
  | followOverlap => anyOverlap (reductions.map (g.reduceOn follow))

/-- The conflicts of one state: shifts with reductions by rule and terminal, and after them all its
reductions together if they conflict with each other. -/
def stateConflicts (g : Grammar) (follow : FollowSets) (policy : ReducePolicy) (state : Nat)
    (items : ItemSet) : List SLRConflict :=
  let reductions := items.reductions g
  let shifts := items.shifts g
  (reductions.flatMap fun rule =>
    ((g.reduceOn follow rule).filter fun terminal => terminal ∈ shifts).toList.map
      fun terminal => .shiftReduce state terminal rule) ++
    if policy.refuses g follow reductions then [.reduceReduce state reductions] else []

def Automaton.conflicts (automaton : Automaton) (g : Grammar) (follow : FollowSets)
    (policy : ReducePolicy) : List SLRConflict :=
  automaton.states.zipIdx.flatMap fun (state, number) =>
    stateConflicts g follow policy number state.items

end ParseTables
