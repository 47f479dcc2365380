import ParseTables.ShiftReduce.Conflict

namespace ParseTables

inductive LRAction where
  | shift (state : Nat)
  | reduce (rule : Nat)
  | accept
deriving DecidableEq

/-- An SLR(1) table. Row by row it has the actions by the columns of the terminals, and the states to go
to after a reduction by the columns of the non-terminals. A cell for a state and a terminal holds every
action that is possible there, so more than one of them is a conflict. -/
structure ActionTable where
  terminals : List Nat
  nonTerminals : List Nat
  action : List (List (List LRAction))
  goto : List (List (Option Nat))

namespace ActionTable

/-- The actions of a state on a terminal. Outside of the table there are none. -/
def actions (table : ActionTable) (state terminal : Nat) : List LRAction :=
  ((table.terminals.idxOf? terminal).bind fun column =>
    (table.action[state]?).bind fun row => row[column]?).getD []

/-- The state to go to from a state that a reduction to a non-terminal has exposed. -/
def goto? (table : ActionTable) (state nonTerminal : Nat) : Option Nat :=
  (table.nonTerminals.idxOf? nonTerminal).bind fun column =>
    (table.goto[state]?).bind fun row => row[column]?.join

def hasConflict (table : ActionTable) : Bool :=
  table.action.any fun row => row.any fun actions => 1 < actions.length

/-- Replaces the actions in a cell, if there is such a cell. -/
def setActions? (table : ActionTable) (state terminal : Nat) (actions : List LRAction) :
    Option ActionTable := do
  let column ← table.terminals.idxOf? terminal
  let row ← table.action[state]?
  return { table with action := table.action.set state (row.set column actions) }

/-- Replaces the state in a cell for a non-terminal, if there is such a cell. -/
def setGoto? (table : ActionTable) (state nonTerminal : Nat) (target : Option Nat) :
    Option ActionTable := do
  let column ← table.nonTerminals.idxOf? nonTerminal
  let row ← table.goto[state]?
  return { table with goto := table.goto.set state (row.set column target) }

end ActionTable

/-- The row of a state, by the columns of the terminals and of the non-terminals. -/
structure ActionRow where
  actions : List (List LRAction)
  targets : List (Option Nat)

namespace ActionRow

def empty (g : Grammar) : ActionRow where
  actions := List.replicate g.terminals.length []
  targets := List.replicate g.nonTerminals.length none

/-- Changes the cell of a terminal. -/
def onCell (row : ActionRow) (g : Grammar) (terminal : Nat)
    (change : List LRAction → List LRAction) : ActionRow :=
  match g.terminals.idxOf? terminal with
  | some column => { row with actions := row.actions.modify column change }
  | none => row

/-- Enters an edge, as a shift if it is for a terminal and as a state to go to otherwise. -/
def enterEdge (g : Grammar) (row : ActionRow) (edge : Edge) : ActionRow :=
  match g.terminals.idxOf? edge.symbol with
  | some column => { row with actions := row.actions.modify column (· ++ [.shift edge.target]) }
  | none =>
    match g.nonTerminals.idxOf? edge.symbol with
    | some column => { row with targets := row.targets.set column (some edge.target) }
    | none => row

/-- A reduction is entered in a cell once. -/
def addReduction (rule : Nat) (cell : List LRAction) : List LRAction :=
  if .reduce rule ∈ cell then cell else cell ++ [.reduce rule]

/-- Enters the reduction by a rule in the cells of all terminals that follow its head. -/
def enterReduction (g : Grammar) (follow : FollowSets) (row : ActionRow) (rule : Nat) :
    ActionRow :=
  (g.reduceOn follow rule).toList.foldl
    (fun row terminal => row.onCell g terminal (addReduction rule)) row

/-- Fills the row of a state: edges first, then acceptance, then the reductions. -/
def ofState (g : Grammar) (follow : FollowSets) (state : LRState) : ActionRow :=
  let moved := state.edges.foldl (enterEdge g) (empty g)
  let accepting :=
    if state.items.toList.any (Item.isAccepting g) then
      moved.onCell g g.endMark (· ++ [.accept])
    else moved
  (state.items.reductions g).foldl (enterReduction g follow) accepting

end ActionRow

def Automaton.actionTable (automaton : Automaton) (g : Grammar) (follow : FollowSets) :
    ActionTable :=
  let rows := automaton.states.map (ActionRow.ofState g follow)
  { terminals := g.terminals
    nonTerminals := g.nonTerminals
    action := rows.map ActionRow.actions
    goto := rows.map ActionRow.targets }

end ParseTables
