import Mathlib.Data.List.Nodup
import ParseTables.Proofs.Lookahead.First
import ParseTables.ShiftReduce.Table

namespace ParseTables

/-- A change in the column of a symbol is a change of what is told of the symbol. -/
theorem modify_column {α : Type} {symbols : List Nat} (nodup : symbols.Nodup) {f : Nat → α}
    {change : α → α} {symbol column : Nat} (located : symbols.idxOf? symbol = some column) :
    (symbols.map f).modify column change =
      symbols.map fun other => if other = symbol then change (f other) else f other := by
  obtain ⟨inside, same, -⟩ := List.idxOf?_eq_some_iff.mp located
  refine List.ext_getElem (by simp) fun place bound _ => ?_
  have bound : place < symbols.length := by simpa using bound
  have columns : column = place ↔ symbols[place] = symbol := by
    rw [← same, List.Nodup.getElem_inj_iff nodup, eq_comm]
  simp only [List.getElem_modify, List.getElem_map, columns]

/-- A change for a symbol without a column is none. -/
theorem map_of_not_mem {α : Type} {symbols : List Nat} {f changed : Nat → α} {symbol : Nat}
    (missing : symbol ∉ symbols) :
    (symbols.map fun other => if other = symbol then changed other else f other) = symbols.map f := by
  refine List.map_congr_left fun other member => if_neg ?_
  rintro rfl
  exact missing member

namespace ActionRow

open Grammar

/-- The row has these actions on the terminals and these targets for the non-terminals. -/
structure Holds (row : ActionRow) (g : Grammar) (actions : Nat → List LRAction)
    (targets : Nat → Option Nat) : Prop where
  actions : row.actions = g.terminals.map actions
  targets : row.targets = g.nonTerminals.map targets

variable {g : Grammar} {row : ActionRow} {actions : Nat → List LRAction}
  {targets : Nat → Option Nat}

theorem addReduction_addReduction {rule : Nat} {cell : List LRAction} :
    addReduction rule (addReduction rule cell) = addReduction rule cell := by
  unfold addReduction
  split <;> simp_all

theorem nodup_terminals : g.terminals.Nodup := List.nodup_range'

theorem nodup_nonTerminals : g.nonTerminals.Nodup := List.nodup_range'

theorem holds_empty : (empty g).Holds g (fun _ => []) fun _ => none where
  actions := List.map_const'.symm
  targets := List.map_const'.symm

namespace Holds

theorem onCell (holds : row.Holds g actions targets) (terminal : Nat)
    (change : List LRAction → List LRAction) :
    (row.onCell g terminal change).Holds g
      (fun other => if other = terminal then change (actions other) else actions other)
      targets := by
  unfold ActionRow.onCell
  cases located : g.terminals.idxOf? terminal with
  | none =>
    refine ⟨?_, holds.targets⟩
    rw [map_of_not_mem (List.idxOf?_eq_none_iff.mp located), holds.actions]
  | some column =>
    refine ⟨?_, holds.targets⟩
    simp only [holds.actions, modify_column nodup_terminals located]

/-- An edge shows in the one row of cells or in the other, as no symbol has a column in both. -/
theorem enterEdge (holds : row.Holds g actions targets) (edge : Edge) :
    (row.enterEdge g edge).Holds g
      (fun terminal => if terminal = edge.symbol then actions terminal ++ [.shift edge.target]
        else actions terminal)
      fun symbol => if symbol = edge.symbol then some edge.target else targets symbol := by
  unfold ActionRow.enterEdge
  cases located : g.terminals.idxOf? edge.symbol with
  | some column =>
    have other : edge.symbol ∉ g.nonTerminals := fun listed => by
      have terminal := List.isSome_idxOf?.mp (located ▸ Option.isSome_some)
      rw [mem_terminals_iff, not_isTerminal_of_listed listed] at terminal
      cases terminal
    constructor
    · simp only [holds.actions, modify_column nodup_terminals located]
    · rw [map_of_not_mem other, holds.targets]
  | none =>
    have missing := List.idxOf?_eq_none_iff.mp located
    cases listed : g.nonTerminals.idxOf? edge.symbol with
    | none =>
      constructor
      · rw [map_of_not_mem missing, holds.actions]
      · rw [map_of_not_mem (List.idxOf?_eq_none_iff.mp listed), holds.targets]
    | some column =>
      constructor
      · rw [map_of_not_mem missing, holds.actions]
      · simp only [holds.targets, List.set_eq_modify, modify_column nodup_nonTerminals listed]

/-- Shifts come into a cell in the order of the edges, and of the states to go to the last stays. -/
theorem enterEdges (holds : row.Holds g actions targets) (edges : List Edge) :
    (edges.foldl (ActionRow.enterEdge g) row).Holds g
      (fun terminal => actions terminal ++
        (edges.filter fun edge => terminal = edge.symbol).map fun edge => .shift edge.target)
      fun symbol => ((edges.filter fun edge => symbol = edge.symbol).getLast?.map Edge.target).or
        (targets symbol) := by
  induction edges generalizing row actions targets with
  | nil => simpa using holds
  | cons edge rest ih =>
    have entered := ih (holds.enterEdge edge)
    rw [List.foldl_cons]
    constructor
    · rw [entered.actions]
      refine List.map_congr_left fun terminal _ => ?_
      by_cases here : terminal = edge.symbol <;> simp [here]
    · rw [entered.targets]
      refine List.map_congr_left fun symbol _ => ?_
      by_cases here : symbol = edge.symbol
      · simp only [here, decide_true, List.filter_cons_of_pos, if_true, List.getLast?_cons]
        cases (rest.filter fun other => edge.symbol = other.symbol).getLast? <;> rfl
      · simp [here]

theorem enterReduction (holds : row.Holds g actions targets) (follow : FollowSets) (rule : Nat) :
    (row.enterReduction g follow rule).Holds g
      (fun terminal => if terminal ∈ g.reduceOn follow rule then addReduction rule (actions terminal)
        else actions terminal) targets := by
  unfold ActionRow.enterReduction
  simp only [← SortedSet.mem_toList]
  induction (g.reduceOn follow rule).toList generalizing row actions with
  | nil => simpa using holds
  | cons terminal rest ih =>
    have entered := ih (holds.onCell terminal (addReduction rule))
    rw [List.foldl_cons]
    refine ⟨entered.actions.trans (List.map_congr_left fun other _ => ?_), entered.targets⟩
    by_cases here : other = terminal
    · subst here
      simp [addReduction_addReduction]
    · simp [here]

theorem enterReductions (holds : row.Holds g actions targets) (follow : FollowSets)
    (rules : List Nat) :
    (rules.foldl (ActionRow.enterReduction g follow) row).Holds g
      (fun terminal => (rules.filter fun rule => terminal ∈ g.reduceOn follow rule).foldl
        (fun cell rule => addReduction rule cell) (actions terminal)) targets := by
  induction rules generalizing row actions with
  | nil => simpa using holds
  | cons rule rest ih =>
    have entered := ih (holds.enterReduction follow rule)
    rw [List.foldl_cons]
    refine ⟨entered.actions.trans (List.map_congr_left fun terminal _ => ?_), entered.targets⟩
    by_cases applies : terminal ∈ g.reduceOn follow rule <;> simp [applies]

end Holds

theorem mem_foldl_addReduction {rules : List Nat} {cell : List LRAction} {action : LRAction} :
    action ∈ rules.foldl (fun cell rule => addReduction rule cell) cell ↔
      action ∈ cell ∨ ∃ rule ∈ rules, action = .reduce rule := by
  induction rules generalizing cell with
  | nil => simp
  | cons rule rest ih =>
    have added : action ∈ addReduction rule cell ↔ action ∈ cell ∨ action = .reduce rule := by
      unfold addReduction
      split
      · rename_i known
        refine ⟨Or.inl, ?_⟩
        rintro (old | rfl)
        · exact old
        · exact known
      · rw [List.mem_append, List.mem_singleton]
    rw [List.foldl_cons, ih, added, or_assoc, List.exists_mem_cons_iff]

/-- Different rules all come into a cell. -/
theorem foldl_addReduction {rules : List Nat} (nodup : rules.Nodup) {cell : List LRAction}
    (fresh : ∀ rule ∈ rules, .reduce rule ∉ cell) :
    rules.foldl (fun cell rule => addReduction rule cell) cell = cell ++ rules.map .reduce := by
  induction rules generalizing cell with
  | nil => simp
  | cons rule rest ih =>
    obtain ⟨other, later⟩ := List.nodup_cons.mp nodup
    have added : addReduction rule cell = cell ++ [.reduce rule] :=
      if_neg (fresh rule List.mem_cons_self)
    rw [List.foldl_cons, added, ih later, List.append_assoc, List.map_cons, List.singleton_append]
    intro next member known
    rcases List.mem_append.mp known with old | new
    · exact fresh next (List.mem_cons_of_mem _ member) old
    · obtain rfl := LRAction.reduce.inj (List.mem_singleton.mp new)
      exact other member

end ActionRow

namespace LRState

/-- What comes into the cell of a terminal: shifts, then acceptance, then each reduction once. -/
def actionsOn (g : Grammar) (follow : FollowSets) (state : LRState) (terminal : Nat) :
    List LRAction :=
  ((state.items.reductions g).filter fun rule => terminal ∈ g.reduceOn follow rule).foldl
    (fun cell rule => ActionRow.addReduction rule cell)
    (((state.edges.filter fun edge => terminal = edge.symbol).map fun edge => .shift edge.target) ++
      if terminal = g.endMark ∧ state.items.toList.any (Item.isAccepting g) then [.accept] else [])

/-- What stays in the cell of a non-terminal. -/
def targetOn (state : LRState) (symbol : Nat) : Option Nat :=
  (state.edges.filter fun edge => symbol = edge.symbol).getLast?.map Edge.target

end LRState

variable {g : Grammar} {follow : FollowSets}

theorem ActionRow.holds_ofState (state : LRState) :
    (ofState g follow state).Holds g (state.actionsOn g follow) state.targetOn := by
  have moved := (holds_empty (g := g)).enterEdges state.edges
  simp only [List.nil_append, Option.or_none] at moved
  unfold ofState
  by_cases accepts : state.items.toList.any (Item.isAccepting g)
  · have filled := (moved.onCell g.endMark (· ++ [.accept])).enterReductions follow
      (state.items.reductions g)
    simp only [accepts, if_true]
    refine ⟨filled.actions.trans (List.map_congr_left fun terminal _ => ?_), filled.targets⟩
    unfold LRState.actionsOn
    by_cases last : terminal = g.endMark <;> simp [last, accepts]
  · have filled := moved.enterReductions follow (state.items.reductions g)
    simp only [accepts]
    refine ⟨filled.actions.trans (List.map_congr_left fun terminal _ => ?_), filled.targets⟩
    simp [LRState.actionsOn, accepts]

/-- The loops fill the table cell by cell. -/
theorem Automaton.actionTable_eq (automaton : Automaton) :
    automaton.actionTable g follow =
      { terminals := g.terminals
        nonTerminals := g.nonTerminals
        action := automaton.states.map fun state => g.terminals.map (state.actionsOn g follow)
        goto := automaton.states.map fun state => g.nonTerminals.map state.targetOn } := by
  unfold actionTable
  simp only [List.map_map, Function.comp_def, (ActionRow.holds_ofState _).actions,
    (ActionRow.holds_ofState _).targets]

end ParseTables
