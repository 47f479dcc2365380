import ParseTables.Analysis
import ParseTables.Proofs.Predictive.Cells

namespace ParseTables.Grammar

variable {g : Grammar}

/-- In a table without conflict two rules of one head that are called for by one token have the same
body. -/
theorem eq_of_predicts (clean : g.llTable.hasConflict = false) {rule rule' : Rule}
    (listed : rule ∈ g.listed) (listed' : rule' ∈ g.listed) (heads : rule.head = rule'.head)
    {terminal : Nat} (predicts : g.Predicts rule terminal) (predicts' : g.Predicts rule' terminal) :
    rule = rule' := by
  obtain ⟨number, chosen, cell, defined, body⟩ := exists_cell_of_predicts clean listed predicts
  obtain ⟨number', chosen', cell', defined', body'⟩ := exists_cell_of_predicts clean listed' predicts'
  rw [heads] at cell
  obtain rfl := Option.some.inj (cell.symm.trans cell')
  obtain rfl := Option.some.inj (defined.symm.trans defined')
  have bodies : rule.body = rule'.body := body.symm.trans body'
  cases rule
  cases rule'
  exact congr (congrArg Rule.mk heads) bodies

/-- Two rules of one head with different bodies that are called for by one terminal. -/
structure Rivals (g : Grammar) (rule rule' : Rule) : Prop where
  listed : rule ∈ g.listed
  listed' : rule' ∈ g.listed
  heads : rule.head = rule'.head
  bodies : rule.body ≠ rule'.body
  disputed : ∃ terminal, g.Predicts rule terminal ∧ g.Predicts rule' terminal

theorem of_mem_disputes {cell : PredictiveCell} {rules : List Nat} {conflict : PredictiveConflict}
    (disputed : conflict ∈ g.disputes cell rules) : conflict.previous ∈ rules ∧ conflict.chosen ∈ rules ∧
      (g.rule? conflict.previous).map Rule.body ≠ (g.rule? conflict.chosen).map Rule.body := by
  obtain ⟨⟨previous, chosen⟩, kept, rfl⟩ := List.mem_map.mp disputed
  obtain ⟨neighbours, differ⟩ := List.mem_filter.mp kept
  obtain ⟨earlier, later⟩ := List.of_mem_zip neighbours
  exact ⟨earlier, List.mem_of_mem_tail later, of_decide_eq_true differ⟩

/-- The two rules of a conflict are called for by its terminal. -/
theorem rulesOn_of_mem_conflicts {conflict : PredictiveConflict}
    (recorded : conflict ∈ g.llTable.conflicts) :
    conflict.previous ∈ g.rulesOn conflict.nonTerminal conflict.terminal ∧
      conflict.chosen ∈ g.rulesOn conflict.nonTerminal conflict.terminal ∧
      (g.rule? conflict.previous).map Rule.body ≠ (g.rule? conflict.chosen).map Rule.body := by
  have here : conflict ∈ g.llTable.conflictsAt ⟨conflict.nonTerminal, conflict.terminal⟩ :=
    List.mem_filter.mpr ⟨Array.mem_toList_iff.mpr recorded, decide_eq_true rfl⟩
  rw [(llTable_cell _ _).2] at here
  exact of_mem_disputes here

/-- Whether there is a conflict does not depend on the order in which the table is filled. -/
theorem hasConflict_iff_rivals : g.llTable.hasConflict = true ↔ ∃ rule rule', g.Rivals rule rule' := by
  constructor
  · intro conflicting
    obtain ⟨conflict, recorded⟩ : ∃ conflict, conflict ∈ g.llTable.conflicts := by
      refine Array.exists_mem_of_ne_empty _ fun empty => ?_
      simp [PredictiveTable.hasConflict, empty] at conflicting
    obtain ⟨earlier, later, differ⟩ := rulesOn_of_mem_conflicts recorded
    obtain ⟨rule, positive, found, head, predicts⟩ := mem_rulesOn.mp earlier
    obtain ⟨rule', positive', found', head', predicts'⟩ := mem_rulesOn.mp later
    rw [found, found'] at differ
    exact ⟨rule, rule', mem_listed_of_rule? positive found, mem_listed_of_rule? positive' found',
      head.trans head'.symm, fun same => differ (congrArg some same), conflict.terminal,
      predicts, predicts'⟩
  · rintro ⟨rule, rule', rivals⟩
    obtain ⟨terminal, predicts, predicts'⟩ := rivals.disputed
    refine Bool.of_not_eq_false fun clean => rivals.bodies ?_
    exact congrArg Rule.body
      (eq_of_predicts clean rivals.listed rivals.listed' rivals.heads predicts predicts')

/-- A cell of the LL(1) table holds the last of the rules that its terminal calls for, and a conflict is
recorded for it between any two neighbours of them that have different bodies, once and in order. So
there is no conflict if no terminal calls for two rules of one head with different bodies. -/
theorem cells_of_rulesOn (g : Grammar) (policy : ReducePolicy) :
    let table := (Analysis.ofGrammar g policy).predictive
    (∀ nonTerminal terminal,
      (g.rulesOn nonTerminal terminal).Pairwise (· < ·) ∧
      (∀ number, number ∈ g.rulesOn nonTerminal terminal ↔
        ∃ rule, 0 < number ∧ g.rule? number = some rule ∧
        rule.head = nonTerminal ∧ g.Predicts rule terminal) ∧
      table.rule? nonTerminal terminal = (g.rulesOn nonTerminal terminal).getLast? ∧
      table.conflictsAt ⟨nonTerminal, terminal⟩ =
        g.disputes ⟨nonTerminal, terminal⟩ (g.rulesOn nonTerminal terminal)) ∧
    (table.hasConflict = false ↔ ∀ rule ∈ g.listed, ∀ rule' ∈ g.listed, rule.head = rule'.head →
      ∀ terminal, g.Predicts rule terminal → g.Predicts rule' terminal → rule.body = rule'.body) := by
  intro table
  have same : table = g.llTable := rfl
  rw [same]
  refine ⟨fun nonTerminal terminal => ?_, ?_⟩
  · obtain ⟨held, recorded⟩ := @llTable_cell g nonTerminal terminal
    exact ⟨rulesOn_ascending nonTerminal terminal, fun number => mem_rulesOn, held, recorded⟩
  · rw [← Bool.not_eq_true, hasConflict_iff_rivals]
    constructor
    · intro peaceful rule listed rule' listed' heads terminal predicts predicts'
      exact Decidable.not_not.mp fun bodies =>
        peaceful ⟨rule, rule', listed, listed', heads, bodies, terminal, predicts, predicts'⟩
    · rintro alike ⟨rule, rule', rivals⟩
      obtain ⟨terminal, predicts, predicts'⟩ := rivals.disputed
      exact rivals.bodies
        (alike rule rivals.listed rule' rivals.listed' rivals.heads terminal predicts predicts')

/-- Of `S -> a`, `S -> T` and again `S -> a`, where `T -> a`, each replaces the one before with another
body. -/
example :
    (Analysis.ofGrammar ⟨"S'", #["S", "T"], #["a"], 1, [⟨1, [3]⟩, ⟨1, [2]⟩, ⟨1, [3]⟩, ⟨2, [3]⟩]⟩
      .anyMultiple).predictive.conflictsAt ⟨1, 3⟩ = [⟨1, 3, 1, 2⟩, ⟨1, 3, 2, 3⟩] := by
  decide +kernel

end ParseTables.Grammar
