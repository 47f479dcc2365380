import ParseTables.Analysis
import ParseTables.Proofs.ShiftReduce.Cells

namespace ParseTables

theorem anyOverlap_eq_false {sets : List (SortedSet Nat)} : anyOverlap sets = false ↔
    ∀ a, (sets.filter fun s => a ∈ s).length ≤ 1 := by
  induction sets with
  | nil => simp [anyOverlap]
  | cons s rest ih =>
    have apart : (rest.any fun t => s.toList.any fun a => a ∈ t) = false ↔
        ∀ a ∈ s, (rest.filter fun t => a ∈ t) = [] := by
      simp only [List.any_eq_false, List.any_eq_true, decide_eq_true_eq, not_exists, not_and,
        List.filter_eq_nil_iff, SortedSet.mem_toList]
      exact ⟨fun h a member t other => h t other a member, fun h t other a member => h a member t other⟩
    rw [anyOverlap, Bool.or_eq_false_iff, ih, apart]
    constructor
    · rintro ⟨disjoint, single⟩ a
      by_cases member : a ∈ s
      · rw [List.filter_cons, if_pos (decide_eq_true member), disjoint a member]
        exact Nat.le_refl 1
      · rw [List.filter_cons, if_neg (by simpa using member)]
        exact single a
    · intro single
      refine ⟨fun a member => ?_, fun a => ?_⟩
      · have few := single a
        rw [List.filter_cons, if_pos (decide_eq_true member), List.length_cons] at few
        exact List.length_eq_zero_iff.mp (by omega)
      · have shorter := ((List.sublist_cons_self s rest).filter fun s => decide (a ∈ s)).length_le
        exact Nat.le_trans shorter (single a)

namespace Grammar

variable {g : Grammar}

theorem refuses_followOverlap {state : Nat} :
    ReducePolicy.followOverlap.refuses g (g.followSets g.firstSets) ((g.itemsAt state).reductions g) =
      false ↔ ∀ terminal, (g.reductionsOn state terminal).length ≤ 1 := by
  rw [ReducePolicy.refuses, anyOverlap_eq_false]
  refine forall_congr' fun terminal => ?_
  rw [List.filter_map, List.length_map]
  rfl

theorem refuses_of_anyMultiple {state : Nat}
    (accepted : ReducePolicy.anyMultiple.refuses g (g.followSets g.firstSets)
      ((g.itemsAt state).reductions g) = false) :
    ReducePolicy.followOverlap.refuses g (g.followSets g.firstSets) ((g.itemsAt state).reductions g) =
      false := by
  rw [refuses_followOverlap]
  intro terminal
  have few : ((g.itemsAt state).reductions g).length ≤ 1 := by
    simpa [ReducePolicy.refuses] using accepted
  exact Nat.le_trans (List.length_filter_le _ _) few

/-- The terminals that a state can shift are those for which it has an edge. -/
theorem mem_shifts {state terminal : Nat} : terminal ∈ (g.itemsAt state).shifts g ↔
    g.isTerminal terminal ∧ ∃ target, g.target? state terminal = some target := by
  unfold ItemSet.shifts
  rw [SortedSet.mem_filter, ItemSet.mem_transitions]
  constructor
  · rintro ⟨⟨item, member, next⟩, isTerminal⟩
    exact ⟨isTerminal, exists_target member next⟩
  · rintro ⟨isTerminal, target, edge⟩
    exact ⟨(itemsAt_target edge).1, isTerminal⟩

/-- No state shifts a terminal on which it reduces. -/
theorem shiftReduce_free_iff {state : Nat} :
    (∀ rule ∈ (g.itemsAt state).reductions g, ∀ terminal ∈ g.reduceOn (g.followSets g.firstSets) rule,
        terminal ∉ (g.itemsAt state).shifts g) ↔
      ∀ terminal, g.reductionsOn state terminal ≠ [] → g.target? state terminal = none := by
  constructor
  · intro free terminal some
    obtain ⟨rule, member⟩ := List.exists_mem_of_ne_nil _ some
    obtain ⟨-, found, defined, -, follows⟩ := mem_reductionsOn.mp member
    obtain ⟨reduces, lookahead⟩ := List.mem_filter.mp member
    have apart := free rule reduces terminal (of_decide_eq_true lookahead)
    exact Option.eq_none_iff_forall_ne_some.mpr fun target edge =>
      apart (mem_shifts.mpr ⟨isTerminal_of_mem_follow follows, target, edge⟩)
  · intro free rule reduces terminal lookahead shifted
    have member : rule ∈ g.reductionsOn state terminal :=
      List.mem_filter.mpr ⟨reduces, decide_eq_true lookahead⟩
    obtain ⟨-, target, edge⟩ := mem_shifts.mp shifted
    exact Option.some_ne_none target (edge.symm.trans (free terminal (List.ne_nil_of_mem member)))

theorem stateConflicts_eq_nil {policy : ReducePolicy} {state : Nat} {items : ItemSet}
    {follow : FollowSets} : stateConflicts g follow policy state items = [] ↔
      (∀ rule ∈ items.reductions g, ∀ terminal ∈ g.reduceOn follow rule, terminal ∉ items.shifts g) ∧
        policy.refuses g follow (items.reductions g) = false := by
  unfold stateConflicts
  simp only [List.append_eq_nil_iff, List.flatMap_eq_nil_iff, List.map_eq_nil_iff]
  refine and_congr (forall₂_congr fun rule _ => ?_) ?_
  · unfold SortedSet.filter
    simp only [List.filter_eq_nil_iff, decide_eq_true_eq]
    exact Iff.rfl
  · split <;> simp_all

/-- The report has what is to be said about each state. -/
theorem mem_conflicts {policy : ReducePolicy} {conflict : SLRConflict} :
    conflict ∈ g.automaton.conflicts g (g.followSets g.firstSets) policy ↔
      ∃ state, conflict ∈ stateConflicts g (g.followSets g.firstSets) policy state
        (g.itemsAt state) := by
  unfold Automaton.conflicts itemsAt
  rw [List.mem_flatMap]
  constructor
  · rintro ⟨⟨found, state⟩, member, reported⟩
    refine ⟨state, ?_⟩
    rw [List.mem_zipIdx_iff_getElem?.mp member]
    exact reported
  · rintro ⟨state, reported⟩
    cases entry : g.automaton.states[state]? with
    | none =>
      -- a state that does not exist has no items
      rw [entry] at reported
      cases policy <;> cases reported
    | some found =>
      rw [entry] at reported
      exact ⟨(found, state), List.mem_zipIdx_iff_getElem?.mpr entry, reported⟩

theorem conflicts_eq_nil {policy : ReducePolicy} :
    g.automaton.conflicts g (g.followSets g.firstSets) policy = [] ↔
      ∀ state, (∀ terminal, g.reductionsOn state terminal ≠ [] → g.target? state terminal = none) ∧
        policy.refuses g (g.followSets g.firstSets) ((g.itemsAt state).reductions g) = false := by
  have each : g.automaton.conflicts g (g.followSets g.firstSets) policy = [] ↔
      ∀ state, stateConflicts g (g.followSets g.firstSets) policy state (g.itemsAt state) = [] := by
    simp only [List.eq_nil_iff_forall_not_mem, mem_conflicts, not_exists]
    exact forall_comm
  rw [each]
  refine forall_congr' fun state => ?_
  rw [stateConflicts_eq_nil, shiftReduce_free_iff]

/-- The actions of a cell other than acceptance are its shift and its reductions. -/
theorem length_disputed {state terminal : Nat} :
    ((g.slrTable.actions state terminal).filter (· ≠ .accept)).length =
      if g.isTerminal terminal then
        (g.target? state terminal).toList.length + (g.reductionsOn state terminal).length
      else 0 := by
  split
  · rename_i isTerminal
    rw [actions_eq isTerminal, List.filter_append, List.filter_append, List.length_append,
      List.length_append]
    have shifts : (((g.target? state terminal).toList.map LRAction.shift).filter (· ≠ .accept)).length =
        (g.target? state terminal).toList.length := by
      cases g.target? state terminal <;> simp
    have reduces : (((g.reductionsOn state terminal).map LRAction.reduce).filter (· ≠ .accept)).length =
        (g.reductionsOn state terminal).length := by
      rw [List.filter_eq_self.mpr (by simp), List.length_map]
    rw [shifts, reduces]
    split <;> simp
  · rename_i other
    rw [actions_eq_nil other]
    rfl

theorem reductionsOn_eq_nil {state terminal : Nat} (other : ¬ g.isTerminal terminal) :
    g.reductionsOn state terminal = [] := by
  refine List.eq_nil_iff_forall_not_mem.mpr fun rule member => ?_
  obtain ⟨-, found, -, -, follows⟩ := mem_reductionsOn.mp member
  exact other (isTerminal_of_mem_follow follows)

/-- The conflicts under the finer policy are the cells with several actions other than acceptance. -/
theorem conflicts_followOverlap :
    g.automaton.conflicts g (g.followSets g.firstSets) .followOverlap = [] ↔
      ∀ state terminal, ((g.slrTable.actions state terminal).filter (· ≠ .accept)).length ≤ 1 := by
  rw [conflicts_eq_nil]
  refine forall_congr' fun state => ?_
  rw [refuses_followOverlap, ← forall_and]
  refine forall_congr' fun terminal => ?_
  rw [length_disputed]
  by_cases isTerminal : g.isTerminal terminal
  · rw [if_pos isTerminal]
    cases edge : g.target? state terminal with
    | none => simp
    | some target =>
      simp only [Option.toList_some, List.length_singleton, reduceCtorEq, imp_false,
        Decidable.not_not]
      constructor
      · rintro ⟨empty, -⟩
        simp [empty]
      · intro few
        have empty :=
          List.length_eq_zero_iff.mp (show (g.reductionsOn state terminal).length = 0 by omega)
        simp [empty]
  · simp [isTerminal, reductionsOn_eq_nil isTerminal]

theorem conflicts_of_anyMultiple
    (clean : g.automaton.conflicts g (g.followSets g.firstSets) .anyMultiple = []) :
    g.automaton.conflicts g (g.followSets g.firstSets) .followOverlap = [] :=
  conflicts_eq_nil.mpr fun state =>
    ⟨(conflicts_eq_nil.mp clean state).1, refuses_of_anyMultiple (conflicts_eq_nil.mp clean state).2⟩

theorem idxOf?_terminals {column terminal : Nat} (place : g.terminals[column]? = some terminal) :
    g.terminals.idxOf? terminal = some column := by
  obtain ⟨inside, same⟩ := List.getElem?_eq_some_iff.mp place
  refine List.idxOf?_eq_some_iff.mpr ⟨inside, same, fun earlier before equal => ?_⟩
  have := (List.Nodup.getElem_inj_iff List.nodup_range').mp (equal.trans same.symm)
  omega

theorem hasConflict_eq_false :
    g.slrTable.hasConflict = false ↔
      ∀ state terminal, (g.slrTable.actions state terminal).length ≤ 1 := by
  unfold ActionTable.hasConflict
  simp only [List.any_eq_false, List.any_eq_true, decide_eq_true_eq, not_exists, not_and, Nat.not_lt]
  constructor
  · intro few state terminal
    unfold ActionTable.actions
    cases found : (g.slrTable.terminals.idxOf? terminal).bind fun column =>
        (g.slrTable.action[state]?).bind fun row => row[column]? with
    | none => exact Nat.zero_le _
    | some cell =>
      obtain ⟨column, -, entry⟩ := Option.bind_eq_some_iff.mp found
      obtain ⟨row, inTable, inRow⟩ := Option.bind_eq_some_iff.mp entry
      exact few row (List.mem_of_getElem? inTable) cell (List.mem_of_getElem? inRow)
  · intro few row inTable cell inRow
    obtain ⟨state, place⟩ := List.mem_iff_getElem?.mp inTable
    obtain ⟨column, place'⟩ := List.mem_iff_getElem?.mp inRow
    have width : row.length = g.terminals.length := by
      rw [slrTable, Automaton.actionTable_eq] at inTable
      obtain ⟨found, -, rfl⟩ := List.mem_map.mp inTable
      exact List.length_map _
    have bound := (List.getElem?_eq_some_iff.mp place').1
    have terminal : g.terminals[column]? = some g.terminals[column] :=
      List.getElem?_eq_getElem (width ▸ bound)
    have located := idxOf?_terminals terminal
    have few' := few state g.terminals[column]
    unfold ActionTable.actions at few'
    rw [show g.slrTable.terminals = g.terminals from rfl, located] at few'
    simpa [place, place'] using few'

theorem isSLR_iff {policy : ReducePolicy} : (Analysis.ofGrammar g policy).isSLR ↔
    g.automaton.conflicts g (g.followSets g.firstSets) policy = [] := List.isEmpty_iff

/-- A grammar is SLR(1) under the finer policy if its table has no cell with several actions other than
acceptance. The coarser policy asks for more. The table is free of conflicts if, besides, acceptance
stands alone in its cells. -/
theorem isSLR_iff_cells (g : Grammar) (policy : ReducePolicy) :
    let table := (Analysis.ofGrammar g policy).actions
    ((Analysis.ofGrammar g .followOverlap).isSLR ↔
        ∀ state terminal, ((table.actions state terminal).filter (· ≠ .accept)).length ≤ 1) ∧
      ((Analysis.ofGrammar g .anyMultiple).isSLR → (Analysis.ofGrammar g .followOverlap).isSLR) ∧
      (table.hasConflict = false ↔ (Analysis.ofGrammar g .followOverlap).isSLR ∧
        ∀ state terminal, .accept ∈ table.actions state terminal →
          table.actions state terminal = [.accept]) := by
  intro table
  have same : table = g.slrTable := rfl
  rw [same, isSLR_iff, isSLR_iff, conflicts_followOverlap, hasConflict_eq_false]
  refine ⟨Iff.rfl, fun clean => conflicts_followOverlap.mp (conflicts_of_anyMultiple clean), ?_⟩
  constructor
  · intro few
    refine ⟨fun state terminal => Nat.le_trans (List.length_filter_le _ _) (few state terminal), ?_⟩
    intro state terminal accepts
    have one : (g.slrTable.actions state terminal).length = 1 :=
      Nat.le_antisymm (few state terminal) (List.length_pos_of_mem accepts)
    obtain ⟨action, only⟩ := List.length_eq_one_iff.mp one
    rw [only] at accepts ⊢
    rw [List.mem_singleton.mp accepts]
  · rintro ⟨undisputed, alone⟩ state terminal
    by_cases accepts : .accept ∈ g.slrTable.actions state terminal
    · rw [alone state terminal accepts]
      exact Nat.le_refl 1
    · have kept : (g.slrTable.actions state terminal).filter (· ≠ .accept) =
          g.slrTable.actions state terminal :=
        List.filter_eq_self.mpr fun action member => decide_eq_true fun other => accepts (other ▸ member)
      rw [← kept]
      exact undisputed state terminal

/-- The rules `S -> S` and `S -> a`. -/
def selfStart : Grammar := ⟨"S'", #["S"], #["a"], 1, [⟨1, [1]⟩, ⟨1, [2]⟩]⟩

/-- After the start symbol, the end mark is accepted and calls for the reduction by `S -> S` too. This is
no SLR(1) conflict under either policy, but it is one of the table. -/
theorem selfStart_disputed :
    Grammar.ofRules [("S", "S"), ("S", "a")] none = .ok selfStart ∧
      (Analysis.ofGrammar selfStart .followOverlap).isSLR = true ∧
      (Analysis.ofGrammar selfStart .anyMultiple).isSLR = true ∧
      (Analysis.ofGrammar selfStart .anyMultiple).actions.hasConflict = true ∧
      (Analysis.ofGrammar selfStart .anyMultiple).actions.actions 1 selfStart.endMark =
        [.accept, .reduce 1] :=
  ⟨by cbv, by decide +kernel, by decide +kernel, by decide +kernel, by decide +kernel⟩

end Grammar

end ParseTables
