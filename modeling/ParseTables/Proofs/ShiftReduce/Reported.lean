import Mathlib.Data.List.Flatten
import ParseTables.Proofs.ShiftReduce.Clashes

namespace ParseTables

/-- The item calls for the reduction by its rule. -/
def Item.Reduces (g : Grammar) (item : Item) : Prop := item.isComplete g ∧ ¬ item.isAccepting g

/-- The state in which a conflict arises. -/
def SLRConflict.state : SLRConflict → Nat
  | shiftReduce state _ _ => state
  | reduceReduce state _ => state

theorem Item.rule_le_of_lt {item item' : Item} (below : compare item item' = .lt) :
    item.rule ≤ item'.rule := by
  rcases Ordering.then_eq_lt.mp below with lower | ⟨same, -⟩
  · exact Nat.le_of_lt (Nat.compare_eq_lt.mp lower)
  · exact Nat.le_of_eq (Nat.compare_eq_eq.mp same)

section Lists

variable {g : Grammar} {follow : FollowSets} {policy : ReducePolicy} {state : Nat} {items : ItemSet}

theorem mem_stateConflicts {conflict : SLRConflict} :
    conflict ∈ stateConflicts g follow policy state items ↔
    (∃ number ∈ items.reductions g, ∃ terminal ∈ g.reduceOn follow number, terminal ∈ items.shifts g ∧
      conflict = .shiftReduce state terminal number) ∨
    policy.refuses g follow (items.reductions g) ∧
      conflict = .reduceReduce state (items.reductions g) := by
  unfold stateConflicts
  rw [List.mem_append]
  refine or_congr ?_ ?_
  · simp only [List.mem_flatMap, List.mem_map, SortedSet.mem_toList, SortedSet.mem_filter,
      decide_eq_true_eq, and_assoc,
      @eq_comm SLRConflict]
  · split <;> simp_all

theorem state_of_mem_stateConflicts {conflict : SLRConflict}
    (reported : conflict ∈ stateConflicts g follow policy state items) : conflict.state = state := by
  rcases mem_stateConflicts.mp reported with ⟨number, -, terminal, -, -, rfl⟩ | ⟨-, rfl⟩ <;> rfl

theorem nodup_stateConflicts (nodup : (items.reductions g).Nodup) :
    (stateConflicts g follow policy state items).Nodup := by
  unfold stateConflicts
  refine List.nodup_append.mpr ⟨List.nodup_flatMap.mpr ⟨fun number _ => ?_, ?_⟩, ?_, ?_⟩
  · refine (SortedSet.nodup _).map fun terminal terminal' same => ?_
    exact (SLRConflict.shiftReduce.inj same).2.1
  · refine nodup.imp fun {number other} differ conflict inside inside' => ?_
    obtain ⟨terminal, -, rfl⟩ := List.mem_map.mp inside
    obtain ⟨terminal', -, same⟩ := List.mem_map.mp inside'
    exact differ (SLRConflict.shiftReduce.inj same).2.2.symm
  · split <;> simp
  · intro conflict clash conflict' whole same
    obtain ⟨number, -, inside⟩ := List.mem_flatMap.mp clash
    obtain ⟨terminal, -, rfl⟩ := List.mem_map.mp inside
    split at whole
    · rw [← same] at whole
      cases List.mem_singleton.mp whole
    · cases whole

end Lists

namespace Grammar

/-- Whether the reductions of a state conflict with each other, by its items or by the cells of its
row. -/
def Contested (g : Grammar) (table : ActionTable) (state : Nat) : ReducePolicy → Prop
  | .anyMultiple =>
    ∃ item ∈ g.itemsAt state, ∃ item' ∈ g.itemsAt state, item ≠ item' ∧ item.Reduces g ∧ item'.Reduces g
  | .followOverlap => ∃ terminal number number', number ≠ number' ∧
      .reduce number ∈ table.actions state terminal ∧
      .reduce number' ∈ table.actions state terminal

variable {g : Grammar} {state : Nat}

theorem nodup_conflicts {policy : ReducePolicy} :
    (g.automaton.conflicts g (g.followSets g.firstSets) policy).Nodup := by
  refine List.nodup_flatMap.mpr ⟨?_, ?_⟩
  · rintro ⟨found, state⟩ member
    have entry := List.mem_zipIdx_iff_getElem?.mp member
    have items : g.itemsAt state = found.items := by rw [itemsAt, entry]; rfl
    exact nodup_stateConflicts (items ▸ nodup_reductions)
  · have numbers : (g.automaton.states.zipIdx.map Prod.snd).Nodup := by
      rw [List.zipIdx_map_snd]
      exact List.nodup_range'
    refine (List.pairwise_map.mp numbers).imp
      fun {entry other} differ conflict reported reported' => differ ?_
    exact (state_of_mem_stateConflicts reported).symm.trans (state_of_mem_stateConflicts reported')

theorem reductions_ascending : ((g.itemsAt state).reductions g).Pairwise (· < ·) := by
  have ordered : ((g.itemsAt state).reductions g).Pairwise (· ≤ ·) :=
    List.pairwise_map.mpr (((g.itemsAt state).ascending.filter _).imp Item.rule_le_of_lt)
  exact (ordered.and nodup_reductions).imp fun ⟨le, differ⟩ => Nat.lt_of_le_of_ne le differ

theorem mem_reductions_iff_reduces {number : Nat} : number ∈ (g.itemsAt state).reductions g ↔
    ∃ item ∈ g.itemsAt state, item.Reduces g ∧ item.rule = number := by
  unfold ItemSet.reductions Item.Reduces
  simp only [List.mem_map, List.mem_filter, SortedSet.mem_toList, Bool.and_eq_true,
    Bool.not_eq_true', and_assoc,
    Bool.not_eq_true]

/-- No action stands twice in a cell. -/
theorem nodup_actions {terminal : Nat} : (g.slrTable.actions state terminal).Nodup := by
  by_cases isTerminal : g.isTerminal terminal
  · rw [actions_eq isTerminal]
    have reduces : ((g.reductionsOn state terminal).map LRAction.reduce).Nodup :=
      (nodup_reductions.filter _).map fun number number' => LRAction.reduce.inj
    refine List.nodup_append.mpr ⟨?_, reduces, ?_⟩
    · cases g.target? state terminal <;> split <;> simp
    · intro action early action' late same
      obtain ⟨number, -, rfl⟩ := List.mem_map.mp late
      cases g.target? state terminal <;> split at early <;> simp [same] at early
  · rw [actions_eq_nil isTerminal]
    exact List.nodup_nil

/-- A shift comes first in its cell, and there is no other one. -/
theorem actions_of_shift {terminal target : Nat}
    (shifts : .shift target ∈ g.slrTable.actions state terminal) :
    ∃ rest, g.slrTable.actions state terminal = .shift target :: rest ∧
      ∀ other, .shift other ∉ rest := by
  obtain ⟨isTerminal, edge⟩ := shift_mem_actions.mp shifts
  have whole := @actions_eq g state terminal isTerminal
  rw [edge, Option.toList_some, List.map_singleton, List.singleton_append, List.cons_append] at whole
  refine ⟨_, whole, fun other => ?_⟩
  split <;> simp

theorem refuses_iff_contested {policy : ReducePolicy} :
    policy.refuses g (g.followSets g.firstSets) ((g.itemsAt state).reductions g) = true ↔
      g.Contested g.slrTable state policy := by
  rw [← Bool.not_eq_false, ← not_iff_not, Decidable.not_not]
  cases policy with
  | anyMultiple =>
    have few : ReducePolicy.anyMultiple.refuses g (g.followSets g.firstSets)
        ((g.itemsAt state).reductions g) =
        false ↔ ((g.itemsAt state).reductions g).length ≤ 1 := decide_eq_false_iff_not.trans Nat.not_lt
    have reduces : ∀ item,
        item ∈ (g.itemsAt state).toList.filter (fun item => item.isComplete g && !item.isAccepting g) ↔
          item ∈ g.itemsAt state ∧ item.Reduces g := by
      intro item
      rw [List.mem_filter, Bool.and_eq_true, Bool.not_eq_true', ← Bool.not_eq_true]
      exact Iff.rfl
    rw [few, ItemSet.reductions, List.length_map, length_le_one_iff ((SortedSet.nodup _).filter _)]
    simp only [reduces]
    constructor
    · rintro alike ⟨item, member, item', member', differ, reduces, reduces'⟩
      exact differ (alike item ⟨member, reduces⟩ item' ⟨member', reduces'⟩)
    · rintro peaceful item ⟨member, reduces⟩ item' ⟨member', reduces'⟩
      exact Decidable.not_not.mp fun differ =>
        peaceful ⟨item, member, item', member', differ, reduces, reduces'⟩
  | followOverlap =>
    have few : ∀ terminal, (g.reductionsOn state terminal).length ≤ 1 ↔
        ∀ number ∈ g.reductionsOn state terminal, ∀ number' ∈ g.reductionsOn state terminal,
            number = number' :=
      fun terminal => length_le_one_iff (nodup_reductions.filter _)
    rw [refuses_followOverlap]
    simp only [few, ← reduce_mem_actions]
    constructor
    · rintro alike ⟨terminal, number, number', differ, reduces, reduces'⟩
      exact differ (alike terminal number reduces number' reduces')
    · intro peaceful terminal number reduces number' reduces'
      exact Decidable.not_not.mp fun differ =>
        peaceful ⟨terminal, number, number', differ, reduces, reduces'⟩

theorem shiftReduce_mem_conflicts {policy : ReducePolicy} {terminal number : Nat} :
    .shiftReduce state terminal number ∈ g.automaton.conflicts g (g.followSets g.firstSets) policy ↔
      (∃ target, .shift target ∈ g.slrTable.actions state terminal) ∧
        .reduce number ∈ g.slrTable.actions state terminal := by
  rw [mem_conflicts, reduce_mem_actions, reductionsOn, List.mem_filter, decide_eq_true_eq]
  constructor
  · rintro ⟨state', reported⟩
    rcases mem_stateConflicts.mp reported
      with ⟨number', reduces, terminal', lookahead, shifted, same⟩ | ⟨-, same⟩
    · obtain ⟨rfl, rfl, rfl⟩ := SLRConflict.shiftReduce.inj same
      obtain ⟨isTerminal, target, edge⟩ := mem_shifts.mp shifted
      exact ⟨⟨target, shift_mem_actions.mpr ⟨isTerminal, edge⟩⟩, reduces, lookahead⟩
    · cases same
  · rintro ⟨⟨target, shifts⟩, reduces, lookahead⟩
    obtain ⟨isTerminal, edge⟩ := shift_mem_actions.mp shifts
    exact ⟨state, mem_stateConflicts.mpr
      (Or.inl ⟨number, reduces, terminal, lookahead, mem_shifts.mpr ⟨isTerminal, target, edge⟩, rfl⟩)⟩

theorem reduceReduce_mem_conflicts {policy : ReducePolicy} {numbers : List Nat} :
    .reduceReduce state numbers ∈ g.automaton.conflicts g (g.followSets g.firstSets) policy ↔
      numbers = (g.itemsAt state).reductions g ∧ g.Contested g.slrTable state policy := by
  rw [mem_conflicts, ← refuses_iff_contested]
  constructor
  · rintro ⟨state', reported⟩
    rcases mem_stateConflicts.mp reported with ⟨_, _, _, _, _, same⟩ | ⟨refused, same⟩
    · cases same
    · obtain ⟨rfl, rfl⟩ := SLRConflict.reduceReduce.inj same
      exact ⟨rfl, refused⟩
  · rintro ⟨rfl, refused⟩
    exact ⟨state, mem_stateConflicts.mpr (Or.inr ⟨refused, rfl⟩)⟩

/-- The coarser policy reports all that the finer one does. -/
theorem conflicts_sublist : (g.automaton.conflicts g (g.followSets g.firstSets) .followOverlap).Sublist
    (g.automaton.conflicts g (g.followSets g.firstSets) .anyMultiple) := by
  refine List.Sublist.flatMap_right _ ?_
  rintro ⟨found, state⟩ member
  have items : g.itemsAt state = found.items := by
    rw [itemsAt, List.mem_zipIdx_iff_getElem?.mp member]; rfl
  -- the policies differ in the last entry at most, and what the finer one refuses the coarser one
  -- refuses
  have coarser : ReducePolicy.followOverlap.refuses g (g.followSets g.firstSets)
      (found.items.reductions g) = true →
      ReducePolicy.anyMultiple.refuses g (g.followSets g.firstSets)
          (found.items.reductions g) = true := by
    rw [← items, ← Bool.not_eq_false, ← Bool.not_eq_false]
    exact mt refuses_of_anyMultiple
  refine (List.Sublist.refl _).append ?_
  split
  · rename_i refused
    rw [if_pos (coarser refused)]
  · exact List.nil_sublist _

/-- The report and the table say the same about each state. A shift and a reduction are reported, once,
where a cell holds both of them. The reductions of a state are reported together, once and in ascending
order, if they conflict with each other. No cell holds two shifts or any other action twice, and a shift
stands in front. The finer policy reports a part of what the coarser one does, in the same order. -/
theorem conflicts_of_cells (g : Grammar) (policy : ReducePolicy) :
    let a := Analysis.ofGrammar g policy
    (∀ state terminal number, .shiftReduce state terminal number ∈ a.conflicts ↔
      (∃ target, .shift target ∈ a.actions.actions state terminal) ∧
        .reduce number ∈ a.actions.actions state terminal) ∧
    (∀ state, ∃ numbers, numbers.Pairwise (· < ·) ∧
      (∀ number, number ∈ numbers ↔ ∃ item ∈ g.itemsAt state, item.Reduces g ∧ item.rule = number) ∧
      ∀ reported, .reduceReduce state reported ∈ a.conflicts ↔
        reported = numbers ∧ g.Contested a.actions state policy) ∧
    a.conflicts.Nodup ∧
    (∀ state terminal, (a.actions.actions state terminal).Nodup ∧
      ∀ target, .shift target ∈ a.actions.actions state terminal →
        ∃ rest, a.actions.actions state terminal = .shift target :: rest ∧
          ∀ other, .shift other ∉ rest) ∧
    (Analysis.ofGrammar g .followOverlap).conflicts.Sublist
      (Analysis.ofGrammar g .anyMultiple).conflicts := by
  intro a
  refine ⟨fun state terminal number => shiftReduce_mem_conflicts, fun state => ?_, nodup_conflicts,
    fun state terminal => ⟨nodup_actions, fun target => actions_of_shift⟩, conflicts_sublist⟩
  exact ⟨(g.itemsAt state).reductions g, reductions_ascending, fun number => mem_reductions_iff_reduces,
    fun reported => reduceReduce_mem_conflicts⟩

end Grammar

end ParseTables
