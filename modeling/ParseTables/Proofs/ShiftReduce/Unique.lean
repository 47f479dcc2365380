import ParseTables.Proofs.ShiftReduce.Conflicts
import ParseTables.Proofs.ShiftReduce.Drive

namespace ParseTables.ShiftReduce

open Driver Grammar

variable {g : Grammar}

/-- In a table without conflict an action stands alone in its cell. -/
theorem head?_actions_of_mem (clean : g.slrTable.hasConflict = false) {state terminal : Nat}
    {action : LRAction} (member : action ∈ g.slrTable.actions state terminal) :
    (g.slrTable.actions state terminal).head? = some action := by
  have few := hasConflict_eq_false.mp clean state terminal
  obtain ⟨only, alone⟩ := List.length_eq_one_iff.mp (Nat.le_antisymm few (List.length_pos_of_mem member))
  rw [alone] at member ⊢
  rw [List.mem_singleton.mp member]
  rfl

/-- The parser accepts what trees are over, and reduces by their rules on the way. -/
theorem halts_of_over (wf : g.WellFormed) (clean : g.slrTable.hasConflict = false) {forest : Forest}
    (trees : forest.Over g [g.start]) :
    ∃ steps, HaltsWith (plainAdvance g.slrTable g)
      ⟨0, [], 0, forest.word ++ [g.endMark]⟩ steps .accepted ∧
      reducedRules steps = forest.reductions := by
  have hidden : g.rule? 0 = some ⟨0, [g.start]⟩ := rfl
  have next : g.Continues [] 0 g.endMark := continues_nil.mpr (Or.inl ⟨rfl, rfl⟩)
  have opened : ⟨0, 0⟩ ∈ g.itemsAt 0 := by
    rw [itemsAt_zero]
    exact ItemSet.mem_closure_of_mem (SortedSet.mem_singleton.mpr rfl)
  have prefers : ∀ state terminal number, number ∈ g.reductionsOn state terminal →
      (g.slrTable.actions state terminal).head? = some (.reduce number) ∨ False :=
    fun _ _ _ reduces => Or.inl (head?_actions_of_mem clean (reduce_mem_actions.mpr reduces))
  rcases advances_of_over wf prefers trees hidden rfl next [] 0 .start opened with
    ⟨top, under, steps, path, rules, pushed⟩ | ⟨_, _, _, -, -, never, -⟩
  · have action : (g.slrTable.actions top g.endMark).head? = some .accept :=
      head?_actions_of_mem clean (accept_mem_actions.mpr ⟨rfl, pushed.complete⟩)
    have stopped : plainAdvance g.slrTable g ⟨top, under, 0 + forest.word.length, [g.endMark]⟩ =
        .stop (some ⟨top :: under, 0 + forest.word.length, some .accept⟩) .accepted := by
      simp [plainAdvance, action]
    refine ⟨_, ⟨steps, _, _, path, stopped, rfl⟩, ?_⟩
    rw [← rules]
    simp [reducedRules, Step.reducedRule?]
  · exact never.elim

/-- A grammar whose SLR(1) table has no conflict is unambiguous. -/
theorem unambiguous_of_slrTable (wf : g.WellFormed) (clean : g.slrTable.hasConflict = false) :
    g.Unambiguous := by
  refine unambiguous_of_forests wf fun forest forest' trees trees' words => ?_
  obtain ⟨steps, halts, rules⟩ := halts_of_over wf clean trees
  obtain ⟨steps', halts', rules'⟩ := halts_of_over wf clean trees'
  rw [words] at halts
  have run : steps = steps' := (halts.unique halts').1
  have same : [] ++ forest.reductions = [] ++ forest'.reductions := by rw [← rules, ← rules', run]
  rw [(trees.eq_of_reductions wf trees' same).1]

end ParseTables.ShiftReduce
