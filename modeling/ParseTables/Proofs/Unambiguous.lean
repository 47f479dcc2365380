import ParseTables.Analysis
import ParseTables.Proofs.Predictive.Unique
import ParseTables.Proofs.ShiftReduce.Unique

namespace ParseTables.Grammar

/-- Without a conflict in the LL(1) table, or without one in the SLR(1) table, a string of terminals has
one leftmost derivation at most. -/
theorem unambiguous_of_tables {pairs : List (String × String)} {designated : Option String} {g : Grammar}
    (built : Grammar.ofRules pairs designated = .ok g) (policy : ReducePolicy)
    (clean : (Analysis.ofGrammar g policy).predictive.hasConflict = false ∨
      (Analysis.ofGrammar g policy).actions.hasConflict = false) : g.Unambiguous := by
  have wf := wellFormed_ofRules built
  rcases clean with predictive | actions
  · exact unambiguous_of_llTable wf predictive
  · exact ShiftReduce.unambiguous_of_slrTable wf actions

/-- A rule that is entered twice: `S -> a S`, `S -> a S` and `S -> e`. -/
def doubled : Grammar := ⟨"S'", #["S"], #["a"], 1, [⟨1, [2, 1]⟩, ⟨1, [2, 1]⟩, ⟨1, []⟩]⟩

/-- The SLR(1) table has conflicts and the LL(1) table has none. By its numbers `a a` has four leftmost
derivations, but all of them use the same rules. -/
theorem unambiguous_doubled :
    Grammar.ofRules [("S", "a S"), ("S", "a S"), ("S", "e")] none = .ok doubled ∧
      (Analysis.ofGrammar doubled .anyMultiple).actions.hasConflict ∧
      doubled.Leftmost [1] [1, 2, 3] [2, 2] ∧
      ∀ numbers, doubled.Leftmost [1] numbers [2, 2] →
        numbers.map doubled.rule? = [some ⟨1, [2, 1]⟩, some ⟨1, [2, 1]⟩, some ⟨1, []⟩] := by
  have built : Grammar.ofRules [("S", "a S"), ("S", "a S"), ("S", "e")] none = .ok doubled := by cbv
  have derivation : doubled.Leftmost [1] [1, 2, 3] [2, 2] :=
    @Leftmost.rewrite doubled [] [] 1 ⟨1, [2, 1]⟩ _ _ (by simp) (by decide) (by decide) rfl <|
      @Leftmost.rewrite doubled [2] [] 2 ⟨1, [2, 1]⟩ _ _ (by decide) (by decide) (by decide) rfl <|
        @Leftmost.rewrite doubled [2, 2] [] 3 ⟨1, []⟩ _ _ (by decide) (by decide) (by decide) rfl .refl
  refine ⟨built, by decide +kernel, derivation, fun numbers other => ?_⟩
  exact unambiguous_of_tables built .anyMultiple (Or.inl (by decide +kernel)) [2, 2]
    (by decide) _ _ other derivation

end ParseTables.Grammar
