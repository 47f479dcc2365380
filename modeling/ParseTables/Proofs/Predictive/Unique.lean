import ParseTables.Proofs.Grammar.Forest
import ParseTables.Proofs.Predictive.Rivals

namespace ParseTables.Grammar

variable {g : Grammar}

/-- Two forests for a part of a body, with the tokens after them, are alike if the tokens are. -/
theorem Forest.Over.agree (wf : g.WellFormed) (clean : g.llTable.hasConflict = false)
    {symbols : List Nat} {forest forest' : Forest} (trees : forest.Over g symbols)
    (trees' : forest'.Over g symbols) {rule : Rule} (member : rule ∈ g.rules) (before : List Nat)
    {after : List Nat} (body : rule.body = before ++ symbols ++ after) {terminal terminal' : Nat}
    (next : g.Continues after rule.head terminal) (next' : g.Continues after rule.head terminal')
    {later later' : List Nat}
    (same : forest.word ++ terminal :: later = forest'.word ++ terminal' :: later') :
    forest.expansions.map g.rule? = forest'.expansions.map g.rule? ∧ forest.word = forest'.word := by
  induction trees generalizing forest' rule before after terminal terminal' later later' with
  | nil =>
    cases trees'
    exact ⟨rfl, rfl⟩
  | @leaf first _ symbols isTerminal _ ih =>
    cases trees' with
    | leaf _ rest' =>
      have shorter := (List.cons.inj same).2
      obtain ⟨rules, words⟩ := ih rest' member (before ++ [first]) (by simp [body]) next next' shorter
      exact ⟨rules, congrArg (first :: ·) words⟩
    | node positive found =>
      have nonTerminal := not_isTerminal_of_listed (wf.head_mem (mem_listed_of_rule? positive found))
      exact absurd isTerminal (by simp [nonTerminal])
  | @node number chosen children rest symbols positive found overBody overRest ihBody ihRest =>
    have listed := mem_listed_of_rule? positive found
    generalize headed : chosen.head :: symbols = symbols' at trees'
    cases trees' with
    | nil => simp at headed
    | leaf isTerminal' =>
      obtain ⟨rfl, -⟩ := List.cons.inj headed
      exact absurd isTerminal' (by simp [not_isTerminal_of_listed (wf.head_mem listed)])
    | @node number' chosen' children' rest' _ positive' found' overBody' overRest' =>
      obtain ⟨heads, rfl⟩ := List.cons.inj headed
      have listed' := mem_listed_of_rule? positive' found'
      have occurs : rule.body = before ++ chosen.head :: (symbols ++ after) := by simp [body]
      obtain ⟨middle, others, current, others₁, split, input, nextBody, predicts⟩ :=
        overBody.parses.predicted wf listed overRest.parses member occurs next later
      obtain ⟨middle', others', current', others₁', split', input', nextBody', predicts'⟩ :=
        overBody'.parses.predicted wf listed' overRest'.parses member (heads ▸ occurs) next' later'
      -- both rules are called for by the first of the tokens
      have tokens : children.word ++ middle :: others = children'.word ++ middle' :: others' := by
        rw [← split, ← split', ← List.append_assoc, ← List.append_assoc]
        exact same
      have current : current = current' := by
        rw [input, input'] at tokens
        exact (List.cons.inj tokens).1
      obtain rfl : chosen = chosen' :=
        eq_of_predicts clean listed listed' heads predicts (current ▸ predicts')
      obtain ⟨rulesBody, wordsBody⟩ :=
        ihBody overBody' (List.mem_cons_of_mem _ listed) [] (by simp) nextBody
        nextBody' tokens
      rw [wordsBody] at tokens
      have behind : rest.word ++ terminal :: later = rest'.word ++ terminal' :: later' := by
        rw [split, split']
        exact List.append_cancel_left tokens
      obtain ⟨rulesRest, wordsRest⟩ :=
        ihRest overRest' member (before ++ [chosen.head]) (by simp [body]) next next'
        behind
      simp only [Forest.expansions, Forest.word, List.map_cons, List.map_append]
      exact ⟨by rw [found, found', rulesBody, rulesRest], by rw [wordsBody, wordsRest]⟩

/-- A grammar whose LL(1) table has no conflict is unambiguous. -/
theorem unambiguous_of_llTable (wf : g.WellFormed) (clean : g.llTable.hasConflict = false) :
    g.Unambiguous := by
  refine unambiguous_of_forests wf fun forest forest' trees trees' words => ?_
  have hidden : (⟨0, [g.start]⟩ : Rule) ∈ g.rules := List.mem_cons_self
  have next : g.Continues [] 0 g.endMark := continues_nil.mpr (Or.inl ⟨rfl, rfl⟩)
  exact (trees.agree wf clean trees' hidden [] rfl next next (congrArg (· ++ [g.endMark]) words)).1

end ParseTables.Grammar
