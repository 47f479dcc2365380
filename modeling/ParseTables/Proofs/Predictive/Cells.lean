import ParseTables.Proofs.Predictive.Filling

namespace ParseTables

namespace Grammar

variable {g : Grammar}

/-- A filled cell holds a rule of its row that predicts its column. -/
theorem predicts_of_cell {nonTerminal terminal number : Nat}
    (found : g.llTable.rule? nonTerminal terminal = some number) :
    ∃ rule, 0 < number ∧ g.rule? number = some rule ∧ rule.head = nonTerminal ∧
      g.Predicts rule terminal := by
  rw [(llTable_cell nonTerminal terminal).1] at found
  exact mem_rulesOn.mp (List.mem_of_getLast? found)

/-- Rules that come into a cell without a dispute have the body of the last one. -/
theorem body_of_disputes_eq_nil {cell : PredictiveCell} {rules : List Nat}
    (peaceful : g.disputes cell rules = []) {number : Nat} (member : number ∈ rules) :
    ∃ last, rules.getLast? = some last ∧
      (g.rule? last).map Rule.body = (g.rule? number).map Rule.body := by
  induction rules generalizing number with
  | nil => cases member
  | cons first rest ih =>
    cases rest with
    | nil =>
      obtain rfl := List.mem_singleton.mp member
      exact ⟨number, rfl, rfl⟩
    | cons second rest =>
      have parts := (@disputes_append_cons g cell (some first) second rest).symm.trans peaceful
      obtain ⟨now, later⟩ := List.append_eq_nil_iff.mp parts
      have same : (g.rule? first).map Rule.body = (g.rule? second).map Rule.body := by
        simpa [disputes] using now
      rw [List.getLast?_cons_cons]
      rcases List.mem_cons.mp member with rfl | inRest
      · obtain ⟨last, newest, body⟩ := ih later List.mem_cons_self
        exact ⟨last, newest, body.trans same.symm⟩
      · exact ih later inRest

/-- In a table without conflict the cell of a prediction holds the predicted body. -/
theorem exists_cell_of_predicts (clean : g.llTable.hasConflict = false) {rule : Rule}
    (member : rule ∈ g.listed) {terminal : Nat} (predicts : g.Predicts rule terminal) :
    ∃ number chosen, g.llTable.rule? rule.head terminal = some number ∧
      g.rule? number = some chosen ∧ chosen.body = rule.body := by
  obtain ⟨number, positive, found⟩ := exists_number member
  obtain ⟨held, recorded⟩ := @llTable_cell g rule.head terminal
  have none : g.llTable.conflicts = #[] := by simpa [PredictiveTable.hasConflict] using clean
  have peaceful : g.disputes ⟨rule.head, terminal⟩ (g.rulesOn rule.head terminal) = [] := by
    rw [← recorded, PredictiveTable.conflictsAt, none]
    rfl
  obtain ⟨last, newest, body⟩ :=
    body_of_disputes_eq_nil peaceful (mem_rulesOn.mpr ⟨rule, positive, found, rfl, predicts⟩)
  rw [found, Option.map_some] at body
  obtain ⟨chosen, defined, same⟩ := Option.map_eq_some_iff.mp body
  exact ⟨last, chosen, held.trans newest, defined, same⟩

/-- Where a non-terminal is read by a rule, the next token calls for the rule. The one after what is read
so may come after the non-terminal. -/
theorem Parses.predicted (wf : g.WellFormed) {expanded : Rule} (listed : expanded ∈ g.listed)
    {early late symbols : List Nat} (parsesBody : g.Parses expanded.body early)
    (parsesRest : g.Parses symbols late) {rule : Rule} (member : rule ∈ g.rules)
    {before after : List Nat} (occurs : rule.body = before ++ expanded.head :: (symbols ++ after))
    {terminal : Nat} (next : g.Continues after rule.head terminal) (later : List Nat) :
    ∃ middle others current others', late ++ terminal :: later = middle :: others ∧
      early ++ middle :: others = current :: others' ∧ g.Continues [] expanded.head middle ∧
      g.Predicts expanded current := by
  obtain ⟨middle, others, split, nextRest⟩ := parsesRest.foreseen wf next later
  have follows : middle ∈ g.follow expanded.head :=
    Follows.of_continues wf member occurs (wf.head_mem listed) nextRest
  have nextBody : g.Continues [] expanded.head middle := continues_nil.mpr (Or.inr follows)
  obtain ⟨current, others', split', foreseen⟩ := parsesBody.foreseen wf nextBody others
  rw [List.append_nil] at foreseen
  refine ⟨middle, others, current, others', split, split', nextBody, ?_⟩
  rcases foreseen with begins | ⟨vanishes, ⟨hidden, -⟩ | inside⟩
  · exact Or.inl begins
  · exact absurd hidden (Nat.ne_of_gt (wf.head_pos expanded listed))
  · exact Or.inr ⟨vanishes, inside⟩

end Grammar

end ParseTables
