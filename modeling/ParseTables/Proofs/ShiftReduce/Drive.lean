import ParseTables.Proofs.Grammar.Forest
import ParseTables.Proofs.ShiftReduce.Cells
import ParseTables.Proofs.ShiftReduce.Plain

namespace ParseTables.ShiftReduce

open Driver Grammar

variable {g : Grammar}

theorem plainAdvance_shift {table : ActionTable} {state current target : Nat}
    (action : (table.actions state current).head? = some (.shift target)) (below : List Nat)
    (position : Nat) (later : List Nat) :
    plainAdvance table g ⟨state, below, position, current :: later⟩ =
      .go ⟨state :: below, position, some (.shift target)⟩
        ⟨target, state :: below, position + 1, later⟩ := by
  simp [plainAdvance, action]

theorem plainAdvance_reduce {table : ActionTable} {state current number exposed target : Nat}
    {below remaining : List Nat} {rule : Rule}
    (action : (table.actions state current).head? = some (.reduce number))
    (found : g.rule? number = some rule)
    (popped : (state :: below).drop rule.body.length = exposed :: remaining)
    (edge : table.goto? exposed rule.head = some target) (position : Nat) (later : List Nat) :
    plainAdvance table g ⟨state, below, position, current :: later⟩ =
      .go ⟨state :: below, position, some (.reduce number)⟩
        ⟨target, exposed :: remaining, position, current :: later⟩ := by
  simp [plainAdvance, action, found, popped, edge]

/-- A reduction is always possible: the body stands on the stack, and below it the head can be pushed. -/
theorem exists_reduced (wf : g.WellFormed) {state current number : Nat} {below spelled : List Nat}
    (path : g.Spells (state :: below) spelled)
    (action : (g.slrTable.actions state current).head? = some (.reduce number)) :
    ∃ rule origin remaining spelled' target, rule ∈ g.listed ∧ g.rule? number = some rule ∧
      current ∈ g.follow rule.head ∧
      (state :: below).drop rule.body.length = origin :: remaining ∧
      spelled = rule.body.reverse ++ spelled' ∧ g.slrTable.goto? origin rule.head = some target ∧
      g.Spells (target :: origin :: remaining) (rule.head :: spelled') := by
  obtain ⟨positive, rule, found, member, follows⟩ :=
    mem_reductionsOn.mp (reduce_mem_actions.mp (List.mem_of_head? action))
  have listed := mem_listed_of_rule? positive found
  obtain ⟨origin, remaining, popped, taken, opened, path'⟩ := path.of_item member found
  obtain ⟨target, edge⟩ := path'.exists_goto opened positive found
  refine ⟨rule, origin, remaining, spelled.drop rule.body.length, target, listed, found, follows, popped,
    ?_, (goto?_eq (wf.head_mem listed)).trans edge, path'.push edge⟩
  rw [List.take_length] at taken
  rw [← taken, List.take_append_drop]

theorem spells_reduced (wf : g.WellFormed) {state current number exposed : Nat}
    {below spelled remaining : List Nat} {rule : Rule} (path : g.Spells (state :: below) spelled)
    (action : (g.slrTable.actions state current).head? = some (.reduce number))
    (found : g.rule? number = some rule)
    (popped : (state :: below).drop rule.body.length = exposed :: remaining) :
    ∃ spelled' target, rule ∈ g.listed ∧ current ∈ g.follow rule.head ∧
      spelled = rule.body.reverse ++ spelled' ∧ g.slrTable.goto? exposed rule.head = some target ∧
      g.Spells (target :: exposed :: remaining) (rule.head :: spelled') := by
  obtain ⟨rule', origin, remaining', spelled', target, listed, found', follows, popped', split, edge,
    path'⟩ := exists_reduced wf path action
  obtain rfl := Option.some.inj (found'.symm.trans found)
  obtain ⟨rfl, rfl⟩ := List.cons.inj (popped'.symm.trans popped)
  exact ⟨spelled', target, listed, follows, split, edge, path'⟩

/-- The stack after some symbols have been pushed from a state on, with an item moved past them. -/
structure Pushed (g : Grammar) (state : Nat) (below spelled symbols : List Nat) (number position : Nat)
    (top : Nat) (under : List Nat) : Prop where
  popped : (top :: under).drop symbols.length = state :: below
  spells : g.Spells (top :: under) (symbols.reverse ++ spelled)
  member : ⟨number, position + symbols.length⟩ ∈ g.itemsAt top

theorem Pushed.cons {state target symbol number position top : Nat}
    {below spelled symbols under : List Nat}
    (pushed : Pushed g target (state :: below) (symbol :: spelled) symbols number
      (position + 1) top under) :
    Pushed g state below spelled (symbol :: symbols) number position top under where
  popped := by
    rw [List.length_cons, ← List.drop_drop, pushed.popped]
    rfl
  spells := by
    rw [List.reverse_cons, List.append_assoc]
    exact pushed.spells
  member := by
    rw [List.length_cons, Nat.add_comm symbols.length, ← Nat.add_assoc]
    exact pushed.member

theorem Pushed.complete {state number top : Nat} {below spelled symbols under : List Nat}
    (pushed : Pushed g state below spelled symbols number 0 top under) :
    ⟨number, symbols.length⟩ ∈ g.itemsAt top := by
  have member := pushed.member
  rwa [Nat.zero_add] at member

/-- The parser follows derivation trees up to the end of their symbols, or to a cell that prefers
something else to a reduction. On the way it reduces by the rules of the trees, each after those of its
body. -/
theorem advances_of_over (wf : g.WellFormed) {Yields : Nat → Nat → Prop}
    (prefers : ∀ state terminal number, number ∈ g.reductionsOn state terminal →
      (g.slrTable.actions state terminal).head? = some (.reduce number) ∨ Yields state terminal)
    {forest : Forest} {symbols : List Nat} (trees : forest.Over g symbols) {number place : Nat}
    {rule : Rule} (found : g.rule? number = some rule) {after : List Nat}
    (dropped : rule.body.drop place = symbols ++ after) {terminal : Nat}
    (next : g.Continues after rule.head terminal) (later : List Nat) (position : Nat) {state : Nat}
    {below spelled : List Nat} (path : g.Spells (state :: below) spelled)
    (member : ⟨number, place⟩ ∈ g.itemsAt state) :
    let start : Plain := ⟨state, below, position, forest.word ++ terminal :: later⟩
    (∃ top under steps, Advances (plainAdvance g.slrTable g) start steps
        ⟨top, under, position + forest.word.length, terminal :: later⟩ ∧
        reducedRules steps = forest.reductions ∧
        Pushed g state below spelled symbols number place top under) ∨
      ∃ last current others, Reaches (plainAdvance g.slrTable g) start last ∧
        last.rest = current :: others ∧ Yields last.state current ∧
        last.rest <:+ forest.word ++ terminal :: later := by
  induction trees generalizing number place rule after terminal later position state below spelled with
  | nil => exact Or.inl ⟨state, below, [], .refl, rfl, rfl, path, member⟩
  | @leaf first rest symbols isTerminal _ ih =>
    obtain ⟨upcoming, dropped', -⟩ := next_of_drop found dropped
    obtain ⟨target, edge⟩ := exists_target member upcoming
    have moved := plainAdvance_shift (g := g) (head?_actions_of_target isTerminal edge) below position
      (rest.word ++ terminal :: later)
    have inside := advanced_mem_target member upcoming edge
    rcases ih found dropped' next later (position + 1) (path.push edge) inside with
      ⟨top, under, steps, further, rules, pushed⟩ |
        ⟨last, current, others, further, head, yields, suffix⟩
    · refine Or.inl
        ⟨top, under, ⟨state :: below, position, some (.shift target)⟩ :: steps, .step moved ?_, rules,
        pushed.cons⟩
      rw [Forest.word, List.length_cons, ← Nat.add_assoc, Nat.add_right_comm]
      exact further
    · exact Or.inr ⟨last, current, others, .head ⟨_, moved⟩ further, head, yields,
        suffix.trans (List.suffix_cons first _)⟩
  | @node number' expanded body rest symbols positive found' overBody overRest ihBody ihRest =>
    obtain ⟨upcoming, dropped', occurs⟩ := next_of_drop found dropped
    have nonTerminal := wf.head_mem (mem_listed_of_rule? positive found')
    -- the token after the expanded part follows its head
    obtain ⟨middle, others, split, nextRest⟩ := overRest.parses.foreseen wf next later
    have follows : middle ∈ g.follow expanded.head :=
      Follows.of_continues wf (List.mem_of_getElem? found) occurs nonTerminal nextRest
    have opened : ⟨number', 0⟩ ∈ g.itemsAt state :=
      opening_mem member upcoming (isNonTerminal_of_listed nonTerminal) found'
    obtain ⟨target, edge⟩ := exists_target member upcoming
    rw [Forest.word, List.append_assoc, split]
    rcases ihBody found' (List.append_nil _).symm
      (continues_nil.mpr (Or.inr follows)) others position path
        opened with ⟨top, under, steps, pathBody, rules, pushed⟩ | yields
    · have reduces : number' ∈ g.reductionsOn top middle :=
        mem_reductionsOn.mpr ⟨positive, expanded, found', pushed.complete, follows⟩
      rcases prefers top middle number' reduces with action | yields
      · have edge' : g.slrTable.goto? state expanded.head = some target :=
          (goto?_eq nonTerminal).trans edge
        have moved :=
          plainAdvance_reduce action found' pushed.popped edge' (position + body.word.length) others
        have inside := advanced_mem_target member upcoming edge
        rcases ihRest found dropped' next later (position + body.word.length)
          (path.push edge) inside with
          ⟨top', under', steps', pathRest, rules', pushed'⟩ |
          ⟨last, current, others', further, head, yields, suffix⟩
        · rw [split] at pathRest
          refine Or.inl ⟨top', under',
            steps ++ ⟨top :: under, position + body.word.length, some (.reduce number')⟩ :: steps',
            pathBody.trans (.step moved ?_), ?_, pushed'.cons⟩
          · rw [List.length_append, ← Nat.add_assoc]
            exact pathRest
          · rw [Forest.reductions, ← rules, ← rules']
            simp [reducedRules, Step.reducedRule?]
        · rw [split] at further suffix
          exact Or.inr
            ⟨last, current, others', pathBody.reaches.trans (.head ⟨_, moved⟩ further), head, yields,
            suffix.trans (List.suffix_append _ _)⟩
      · exact Or.inr ⟨_, middle, others, pathBody.reaches, rfl, yields, List.suffix_append _ _⟩
    · exact Or.inr yields

/-- The parser follows what is derived in the same way, whatever its trees are. -/
theorem reaches_of_parses (wf : g.WellFormed) {Yields : Nat → Nat → Prop}
    (prefers : ∀ state terminal number, number ∈ g.reductionsOn state terminal →
      (g.slrTable.actions state terminal).head? = some (.reduce number) ∨ Yields state terminal)
    {symbols word : List Nat} (parses : g.Parses symbols word) {number place : Nat} {rule : Rule}
    (found : g.rule? number = some rule) {after : List Nat}
    (dropped : rule.body.drop place = symbols ++ after) {terminal : Nat}
    (next : g.Continues after rule.head terminal) (later : List Nat) (position : Nat) {state : Nat}
    {below spelled : List Nat} (path : g.Spells (state :: below) spelled)
    (member : ⟨number, place⟩ ∈ g.itemsAt state) :
    let start : Plain := ⟨state, below, position, word ++ terminal :: later⟩
    (∃ top under, Reaches (plainAdvance g.slrTable g) start
        ⟨top, under, position + word.length, terminal :: later⟩ ∧
        Pushed g state below spelled symbols number place top under) ∨
      ∃ last current others, Reaches (plainAdvance g.slrTable g) start last ∧
        last.rest = current :: others ∧ Yields last.state current ∧
        last.rest <:+ word ++ terminal :: later := by
  obtain ⟨forest, trees, rfl⟩ := parses.exists_forest
  rcases advances_of_over wf prefers trees found dropped next later position path member with
    ⟨top, under, steps, along, -, pushed⟩ | yields
  · exact Or.inl ⟨top, under, along.reaches, pushed⟩
  · exact Or.inr yields

end ParseTables.ShiftReduce
