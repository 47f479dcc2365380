import ParseTables.Proofs.Grammar.Leftmost
import ParseTables.Proofs.Lookahead.First

namespace ParseTables.Grammar

/-- Derivation trees side by side. A tree is a terminal, or a rule with the trees of its body, and `rest`
are the trees to the right of it. -/
inductive Forest where
  | nil
  | leaf (terminal : Nat) (rest : Forest)
  | node (rule : Nat) (body rest : Forest)

namespace Forest

/-- The terminals at the leaves. -/
def word : Forest → List Nat
  | nil => []
  | leaf terminal rest => terminal :: rest.word
  | node _ body rest => body.word ++ rest.word

/-- The rules, each before those of its body. -/
def expansions : Forest → List Nat
  | nil => []
  | leaf _ rest => rest.expansions
  | node rule body rest => rule :: (body.expansions ++ rest.expansions)

/-- The rules, each after those of its body. -/
def reductions : Forest → List Nat
  | nil => []
  | leaf _ rest => rest.reductions
  | node rule body rest => body.reductions ++ rule :: rest.reductions

def append : Forest → Forest → Forest
  | nil, late => late
  | leaf terminal rest, late => leaf terminal (rest.append late)
  | node rule body rest, late => node rule body (rest.append late)

@[simp]
theorem word_append (early late : Forest) : (early.append late).word = early.word ++ late.word := by
  induction early with
  | nil => rfl
  | leaf terminal rest ih => simp [append, word, ih]
  | node rule body rest _ ih => simp [append, word, ih]

@[simp]
theorem expansions_append (early late : Forest) :
    (early.append late).expansions = early.expansions ++ late.expansions := by
  induction early with
  | nil => rfl
  | leaf terminal rest ih => simp [append, expansions, ih]
  | node rule body rest _ ih => simp [append, expansions, ih]

/-- The trees are derivation trees for the symbols, one for each. -/
inductive Over (g : Grammar) : Forest → List Nat → Prop
  | nil : Over g nil []
  | leaf {terminal rest symbols} : g.isTerminal terminal → Over g rest symbols →
      Over g (leaf terminal rest) (terminal :: symbols)
  | node {number rule body rest symbols} : 0 < number → g.rule? number = some rule →
      Over g body rule.body → Over g rest symbols → Over g (node number body rest) (rule.head :: symbols)

variable {g : Grammar} {forest forest' : Forest} {symbols : List Nat}

theorem Over.parses (trees : forest.Over g symbols) : g.Parses symbols forest.word := by
  induction trees with
  | nil => exact .nil
  | leaf isTerminal _ ih => exact .terminal isTerminal ih
  | node positive found _ _ ihBody ihRest =>
    exact .expand (mem_listed_of_rule? positive found) ihBody ihRest

theorem Over.append {late : Forest} {u v : List Nat} (left : forest.Over g u) (right : late.Over g v) :
    (forest.append late).Over g (u ++ v) := by
  induction left with
  | nil => exact right
  | leaf isTerminal _ ih => exact .leaf isTerminal ih
  | node positive found body _ _ ih => exact .node positive found body ih

theorem Over.split {u v : List Nat} (trees : forest.Over g (u ++ v)) :
    ∃ early late : Forest, forest = early.append late ∧ early.Over g u ∧ late.Over g v := by
  induction u generalizing forest with
  | nil => exact ⟨.nil, forest, rfl, .nil, trees⟩
  | cons symbol u ih =>
    cases trees with
    | leaf isTerminal rest =>
      obtain ⟨early, late, rfl, left, right⟩ := ih rest
      exact ⟨.leaf symbol early, late, rfl, .leaf isTerminal left, right⟩
    | @node number _ body _ _ positive found trees rest =>
      obtain ⟨early, late, rfl, left, right⟩ := ih rest
      exact ⟨.node number body early, late, rfl, .node positive found trees left, right⟩

/-- Over terminals there are leaves only. -/
theorem Over.expansions_eq_nil (wf : g.WellFormed) (trees : forest.Over g symbols)
    (terminals : ∀ symbol ∈ symbols, g.isTerminal symbol) : forest.expansions = [] := by
  induction trees with
  | nil => rfl
  | leaf _ _ ih => exact ih fun symbol member => terminals symbol (List.mem_cons_of_mem _ member)
  | node positive found _ _ _ _ =>
    have nonTerminal := not_isTerminal_of_listed (wf.head_mem (mem_listed_of_rule? positive found))
    exact absurd (terminals _ List.mem_cons_self) (by simp [nonTerminal])

/-- The trees are determined by the symbols and the rules, each after those of its body. Read from the
end, the rules tell the last tree first, and which symbol it is for decides where it ends. -/
theorem Over.eq_of_reductions (wf : g.WellFormed) (trees : forest.Over g symbols)
    (trees' : forest'.Over g symbols) {before before' : List Nat}
    (same : before ++ forest.reductions = before' ++ forest'.reductions) :
    forest = forest' ∧ before = before' := by
  induction trees generalizing forest' before before' with
  | nil =>
    cases trees'
    exact ⟨rfl, by simpa [reductions] using same⟩
  | leaf isTerminal _ ih =>
    cases trees' with
    | leaf _ rest' =>
      obtain ⟨rfl, equal⟩ := ih rest' same
      exact ⟨rfl, equal⟩
    | node positive found =>
      have nonTerminal := not_isTerminal_of_listed (wf.head_mem (mem_listed_of_rule? positive found))
      exact absurd isTerminal (by simp [nonTerminal])
  | @node number rule body rest symbols positive found _ _ ihBody ihRest =>
    generalize headed : rule.head :: symbols = symbols' at trees'
    cases trees' with
    | nil => simp at headed
    | leaf isTerminal' =>
      have nonTerminal := not_isTerminal_of_listed (wf.head_mem (mem_listed_of_rule? positive found))
      obtain ⟨rfl, -⟩ := List.cons.inj headed
      exact absurd isTerminal' (by simp [nonTerminal])
    | @node number' rule' body' rest' _ _ found' trees' overRest' =>
      obtain ⟨-, rfl⟩ := List.cons.inj headed
      have split : (before ++ body.reductions ++ [number]) ++ rest.reductions =
          (before' ++ body'.reductions ++ [number']) ++ rest'.reductions := by
        simpa [reductions] using same
      obtain ⟨rfl, front⟩ := ihRest overRest' split
      obtain ⟨inner, last⟩ := List.append_inj' front rfl
      obtain rfl := (List.cons.inj last).1
      obtain rfl := Option.some.inj (found.symm.trans found')
      obtain ⟨rfl, equal⟩ := ihBody trees' inner
      exact ⟨rfl, equal⟩

end Forest

variable {g : Grammar}

theorem Parses.exists_forest {symbols word : List Nat} (parses : g.Parses symbols word) :
    ∃ forest : Forest, forest.Over g symbols ∧ forest.word = word := by
  induction parses with
  | nil => exact ⟨.nil, .nil, rfl⟩
  | @terminal terminal _ _ isTerminal _ ih =>
    obtain ⟨rest, trees, rfl⟩ := ih
    exact ⟨.leaf terminal rest, .leaf isTerminal trees, rfl⟩
  | expand member _ _ ihBody ihRest =>
    obtain ⟨body, trees, rfl⟩ := ihBody
    obtain ⟨rest, trees', rfl⟩ := ihRest
    obtain ⟨number, positive, found⟩ := exists_number member
    exact ⟨.node number body rest, .node positive found trees trees', rfl⟩

/-- A leftmost derivation of terminals is one by trees. -/
theorem Leftmost.exists_forest (wf : g.WellFormed) {symbols numbers word : List Nat}
    (rewrites : g.Leftmost symbols numbers word) (terminals : ∀ terminal ∈ word, g.isTerminal terminal) :
    ∃ forest : Forest, forest.Over g symbols ∧ forest.word = word ∧ forest.expansions = numbers := by
  induction rewrites with
  | refl =>
    obtain ⟨forest, trees, leaves⟩ := (Parses.of_terminals terminals).exists_forest
    exact ⟨forest, trees, leaves, trees.expansions_eq_nil wf terminals⟩
  | @rewrite before after number rule numbers word inFront _ positive found _ ih =>
    obtain ⟨forest, trees, rfl, rfl⟩ := ih terminals
    rw [List.append_assoc] at trees
    obtain ⟨early, forest, rfl, left, trees⟩ := trees.split
    obtain ⟨body, late, rfl, inner, right⟩ := trees.split
    refine ⟨early.append (.node number body late),
      left.append (.node positive found inner right), ?_, ?_⟩
    · simp [Forest.word]
    · simp [Forest.expansions, left.expansions_eq_nil wf inFront]

/-- No string of terminals has two leftmost derivations from the start symbol, where rules with the same
head and the same body count as the same rule. -/
def Unambiguous (g : Grammar) : Prop :=
  ∀ word, (∀ terminal ∈ word, g.isTerminal terminal) → ∀ numbers numbers',
    g.Leftmost [g.start] numbers word → g.Leftmost [g.start] numbers' word →
      numbers.map g.rule? = numbers'.map g.rule?

/-- It is enough to compare the trees of a string. -/
theorem unambiguous_of_forests (wf : g.WellFormed)
    (alike : ∀ forest forest' : Forest, forest.Over g [g.start] → forest'.Over g [g.start] →
      forest.word = forest'.word → forest.expansions.map g.rule? = forest'.expansions.map g.rule?) :
    g.Unambiguous := by
  intro word terminals numbers numbers' rewrites rewrites'
  obtain ⟨forest, trees, leaves, rfl⟩ := rewrites.exists_forest wf terminals
  obtain ⟨forest', trees', leaves', rfl⟩ := rewrites'.exists_forest wf terminals
  exact alike forest forest' trees trees' (leaves.trans leaves'.symm)

end ParseTables.Grammar
