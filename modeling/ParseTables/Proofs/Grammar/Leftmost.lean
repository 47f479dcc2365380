import ParseTables.Grammar.Basic

namespace ParseTables.Grammar

/-- The listed rules of the given numbers rewrite one string to another, in order and each at the
leftmost non-terminal. -/
inductive Leftmost (g : Grammar) : List Nat → List Nat → List Nat → Prop
  | refl {form} : Leftmost g form [] form
  | rewrite {before after number rule numbers form} : (∀ symbol ∈ before, g.isTerminal symbol) →
      ¬ g.isTerminal rule.head → 0 < number → g.rule? number = some rule →
      Leftmost g (before ++ rule.body ++ after) numbers form →
      Leftmost g (before ++ rule.head :: after) (number :: numbers) form

variable {g : Grammar}

/-- One more rule at the end, where the rewriting has led so far. -/
theorem Leftmost.tail {first numbers before after : List Nat} {number : Nat} {rule : Rule}
    (rewrites : g.Leftmost first numbers (before ++ rule.head :: after))
    (terminals : ∀ symbol ∈ before, g.isTerminal symbol) (nonTerminal : ¬ g.isTerminal rule.head)
    (positive : 0 < number) (found : g.rule? number = some rule) :
    g.Leftmost first (numbers ++ [number]) (before ++ rule.body ++ after) := by
  generalize reached : before ++ rule.head :: after = form at rewrites
  induction rewrites with
  | refl =>
    subst reached
    exact .rewrite terminals nonTerminal positive found .refl
  | rewrite terminals' nonTerminal' positive' found' _ ih =>
    exact .rewrite terminals' nonTerminal' positive' found' (ih reached)

theorem Leftmost.append {first numbers last : List Nat} (rewrites : g.Leftmost first numbers last)
    (rest : List Nat) : g.Leftmost (first ++ rest) numbers (last ++ rest) := by
  induction rewrites with
  | refl => exact .refl
  | rewrite terminals nonTerminal positive found _ ih =>
    rw [List.append_assoc] at ih
    rw [List.append_assoc, List.cons_append]
    exact .rewrite terminals nonTerminal positive found ih

/-- There is only one leftmost non-terminal. -/
theorem leftmost_split {before after before' after' : List Nat} {head head' : Nat}
    (terminals : ∀ symbol ∈ before, g.isTerminal symbol) (nonTerminal : ¬ g.isTerminal head)
    (terminals' : ∀ symbol ∈ before', g.isTerminal symbol) (nonTerminal' : ¬ g.isTerminal head')
    (same : before ++ head :: after = before' ++ head' :: after') :
    before = before' ∧ head = head' ∧ after = after' := by
  induction before generalizing before' with
  | nil =>
    cases before' with
    | nil => exact ⟨rfl, List.cons.inj same⟩
    | cons first' before' =>
      have equal : head = first' := (List.cons.inj same).1
      exact absurd (equal ▸ terminals' first' List.mem_cons_self) nonTerminal
  | cons first before ih =>
    cases before' with
    | nil =>
      have equal : first = head' := (List.cons.inj same).1
      exact absurd (equal ▸ terminals first List.mem_cons_self) nonTerminal'
    | cons first' before' =>
      obtain ⟨equal, rest⟩ := List.cons.inj same
      obtain ⟨later, symbol, behind⟩ :=
        ih (fun symbol member => terminals symbol (List.mem_cons_of_mem _ member))
        (fun symbol member => terminals' symbol (List.mem_cons_of_mem _ member)) rest
      exact ⟨by rw [equal, later], symbol, behind⟩

/-- A string and the numbers of the rules determine the string that is reached, as only terminals stand
to the left of what is rewritten. -/
theorem Leftmost.unique {first numbers last last' : List Nat} (rewrites : g.Leftmost first numbers last)
    (rewrites' : g.Leftmost first numbers last') : last = last' := by
  induction rewrites with
  | refl =>
    cases rewrites'
    rfl
  | @rewrite before after number rule numbers last terminals nonTerminal _ found _ ih =>
    generalize begun : before ++ rule.head :: after = form at rewrites'
    cases rewrites' with
    | @rewrite before' after' _ rule' _ _ terminals' nonTerminal' _ found' rest' =>
      have one : rule = rule' := Option.some.inj (found.symm.trans found')
      subst one
      obtain ⟨front, -, behind⟩ := leftmost_split terminals nonTerminal terminals' nonTerminal' begun
      exact ih (by rw [front, behind]; exact rest')

end ParseTables.Grammar
