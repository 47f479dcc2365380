import ParseTables.Grammar.Basic

namespace ParseTables.Grammar

/-- The listed rules of the given numbers rewrite one string to another, in order and each at the
rightmost non-terminal. -/
inductive Rightmost (g : Grammar) : List Nat → List Nat → List Nat → Prop
  | refl {form} : Rightmost g form [] form
  | rewrite {before after number rule numbers form} : 0 < number → g.rule? number = some rule →
      (∀ symbol ∈ after, g.isTerminal symbol) → Rightmost g (before ++ rule.body ++ after) numbers form →
      Rightmost g (before ++ rule.head :: after) (number :: numbers) form

/-- Further terminals at the end do no harm, as terminals stand there anyway. -/
theorem Rightmost.append_terminals {g : Grammar} {first last numbers word : List Nat}
    (rewrites : g.Rightmost first numbers last) (terminals : ∀ symbol ∈ word, g.isTerminal symbol) :
    g.Rightmost (first ++ word) numbers (last ++ word) := by
  induction rewrites with
  | refl => exact .refl
  | @rewrite before after number rule numbers last positive found behind _ ih =>
    have behind' : ∀ symbol ∈ after ++ word, g.isTerminal symbol := fun symbol member =>
      (List.mem_append.mp member).elim (behind symbol) (terminals symbol)
    rw [List.append_assoc] at ih
    rw [List.append_assoc, List.cons_append]
    exact .rewrite positive found behind' ih

end ParseTables.Grammar
