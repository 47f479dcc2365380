import ParseTables.Proofs.Lookahead.Follow

namespace ParseTables.Grammar

variable {g : Grammar}

/-- The Follow sets are the least ones that hold the end mark for the start symbol, what the rest of a
body begins with, and what follows the head if that rest can vanish. -/
theorem follow_induction {P : Nat → Nat → Prop} (ends : P g.start g.endMark)
    (begins : ∀ rule ∈ g.listed, ∀ before symbol rest, rule.body = before ++ symbol :: rest →
      ∀ terminal ∈ (g.first rest).terminals, P symbol terminal)
    (carries : ∀ rule ∈ g.listed, ∀ before symbol rest, rule.body = before ++ symbol :: rest →
      (g.first rest).nullable → ∀ terminal, P rule.head terminal → P symbol terminal)
    {symbol terminal : Nat} (member : terminal ∈ g.follow symbol) : P symbol terminal := by
  unfold follow at member
  cases entry : (g.followSets g.firstSets).get? symbol with
  | none => simp [entry] at member
  | some found =>
    rw [entry] at member
    refine followSetsAlong_induction (fun symbol found => followSeeds_induction ends begins)
      (fun link linked terminal holds => ?_) entry terminal member
    obtain ⟨rule, listed, before, rest, head, body, -, vanishes, -⟩ := mem_followLinks.mp linked
    exact carries rule listed before link.target rest body vanishes terminal (head ▸ holds)

/-- The terminal comes right after the symbol in a string that some non-terminal other than the hidden
one derives, or it is the end mark and the symbol ends a string that the start symbol derives. -/
def Adjacent (g : Grammar) (symbol terminal : Nat) : Prop :=
  (∃ head ∈ g.nonTerminals, ∃ before after, g.Derives [head] (before ++ symbol :: terminal :: after)) ∨
    terminal = g.endMark ∧ ∃ before, g.Derives [g.start] (before ++ [symbol])

/-- What comes right after the head of a rule comes right after the last symbol of its body that does not
vanish. -/
theorem Adjacent.of_nullable {rule : Rule} (listed : rule ∈ g.listed) {before rest : List Nat}
    {symbol terminal : Nat} (body : rule.body = before ++ symbol :: rest) (vanishes : g.Derives rest [])
    (adjacent : g.Adjacent rule.head terminal) : g.Adjacent symbol terminal := by
  have ends : g.Derives [rule.head] (before ++ [symbol]) := by
    have rewrites := Derives.of_rule listed
    have vanishing := vanishes.context (before ++ [symbol]) []
    rw [body] at rewrites
    exact rewrites.trans (by simpa using vanishing)
  rcases adjacent with ⟨head, inGrammar, left, right, derives⟩ | ⟨mark, left, derives⟩
  · have longer := ends.context left (terminal :: right)
    refine Or.inl ⟨head, inGrammar, left ++ before, right, derives.trans ?_⟩
    simpa using longer
  · have longer := ends.context left []
    refine Or.inr ⟨mark, left ++ before, derives.trans ?_⟩
    simpa using longer

theorem adjacent_of_mem_follow (wf : g.WellFormed) {symbol terminal : Nat}
    (member : terminal ∈ g.follow symbol) : g.Adjacent symbol terminal := by
  refine follow_induction (P := g.Adjacent) (Or.inr ⟨rfl, [], .refl _⟩)
    (fun rule listed before symbol rest body terminal begins => ?_)
    (fun rule listed before symbol rest body vanishes terminal adjacent => ?_) member
  · obtain ⟨-, more, derives⟩ := (mem_first_iff wf).mp begins
    have rewrites := Derives.of_rule listed
    have beginning := derives.context (before ++ [symbol]) []
    rw [body] at rewrites
    exact Or.inl ⟨rule.head, wf.head_mem listed, before, more, rewrites.trans (by simpa using beginning)⟩
  · exact adjacent.of_nullable listed body ((nullable_first_iff wf).mp vanishes)

theorem Before.of_le {u v : List Nat} (below : FirstSet.Le (g.first u) (g.first v)) {After : Nat → Prop}
    {terminal : Nat} (before : g.Before u After terminal) : g.Before v After terminal := by
  rcases before with begins | ⟨vanishes, after⟩
  · exact Or.inl (below.1 terminal begins)
  · exact Or.inr ⟨below.2 vanishes, after⟩

/-- A symbol of a string that has been put together from three stands in one of them. -/
theorem mem_of_three {α : Type} {first second third before after : List α} {a : α}
    (split : first ++ second ++ third = before ++ a :: after) :
    (∃ rest, first = before ++ a :: rest ∧ after = rest ++ second ++ third) ∨
      (∃ front rest, second = front ++ a :: rest ∧ after = rest ++ third) ∨
        ∃ front, third = front ++ a :: after := by
  rcases List.append_eq_append_iff.mp split with ⟨more, behind, rest⟩ | ⟨more, inFront, rest⟩
  · exact Or.inr (Or.inr ⟨more, rest⟩)
  cases more with
  | nil => exact Or.inr (Or.inr ⟨[], rest.symm⟩)
  | cons _ behind =>
    obtain ⟨rfl, rfl⟩ := List.cons.inj rest
    rcases List.append_eq_append_iff.mp inFront with ⟨front, -, inSecond⟩ | ⟨more, inFirst, rest⟩
    · exact Or.inr (Or.inl ⟨front, behind, inSecond, rfl⟩)
    cases more with
    | nil => exact Or.inr (Or.inl ⟨[], behind, rest.symm, rfl⟩)
    | cons _ others =>
      obtain ⟨rfl, rfl⟩ := List.cons.inj rest
      exact Or.inl ⟨others, inFirst, rfl⟩

/-- Where a non-terminal stands in a string derived from another, it is followed by what may come next
there. -/
theorem mem_follow_of_derives (wf : g.WellFormed) {head : Nat} {form : List Nat}
    (derives : g.Derives [head] form) {before after : List Nat} {symbol terminal : Nat}
    (place : form = before ++ symbol :: after) (listed : symbol ∈ g.nonTerminals)
    (next : g.Before after (· ∈ g.follow head) terminal) : terminal ∈ g.follow symbol := by
  induction derives generalizing before symbol after with
  | refl =>
    obtain ⟨rfl, rfl, rfl⟩ : before = [] ∧ symbol = head ∧ after = [] := by
      cases before <;> simp_all
    exact before_nil.mp next
  | tail _ step ih =>
    cases step with
    | @rewrite rule left right member =>
      rcases mem_of_three place with ⟨rest, rfl, rfl⟩ | ⟨front, rest, body, rfl⟩ | ⟨front, rfl⟩
      · have step := Produces.rewrite rest right member
        exact ih (List.append_assoc ..) listed (next.of_le (step.first_le wf))
      · rcases before_append.mp next with begins | ⟨vanishes, behind⟩
        · exact mem_follow_of_first member body listed begins
        · exact follow_le_of_nullable member body listed vanishes terminal
            (ih rfl (wf.head_mem member) behind)
      · have place : left ++ rule.head :: (front ++ symbol :: after) =
            (left ++ rule.head :: front) ++ symbol :: after := by simp
        exact ih place listed next

/-- Follow of a non-terminal holds exactly the terminals that can come right after it. -/
theorem mem_follow_iff (wf : g.WellFormed) {symbol terminal : Nat} (listed : symbol ∈ g.nonTerminals) :
    terminal ∈ g.follow symbol ↔ g.isTerminal terminal ∧ g.Adjacent symbol terminal := by
  constructor
  · intro member
    exact ⟨isTerminal_of_mem_follow member, adjacent_of_mem_follow wf member⟩
  · rintro ⟨isTerminal, ⟨head, -, before, after, derives⟩ | ⟨rfl, before, derives⟩⟩
    · refine mem_follow_of_derives wf derives rfl listed (Or.inl ?_)
      exact (mem_first_iff wf).mpr ⟨isTerminal, after, .refl _⟩
    · exact mem_follow_of_derives wf derives rfl listed (before_nil.mpr (endMark_mem_follow_start wf))

end ParseTables.Grammar
