import Mathlib.Logic.Equiv.Defs
import ParseTables.Proofs.Lookahead.Adjacent
import ParseTables.Proofs.Predictive.Cells

namespace ParseTables

/-- The rule with other numbers for its symbols. -/
def Rule.renumber (symbol : Nat → Nat) (rule : Rule) : Rule := ⟨symbol rule.head, rule.body.map symbol⟩

namespace Grammar

/-- Under these numbers for its symbols and its rules, the first grammar is a part of the second. The
hidden rule, the end mark and the names are kept. -/
structure Embeds (symbol number : Equiv.Perm Nat) (g g' : Grammar) : Prop where
  hidden : number 0 = 0
  endMark : symbol g.endMark = g'.endMark
  nonTerminal : ∀ other ∈ g.nonTerminals, symbol other ∈ g'.nonTerminals
  terminal : ∀ other, g.isTerminal other → g'.isTerminal (symbol other)
  rule : ∀ place rule, g.rule? place = some rule → g'.rule? (number place) = some (rule.renumber symbol)
  name : ∀ other name, 0 < other → g.name? other = some name → g'.name? (symbol other) = some name

variable {symbol number : Equiv.Perm Nat} {g g' : Grammar}

namespace Embeds

theorem start (embeds : Embeds symbol number g g') : symbol g.start = g'.start := by
  have hidden : g.rule? 0 = some ⟨0, [g.start]⟩ := rfl
  have found := embeds.rule 0 _ hidden
  rw [embeds.hidden] at found
  have same : (⟨0, [g'.start]⟩ : Rule) = ⟨symbol 0, [symbol g.start]⟩ := Option.some.inj found
  exact (List.cons.inj (Rule.mk.inj same).2).1.symm

theorem number_pos (embeds : Embeds symbol number g g') {place : Nat} (positive : 0 < place) :
    0 < number place := by
  refine Nat.pos_of_ne_zero fun zero => Nat.ne_of_gt positive ?_
  exact number.injective (zero.trans embeds.hidden.symm)

theorem mem_listed (embeds : Embeds symbol number g g') {rule : Rule} (listed : rule ∈ g.listed) :
    rule.renumber symbol ∈ g'.listed := by
  obtain ⟨place, positive, found⟩ := exists_number listed
  exact mem_listed_of_rule? (embeds.number_pos positive) (embeds.rule place rule found)

theorem produces (embeds : Embeds symbol number g g') {u v : List Nat} (step : g.Produces u v) :
    g'.Produces (u.map symbol) (v.map symbol) := by
  cases step with
  | rewrite before after listed =>
    have step := Produces.rewrite (before.map symbol) (after.map symbol) (embeds.mem_listed listed)
    simpa only [Rule.renumber, List.map_append, List.map_cons] using step

theorem derives (embeds : Embeds symbol number g g') {u v : List Nat} (derives : g.Derives u v) :
    g'.Derives (u.map symbol) (v.map symbol) :=
  Relation.ReflTransGen.lift (List.map symbol) (fun _ _ step => embeds.produces step) u v derives

variable (wf : g.WellFormed) (wf' : g'.WellFormed)
include wf wf'

theorem mem_first (embeds : Embeds symbol number g g') {symbols : List Nat} {terminal : Nat}
    (begins : terminal ∈ (g.first symbols).terminals) :
    symbol terminal ∈ (g'.first (symbols.map symbol)).terminals := by
  obtain ⟨isTerminal, rest, derives⟩ := (mem_first_iff wf).mp begins
  exact (mem_first_iff wf').mpr ⟨embeds.terminal terminal isTerminal, _, embeds.derives derives⟩

theorem nullable_first (embeds : Embeds symbol number g g') {symbols : List Nat}
    (vanishes : (g.first symbols).nullable) : (g'.first (symbols.map symbol)).nullable :=
  (nullable_first_iff wf').mpr (embeds.derives ((nullable_first_iff wf).mp vanishes))

theorem mem_follow (embeds : Embeds symbol number g g') {nonTerminal terminal : Nat}
    (listed : nonTerminal ∈ g.nonTerminals) (follows : terminal ∈ g.follow nonTerminal) :
    symbol terminal ∈ g'.follow (symbol nonTerminal) := by
  obtain ⟨isTerminal, adjacent⟩ := (mem_follow_iff wf listed).mp follows
  refine (mem_follow_iff wf' (embeds.nonTerminal _ listed)).mpr ⟨embeds.terminal terminal isTerminal, ?_⟩
  rcases adjacent with ⟨head, inGrammar, before, after, derives⟩ | ⟨rfl, before, derives⟩
  · have derives' := embeds.derives derives
    rw [List.map_append] at derives'
    exact Or.inl ⟨symbol head, embeds.nonTerminal head inGrammar, _, _, derives'⟩
  · have derives' := embeds.derives derives
    rw [List.map_append, List.map_singleton, embeds.start] at derives'
    exact Or.inr ⟨embeds.endMark, _, derives'⟩

theorem predicts (embeds : Embeds symbol number g g') {rule : Rule} (listed : rule ∈ g.listed)
    {terminal : Nat} (predicts : g.Predicts rule terminal) :
    g'.Predicts (rule.renumber symbol) (symbol terminal) := by
  rcases predicts with begins | ⟨vanishes, follows⟩
  · exact Or.inl (embeds.mem_first wf wf' begins)
  · exact Or.inr
      ⟨embeds.nullable_first wf wf' vanishes, embeds.mem_follow wf wf' (wf.head_mem listed) follows⟩

end Embeds

end Grammar

end ParseTables
