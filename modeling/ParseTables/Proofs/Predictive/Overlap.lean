import Mathlib.Data.List.Nodup
import ParseTables.Proofs.Lookahead.Begins
import ParseTables.Proofs.Predictive.Rivals

namespace ParseTables.Grammar

variable {g : Grammar} {terminal : Nat}

/-- In a table without conflict, a string that vanishes does not begin with a terminal that follows all
of its symbols. For such a terminal comes from some symbol that can vanish too and which it follows as
well, and so on down to a symbol with two rules for it. -/
theorem not_begins_of_vanishing (wf : g.WellFormed) (clean : g.llTable.hasConflict = false)
    {symbols : List Nat} (begins : g.Begins terminal symbols) (vanish : g.Derives symbols [])
    (follows : ∀ symbol ∈ symbols, terminal ∈ g.follow symbol) : False := by
  induction begins with
  | here isTerminal =>
    have listed := wf.listed_of_vanishing (derives_nil_iff.mp vanish terminal List.mem_cons_self)
    rw [not_isTerminal_of_listed listed] at isTerminal
    cases isTerminal
  | @skip symbol rest _ _ ih =>
    have each := derives_nil_iff.mp vanish
    exact ih (derives_nil_iff.mpr fun other member => each other (List.mem_cons_of_mem _ member))
      fun other member => follows other (List.mem_cons_of_mem _ member)
  | @enter rule rest listed begins ih =>
    -- the rule by which the head vanishes is called for too, so it is the one that begins with the
    -- terminal
    have vanishes := derives_nil_iff.mp vanish rule.head List.mem_cons_self
    obtain ⟨rule', listed', heads, empty⟩ := exists_rule_of_vanishing vanishes
    have followsHead := follows rule.head List.mem_cons_self
    have predicts : g.Predicts rule terminal := Or.inl ((begins_iff wf).mp begins)
    have predicts' : g.Predicts rule' terminal :=
      Or.inr ⟨(nullable_first_iff wf).mpr empty, heads ▸ followsHead⟩
    obtain rfl := eq_of_predicts clean listed listed' heads.symm predicts predicts'
    exact ih empty fun symbol member => mem_follow_of_vanishing wf listed empty member followsHead

/-- A terminal that begins a rule's body and follows its head is entered twice if the body can vanish. -/
theorem count_predictors {first : FirstSets} {follow : FollowSets} {rule : Rule}
    (nullable : (first.ofSequence g rule.body).nullable)
    (begins : terminal ∈ (first.ofSequence g rule.body).terminals)
    (follows : terminal ∈ (follow.get? rule.head).getD ∅) :
    (g.predictors first follow rule).count terminal = 2 := by
  rw [predictors, if_pos nullable, List.count_append,
    List.count_eq_one_of_mem (SortedSet.nodup _) begins,
    List.count_eq_one_of_mem (SortedSet.nodup _) follows]

/-- A rule that is entered twice in one cell never hides a conflict: one is recorded, though it may be
for another cell. In a table without conflict no terminal both begins and follows a non-terminal that
vanishes. -/
theorem hasConflict_of_twice {pairs : List (String × String)} {designated : Option String} {g : Grammar}
    (built : ofRules pairs designated = .ok g) (policy : ReducePolicy) :
    let a := Analysis.ofGrammar g policy
    (∀ rule ∈ g.listed, ∀ terminal, (a.first.ofSequence g rule.body).nullable →
      terminal ∈ (a.first.ofSequence g rule.body).terminals →
        terminal ∈ (a.follow.get? rule.head).getD ∅ →
      (g.predictors a.first a.follow rule).count terminal = 2 ∧ a.predictive.hasConflict = true) ∧
    (a.predictive.hasConflict = false → ∀ symbol first follow, a.first.get? symbol = some first →
      a.follow.get? symbol = some follow → first.nullable →
          ∀ terminal ∈ first.terminals, terminal ∉ follow) := by
  have wf := wellFormed_ofRules built
  intro a
  constructor
  · intro rule listed terminal nullable begins follows
    refine ⟨count_predictors nullable begins follows, Bool.of_not_eq_false fun clean => ?_⟩
    have empty := (nullable_first_iff wf).mp nullable
    exact not_begins_of_vanishing wf clean ((begins_iff wf).mpr begins) empty
      fun symbol member => mem_follow_of_vanishing wf listed empty member follows
  · intro clean symbol first follow entry entry' nullable terminal begins follows
    have listed := (g.firstSets_at_rest.2.1 symbol).mp (Option.isSome_iff_exists.mpr ⟨first, entry⟩)
    have whole : g.first [symbol] = first := first_cons_listed listed entry
    have starts : g.Begins terminal [symbol] := (begins_iff wf).mpr (whole ▸ begins)
    have empty := (nullable_first_iff wf).mp (whole ▸ nullable)
    refine not_begins_of_vanishing wf clean starts empty fun other member => ?_
    rw [List.mem_singleton.mp member, Grammar.follow,
      show (g.followSets g.firstSets).get? symbol = _ from entry']
    exact follows

/-- The rules `S -> A t`, `A -> B`, `B -> t` and `B -> e`. -/
def chained : Grammar := ⟨"S'", #["S", "A", "B"], #["t"], 1, [⟨1, [2, 4]⟩, ⟨2, [3]⟩, ⟨3, [4]⟩, ⟨3, []⟩]⟩

/-- The rule `A -> B` is entered twice on `t` without a conflict in its cell. There is one in the cell of
`B`. -/
theorem hasConflict_chained :
    let a := Analysis.ofGrammar chained .anyMultiple
    ofRules [("S", "A t"), ("A", "B"), ("B", "t"), ("B", "e")] none = .ok chained ∧
      (a.first.ofSequence chained [3]).nullable ∧ 4 ∈ (a.first.ofSequence chained [3]).terminals ∧
      4 ∈ (a.follow.get? 2).getD ∅ ∧ (chained.predictors a.first a.follow ⟨2, [3]⟩).count 4 = 2 ∧
      a.predictive.conflictsAt ⟨2, 4⟩ = [] ∧ a.predictive.hasConflict = true := by
  have built : ofRules [("S", "A t"), ("A", "B"), ("B", "t"), ("B", "e")] none = .ok chained := by cbv
  intro a
  have nullable : (a.first.ofSequence chained [3]).nullable := by decide +kernel
  have begins : 4 ∈ (a.first.ofSequence chained [3]).terminals := by decide +kernel
  have follows : 4 ∈ (a.follow.get? 2).getD ∅ := by decide +kernel
  obtain ⟨twice, recorded⟩ :=
    (hasConflict_of_twice built .anyMultiple).1 ⟨2, [3]⟩ (by simp [chained]) 4 nullable
    begins follows
  exact ⟨built, nullable, begins, follows, twice, by decide +kernel, recorded⟩

end ParseTables.Grammar
