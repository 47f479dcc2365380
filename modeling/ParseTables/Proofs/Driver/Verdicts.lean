import ParseTables.Proofs.Predictive.Correct
import ParseTables.Proofs.ShiftReduce.Correct

namespace ParseTables

open Driver Grammar

/-- How the shift-reduce parser may end with the table of a grammar. -/
inductive ShiftReduce.Ending : Verdict → Prop
  | accepted : Ending .accepted
  | unknownSymbol (token : String) : Ending (.rejected (.unknownSymbol token))
  | noAction (state terminal : Nat) : Ending (.rejected (.noAction state terminal))
  | leftoverInput (rest : List Nat) : Ending (.rejected (.leftoverInput rest))
  | reductionCycle (state terminal : Nat) : Ending (.rejected (.reductionCycle state terminal))

/-- How the predictive parser may end with the table of a grammar. -/
inductive Predictive.Ending : Verdict → Prop
  | accepted : Ending .accepted
  | unknownSymbol (token : String) : Ending (.rejected (.unknownSymbol token))
  | mismatch (expected found : Nat) : Ending (.rejected (.mismatch expected found))
  | noEntry (nonTerminal terminal : Nat) : Ending (.rejected (.noEntry nonTerminal terminal))
  | leftoverInput (rest : List Nat) : Ending (.rejected (.leftoverInput rest))
  | expansionCycle (nonTerminal terminal : Nat) :
      Ending (.rejected (.expansionCycle nonTerminal terminal))

variable {g : Grammar}

/-- Where the stack spells what derives the tokens read, a reduction finds its body and a state to go
to. -/
theorem ShiftReduce.Consistent.ending (wf : g.WellFormed) {word : List Nat} {config : Config}
    {recorded : Option Step} {verdict : Verdict} (consistent : Consistent g (word ++ [g.endMark]) config)
    (stopped : advance g.slrTable g config = .stop recorded verdict) : Ending verdict := by
  have unread := consistent.rest_ne_nil wf
  obtain ⟨_, _, -, -, path, -⟩ := consistent
  cases advance_eq_stop.mp stopped with
  | exhausted ended => exact absurd ended unread
  | noAction => exact .noAction _ _
  | undefined _ action missing =>
    obtain ⟨_, _, _, _, _, -, found, -⟩ := exists_reduced wf path action
    simp [missing] at found
  | underflow _ action found popped =>
    obtain ⟨_, _, _, _, _, -, found', -, popped', -⟩ := exists_reduced wf path action
    cases Option.some.inj (found.symm.trans found')
    simp [popped] at popped'
  | cycle => exact .reductionCycle _ _
  | noGoto _ action found popped _ missing =>
    obtain ⟨_, _, -, -, -, edge, -⟩ := spells_reduced wf path action found popped
    simp [missing] at edge
  | accept => exact .accepted
  | leftover => exact .leftoverInput _

theorem ShiftReduce.ending_trace (wf : g.WellFormed) (tokens : List String) :
    Ending (trace g.slrTable g tokens).verdict := by
  cases resolved : g.resolve tokens with
  | error reason =>
    obtain ⟨token, rfl⟩ := exists_unknown resolved
    rw [trace_of_error resolved]
    exact .unknownSymbol token
  | ok input =>
    obtain ⟨word, rfl⟩ := exists_word_of_resolve resolved
    obtain ⟨_, _, _, path, stopped, -⟩ :=
      (machine g.slrTable g).run_halts (.initial (word ++ [g.endMark]))
    rw [trace_of_ok resolved]
    exact ((Consistent.initial _).advances wf path).ending wf stopped

/-- Where the tokens read and the stack are derived from the start symbol, the end mark is still to
come. -/
theorem Predictive.Consistent.ending (wf : g.WellFormed) {word : List Nat} {config : Config}
    {recorded : Option Step} {verdict : Verdict} (consistent : Consistent g (word ++ [g.endMark]) config)
    (stopped : advance g.llTable g config = .stop recorded verdict) : Ending verdict := by
  cases advance_eq_stop.mp stopped with
  | accept => exact .accepted
  | leftover => exact .leftoverInput _
  | exhausted _ ended => exact absurd ended (consistent.rest_ne_nil wf)
  | mismatch => exact .mismatch _ _
  | noEntry => exact .noEntry _ _
  | cycle => exact .expansionCycle _ _
  | undefined _ _ _ cell _ missing =>
    obtain ⟨_, -, found, -⟩ := predicts_of_cell cell
    simp [missing] at found

theorem Predictive.ending_trace (wf : g.WellFormed) (tokens : List String) :
    Ending (trace g.llTable g tokens).verdict := by
  cases resolved : g.resolve tokens with
  | error reason =>
    obtain ⟨token, rfl⟩ := exists_unknown resolved
    rw [trace_of_error resolved]
    exact .unknownSymbol token
  | ok input =>
    obtain ⟨word, rfl⟩ := exists_word_of_resolve resolved
    obtain ⟨_, _, _, path, stopped, -⟩ :=
      (machine g.llTable g).run_halts (.initial g (word ++ [g.endMark]))
    rw [trace_of_ok resolved]
    exact ((Consistent.initial _).advances path).ending wf stopped

/-- With the tables of a grammar, conflicting or not, no reduction takes more from the stack than it
holds, none lacks a state to go to, and neither parser runs out of input. -/
theorem defensive_rejections_dead {pairs : List (String × String)} {designated : Option String}
    {g : Grammar} (built : Grammar.ofRules pairs designated = .ok g) (policy : ReducePolicy)
    (tokens : List String) :
    let shiftReduce := (ShiftReduce.trace (Analysis.ofGrammar g policy).actions g tokens).verdict
    let predictive := (Predictive.trace (Analysis.ofGrammar g policy).predictive g tokens).verdict
    (∀ rule, shiftReduce ≠ .rejected (.stackUnderflow rule)) ∧
      (∀ state nonTerminal, shiftReduce ≠ .rejected (.noGoto state nonTerminal)) ∧
      (∀ expected, shiftReduce ≠ .rejected (.inputExhausted expected)) ∧
      ∀ expected, predictive ≠ .rejected (.inputExhausted expected) := by
  have wf := Grammar.wellFormed_ofRules built
  intro shiftReduce predictive
  have ends : ShiftReduce.Ending shiftReduce := ShiftReduce.ending_trace wf tokens
  have ends' : Predictive.Ending predictive := Predictive.ending_trace wf tokens
  refine ⟨fun rule same => ?_, fun state nonTerminal same => ?_, fun expected same => ?_,
    fun expected same => ?_⟩
  · rw [same] at ends
    cases ends
  · rw [same] at ends
    cases ends
  · rw [same] at ends
    cases ends
  · rw [same] at ends'
    cases ends'

/-- Repetitions, by `S -> S S`, `S -> a` and `S -> e`. -/
def repetitions : Grammar := ⟨"S'", #["S"], #["a"], 1, [⟨1, [1, 1]⟩, ⟨1, [2]⟩, ⟨1, []⟩]⟩

/-- Both tables have conflicts, and an end mark stands among the tokens, but it is left over and not
read. -/
theorem defensive_rejections_repetitions :
    Grammar.ofRules [("S", "S S"), ("S", "a"), ("S", "e")] none = .ok repetitions ∧
      (Analysis.ofGrammar repetitions .followOverlap).actions.hasConflict ∧
      (Analysis.ofGrammar repetitions .followOverlap).predictive.hasConflict ∧
      (∀ rule, (ShiftReduce.trace (Analysis.ofGrammar repetitions .followOverlap).actions repetitions
        ["a", "$", "a"]).verdict ≠ .rejected (.stackUnderflow rule)) ∧
      ∀ expected, (Predictive.trace
        (Analysis.ofGrammar repetitions .followOverlap).predictive repetitions
        ["a", "$", "a"]).verdict ≠ .rejected (.inputExhausted expected) := by
  have built : Grammar.ofRules [("S", "S S"), ("S", "a"), ("S", "e")] none = .ok repetitions := by cbv
  obtain ⟨underflow, -, -, exhausted⟩ := defensive_rejections_dead built .followOverlap ["a", "$", "a"]
  exact ⟨built, by decide +kernel, by decide +kernel, underflow, exhausted⟩

end ParseTables
