import ParseTables.Proofs.ShiftReduce.Correct
import ParseTables.Proofs.ShiftReduce.Expects
import ParseTables.Proofs.ShiftReduce.Memory

namespace ParseTables.ShiftReduce

open Driver Grammar

variable {g : Grammar}

theorem Consistent.getElem?_position {input later : List Nat} {current : Nat} {config : Config}
    (consistent : Consistent g input config) (unread : config.rest = current :: later) :
    input[config.position]? = some current := by
  obtain ⟨read, spelled, split, length, -⟩ := consistent
  rw [split, unread, ← length, List.getElem?_append_right (Nat.le_refl _), Nat.sub_self]
  rfl

theorem run_cyclic_iff (wf : g.WellFormed) (calm : g.slrTable.hasConflict = false) (input : List Nat) :
    let run := (machine g.slrTable g).run (.initial input)
    Cyclic run.verdict ↔ ∃ step ∈ run.steps, ∃ terminal, input[step.position]? = some terminal ∧
      g.GoesRound terminal step.states := by
  intro run
  have halts := (machine g.slrTable g).run_halts (.initial input)
  constructor
  · intro cyclic
    obtain ⟨before, last, recorded, path, stopped, steps⟩ := halts
    have memory := (Memory.initial input).advances wf path
    obtain ⟨current, later, stack, unread, round, step, member, rfl, position⟩ :=
      memory.exists_goesRound wf stopped cyclic
    have consistent := (Consistent.initial (g := g) input).advances wf path
    rw [List.nil_append, ← steps] at member
    exact ⟨step, member, current, by rw [position]; exact consistent.getElem?_position unread, round⟩
  · rintro ⟨step, member, terminal, upcoming, round⟩
    obtain ⟨before, middle, path, made⟩ := halts.exists_config member
    obtain ⟨states, position, some⟩ := records (made.imp_right fun stopped => ⟨_, stopped⟩)
    obtain ⟨current, later, unread⟩ := List.exists_cons_of_ne_nil some
    have consistent := (Consistent.initial (g := g) input).advances wf path
    rw [position, consistent.getElem?_position unread] at upcoming
    obtain rfl := Option.some.inj upcoming
    obtain ⟨path', -⟩ := path.plain plain_of_go (fun _ member => absurd member List.not_mem_nil)
    have endless := endless_of_goesRound wf calm round middle.position later
    rw [states, ← unread] at endless
    rcases plain_of_run g.slrTable g input with same | ⟨cyclic, -⟩
    · exact absurd (Endless.of_path path' endless) same.not_endless
    · exact cyclic

/-- With a table without conflict, a run is rejected as a cycle of reductions just if one of the stacks
that it records goes round with the terminal that comes next. If every non-terminal derives the empty
string or a string that begins with a terminal, no run is. -/
theorem cyclic_iff_goesRound {pairs : List (String × String)} {designated : Option String} {g : Grammar}
    (built : Grammar.ofRules pairs designated = .ok g) (policy : ReducePolicy)
    (calm : (Analysis.ofGrammar g policy).actions.hasConflict = false) :
    (∀ tokens, let trace := trace (Analysis.ofGrammar g policy).actions g tokens
      Cyclic trace.verdict ↔ ∃ step ∈ trace.steps, ∃ terminal,
        trace.input[step.position]? = some terminal ∧ g.GoesRound terminal step.states) ∧
      (g.Fertile →
        ∀ tokens, ¬ Cyclic (trace (Analysis.ofGrammar g policy).actions g tokens).verdict) := by
  have wf := Grammar.wellFormed_ofRules built
  have calm' : g.slrTable.hasConflict = false := calm
  have exact : ∀ tokens, let trace := trace (Analysis.ofGrammar g policy).actions g tokens
      Cyclic trace.verdict ↔ ∃ step ∈ trace.steps, ∃ terminal,
        trace.input[step.position]? = some terminal ∧ g.GoesRound terminal step.states := by
    intro tokens trace
    cases resolved : g.resolve tokens with
    | error reason =>
      obtain ⟨token, rfl⟩ := exists_unknown resolved
      have stays : trace = .unresolved (.unknownSymbol token) := by
        simp only [trace, ShiftReduce.trace, resolved]
      rw [stays]
      simp [Cyclic, Trace.unresolved]
    | ok input =>
      have runs : trace = ⟨input, ((machine g.slrTable g).run (.initial input)).steps,
          ((machine g.slrTable g).run (.initial input)).verdict⟩ := by
        simp only [trace, ShiftReduce.trace, resolved]
        rfl
      rw [runs]
      exact run_cyclic_iff wf calm' input
  refine ⟨exact, fun fertile tokens cyclic => ?_⟩
  obtain ⟨step, -, terminal, -, round⟩ := (exact tokens).mp cyclic
  exact not_goesRound_of_fertile wf calm' fertile round

/-- The rules `S -> Y t`, `S -> x D`, `D -> Y D` and `Y -> e`. Nothing finite is derived from `D`. -/
def barren : Grammar :=
  ⟨"S'", #["S", "D", "Y"], #["t", "x"], 1, [⟨1, [3, 4]⟩, ⟨1, [5, 2]⟩, ⟨2, [3, 2]⟩, ⟨3, []⟩]⟩

theorem ofRules_barren :
    Grammar.ofRules [("S", "Y t"), ("S", "x D"), ("D", "Y D"), ("Y", "e")] none = .ok barren := by cbv

/-- No cell holds several actions, and yet `x t` is rejected as a cycle: after `x` the parser reduces by
`Y -> e` on `t`, and again in the state that this leads to. -/
theorem barren_cyclic :
    Grammar.ofRules [("S", "Y t"), ("S", "x D"), ("D", "Y D"), ("Y", "e")] none = .ok barren ∧
      (Analysis.ofGrammar barren .anyMultiple).actions.hasConflict = false ∧
      (trace (Analysis.ofGrammar barren .anyMultiple).actions barren ["x", "t"]).verdict =
        .rejected (.reductionCycle 6 4) :=
  ⟨ofRules_barren, by decide +kernel, by decide +kernel⟩

theorem goesRound_barren :
    (∃ step ∈ (trace (Analysis.ofGrammar barren .anyMultiple).actions barren ["x", "t"]).steps,
        ∃ terminal,
          (trace (Analysis.ofGrammar barren .anyMultiple).actions
            barren ["x", "t"]).input[step.position]? =
            some terminal ∧ barren.GoesRound terminal step.states) ∧
      sums.Fertile ∧
      ¬ Cyclic (trace (Analysis.ofGrammar sums .anyMultiple).actions sums ["a", "+", "+"]).verdict := by
  have fertile : sums.Fertile := by
    intro symbol member
    obtain rfl : symbol = 1 := by simpa [sums, nonTerminals, nonTerminalCount] using member
    have derives : sums.Derives [1] [3] := @Derives.of_rule sums ⟨1, [3]⟩ (by simp [sums])
    exact Or.inr ⟨3, [], by decide, derives⟩
  have some := (cyclic_iff_goesRound ofRules_barren .anyMultiple (by decide +kernel)).1 ["x", "t"]
  have none := (cyclic_iff_goesRound ofRules_sums .anyMultiple (by decide +kernel)).2 fertile
  exact ⟨some.mp ⟨6, 4, by decide +kernel⟩, fertile, none ["a", "+", "+"]⟩

end ParseTables.ShiftReduce
