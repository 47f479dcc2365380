import ParseTables.Analysis
import ParseTables.Proofs.Automaton.Viable
import ParseTables.Proofs.Grammar.Rightmost
import ParseTables.Proofs.ShiftReduce.Drive

namespace ParseTables.ShiftReduce

open Driver Grammar

/-- The symbols that the stack spells are rewritten to what has been read by the rules of the reductions
made, the last one first. -/
def Unwinds (g : Grammar) (input : List Nat) (made : List Step) (config : Config) : Prop :=
  ∃ read spelled, input = read ++ config.rest ∧ read.length = config.position ∧
    g.Spells (config.state :: config.below) spelled ∧
    g.Rightmost spelled.reverse (reducedRules made).reverse read

variable {g : Grammar}

theorem Unwinds.initial (input : List Nat) : Unwinds g input [] (.initial input) :=
  ⟨[], [], rfl, rfl, .start, .refl⟩

theorem Unwinds.go (wf : g.WellFormed) {input : List Nat} {made : List Step} {config next : Config}
    {recorded : Step} (unwinds : Unwinds g input made config)
    (moved : advance g.slrTable g config = .go recorded next) :
    Unwinds g input (made ++ [recorded]) next := by
  obtain ⟨read, spelled, split, length, path, rewrites⟩ := unwinds
  cases advance_eq_go.mp moved with
  | @shift current _ target unread action =>
    obtain ⟨isTerminal, edge⟩ := shift_mem_actions.mp (List.mem_of_head? action)
    have same : reducedRules (made ++ [config.record (some (.shift target))]) = reducedRules made := by
      simp [reducedRules, Step.reducedRule?, Config.record]
    refine ⟨read ++ [current], current :: spelled, ?_, by simp [length], path.push edge, ?_⟩
    · rw [split, unread, List.append_assoc, List.singleton_append]
    · rw [same, List.reverse_cons]
      exact rewrites.append_terminals (by simpa using isTerminal)
  | @reduce _ _ number rule _ _ _ _ action found popped _ edge =>
    obtain ⟨spelled', target, -, -, rfl, edge', path'⟩ := spells_reduced wf path action found popped
    obtain rfl := Option.some.inj (edge'.symm.trans edge)
    have positive := (mem_reductionsOn.mp (reduce_mem_actions.mp (List.mem_of_head? action))).1
    have one : reducedRules (made ++ [config.record (some (.reduce number))]) =
        reducedRules made ++ [number] := by simp [reducedRules, Step.reducedRule?, Config.record]
    refine ⟨read, rule.head :: spelled', split, length, path', ?_⟩
    -- undone first, the reduction puts the body back where the head is now, on top of the stack
    rw [one, List.reverse_cons, List.reverse_append, List.reverse_singleton]
    rw [List.reverse_append, List.reverse_reverse, ← List.append_nil (_ ++ rule.body)] at rewrites
    exact .rewrite positive found (by simp) rewrites

theorem Unwinds.advances (wf : g.WellFormed) {input : List Nat} {made steps : List Step}
    {config last : Config} (unwinds : Unwinds g input made config)
    (path : Advances (advance g.slrTable g) config steps last) :
    Unwinds g input (made ++ steps) last := by
  induction path generalizing made with
  | refl => simpa using unwinds
  | step moved _ ih => simpa using ih (unwinds.go wf moved)

/-- What a step tells of the configuration in which it is recorded. -/
theorem Unwinds.at_step (wf : g.WellFormed) {input : List Nat} {made : List Step} {config : Config}
    (unwinds : Unwinds g input made config) {step : Step} {verdict : Verdict}
    (recorded : (∃ next, advance g.slrTable g config = .go step next) ∨
      advance g.slrTable g config = .stop (some step) verdict) :
    step.position < input.length ∧ step.states.getLast? = some 0 ∧
      ∃ spelled rest, g.Spells step.states spelled ∧
        g.Rightmost spelled.reverse (reducedRules made).reverse (input.take step.position) ∧
        g.Derives [g.start] (spelled.reverse ++ rest) := by
  obtain ⟨states, position, unread⟩ := records (recorded.imp_right fun stopped => ⟨verdict, stopped⟩)
  obtain ⟨read, spelled, split, length, path, rewrites⟩ := unwinds
  obtain ⟨rest, derives⟩ := path.exists_form wf
  have inside := List.length_pos_iff.mpr unread
  have taken : input.take step.position = read := by rw [position, ← length, split, List.take_left]
  rw [taken, states]
  refine ⟨?_, path.getLast?, spelled, rest, path, rewrites, derives⟩
  rw [position, ← length, split, List.length_append]
  omega

theorem Unwinds.accepted (wf : g.WellFormed) {input : List Nat} {made : List Step} {config : Config}
    (unwinds : Unwinds g input made config) {recorded : Option Step}
    (stopped : advance g.slrTable g config = .stop recorded .accepted) :
    ∃ word, input = word ++ [g.endMark] ∧
      g.Rightmost [g.start] (reducedRules (made ++ recorded.toList)).reverse word := by
  obtain ⟨read, spelled, split, length, path, rewrites⟩ := unwinds
  cases advance_eq_stop.mp stopped with
  | accept upcoming action =>
    obtain ⟨rfl, member⟩ := accept_mem_actions.mp (List.mem_of_head? action)
    have same : reducedRules (made ++ (some (config.record (some .accept))).toList) =
        reducedRules made := by
      simp [reducedRules, Step.reducedRule?, Config.record]
    rw [upcoming] at split
    rw [path.of_accepting wf member] at rewrites
    exact ⟨read, split, same ▸ rewrites⟩

/-- At every step the states lead from the first one along symbols that undoing the reductions made so
far rewrites to the tokens read so far, rightmost first, and with which a string derived from the start
symbol begins. On acceptance, undoing all reductions derives the whole input from the start symbol. -/
theorem trace_unwinds {pairs : List (String × String)} {designated : Option String} {g : Grammar}
    (built : Grammar.ofRules pairs designated = .ok g) (policy : ReducePolicy) (tokens : List String) :
    let trace := trace (Analysis.ofGrammar g policy).actions g tokens
    (∀ earlier step later, trace.steps = earlier ++ step :: later →
      step.position < trace.input.length ∧ step.states.getLast? = some 0 ∧
        ∃ spelled rest, g.Spells step.states spelled ∧
          g.Rightmost spelled.reverse (reducedRules earlier).reverse (trace.input.take step.position) ∧
          g.Derives [g.start] (spelled.reverse ++ rest)) ∧
      (trace.accepted → ∃ word, trace.input = word ++ [g.endMark] ∧
        g.Rightmost [g.start] (reducedRules trace.steps).reverse word) := by
  have wf := Grammar.wellFormed_ofRules built
  intro trace
  cases resolved : g.resolve tokens with
  | error reason =>
    have stays : trace = .unresolved reason := trace_of_error resolved
    rw [stays]
    simp [Trace.unresolved, Trace.accepted]
  | ok input =>
    have runs : trace = ⟨input, ((machine g.slrTable g).run (.initial input)).steps,
        ((machine g.slrTable g).run (.initial input)).verdict⟩ := trace_of_ok resolved
    have read : trace.input = input := by rw [runs]
    have halts : HaltsWith (advance g.slrTable g) (.initial input) trace.steps trace.verdict := by
      rw [runs]
      exact (machine g.slrTable g).run_halts (.initial input)
    rw [read]
    refine ⟨fun earlier step later split => ?_, fun accepted => ?_⟩
    · rw [split] at halts
      obtain ⟨config, path, recorded⟩ := halts.config_at
      exact ((Unwinds.initial input).advances wf path).at_step wf recorded
    · obtain ⟨before, last, recorded, path, stopped, steps⟩ := halts
      have verdict : trace.verdict = .accepted := of_decide_eq_true accepted
      rw [verdict] at stopped
      rw [steps]
      exact ((Unwinds.initial input).advances wf path).accepted wf stopped

/-- Sums without grouping, by `E -> E + E` and `E -> a`. -/
def ungrouped : Grammar := ⟨"E'", #["E"], #["+", "a"], 1, [⟨1, [1, 2, 1]⟩, ⟨1, [3]⟩]⟩

/-- The table prefers to shift the second `+`, so the sum is grouped to the right. -/
theorem unwinds_ungrouped :
    Grammar.ofRules [("E", "E + E"), ("E", "a")] none = .ok ungrouped ∧
      (Analysis.ofGrammar ungrouped .anyMultiple).actions.hasConflict ∧
      ∃ word, (trace (Analysis.ofGrammar ungrouped .anyMultiple).actions ungrouped
          ["a", "+", "a", "+", "a"]).input = word ++ [4] ∧
        ungrouped.Rightmost [1] [1, 1, 2, 2, 2] word := by
  have built : Grammar.ofRules [("E", "E + E"), ("E", "a")] none = .ok ungrouped := by cbv
  have conflict : (Analysis.ofGrammar ungrouped .anyMultiple).actions.hasConflict := by decide +kernel
  have accepted : (trace (Analysis.ofGrammar ungrouped .anyMultiple).actions ungrouped
      ["a", "+", "a", "+", "a"]).accepted := by decide +kernel
  have rules : (reducedRules (trace (Analysis.ofGrammar ungrouped .anyMultiple).actions ungrouped
      ["a", "+", "a", "+", "a"]).steps).reverse = [1, 1, 2, 2, 2] := by decide +kernel
  have derivation := (trace_unwinds built .anyMultiple ["a", "+", "a", "+", "a"]).2 accepted
  rw [rules] at derivation
  exact ⟨built, conflict, derivation⟩

end ParseTables.ShiftReduce
