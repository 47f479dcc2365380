import ParseTables.Proofs.Driver.Verdicts
import ParseTables.Proofs.Grammar.Bodies
import ParseTables.Proofs.Lookup.Tables
import ParseTables.Render.Trace

namespace ParseTables

open Driver Grammar

variable {g : Grammar}

theorem exists_namesOf {symbols : List Nat} (each : ∀ symbol ∈ symbols, g.HasSymbol symbol) :
    ∃ names, g.namesOf? symbols = some names := exists_mapM each

theorem Grammar.Derives.hasSymbol (wf : g.WellFormed) {u v : List Nat} (derives : g.Derives u v)
    (before : ∀ symbol ∈ u, g.HasSymbol symbol) : ∀ symbol ∈ v, g.HasSymbol symbol := by
  induction derives with
  | refl => exact before
  | tail _ step ih =>
    cases step with
    | rewrite left right listed =>
      obtain ⟨number, -, defined⟩ := exists_number listed
      simp only [List.mem_append, List.mem_cons] at ih ⊢
      rintro symbol ((inLeft | inBody) | inRight)
      · exact ih symbol (Or.inl inLeft)
      · exact hasSymbol_body wf defined symbol inBody
      · exact ih symbol (Or.inr (Or.inr inRight))

/-- Tokens are resolved to terminals. -/
theorem isTerminal_of_resolve {tokens : List String} {input : List Nat}
    (resolved : g.resolve tokens = .ok input) : ∀ terminal ∈ input, g.isTerminal terminal := by
  simp only [Grammar.resolve, bind, Except.bind] at resolved
  split at resolved
  · cases resolved
  · rename_i terminals read
    have known : ∀ terminal ∈ terminals, g.isTerminal terminal := by
      intro terminal member
      obtain ⟨token, -, found⟩ := exists_of_mem_mapM read member
      split at found
      · rename_i other named
        obtain rfl := Except.ok.inj found
        exact (Option.filter_eq_some_iff.mp named).2
      · cases found
    obtain rfl := Except.ok.inj resolved
    intro terminal member
    unfold closeInput at member
    split at member
    · exact known terminal member
    · rcases List.mem_append.mp member with inWord | last
      · exact known terminal inWord
      · exact List.mem_singleton.mp last ▸ endMark_isTerminal

/-- The tokens, the steps and what the verdict names are all there, given what is to be there for a
step. -/
structure Driver.Trace.RunsInRange {Step : Type} (g : Grammar) (InRange : List Nat → Step → Prop)
    (trace : Trace Step) :
    Prop where
  input : ∀ terminal ∈ trace.input, g.HasSymbol terminal
  steps : ∀ step ∈ trace.steps, InRange trace.input step
  verdict : ∃ text, trace.verdict.text? g = some text

namespace Predictive

/-- All that a step takes by its number is there. -/
structure Step.InRange (g : Grammar) (input : List Nat) (step : Step) : Prop where
  position : step.position < input.length
  stack : ∀ symbol ∈ step.symbols g, g.HasSymbol symbol
  matched : ∀ terminal, step.action = .matched terminal → g.HasSymbol terminal
  expanded : ∀ number, step.action = .expand number → g.HasRule number

section Consistent

variable (wf : g.WellFormed) {word : List Nat} {config : Config}
  (consistent : Consistent g (word ++ [g.endMark]) config)
include wf consistent

theorem Consistent.stack : ∀ symbol ∈ config.stack, g.HasSymbol symbol := by
  obtain ⟨read, -, -, derives⟩ := consistent
  have all := derives.hasSymbol wf fun symbol member => by
    rw [List.mem_singleton.mp member]
    exact hasSymbol_of_listed (start_mem wf)
  exact fun symbol member => all symbol (List.mem_append_right _ member)

theorem Consistent.position_lt : config.position < (word ++ [g.endMark]).length := by
  have left := List.length_pos_iff.mpr (consistent.rest_ne_nil wf)
  obtain ⟨read, split, length, -⟩ := consistent
  rw [split, List.length_append]
  omega

theorem Consistent.record {action : Action}
    (matched : ∀ terminal, action = .matched terminal → g.HasSymbol terminal)
    (expanded : ∀ number, action = .expand number → g.HasRule number) :
    (config.record action).InRange g (word ++ [g.endMark]) := by
  refine ⟨consistent.position_lt wf, fun symbol member => ?_, matched, expanded⟩
  rcases List.mem_cons.mp member with rfl | inStack
  · exact hasSymbol_of_le (Nat.le_refl _)
  · exact consistent.stack wf symbol (List.mem_reverse.mp inStack)

theorem Consistent.inRange_go {step : Step} {next : Config}
    (moved : advance g.llTable g config = .go step next) :
    step.InRange g (word ++ [g.endMark]) := by
  cases advance_eq_go.mp moved with
  | @matched top below later stacked unread isTerminal =>
    refine consistent.record wf (fun terminal same => ?_) (by simp)
    obtain rfl := Action.matched.inj same
    exact hasSymbol_of_isTerminal isTerminal
  | expand stacked unread nonTerminal cell fresh defined =>
    refine consistent.record wf (by simp) fun number same => ?_
    obtain rfl := Action.expand.inj same
    exact ⟨_, defined⟩

theorem Consistent.inRange_stop {step : Step} {verdict : Verdict}
    (stopped : advance g.llTable g config = .stop (some step) verdict) :
    step.InRange g (word ++ [g.endMark]) := by
  have last : ∀ action, action = .accept ∨ action = .reject →
      (config.record action).InRange g (word ++ [g.endMark]) := fun action ends =>
    consistent.record wf (by rintro terminal rfl; simp at ends) (by rintro number rfl; simp at ends)
  generalize known : some step = recorded at stopped
  cases advance_eq_stop.mp stopped with
  | accept => exact Option.some.inj known ▸ last _ (Or.inl rfl)
  | undefined => cases known
  | leftover | exhausted | mismatch | noEntry | cycle =>
    exact Option.some.inj known ▸ last _ (Or.inr rfl)

theorem Consistent.told (terminals : ∀ terminal ∈ word ++ [g.endMark], g.HasSymbol terminal)
    {recorded : Option Step} {verdict : Verdict}
    (stopped : advance g.llTable g config = .stop recorded verdict) :
    ∃ text, verdict.text? g = some text := by
  have stack := consistent.stack wf
  have rest : ∀ terminal ∈ config.rest, g.HasSymbol terminal := by
    obtain ⟨read, split, -, -⟩ := consistent
    exact fun terminal member => terminals terminal (split ▸ List.mem_append_right _ member)
  cases advance_eq_stop.mp stopped with
  | accept => exact ⟨_, rfl⟩
  | leftover =>
    obtain ⟨names, named⟩ := exists_namesOf rest
    simp [Verdict.text?, Rejection.message?, named]
  | exhausted _ ended => exact absurd ended (consistent.rest_ne_nil wf)
  | @mismatch top _ current _ stacked unread | @noEntry top _ current _ stacked unread
  | @cycle top _ current _ _ stacked unread =>
    obtain ⟨name, named⟩ := stack top (stacked ▸ List.mem_cons_self)
    obtain ⟨name', named'⟩ := rest current (unread ▸ List.mem_cons_self)
    simp [Verdict.text?, Rejection.message?, named, named']
  | undefined _ _ _ cell _ missing =>
    obtain ⟨_, -, found, -⟩ := predicts_of_cell cell
    simp [missing] at found

end Consistent

theorem runsInRange (wf : g.WellFormed) (tokens : List String) :
    (trace g.llTable g tokens).RunsInRange g (Step.InRange g) := by
  cases resolved : g.resolve tokens with
  | error reason =>
    obtain ⟨token, rfl⟩ := exists_unknown resolved
    rw [trace_of_error resolved]
    exact ⟨by simp [Trace.unresolved], by simp [Trace.unresolved], _, rfl⟩
  | ok input =>
    have terminals : ∀ terminal ∈ input, g.HasSymbol terminal := fun terminal member =>
      hasSymbol_of_isTerminal (isTerminal_of_resolve resolved terminal member)
    obtain ⟨word, rfl⟩ := exists_word_of_resolve resolved
    have halts := (machine g.llTable g).run_halts (.initial g (word ++ [g.endMark]))
    rw [trace_of_ok resolved]
    refine ⟨terminals, fun step member => ?_, ?_⟩
    · obtain ⟨_, middle, path, made⟩ := halts.exists_config member
      have consistent := (Consistent.initial _).advances path
      rcases made with ⟨next, moved⟩ | stopped
      · exact consistent.inRange_go wf moved
      · exact consistent.inRange_stop wf stopped
    · obtain ⟨_, _, _, path, stopped, -⟩ := halts
      exact ((Consistent.initial _).advances path).told wf terminals stopped

end Predictive

namespace ShiftReduce

/-- All that a step takes by its number is there. A reduction leaves a state on the stack. -/
structure Step.InRange (g : Grammar) (input : List Nat) (step : Step) : Prop where
  position : step.position < input.length
  states : step.states ≠ [] ∧ ∀ state ∈ step.states, state < g.automaton.states.length
  shifted : ∀ target, step.action = some (.shift target) → target < g.automaton.states.length
  reduced : ∀ number, step.action = some (.reduce number) →
    ∃ rule, g.rule? number = some rule ∧ rule.body.length < step.states.length

theorem target_lt {state symbol target : Nat} (edge : g.target? state symbol = some target) :
    target < g.automaton.states.length := by
  have length : g.automaton.states.length = g.kernels.toList.length := List.length_map _
  rw [length]
  cases entry : g.kernels.toList[state]? with
  | none => simp [target?, getElem?_states, entry] at edge
  | some kernel => exact (List.getElem?_eq_some_iff.mp (edge_of_target entry edge).2).1

theorem spells_lt {states symbols : List Nat} (path : g.Spells states symbols) :
    ∀ state ∈ states, state < g.automaton.states.length := by
  induction path with
  | start =>
    have first : 0 < g.automaton.states.length := by
      rw [show g.automaton.states.length = g.kernels.toList.length from List.length_map _]
      exact (List.getElem?_eq_some_iff.mp kernels_zero).1
    exact fun state member => List.mem_singleton.mp member ▸ first
  | push _ edge ih => exact List.forall_mem_cons.mpr ⟨target_lt edge, ih⟩

section Consistent

variable (wf : g.WellFormed) {word : List Nat} {config : Config}
  (consistent : Consistent g (word ++ [g.endMark]) config)
include wf consistent

/-- Whatever action the table has, the step is recorded with numbers that are in use. -/
theorem Consistent.record {current : Nat} {action : Option LRAction}
    (found : (g.slrTable.actions config.state current).head? = action) :
    (config.record action).InRange g (word ++ [g.endMark]) := by
  have left := List.length_pos_iff.mpr (consistent.rest_ne_nil wf)
  obtain ⟨read, spelled, split, length, path, -⟩ := consistent
  refine ⟨?_, ⟨List.cons_ne_nil _ _, spells_lt path⟩, fun target shifts => ?_, fun number reduces => ?_⟩
  · rw [split, List.length_append]
    show config.position < _
    omega
  · rw [show action = some (.shift target) from shifts] at found
    exact target_lt (shift_mem_actions.mp (List.mem_of_head? found)).2
  · rw [show action = some (.reduce number) from reduces] at found
    obtain ⟨rule, origin, remaining, -, -, -, defined, -, popped, -⟩ := exists_reduced wf path found
    have exposed : ((config.state :: config.below).drop rule.body.length).length =
        remaining.length + 1 :=
      congrArg List.length popped
    rw [List.length_drop] at exposed
    refine ⟨rule, defined, ?_⟩
    show _ < (config.state :: config.below).length
    omega

theorem Consistent.inRange {step : Step} (made : (∃ next, advance g.slrTable g config = .go step next) ∨
      ∃ verdict, advance g.slrTable g config = .stop (some step) verdict) :
    step.InRange g (word ++ [g.endMark]) := by
  rcases made with ⟨next, moved⟩ | ⟨verdict, stopped⟩
  · cases advance_eq_go.mp moved with
    | shift _ found | reduce _ found => exact consistent.record wf found
  · generalize known : some step = recorded at stopped
    cases advance_eq_stop.mp stopped with
    | exhausted => cases known
    | noAction _ found | undefined _ found | underflow _ found | cycle _ found | noGoto _ found
    | accept _ found
    | leftover _ _ found => exact Option.some.inj known ▸ consistent.record wf found

theorem Consistent.told (terminals : ∀ terminal ∈ word ++ [g.endMark], g.HasSymbol terminal)
    {recorded : Option Step} {verdict : Verdict}
    (stopped : advance g.slrTable g config = .stop recorded verdict) :
    ∃ text, verdict.text? g = some text := by
  have ends := consistent.ending wf stopped
  have rest : ∀ terminal ∈ config.rest, g.HasSymbol terminal := by
    obtain ⟨read, _, split, -⟩ := consistent
    exact fun terminal member => terminals terminal (split ▸ List.mem_append_right _ member)
  cases advance_eq_stop.mp stopped with
  | accept => exact ⟨_, rfl⟩
  | leftover =>
    obtain ⟨names, named⟩ := exists_namesOf rest
    simp [Verdict.text?, Rejection.message?, named]
  | @noAction current _ unread | @cycle current _ _ _ _ _ unread =>
    obtain ⟨name, named⟩ := rest current (unread ▸ List.mem_cons_self)
    simp [Verdict.text?, Rejection.message?, named]
  | exhausted | undefined | underflow | noGoto => cases ends

end Consistent

theorem runsInRange (wf : g.WellFormed) (tokens : List String) :
    (trace g.slrTable g tokens).RunsInRange g (Step.InRange g) := by
  cases resolved : g.resolve tokens with
  | error reason =>
    obtain ⟨token, rfl⟩ := exists_unknown resolved
    rw [trace_of_error resolved]
    exact ⟨by simp [Trace.unresolved], by simp [Trace.unresolved], _, rfl⟩
  | ok input =>
    have terminals : ∀ terminal ∈ input, g.HasSymbol terminal := fun terminal member =>
      hasSymbol_of_isTerminal (isTerminal_of_resolve resolved terminal member)
    obtain ⟨word, rfl⟩ := exists_word_of_resolve resolved
    have halts := (machine g.slrTable g).run_halts (.initial (word ++ [g.endMark]))
    rw [trace_of_ok resolved]
    refine ⟨terminals, fun step member => ?_, ?_⟩
    · obtain ⟨_, middle, path, made⟩ := halts.exists_config member
      exact ((Consistent.initial _).advances wf path).inRange wf
        (made.imp_right fun stopped => ⟨_, stopped⟩)
    · obtain ⟨_, _, _, path, stopped, -⟩ := halts
      exact ((Consistent.initial _).advances wf path).told wf terminals stopped

end ShiftReduce

end ParseTables
