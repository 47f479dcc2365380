import ParseTables.Analysis
import ParseTables.Proofs.Driver.Runs
import ParseTables.Proofs.Grammar.Leftmost
import ParseTables.Proofs.Grammar.Sentence
import ParseTables.Proofs.Predictive.Cells
import ParseTables.Proofs.Predictive.Steps

namespace ParseTables.Predictive

open Driver Grammar

/-- The rule by which a step expands. -/
def Step.expandedRule? (step : Step) : Option Nat :=
  match step.action with
  | .expand number => some number
  | _ => none

/-- The rules of the expansions among some steps. -/
def expandedRules (steps : List Step) : List Nat := steps.filterMap Step.expandedRule?

/-- What has been read, with the stack after it, is what the expansions made rewrite the start symbol
to. -/
def Rewrites (g : Grammar) (input : List Nat) (made : List Step) (config : Config) : Prop :=
  ∃ read, input = read ++ config.rest ∧ read.length = config.position ∧
    (∀ terminal ∈ read, g.isTerminal terminal) ∧
    g.Leftmost [g.start] (expandedRules made) (read ++ config.stack)

variable {g : Grammar}

theorem Rewrites.initial (input : List Nat) : Rewrites g input [] (.initial g input) :=
  ⟨[], rfl, rfl, fun _ member => absurd member List.not_mem_nil, .refl⟩

theorem Rewrites.go {input : List Nat} {made : List Step} {config next : Config} {recorded : Step}
    (rewrites : Rewrites g input made config) (moved : advance g.llTable g config = .go recorded next) :
    Rewrites g input (made ++ [recorded]) next := by
  obtain ⟨read, split, length, terminals, leftmost⟩ := rewrites
  cases advance_eq_go.mp moved with
  | @matched top below later stacked unread isTerminal =>
    have same : expandedRules (made ++ [config.record (.matched top)]) = expandedRules made := by
      simp [expandedRules, Step.expandedRule?, Config.record]
    refine ⟨read ++ [top], ?_, by simp [length], fun terminal member => ?_, ?_⟩
    · rw [split, unread, List.append_assoc, List.singleton_append]
    · rcases List.mem_append.mp member with old | last
      · exact terminals terminal old
      · exact List.mem_singleton.mp last ▸ isTerminal
    · rw [same, List.append_assoc, List.singleton_append, ← stacked]
      exact leftmost
  | @expand top below current later number rule stacked unread nonTerminal cell _ defined =>
    -- the cell holds a rule of its row, so the top of the stack is the head of the rule
    obtain ⟨rule', positive, defined', head, -⟩ := predicts_of_cell cell
    have chosen : rule = rule' := Option.some.inj (defined.symm.trans defined')
    subst chosen
    have one : expandedRules (made ++ [config.record (.expand number)]) =
        expandedRules made ++ [number] := by
      simp [expandedRules, Step.expandedRule?, Config.record]
    rw [stacked, ← head] at leftmost
    refine ⟨read, split, length, terminals, ?_⟩
    rw [one, ← List.append_assoc]
    exact leftmost.tail terminals (head ▸ nonTerminal) positive defined

theorem Rewrites.advances {input : List Nat} {made steps : List Step} {config last : Config}
    (rewrites : Rewrites g input made config) (path : Advances (advance g.llTable g) config steps last) :
    Rewrites g input (made ++ steps) last := by
  induction path generalizing made with
  | refl => simpa using rewrites
  | step moved _ ih => simpa using ih (rewrites.go moved)

/-- What a step tells of the configuration in which it is recorded. -/
theorem Rewrites.at_step {input : List Nat} {made : List Step} {config : Config}
    (rewrites : Rewrites g input made config) {step : Step} (stack : step.stack = config.stack)
    (position : step.position = config.position) :
    step.position ≤ input.length ∧ ∀ form,
      g.Leftmost [g.start, g.endMark] (expandedRules made) form ↔
        form = input.take step.position ++ (step.symbols g).reverse := by
  obtain ⟨read, split, length, -, leftmost⟩ := rewrites
  have taken : input.take step.position = read := by rw [position, ← length, split, List.take_left]
  have symbols : (step.symbols g).reverse = config.stack ++ [g.endMark] := by simp [Step.symbols, stack]
  have reached := leftmost.append [g.endMark]
  rw [List.append_assoc, ← symbols, ← taken] at reached
  refine ⟨?_, fun form => ⟨fun rewritten => rewritten.unique reached, fun same => same ▸ reached⟩⟩
  rw [split, List.length_append]
  omega

theorem Rewrites.accepted {word : List Nat} {made : List Step} {config : Config}
    (rewrites : Rewrites g (word ++ [g.endMark]) made config) {recorded : Option Step}
    (stopped : advance g.llTable g config = .stop recorded .accepted) :
    g.Leftmost [g.start] (expandedRules (made ++ recorded.toList)) word := by
  obtain ⟨read, split, length, -, leftmost⟩ := rewrites
  cases advance_eq_stop.mp stopped with
  | accept stacked one =>
    obtain ⟨closing, unread⟩ := List.length_eq_one_iff.mp one
    have same : expandedRules (made ++ (some (config.record .accept)).toList) = expandedRules made := by
      simp [expandedRules, Step.expandedRule?, Config.record]
    rw [unread] at split
    have whole : word = read := (List.append_inj' split rfl).1
    rw [stacked, List.append_nil] at leftmost
    rw [same, whole]
    exact leftmost

/-- A step is recorded with the stack and the position of its configuration. -/
theorem records {table : PredictiveTable} {config : Config} {step : Step} {verdict : Verdict}
    (recorded : (∃ next, advance table g config = .go step next) ∨
      advance table g config = .stop (some step) verdict) :
    step.stack = config.stack ∧ step.position = config.position := by
  rcases recorded with ⟨next, moved⟩ | stopped
  · cases advance_eq_go.mp moved with
    | matched | expand => exact ⟨rfl, rfl⟩
  · cases advance_eq_stop.mp stopped with
    | accept | leftover | exhausted | mismatch | noEntry | cycle => exact ⟨rfl, rfl⟩

/-- At every step the tokens read so far, followed by the stack from the top down, are the one string
that the expansions made so far rewrite the start symbol and the end mark to, leftmost first. On
acceptance, all expansions together derive the whole input from the start symbol. -/
theorem trace_leftmost (g : Grammar) (policy : ReducePolicy) (tokens : List String) :
    let trace := trace (Analysis.ofGrammar g policy).predictive g tokens
    (∀ earlier step later, trace.steps = earlier ++ step :: later →
      step.position ≤ trace.input.length ∧
        ∀ form, g.Leftmost [g.start, g.endMark] (expandedRules earlier) form ↔
          form = trace.input.take step.position ++ (step.symbols g).reverse) ∧
      (trace.accepted → ∃ word, trace.input = word ++ [g.endMark] ∧
        g.Leftmost [g.start] (expandedRules trace.steps) word) := by
  intro trace
  cases resolved : g.resolve tokens with
  | error reason =>
    have stays : trace = .unresolved reason := trace_of_error resolved
    rw [stays]
    simp [Trace.unresolved, Trace.accepted]
  | ok input =>
    have runs : trace = ⟨input, ((machine g.llTable g).run (.initial g input)).steps,
        ((machine g.llTable g).run (.initial g input)).verdict⟩ := trace_of_ok resolved
    have read : trace.input = input := by rw [runs]
    have halts : HaltsWith (advance g.llTable g) (.initial g input) trace.steps trace.verdict := by
      rw [runs]
      exact (machine g.llTable g).run_halts (.initial g input)
    rw [read]
    refine ⟨fun earlier step later split => ?_, fun accepted => ?_⟩
    · rw [split] at halts
      obtain ⟨config, path, recorded⟩ := halts.config_at
      obtain ⟨stack, position⟩ := records recorded
      exact ((Rewrites.initial input).advances path).at_step stack position
    · obtain ⟨word, closed⟩ := exists_word_of_resolve resolved
      obtain ⟨before, last, recorded, path, stopped, steps⟩ := halts
      have verdict : trace.verdict = .accepted := of_decide_eq_true accepted
      have rewrites := (Rewrites.initial input).advances path
      rw [closed] at rewrites
      rw [verdict] at stopped
      rw [steps]
      exact ⟨word, closed, rewrites.accepted stopped⟩

/-- Conditionals by `S -> i S L` and `S -> a`, where `L` is empty or `o S`. -/
def dangling : Grammar :=
  ⟨"S'", #["S", "L"], #["i", "a", "o"], 1, [⟨1, [3, 1, 2]⟩, ⟨1, [4]⟩, ⟨2, []⟩, ⟨2, [5, 1]⟩]⟩

/-- The cell for `L` on `o` keeps the later rule, so an `o` goes with the nearest `i`. -/
theorem leftmost_dangling :
    let table := (Analysis.ofGrammar dangling .anyMultiple).predictive
    Grammar.ofRules [("S", "i S L"), ("S", "a"), ("L", "e"), ("L", "o S")] none = .ok dangling ∧
      table.hasConflict ∧
      ∃ word, (trace table dangling ["i", "i", "a", "o", "a"]).input = word ++ [6] ∧
        dangling.Leftmost [1] [1, 1, 2, 4, 2, 3] word := by
  intro table
  have built : Grammar.ofRules [("S", "i S L"), ("S", "a"), ("L", "e"), ("L", "o S")] none =
      .ok dangling := by cbv
  have conflict : table.hasConflict := by decide +kernel
  have accepted : (trace table dangling ["i", "i", "a", "o", "a"]).accepted := by decide +kernel
  have rules : expandedRules (trace table dangling ["i", "i", "a", "o", "a"]).steps =
      [1, 1, 2, 4, 2, 3] := by decide +kernel
  have derivation := (trace_leftmost dangling .anyMultiple ["i", "i", "a", "o", "a"]).2 accepted
  rw [rules] at derivation
  exact ⟨built, conflict, derivation⟩

end ParseTables.Predictive
