import ParseTables.Analysis
import ParseTables.Proofs.Driver.Judges
import ParseTables.Proofs.Predictive.Cells
import ParseTables.Proofs.Predictive.Plain

namespace ParseTables.Predictive

open Driver Grammar

variable {g : Grammar}

/-- The parser takes its stack off along the derivation trees of what it reads, as long as the token
after that may come there. -/
theorem reaches_of_parses (wf : g.WellFormed) (clean : g.llTable.hasConflict = false)
    {symbols word : List Nat} (parses : g.Parses symbols word) {rule : Rule} (member : rule ∈ g.rules)
    (before : List Nat) {after : List Nat} (body : rule.body = before ++ symbols ++ after)
    {terminal : Nat} (next : g.Continues after rule.head terminal) (later base : List Nat)
    (position : Nat) :
    Reaches (plainAdvance g.llTable g) ⟨symbols ++ base, position, word ++ terminal :: later⟩
      ⟨base, position + word.length, terminal :: later⟩ := by
  induction parses generalizing rule before after terminal later base position with
  | nil => exact .refl
  | @terminal first symbols word isTerminal _ ih =>
    have path := ih member (before ++ [first]) (by simp [body]) next later base (position + 1)
    have moved : plainAdvance g.llTable g ⟨first :: symbols ++ base, position,
          first :: word ++ terminal :: later⟩ =
        .go ⟨first :: symbols ++ base, position, .matched first⟩
          ⟨symbols ++ base, position + 1, word ++ terminal :: later⟩ := by
      simp [plainAdvance, isTerminal]
    refine .head ⟨_, moved⟩ ?_
    rw [List.length_cons, ← Nat.add_assoc, Nat.add_right_comm]
    exact path
  | @expand expanded symbols early late listed parsesBody parsesRest ihBody ihRest =>
    -- the cell of the next token holds the rule that is needed
    have occurs : rule.body = before ++ expanded.head :: (symbols ++ after) := by simp [body]
    obtain ⟨middle, others, current, others', split, split', nextBody, predicts⟩ :=
      parsesBody.predicted wf listed parsesRest member occurs next later
    obtain ⟨number, chosen, cell, defined, same⟩ := exists_cell_of_predicts clean listed predicts
    have nonTerminal : g.isTerminal expanded.head = false :=
      not_isTerminal_of_listed (wf.head_mem listed)
    have input : early ++ late ++ terminal :: later = current :: others' := by
      rw [List.append_assoc, split, split']
    have pathBody := ihBody (List.mem_cons_of_mem _ listed) [] (by simp) nextBody others
      (symbols ++ base) position
    have pathRest := ihRest member (before ++ [expanded.head]) (by simp [body]) next later base
      (position + early.length)
    rw [split'] at pathBody
    rw [split] at pathRest
    have moved : plainAdvance g.llTable g ⟨expanded.head :: symbols ++ base, position,
          early ++ late ++ terminal :: later⟩ =
        .go ⟨expanded.head :: symbols ++ base, position, .expand number⟩
          ⟨expanded.body ++ (symbols ++ base), position, current :: others'⟩ := by
      simp [plainAdvance, input, nonTerminal, cell, defined, same]
    refine .head ⟨_, moved⟩ (pathBody.trans ?_)
    rw [List.length_append, ← Nat.add_assoc]
    exact pathRest

/-- The parser accepts every sentence. -/
theorem run_sentence (wf : g.WellFormed) (clean : g.llTable.hasConflict = false) {word : List Nat}
    (sentence : g.IsSentence word) :
    ((machine g.llTable g).run (.initial g (word ++ [g.endMark]))).verdict = .accepted := by
  have parses : g.Parses [g.start] word := (parses_iff_derives sentence.2).mpr sentence.1
  have next : g.Continues [] 0 g.endMark := continues_nil.mpr (Or.inl ⟨rfl, rfl⟩)
  have hidden : (⟨0, [g.start]⟩ : Rule) ∈ g.rules := List.mem_cons_self
  have path := reaches_of_parses wf clean parses hidden [] rfl next [] [] 0
  have stopped : plainAdvance g.llTable g ⟨[], 0 + word.length, [g.endMark]⟩ =
      .stop (some ⟨[], 0 + word.length, .accept⟩) .accepted := by simp [plainAdvance]
  obtain ⟨steps, accepts⟩ := Reaches.halts path stopped
  rw [run_of_plain accepts]

/-- What has been read, with the stack after it, is derived from the start symbol. -/
def Consistent (g : Grammar) (input : List Nat) (config : Config) : Prop :=
  ∃ read, input = read ++ config.rest ∧ read.length = config.position ∧
    g.Derives [g.start] (read ++ config.stack)

theorem Consistent.go {input : List Nat} {config next : Config} {recorded : Step}
    (consistent : Consistent g input config) (moved : advance g.llTable g config = .go recorded next) :
    Consistent g input next := by
  obtain ⟨read, split, length, derives⟩ := consistent
  cases advance_eq_go.mp moved with
  | @matched top below later stacked unread =>
    refine ⟨read ++ [top], ?_, by simp [length], ?_⟩
    · rw [split, unread, List.append_assoc, List.singleton_append]
    · rw [List.append_assoc, List.singleton_append, ← stacked]
      exact derives
  | @expand top below current later number rule stacked unread _ cell _ defined =>
    refine ⟨read, by rw [split], length, ?_⟩
    obtain ⟨rule', positive, defined', head, -⟩ := Grammar.predicts_of_cell cell
    cases Option.some.inj (defined.symm.trans defined')
    have listed : rule ∈ g.listed := Grammar.mem_listed_of_rule? positive defined
    rw [stacked, ← head] at derives
    rw [← List.append_assoc]
    exact derives.tail (.rewrite read below listed)

theorem Consistent.advances {input : List Nat} {config last : Config} {steps : List Step}
    (consistent : Consistent g input config)
    (path : Advances (advance g.llTable g) config steps last) : Consistent g input last := by
  induction path with
  | refl => exact consistent
  | step moved _ ih => exact ih (consistent.go moved)

/-- The parser never gets past the end mark. -/
theorem Consistent.rest_ne_nil (wf : g.WellFormed) {word : List Nat} {config : Config}
    (consistent : Consistent g (word ++ [g.endMark]) config) : config.rest ≠ [] := by
  intro done
  obtain ⟨read, split, -, derives⟩ := consistent
  rw [done, List.append_nil] at split
  exact wf.endMark_not_mem_form derives (by simp [← split])

theorem Consistent.initial (input : List Nat) : Consistent g input (.initial g input) :=
  ⟨[], rfl, rfl, .refl _⟩

/-- How the parser reads its input. -/
def reader (table : PredictiveTable) (g : Grammar) : Reader (advance table g) where
  position := Config.position
  rest := Config.rest
  withRest config rest := { config with rest }
  reads := by
    intro config recorded next current later moved unread
    cases advance_eq_go.mp moved with
    | matched stacked unread' isTerminal =>
      obtain ⟨rfl, rfl⟩ := List.cons.inj (unread.symm.trans unread')
      exact Or.inr ⟨rfl, rfl, fun other => advance_eq_go.mpr (.matched stacked rfl isTerminal)⟩
    | expand stacked unread' nonTerminal cell fresh defined =>
      obtain ⟨rfl, rfl⟩ := List.cons.inj (unread.symm.trans unread')
      exact Or.inl ⟨rfl, unread, fun other =>
        advance_eq_go.mpr (.expand stacked rfl nonTerminal cell fresh defined)⟩
  halts_at_end := by
    intro config recorded next moved ended
    cases advance_eq_go.mp moved with
    | matched _ unread | expand _ unread => simp [ended] at unread

/-- A stop is an accepted input or a rejection that is recorded where it happens. -/
theorem stop_cases {config : Config} {recorded : Option Step} {verdict : Verdict}
    (stopped : advance g.llTable g config = .stop recorded verdict) :
    verdict = .accepted ∧ config.stack = [] ∧ config.rest.length = 1 ∨
      ∃ reason last, verdict = .rejected reason ∧ recorded = some last ∧
        last.position = config.position := by
  cases advance_eq_stop.mp stopped with
  | accept stacked one => exact Or.inl ⟨rfl, stacked, one⟩
  | leftover | exhausted | mismatch | noEntry | cycle => exact Or.inr ⟨_, _, rfl, rfl, rfl⟩
  | undefined _ _ _ cell _ missing =>
    obtain ⟨rule, -, defined, -⟩ := Grammar.predicts_of_cell cell
    simp [missing] at defined

/-- A rejection does not depend on what comes after the next token, but for whether anything does. -/
theorem rejects_elsewhere {table : PredictiveTable} {config : Config} {recorded : Option Step}
    {reason : Rejection} (stopped : advance table g config = .stop recorded (.rejected reason))
    {current : Nat} {late other : List Nat} (unread : config.rest = current :: late)
    (alike : late = [] ↔ other = []) :
    ∃ reason', advance table g { config with rest := current :: other } =
      .stop recorded (.rejected reason') := by
  generalize rejected : Verdict.rejected reason = verdict at stopped
  cases advance_eq_stop.mp stopped with
  | accept | undefined => simp at rejected
  | exhausted _ ended => simp [ended] at unread
  | leftover stacked more =>
    have more' : (current :: other).length ≠ 1 := by
      intro one
      exact more (by simp [unread, alike.mpr (List.length_eq_zero_iff.mp (Nat.succ.inj one))])
    exact ⟨_, advance_eq_stop.mpr (.leftover stacked more')⟩
  | mismatch stacked unread' isTerminal different =>
    obtain ⟨rfl, rfl⟩ := List.cons.inj (unread.symm.trans unread')
    exact ⟨_, advance_eq_stop.mpr (.mismatch stacked rfl isTerminal different)⟩
  | noEntry stacked unread' nonTerminal cell =>
    obtain ⟨rfl, rfl⟩ := List.cons.inj (unread.symm.trans unread')
    exact ⟨_, advance_eq_stop.mpr (.noEntry stacked rfl nonTerminal cell)⟩
  | cycle stacked unread' nonTerminal cell again =>
    obtain ⟨rfl, rfl⟩ := List.cons.inj (unread.symm.trans unread')
    exact ⟨_, advance_eq_stop.mpr (.cycle stacked rfl nonTerminal cell again)⟩

/-- Without a conflict, the parser recognizes the sentences. -/
def recognizer (wf : g.WellFormed) (clean : g.llTable.hasConflict = false) :
    Recognizer g (machine g.llTable g) where
  toReader := reader g.llTable g
  initial := .initial g
  recordedAt := Step.position
  position_initial _ := rfl
  rest_initial _ := rfl
  withRest_initial _ _ := rfl
  accepts := run_sentence wf clean
  rejects_elsewhere stopped unread alike := rejects_elsewhere stopped unread alike
  stops := by
    intro word steps last recorded verdict path stopped
    have consistent := (Consistent.initial (g := g) _).advances path
    have unread := List.length_pos_iff.mpr (consistent.rest_ne_nil wf)
    obtain ⟨read, split, length, derives⟩ := consistent
    rcases stop_cases stopped with ⟨accepted, empty, one⟩ | ⟨reason, step, rejected, same, place⟩
    · obtain ⟨closing, unread⟩ := List.length_eq_one_iff.mp one
      rw [unread] at split
      rw [empty, List.append_nil, ← (List.append_inj' split rfl).1] at derives
      exact Or.inl ⟨accepted, derives⟩
    · have inside : last.position < (word ++ [g.endMark]).length := by
        rw [split, List.length_append]
        omega
      exact Or.inr ⟨reason, step, rejected, same, place, inside⟩

/-- On a grammar without LL(1) conflict the predictive parser is right about every word, whether or not
it is written with the end mark. -/
theorem judges_of_isLL {pairs : List (String × String)} {designated : Option String} {g : Grammar}
    (built : Grammar.ofRules pairs designated = .ok g) (policy : ReducePolicy)
    (clean : (Analysis.ofGrammar g policy).isLL) {word : List Nat} (isWord : g.IsWord word) :
    ∃ names, g.namesOf? word = some names ∧
      Judges g Step.position word (trace (Analysis.ofGrammar g policy).predictive g names) ∧
      Judges g Step.position word
        (trace (Analysis.ofGrammar g policy).predictive g (names ++ [endName])) := by
  have wf := Grammar.wellFormed_ofRules built
  have clean' : g.llTable.hasConflict = false := by
    simpa [Analysis.isLL, Analysis.ofGrammar, llTable] using clean
  refine judges_names wf isWord ((machine g.llTable g).run (.initial g (word ++ [g.endMark])))
    (fun tokens resolved => ?_) ((recognizer wf clean').judges wf isWord)
  rw [trace, resolved]
  rfl

/-- Two terminals around nested ones, by `S -> a S b` and `S -> e`. -/
def nested : Grammar := ⟨"S'", #["S"], #["a", "b"], 1, [⟨1, [2, 1, 3]⟩, ⟨1, []⟩]⟩

theorem judges_nested :
    ∃ names, nested.namesOf? [2, 3] = some names ∧
      Judges nested Step.position [2, 3]
        (trace (Analysis.ofGrammar nested .anyMultiple).predictive nested names) ∧
      Judges nested Step.position [2, 3]
        (trace (Analysis.ofGrammar nested .anyMultiple).predictive nested (names ++ [endName])) :=
  have built : Grammar.ofRules [("S", "a S b"), ("S", "e")] none = .ok nested := by cbv
  judges_of_isLL built .anyMultiple (by decide +kernel)
    (by simp [Grammar.IsWord, Grammar.isTerminal, nested]; decide)

end ParseTables.Predictive
