import ParseTables.Proofs.Driver.Judges
import ParseTables.Proofs.ShiftReduce.Conflicts
import ParseTables.Proofs.ShiftReduce.Drive

namespace ParseTables.ShiftReduce

open Driver Grammar

variable {g : Grammar}

/-- Where an undisputed cell calls for a reduction, it holds nothing in front of it but acceptance. -/
theorem head?_actions_of_clean {policy : ReducePolicy}
    (clean : g.automaton.conflicts g (g.followSets g.firstSets) policy = [])
    {state terminal number : Nat} (reduces : number ∈ g.reductionsOn state terminal) :
    (g.slrTable.actions state terminal).head? = some (.reduce number) ∨
      terminal = g.endMark ∧ (g.slrTable.actions state g.endMark).head? = some .accept := by
  have clean' : g.automaton.conflicts g (g.followSets g.firstSets) .followOverlap = [] := by
    cases policy with
    | anyMultiple => exact conflicts_of_anyMultiple clean
    | followOverlap => exact clean
  obtain ⟨free, single⟩ := conflicts_eq_nil.mp clean' state
  have noShift := free terminal (List.ne_nil_of_mem reduces)
  have one : g.reductionsOn state terminal = [number] := by
    have few := refuses_followOverlap.mp single terminal
    obtain ⟨other, only⟩ := List.length_eq_one_iff.mp
      (Nat.le_antisymm few (List.length_pos_of_mem reduces))
    rw [only] at reduces ⊢
    rw [List.mem_singleton.mp reduces]
  obtain ⟨-, rule, -, -, follows⟩ := mem_reductionsOn.mp reduces
  rw [actions_eq (isTerminal_of_mem_follow follows), noShift, one]
  split
  · rename_i accepts
    obtain ⟨rfl, accepting⟩ := accepts
    right
    rw [actions_eq endMark_isTerminal, noShift, if_pos ⟨rfl, accepting⟩]
    exact ⟨rfl, rfl⟩
  · exact Or.inl rfl

/-- The parser accepts every sentence. -/
theorem run_sentence (wf : g.WellFormed) {policy : ReducePolicy}
    (clean : g.automaton.conflicts g (g.followSets g.firstSets) policy = []) {word : List Nat}
    (sentence : g.IsSentence word) :
    ((machine g.slrTable g).run (.initial (word ++ [g.endMark]))).verdict = .accepted := by
  have parses : g.Parses [g.start] word := (parses_iff_derives sentence.2).mpr sentence.1
  have next : g.Continues [] 0 g.endMark := continues_nil.mpr (Or.inl ⟨rfl, rfl⟩)
  have opened : ⟨0, 0⟩ ∈ g.itemsAt 0 := by
    rw [itemsAt_zero]
    exact ItemSet.mem_closure_of_mem (SortedSet.mem_singleton.mpr rfl)
  have hidden : g.rule? 0 = some ⟨0, [g.start]⟩ := rfl
  have halts : ∃ steps, HaltsWith (plainAdvance g.slrTable g) ⟨0, [], 0, word ++ [g.endMark]⟩ steps
      .accepted := by
    rcases reaches_of_parses wf (fun _ _ _ => head?_actions_of_clean clean) parses hidden rfl next [] 0
        .start opened with
      ⟨top, under, path, pushed⟩ | ⟨last, current, others, path, unread, ⟨rfl, action⟩, suffix⟩
    · -- the whole sentence has been read
      have action : (g.slrTable.actions top g.endMark).head? = some .accept := by
        have noShift : g.target? top g.endMark = none := by
          by_contra some
          obtain ⟨target, edge⟩ := Option.ne_none_iff_exists'.mp some
          exact Nat.lt_irrefl _ (wf.edge_bounds edge).2
        rw [actions_eq endMark_isTerminal, noShift, if_pos ⟨rfl, any_isAccepting.mpr pushed.member⟩]
        rfl
      have stopped : plainAdvance g.slrTable g ⟨top, under, 0 + word.length, [g.endMark]⟩ =
          .stop (some ⟨top :: under, 0 + word.length, some .accept⟩) .accepted := by
        simp [plainAdvance, action]
      exact Reaches.halts path stopped
    · -- acceptance stood in front of a reduction
      obtain ⟨common, split⟩ := suffix
      rw [unread] at split
      have ended : others = [] := by
        have closed : g.endMark ∈ common ++ [g.endMark] := by simp
        refine (sentence.isWord wf).nil_of_closed closed ?_
        rw [← split]
        simp
      have stopped : plainAdvance g.slrTable g last =
          .stop (some ⟨last.state :: last.below, last.position, some .accept⟩) .accepted := by
        simp [plainAdvance, unread, action, ended]
      exact Reaches.halts path stopped
  obtain ⟨steps, accepts⟩ := halts
  rw [run_of_plain accepts]

/-- The symbols that the stack spells derive what has been read. -/
def Consistent (g : Grammar) (input : List Nat) (config : Config) : Prop :=
  ∃ read spelled, input = read ++ config.rest ∧ read.length = config.position ∧
    g.Spells (config.state :: config.below) spelled ∧ g.Derives spelled.reverse read

theorem Consistent.initial (input : List Nat) : Consistent g input (.initial input) :=
  ⟨[], [], rfl, rfl, .start, .refl _⟩

theorem Consistent.go (wf : g.WellFormed) {input : List Nat} {config next : Config} {recorded : Step}
    (consistent : Consistent g input config) (moved : advance g.slrTable g config = .go recorded next) :
    Consistent g input next := by
  obtain ⟨read, spelled, split, length, path, derives⟩ := consistent
  cases advance_eq_go.mp moved with
  | @shift current _ _ unread action =>
    have edge := (shift_mem_actions.mp (List.mem_of_head? action)).2
    refine ⟨read ++ [current], current :: spelled, ?_, by simp [length], path.push edge, ?_⟩
    · rw [split, unread, List.append_assoc, List.singleton_append]
    · rw [List.reverse_cons]
      exact derives.append (.refl _)
  | reduce unread action found popped _ edge =>
    obtain ⟨spelled', target, listed, -, rfl, edge', path'⟩ := spells_reduced wf path action found popped
    obtain rfl := Option.some.inj (edge'.symm.trans edge)
    refine ⟨read, _ :: spelled', split, length, path', ?_⟩
    rw [List.reverse_append, List.reverse_reverse] at derives
    rw [List.reverse_cons]
    exact ((Derives.refl _).append (.of_rule listed)).trans derives

theorem Consistent.advances (wf : g.WellFormed) {input : List Nat} {config last : Config}
    {steps : List Step} (consistent : Consistent g input config)
    (path : Advances (advance g.slrTable g) config steps last) : Consistent g input last := by
  induction path with
  | refl => exact consistent
  | step moved _ ih => exact ih (consistent.go wf moved)

/-- The parser never shifts the end mark. -/
theorem Consistent.rest_ne_nil (wf : g.WellFormed) {word : List Nat} {config : Config}
    (consistent : Consistent g (word ++ [g.endMark]) config) : config.rest ≠ [] := by
  intro done
  obtain ⟨read, spelled, split, -, path, derives⟩ := consistent
  rw [done, List.append_nil] at split
  have free : g.endMark ∉ spelled.reverse := fun member =>
    Nat.lt_irrefl _ (path.bounds wf g.endMark (List.mem_reverse.mp member)).2
  exact derives.endMark_not_mem wf free (by simp [← split])

/-- How the parser reads its input. -/
def reader (table : ActionTable) (g : Grammar) : Reader (advance table g) where
  position := Config.position
  rest := Config.rest
  withRest config rest := { config with rest }
  reads := by
    intro config recorded next current later moved unread
    cases advance_eq_go.mp moved with
    | shift unread' action =>
      obtain ⟨rfl, rfl⟩ := List.cons.inj (unread.symm.trans unread')
      exact Or.inr ⟨rfl, rfl, fun other => advance_eq_go.mpr (.shift rfl action)⟩
    | reduce unread' action found popped fresh edge =>
      obtain ⟨rfl, rfl⟩ := List.cons.inj (unread.symm.trans unread')
      exact Or.inl ⟨rfl, unread, fun other =>
        advance_eq_go.mpr (.reduce rfl action found popped fresh edge)⟩
  halts_at_end := by
    intro config recorded next moved ended
    cases advance_eq_go.mp moved with
    | shift unread => simp [ended] at unread
    | reduce unread => simp [ended] at unread

/-- With some of the input left, a stop is an accepted word or a rejection that is recorded where it
happens. -/
theorem Consistent.stop_cases (wf : g.WellFormed) {word : List Nat} {config : Config}
    {recorded : Option Step} {verdict : Verdict} (consistent : Consistent g (word ++ [g.endMark]) config)
    (stopped : advance g.slrTable g config = .stop recorded verdict) :
    verdict = .accepted ∧ g.Derives [g.start] word ∨
      ∃ reason last, verdict = .rejected reason ∧ recorded = some last ∧
        last.position = config.position := by
  have unread := consistent.rest_ne_nil wf
  obtain ⟨read, spelled, split, length, path, derives⟩ := consistent
  cases advance_eq_stop.mp stopped with
  | exhausted ended => exact absurd ended unread
  | noAction | cycle | leftover => exact Or.inr ⟨_, _, rfl, rfl, rfl⟩
  | undefined _ action missing =>
    obtain ⟨rule, origin, remaining, spelled', target, listed, found, -⟩ := exists_reduced wf path action
    simp [missing] at found
  | underflow _ action found popped =>
    obtain ⟨rule, origin, remaining, spelled', target, -, found', -, popped', -⟩ :=
      exists_reduced wf path action
    obtain rfl := Option.some.inj (found.symm.trans found')
    simp [popped] at popped'
  | noGoto _ action found popped =>
    exact Or.inr ⟨_, _, rfl, rfl, rfl⟩
  | accept upcoming action =>
    obtain ⟨rfl, member⟩ := accept_mem_actions.mp (List.mem_of_head? action)
    rw [upcoming] at split
    rw [path.of_accepting wf member, ← (List.append_inj' split rfl).1] at derives
    exact Or.inl ⟨rfl, derives⟩

/-- A rejection does not depend on what comes after the next token, but for whether anything does. -/
theorem rejects_elsewhere {table : ActionTable} {config : Config} {recorded : Option Step}
    {reason : Rejection} (stopped : advance table g config = .stop recorded (.rejected reason))
    {current : Nat} {late other : List Nat} (unread : config.rest = current :: late)
    (alike : late = [] ↔ other = []) :
    ∃ reason', advance table g { config with rest := current :: other } =
      .stop recorded (.rejected reason') := by
  generalize rejected : Verdict.rejected reason = verdict at stopped
  cases advance_eq_stop.mp stopped with
  | exhausted ended => simp [ended] at unread
  | undefined | accept => simp at rejected
  | noAction unread' action =>
    obtain ⟨rfl, rfl⟩ := List.cons.inj (unread.symm.trans unread')
    exact ⟨_, advance_eq_stop.mpr (.noAction rfl action)⟩
  | underflow unread' action found popped =>
    obtain ⟨rfl, rfl⟩ := List.cons.inj (unread.symm.trans unread')
    exact ⟨_, advance_eq_stop.mpr (.underflow rfl action found popped)⟩
  | cycle unread' action found popped again =>
    obtain ⟨rfl, rfl⟩ := List.cons.inj (unread.symm.trans unread')
    exact ⟨_, advance_eq_stop.mpr (.cycle rfl action found popped again)⟩
  | noGoto unread' action found popped fresh missing =>
    obtain ⟨rfl, rfl⟩ := List.cons.inj (unread.symm.trans unread')
    exact ⟨_, advance_eq_stop.mpr (.noGoto rfl action found popped fresh missing)⟩
  | leftover unread' more action =>
    obtain ⟨rfl, rfl⟩ := List.cons.inj (unread.symm.trans unread')
    exact ⟨_, advance_eq_stop.mpr (.leftover rfl (fun empty => more (alike.mpr empty)) action)⟩

/-- Without a conflict, the parser recognizes the sentences. -/
def recognizer (wf : g.WellFormed) {policy : ReducePolicy}
    (clean : g.automaton.conflicts g (g.followSets g.firstSets) policy = []) :
    Recognizer g (machine g.slrTable g) where
  toReader := reader g.slrTable g
  initial := .initial
  recordedAt := Step.position
  position_initial _ := rfl
  rest_initial _ := rfl
  withRest_initial _ _ := rfl
  accepts := run_sentence wf clean
  rejects_elsewhere stopped unread alike := rejects_elsewhere stopped unread alike
  stops := by
    intro word steps last recorded verdict path stopped
    have consistent := (Consistent.initial (g := g) _).advances wf path
    have unread := List.length_pos_iff.mpr (consistent.rest_ne_nil wf)
    rcases consistent.stop_cases wf stopped with accepted | ⟨reason, step, rejected, same, place⟩
    · exact Or.inl accepted
    · obtain ⟨read, spelled, split, length, -⟩ := consistent
      have inside : last.position < (word ++ [g.endMark]).length := by
        rw [split, List.length_append]
        omega
      exact Or.inr ⟨reason, step, rejected, same, place, inside⟩

/-- On a grammar without SLR(1) conflict, whatever counts as a conflict of reductions, the shift-reduce
parser is right about every word, whether or not it is written with the end mark. -/
theorem judges_of_isSLR {pairs : List (String × String)} {designated : Option String} {g : Grammar}
    (built : Grammar.ofRules pairs designated = .ok g) (policy : ReducePolicy)
    (clean : (Analysis.ofGrammar g policy).isSLR) {word : List Nat} (isWord : g.IsWord word) :
    ∃ names, g.namesOf? word = some names ∧
      Judges g Step.position word (trace (Analysis.ofGrammar g policy).actions g names) ∧
      Judges g Step.position word
        (trace (Analysis.ofGrammar g policy).actions g (names ++ [endName])) := by
  have wf := Grammar.wellFormed_ofRules built
  have clean' := isSLR_iff.mp clean
  refine judges_names wf isWord ((machine g.slrTable g).run (.initial (word ++ [g.endMark])))
    (fun tokens resolved => ?_) ((recognizer wf clean').judges wf isWord)
  rw [trace, resolved]
  rfl

/-- Sums of one operand, grouped to the left, by `E -> E + a` and `E -> a`. -/
def sums : Grammar := ⟨"E'", #["E"], #["+", "a"], 1, [⟨1, [1, 2, 3]⟩, ⟨1, [3]⟩]⟩

theorem ofRules_sums : Grammar.ofRules [("E", "E + a"), ("E", "a")] none = .ok sums := by cbv

theorem judges_sums :
    ∃ names, sums.namesOf? [3, 2, 3] = some names ∧
      Judges sums Step.position [3, 2, 3]
        (trace (Analysis.ofGrammar sums .followOverlap).actions sums names) ∧
      Judges sums Step.position [3, 2, 3]
        (trace (Analysis.ofGrammar sums .followOverlap).actions sums (names ++ [endName])) :=
  judges_of_isSLR ofRules_sums .followOverlap (by decide +kernel)
    (by simp [Grammar.IsWord, Grammar.isTerminal, sums]; decide)

end ParseTables.ShiftReduce
