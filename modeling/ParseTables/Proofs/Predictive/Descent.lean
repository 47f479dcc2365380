import Mathlib.Order.WellFounded
import ParseTables.Proofs.Grammar.Sentence
import ParseTables.Proofs.Lookahead.Begins
import ParseTables.Proofs.Predictive.Exact

namespace ParseTables

namespace Grammar

/-- The rule in a cell of the LL(1) table. -/
def expansion? (g : Grammar) (symbol terminal : Nat) : Option Rule :=
  (g.llTable.rule? symbol terminal).bind g.rule?

/-- A string that expansions alone take off the stack while the terminal comes next. -/
inductive Erased (g : Grammar) (terminal : Nat) : List Nat → Prop
  | nil : Erased g terminal []
  | cons {symbol rule rest} : g.expansion? symbol terminal = some rule → Erased g terminal rule.body →
      Erased g terminal rest → Erased g terminal (symbol :: rest)

/-- While the terminal comes next, the expansion of the outer symbol can bring the inner one to the top
of the stack, as all before it in the body is erased. -/
def UncoveredBy (g : Grammar) (terminal inner outer : Nat) : Prop :=
  ∃ rule before after, g.expansion? outer terminal = some rule ∧
    rule.body = before ++ inner :: after ∧ g.Erased terminal before

variable {g : Grammar} {terminal : Nat}

theorem expansion?_eq_some {symbol : Nat} {rule : Rule}
    (cell : g.expansion? symbol terminal = some rule) :
    rule ∈ g.listed ∧ rule.head = symbol ∧ g.Predicts rule terminal := by
  obtain ⟨number, entered, found⟩ := Option.bind_eq_some_iff.mp cell
  obtain ⟨rule', positive, found', head, predicts⟩ := predicts_of_cell entered
  obtain rfl := Option.some.inj (found.symm.trans found')
  exact ⟨mem_listed_of_rule? positive found, head, predicts⟩

/-- Without a conflict, whatever rule predicts a terminal has the body in the cell. -/
theorem body_of_predicts (clean : g.llTable.hasConflict = false) {rule chosen : Rule}
    (listed : rule ∈ g.listed) (predicts : g.Predicts rule terminal)
    (cell : g.expansion? rule.head terminal = some chosen) : chosen.body = rule.body := by
  obtain ⟨number, entered, found⟩ := Option.bind_eq_some_iff.mp cell
  obtain ⟨number', chosen', entered', found', same⟩ := exists_cell_of_predicts clean listed predicts
  obtain rfl := Option.some.inj (entered.symm.trans entered')
  obtain rfl := Option.some.inj (found.symm.trans found')
  exact same

theorem expansion?_terminal (wf : g.WellFormed) (isTerminal : g.isTerminal terminal) {rule : Rule}
    {other : Nat} : g.expansion? terminal other ≠ some rule := by
  intro cell
  obtain ⟨listed, rfl, -⟩ := expansion?_eq_some cell
  have nonTerminal := not_isTerminal_of_listed (wf.head_mem listed)
  simp [isTerminal] at nonTerminal

theorem Erased.split {u v : List Nat} (erased : g.Erased terminal (u ++ v)) :
    g.Erased terminal u ∧ g.Erased terminal v := by
  induction u with
  | nil => exact ⟨.nil, erased⟩
  | cons symbol u ih =>
    cases erased with
    | cons cell body rest =>
      obtain ⟨left, right⟩ := ih rest
      exact ⟨.cons cell body left, right⟩

section Clean

variable (wf : g.WellFormed) (clean : g.llTable.hasConflict = false)
include wf clean

/-- What begins with the terminal is not erased before it. -/
theorem Begins.not_erased {symbols : List Nat} (begins : g.Begins terminal symbols) :
    ¬ g.Erased terminal symbols := by
  induction begins with
  | here isTerminal =>
    intro erased
    cases erased with
    | cons cell => exact expansion?_terminal wf isTerminal cell
  | skip _ _ ih =>
    intro erased
    cases erased with
    | cons _ _ rest => exact ih rest
  | enter listed begins ih =>
    intro erased
    cases erased with
    | cons cell body =>
      have predicts : g.Predicts _ terminal := Or.inl ((begins_iff wf).mp begins)
      rw [body_of_predicts clean listed predicts cell] at body
      exact ih body

/-- Below a symbol that vanishes, where the terminal may follow it, there is no endless descent. -/
theorem acc_of_vanishing {symbols word : List Nat} (parses : g.Parses symbols word)
    (empty : word = []) :
    ∀ symbol ∈ symbols, terminal ∈ g.follow symbol → Acc (g.UncoveredBy terminal) symbol := by
  induction parses with
  | nil => simp
  | terminal => simp at empty
  | @expand rule symbols early late listed parsesBody _ ihBody ihRest =>
    obtain ⟨rfl, rfl⟩ := List.append_eq_nil_iff.mp empty
    intro symbol member follows
    rcases List.mem_cons.mp member with rfl | other
    · refine Acc.intro _ fun inner uncovered => ?_
      obtain ⟨chosen, before, after, cell, split, -⟩ := uncovered
      have vanish := parsesBody.derives
      have predicts : g.Predicts rule terminal := Or.inr ⟨(nullable_first_iff wf).mpr vanish, follows⟩
      rw [body_of_predicts clean listed predicts cell] at split
      have inside : inner ∈ rule.body := by simp [split]
      exact ihBody rfl inner inside (mem_follow_of_vanishing wf listed vanish inside follows)
    · exact ihRest rfl symbol other follows

/-- Below the symbols that can come to the top before the terminal, in a part of a body that begins with
it, there is no endless descent. -/
theorem acc_of_begins {symbols : List Nat} (begins : g.Begins terminal symbols) {rule : Rule}
    (listed : rule ∈ g.listed) {lead : List Nat} (part : rule.body = lead ++ symbols)
    {before after : List Nat} {symbol : Nat} (split : symbols = before ++ symbol :: after)
    (erased : g.Erased terminal before) : Acc (g.UncoveredBy terminal) symbol := by
  induction begins generalizing rule lead before symbol after with
  | here isTerminal =>
    cases before with
    | nil =>
      obtain ⟨rfl, -⟩ := List.cons.inj split
      refine Acc.intro _ fun inner uncovered => ?_
      obtain ⟨chosen, -, -, cell, -⟩ := uncovered
      exact absurd cell (expansion?_terminal wf isTerminal)
    | cons first before =>
      obtain ⟨rfl, -⟩ := List.cons.inj split
      cases erased with
      | cons cell => exact absurd cell (expansion?_terminal wf isTerminal)
  | @skip first rest vanishes begins ih =>
    cases before with
    | nil =>
      obtain ⟨rfl, -⟩ := List.cons.inj split
      have member := wf.listed_of_vanishing vanishes
      have follows := mem_follow_of_first listed part member ((begins_iff wf).mp begins)
      exact acc_of_vanishing wf clean (parses_nil_iff.mpr vanishes) rfl first (by simp) follows
    | cons first' before =>
      obtain ⟨rfl, split'⟩ := List.cons.inj split
      cases erased with
      | cons _ _ rest => exact ih listed (part.trans (List.append_cons ..)) split' rest
  | @enter entered rest member begins ih =>
    have predicts : g.Predicts entered terminal := Or.inl ((begins_iff wf).mp begins)
    cases before with
    | nil =>
      obtain ⟨rfl, -⟩ := List.cons.inj split
      refine Acc.intro _ fun inner uncovered => ?_
      obtain ⟨chosen, before, after, cell, split', erased'⟩ := uncovered
      rw [body_of_predicts clean member predicts cell] at split'
      exact ih member (List.nil_append _).symm split' erased'
    | cons first before =>
      obtain ⟨rfl, -⟩ := List.cons.inj split
      cases erased with
      | cons cell body =>
        rw [body_of_predicts clean member predicts cell] at body
        exact absurd body (begins.not_erased wf clean)

/-- Without a conflict, no expansions lead on for ever before the next terminal. A step down either gets
nearer to the terminal, which then begins a symbol of the body, or else leads to a symbol that vanishes,
and below such a symbol everything vanishes. -/
theorem wellFounded_uncoveredBy (terminal : Nat) : WellFounded (g.UncoveredBy terminal) := by
  refine ⟨fun symbol => Acc.intro _ fun inner uncovered => ?_⟩
  have step := uncovered
  obtain ⟨rule, before, after, cell, split, erased⟩ := uncovered
  obtain ⟨listed, rfl, predicts⟩ := expansion?_eq_some cell
  rcases predicts with begins | ⟨nullable, follows⟩
  · exact acc_of_begins wf clean ((begins_iff wf).mpr begins) listed
      (List.nil_append _).symm split erased
  · have vanishes := (Derives.of_rule listed).trans ((nullable_first_iff wf).mp nullable)
    exact (acc_of_vanishing wf clean (parses_nil_iff.mpr vanishes) rfl _ (by simp) follows).inv step

end Clean

end Grammar

namespace Predictive

open Driver Grammar

variable {g : Grammar} {terminal : Nat}

theorem exists_expansion_of_lift {top : Nat} {below stack : List Nat}
    (lift : Lifts (expanded? g.llTable g terminal) (top :: below) stack) :
    ∃ rule, g.expansion? top terminal = some rule ∧ stack = rule.body ++ below := by
  have expands := lift []
  rw [List.append_nil, List.append_nil, expanded?] at expands
  split at expands
  · simp at expands
  · obtain ⟨rule, cell, whole⟩ := Option.map_eq_some_iff.mp expands
    exact ⟨rule, cell, whole.symm⟩

/-- A symbol of a string of two parts stands in one of them. -/
theorem place_in_append {u v before after : List Nat} {symbol : Nat}
    (split : u ++ v = before ++ symbol :: after) :
    (∃ rest, u = before ++ symbol :: rest) ∨
      ∃ more, before = u ++ more ∧ v = more ++ symbol :: after := by
  rcases List.append_eq_append_iff.mp split with late | ⟨more, front, behind⟩
  · exact Or.inr late
  · cases more with
    | nil => exact Or.inr ⟨[], by simp [front], behind.symm⟩
    | cons first rest =>
      obtain ⟨rfl, -⟩ := List.cons.inj behind
      exact Or.inl ⟨rest, front⟩

/-- Expansions of a symbol lead down to every symbol of the stack that they grow and can bring to the
top. -/
theorem uncovered_of_grown {symbol : Nat} {stack : List Nat}
    (path : Relation.TransGen (Lifts (expanded? g.llTable g terminal)) [symbol] stack)
    {before after : List Nat} {inner : Nat} (split : stack = before ++ inner :: after)
    (erased : g.Erased terminal before) : Relation.TransGen (g.UncoveredBy terminal) inner symbol := by
  induction path generalizing before inner after with
  | single lift =>
    obtain ⟨rule, cell, rfl⟩ := exists_expansion_of_lift lift
    rw [List.append_nil] at split
    exact .single ⟨rule, before, after, cell, split, erased⟩
  | @tail grown stack _ lift ih =>
    cases grown with
    | nil => simpa [expanded?] using lift []
    | cons top below =>
      obtain ⟨rule, cell, rfl⟩ := exists_expansion_of_lift lift
      rcases place_in_append split with ⟨rest, body⟩ | ⟨more, rfl, behind⟩
      · have above : Relation.TransGen (g.UncoveredBy terminal) top symbol :=
          ih (List.nil_append _).symm .nil
        exact above.head ⟨rule, before, rest, cell, body, erased⟩
      · -- the symbol was there before, and by now all above it can be erased
        obtain ⟨bodyErased, moreErased⟩ := erased.split
        have there : top :: below = (top :: more) ++ inner :: after := by rw [behind, List.cons_append]
        exact ih there (.cons cell bodyErased moreErased)

/-- No expansion is ever found to repeat one kept in mind. -/
theorem Traced.not_repeats (wf : g.WellFormed) (clean : g.llTable.hasConflict = false) {config : Config}
    {top current : Nat} {below later : List Nat} (traced : Traced g.llTable g config)
    (stacked : config.stack = top :: below) (unread : config.rest = current :: later) :
    ¬ config.Repeats top := by
  intro again
  obtain ⟨tail, base, -, path⟩ := traced.grown stacked unread again
  have around := uncovered_of_grown path (List.nil_append _).symm .nil
  exact (wellFounded_uncoveredBy wf clean current).transGen.irrefl.irrefl top around

/-- Without an LL(1) conflict no list of tokens is rejected as a cycle of expansions. -/
theorem not_cyclic_of_isLL {pairs : List (String × String)} {designated : Option String} {g : Grammar}
    (built : Grammar.ofRules pairs designated = .ok g) (policy : ReducePolicy)
    (clean : (Analysis.ofGrammar g policy).predictive.hasConflict = false) (tokens : List String) :
    ¬ Cyclic (trace (Analysis.ofGrammar g policy).predictive g tokens).verdict := by
  have wf := Grammar.wellFormed_ofRules built
  intro cyclic
  cases resolved : g.resolve tokens with
  | error reason =>
    obtain ⟨token, rfl⟩ := exists_unknown resolved
    rw [trace_of_error resolved] at cyclic
    simp [Cyclic, Trace.unresolved] at cyclic
  | ok input =>
    rw [trace_of_ok resolved] at cyclic
    obtain ⟨nonTerminal, terminal, rejected⟩ := cyclic
    obtain ⟨before, last, recorded, path, stopped, -⟩ :=
      (machine g.llTable g).run_halts (.initial g input)
    obtain ⟨-, traced⟩ := path.plain plain_of_go (fun _ member => absurd member List.not_mem_nil)
    have cycle : advance g.llTable g last = .stop recorded _ := stopped.trans (congrArg _ rejected)
    cases advance_eq_stop.mp cycle with
    | cycle stacked unread _ _ again => exact traced.not_repeats wf clean stacked unread again

/-- The rules `S -> A A b`, `S -> x D` and `D -> A D`, and twice `A -> e`. Nothing finite is derived from
`D`. -/
def vanishingPrefix : Grammar :=
  ⟨"S'", #["S", "D", "A"], #["b", "x"], 1,
    [⟨1, [3, 3, 4]⟩, ⟨1, [5, 2]⟩, ⟨2, [3, 2]⟩, ⟨3, []⟩, ⟨3, []⟩]⟩

theorem not_cyclic_vanishingPrefix :
    Grammar.ofRules [("S", "A A b"), ("S", "x D"), ("D", "A D"), ("A", "e"), ("A", "")] none =
        .ok vanishingPrefix ∧
      (Analysis.ofGrammar vanishingPrefix .anyMultiple).predictive.hasConflict = false ∧
      ¬ Cyclic (trace (Analysis.ofGrammar vanishingPrefix .anyMultiple).predictive vanishingPrefix
        ["x", "b"]).verdict := by
  have built : Grammar.ofRules [("S", "A A b"), ("S", "x D"), ("D", "A D"), ("A", "e"), ("A", "")] none =
      .ok vanishingPrefix := by cbv
  have clean : (Analysis.ofGrammar vanishingPrefix .anyMultiple).predictive.hasConflict = false := by
    decide +kernel
  exact ⟨built, clean, not_cyclic_of_isLL built .anyMultiple clean ["x", "b"]⟩

end Predictive

end ParseTables
