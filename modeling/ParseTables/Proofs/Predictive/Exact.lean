import ParseTables.Analysis
import ParseTables.Proofs.Predictive.Cells
import ParseTables.Proofs.Predictive.Plain

namespace ParseTables.Predictive

open Driver Grammar

variable {table : PredictiveTable} {g : Grammar}

theorem Stops.not_cyclic {config : Config} {recorded : Option Step} {verdict : Verdict}
    (stops : Stops table g config recorded verdict) (empty : config.expansions = []) :
    ¬ Cyclic verdict := by
  cases stops with
  | cycle _ _ _ _ again =>
    obtain ⟨made, member, -⟩ := again
    simp [empty] at member
  | accept | leftover | exhausted | mismatch | noEntry | undefined => simp [Cyclic]

/-- The plain loop rejects no cycle, because it stops like the parser with nothing kept in mind. -/
theorem not_cyclic_of_plain {config : Plain} {recorded : Option Step} {verdict : Verdict}
    (stopped : plainAdvance table g config = .stop recorded verdict) : ¬ Cyclic verdict := by
  let start : Config := ⟨config.stack, config.position, config.rest, []⟩
  have traced : Traced table g start := fun _ member => absurd member List.not_mem_nil
  have fresh : ∀ {recorded verdict}, advance table g start = .stop recorded verdict → ¬ Cyclic verdict :=
    fun stopped => (advance_eq_stop.mp stopped).not_cyclic rfl
  exact not_cyclic_of_fresh plain_of_go plain_of_stop traced fresh stopped

/-- A cell never calls for a rule that the grammar does not have. -/
theorem advance_ne_undefined {config : Config} {recorded : Option Step} {number : Nat} :
    advance g.llTable g config ≠ .stop recorded (.undefinedRule number) := by
  intro stopped
  cases advance_eq_stop.mp stopped with
  | undefined _ _ _ cell _ missing =>
    obtain ⟨rule, -, found, -⟩ := predicts_of_cell cell
    simp [missing] at found

/-- Whatever the grammar and its conflicts, every trace on tokens that are terminals is exact for the
loop without memory. -/
theorem expansions_exact (g : Grammar) (policy : ReducePolicy) (tokens : List String) :
    let table := (Analysis.ofGrammar g policy).predictive
    let trace := trace table g tokens
    match g.resolve tokens with
    | .error reason => trace = .unresolved reason
    | .ok input => trace.input = input ∧
      Exact (advance table g) (plainAdvance table g) Cyclic (.initial g input)
        (Config.initial g input).plain trace := by
  intro table trace
  cases resolved : g.resolve tokens with
  | error reason => exact trace_of_error resolved
  | ok input =>
    have runs : trace = _ := trace_of_ok resolved
    have ends := plain_of_run g.llTable g input
    rw [runs]
    exact ⟨rfl,
      .of_ends ((machine g.llTable g).run_halts _) advance_ne_undefined not_cyclic_of_plain ends⟩

/-- A list of `a`s by `S -> e` and `S -> S a`, where the cell for `S` on `a` holds the second rule. -/
def leftRecursive : Grammar := ⟨"S'", #["S"], #["a"], 1, [⟨1, []⟩, ⟨1, [1, 2]⟩]⟩

/-- Without memory `S` is expanded for ever, and so `a` is rejected as a cycle. -/
theorem exact_leftRecursive :
    let table := (Analysis.ofGrammar leftRecursive .anyMultiple).predictive
    Grammar.ofRules [("S", "e"), ("S", "S a")] none = .ok leftRecursive ∧
      (trace table leftRecursive ["a"]).verdict = .rejected (.expansionCycle 1 2) ∧
      Endless (plainAdvance table leftRecursive) (Config.initial leftRecursive [2, 3]).plain := by
  intro table
  have built : Grammar.ofRules [("S", "e"), ("S", "S a")] none = .ok leftRecursive := by cbv
  have rejected : (trace table leftRecursive ["a"]).verdict = .rejected (.expansionCycle 1 2) := by
    decide +kernel
  have exact : _ ∧ _ := expansions_exact leftRecursive .anyMultiple ["a"]
  exact ⟨built, rejected, exact.2.cyclic_iff.mp ⟨1, 2, rejected⟩⟩

end ParseTables.Predictive
