import ParseTables.Analysis
import ParseTables.Proofs.ShiftReduce.Plain

namespace ParseTables

/-- Whether the grammar has the rule of a reduction. -/
def LRAction.isDefined (g : Grammar) : LRAction → Bool
  | .reduce number => (g.rule? number).isSome
  | .shift _ | .accept => true

/-- Whether the grammar has the rules of all reductions in the table. -/
def ActionTable.allDefined (table : ActionTable) (g : Grammar) : Bool :=
  table.action.all fun row => row.all fun actions => actions.all (LRAction.isDefined g)

theorem ActionTable.isDefined_of_mem {table : ActionTable} {g : Grammar} (defined : table.allDefined g)
    {state terminal : Nat} {action : LRAction} (member : action ∈ table.actions state terminal) :
    action.isDefined g := by
  unfold actions at member
  cases cell : (table.terminals.idxOf? terminal).bind fun column =>
      (table.action[state]?).bind fun row => row[column]? with
  | none => simp [cell] at member
  | some actions =>
    rw [cell, Option.getD_some] at member
    obtain ⟨column, -, entry⟩ := Option.bind_eq_some_iff.mp cell
    obtain ⟨row, rowAt, cellAt⟩ := Option.bind_eq_some_iff.mp entry
    have inRow := List.all_eq_true.mp defined row (List.mem_of_getElem? rowAt)
    have inCell := List.all_eq_true.mp inRow actions (List.mem_of_getElem? cellAt)
    exact List.all_eq_true.mp inCell action member

namespace ShiftReduce

open Driver

variable {table : ActionTable} {g : Grammar}

theorem Stops.not_cyclic {config : Config} {recorded : Option Step} {verdict : Verdict}
    (stops : Stops table g config recorded verdict) (empty : config.reductions = []) :
    ¬ Cyclic verdict := by
  cases stops with
  | cycle _ _ _ _ again =>
    obtain ⟨made, member, -⟩ := again
    simp [Config.kept, empty] at member
  | exhausted | noAction | undefined | underflow | noGoto | accept | leftover => simp [Cyclic]

/-- The plain loop rejects no cycle, because it stops like the parser with nothing kept in mind. -/
theorem not_cyclic_of_plain {config : Plain} {recorded : Option Step} {verdict : Verdict}
    (stopped : plainAdvance table g config = .stop recorded verdict) : ¬ Cyclic verdict := by
  let start : Config := ⟨config.state, config.below, config.position, config.rest, []⟩
  have traced : Traced table g start := fun _ member => absurd member List.not_mem_nil
  have fresh : ∀ {recorded verdict}, advance table g start = .stop recorded verdict → ¬ Cyclic verdict :=
    fun stopped => (advance_eq_stop.mp stopped).not_cyclic rfl
  exact not_cyclic_of_fresh plain_of_go plain_of_stop traced fresh stopped

theorem advance_ne_undefined (defined : table.allDefined g) {config : Config} {recorded : Option Step}
    {number : Nat} : advance table g config ≠ .stop recorded (.undefinedRule number) := by
  intro stopped
  cases advance_eq_stop.mp stopped with
  | undefined _ action missing =>
    have found := ActionTable.isDefined_of_mem defined (List.mem_of_head? action)
    simp [LRAction.isDefined, missing] at found

/-- Whatever stands in the cells of a table, as long as the grammar has the rules of its reductions,
every trace on tokens that are terminals is exact for the loop without memory. -/
theorem reductions_exact (g : Grammar) (table : ActionTable) (defined : table.allDefined g)
    (tokens : List String) :
    let trace := trace table g tokens
    match g.resolve tokens with
    | .error reason => trace = .unresolved reason
    | .ok input => trace.input = input ∧
      Exact (advance table g) (plainAdvance table g) Cyclic (.initial input) (Config.initial input).plain
        trace := by
  intro trace
  cases resolved : g.resolve tokens with
  | error reason => exact trace_of_error resolved
  | ok input =>
    have runs : trace = _ := trace_of_ok resolved
    have ends := plain_of_run table g input
    rw [runs]
    exact ⟨rfl, .of_ends ((machine table g).run_halts _)
      (advance_ne_undefined defined) not_cyclic_of_plain
      ends⟩

/-- The rules `S -> A b` and `A -> e`. -/
def vanishingStart : Grammar := ⟨"S'", #["S", "A"], #["b"], 1, [⟨1, [2, 3]⟩, ⟨2, []⟩]⟩

/-- The table of these rules, but that the first state goes to itself on `A`. -/
def rewired : ActionTable :=
  let table := (Analysis.ofGrammar vanishingStart .anyMultiple).actions
  { table with goto := table.goto.set 0 [some 1, some 0] }

/-- The stack grows for ever, and so `b` is rejected as a cycle. -/
theorem exact_rewired :
    rewired.allDefined vanishingStart ∧
      (trace rewired vanishingStart ["b"]).verdict = .rejected (.reductionCycle 0 3) ∧
      Endless (plainAdvance rewired vanishingStart) ⟨0, [], 0, [3, 4]⟩ := by
  have defined : rewired.allDefined vanishingStart := by decide +kernel
  have rejected : (trace rewired vanishingStart ["b"]).verdict = .rejected (.reductionCycle 0 3) := by
    decide +kernel
  have exact : _ ∧ _ := reductions_exact vanishingStart rewired defined ["b"]
  exact ⟨defined, rejected, exact.2.cyclic_iff.mp ⟨0, 3, rejected⟩⟩

end ShiftReduce

end ParseTables
