import Mathlib.Logic.Relation
import ParseTables.Analysis
import ParseTables.Proofs.Automaton.Construction
import ParseTables.Proofs.Grammar.Numbered
import ParseTables.Proofs.Predictive.Cells
import ParseTables.Proofs.ShiftReduce.Cells

namespace ParseTables

namespace Grammar

/-- The number is that of a rule. -/
def HasRule (g : Grammar) (number : Nat) : Prop := ∃ rule, g.rule? number = some rule

/-- The number is that of a symbol. -/
def HasSymbol (g : Grammar) (symbol : Nat) : Prop := ∃ name, g.name? symbol = some name

variable {g : Grammar}

theorem hasSymbol_of_le {symbol : Nat} (bound : symbol ≤ g.endMark) : g.HasSymbol symbol :=
  exists_name_iff.mpr (Nat.lt_succ_of_le bound)

theorem hasSymbol_of_isTerminal {terminal : Nat} (isTerminal : g.isTerminal terminal) :
    g.HasSymbol terminal :=
  hasSymbol_of_le (isTerminal_iff.mp isTerminal).2

theorem hasSymbol_of_listed {symbol : Nat} (listed : symbol ∈ g.nonTerminals) : g.HasSymbol symbol :=
  hasSymbol_of_le (Nat.le_trans (mem_nonTerminals_iff.mp listed).2 (Nat.le_add_right _ _))

theorem hasSymbol_head (wf : g.WellFormed) {number : Nat} {rule : Rule}
    (defined : g.rule? number = some rule) : g.HasSymbol rule.head := by
  rcases List.mem_cons.mp (List.mem_of_getElem? defined) with rfl | listed
  · exact hasSymbol_of_le (Nat.zero_le _)
  · exact hasSymbol_of_listed (wf.head_mem listed)

theorem hasSymbol_body (wf : g.WellFormed) {number : Nat} {rule : Rule}
    (defined : g.rule? number = some rule) :
    ∀ symbol ∈ rule.body, g.HasSymbol symbol := fun symbol member =>
  hasSymbol_of_le (Nat.le_of_lt (wf.body_bounds defined symbol member).2)

theorem Predicts.isTerminal {rule : Rule} {terminal : Nat} (predicts : g.Predicts rule terminal) :
    g.isTerminal terminal := by
  rcases predicts with begins | ⟨-, follows⟩
  · exact ((firstSets_at_rest g).1.ofSequence rule.body).1 terminal begins |>.1
  · exact isTerminal_of_mem_follow follows

end Grammar

namespace Construction

open Grammar

variable {g : Grammar}

/-- Whatever the loop over the queue has come to is one of its stages. -/
theorem exists_stage {work : Construction}
    (reached : Relation.ReflTransGen (fun earlier later => next? g earlier = some later)
      (start g) work) :
    ∃ place found, g.Swept place found ∧ (∀ kernel ∈ found.toList, IsKernel kernel) ∧
      work = stage g place found := by
  induction reached with
  | refl =>
    refine ⟨0, _, swept_start, fun kernel member => ?_, stage_start.symm⟩
    exact Or.inl (List.mem_singleton.mp (toList_startKernel ▸ member))
  | tail _ next ih =>
    obtain ⟨place, found, swept, areKernels, rfl⟩ := ih
    cases entry : found.toList[place]? with
    | none =>
      have ended : (stage g place found).queue = [] := by
        have beyond := List.getElem?_eq_none_iff.mp entry
        simp [stage, outline, Nat.sub_eq_zero_of_le beyond]
      simp [next?, ended] at next
    | some kernel =>
      rw [next?_stage swept areKernels entry] at next
      refine ⟨place + 1, _, (swept.visitAll entry).2, fun other member => ?_,
        (Option.some.inj next).symm⟩
      rcases mem_visitAll.mp member with old | ⟨symbol, moves, rfl⟩
      · exact areKernels other old
      · exact isKernel_passing moves

/-- Each state on the queue is there, and its items are items of the rules. -/
structure InRange (g : Grammar) (work : Construction) : Prop where
  queue : ∀ state ∈ work.queue, state < work.states.length
  next : work.queue ≠ [] → ∃ later, work.next? g = some later
  items : ∀ state ∈ work.states, ∀ item ∈ state.items, item.Fits g

theorem inRange_of_reached {work : Construction}
    (reached : Relation.ReflTransGen (fun earlier later => next? g earlier = some later)
      (start g) work) : work.InRange g := by
  obtain ⟨place, found, swept, areKernels, rfl⟩ := exists_stage reached
  have length : (stage g place found).states.length = found.toList.length := by simp [stage, outline]
  constructor
  · intro state member
    rw [length]
    have := List.mem_range'_1.mp
      (show state ∈ List.range' place (found.toList.length - place) from member)
    omega
  · intro waiting
    have inside : place < found.toList.length := by
      by_contra beyond
      exact waiting (by simp [stage, outline, Nat.sub_eq_zero_of_le (Nat.le_of_not_lt beyond)])
    exact ⟨_, next?_stage swept areKernels (List.getElem?_eq_getElem inside)⟩
  · intro state member item inside
    obtain ⟨number, bound, rfl⟩ := List.mem_mapIdx.mp member
    exact fits_closure (fun other => swept.fits _ (List.getElem_mem bound) other) item inside

end Construction

namespace PredictiveTable

/-- The LL(1) table when some rules have been entered in their cells, one after another. -/
def enterAll (g : Grammar) (entries : List (PredictiveCell × Nat)) : PredictiveTable :=
  entries.foldl (fun table (cell, rule) => table.enter g cell rule) .empty

/-- The rules in the cells are there, and so is all that the recorded conflicts are about. -/
structure InRange (g : Grammar) (table : PredictiveTable) : Prop where
  cells : ∀ nonTerminal terminal number, table.rule? nonTerminal terminal = some number →
    g.HasRule number
  conflicts : ∀ conflict ∈ table.conflicts, g.HasSymbol conflict.nonTerminal ∧
    g.HasSymbol conflict.terminal ∧
    g.HasRule conflict.previous ∧ g.HasRule conflict.chosen

/-- A cell and the rule for it are there. -/
def EntryInRange (g : Grammar) (entry : PredictiveCell × Nat) : Prop :=
  g.HasSymbol entry.1.nonTerminal ∧ g.HasSymbol entry.1.terminal ∧ g.HasRule entry.2

variable {g : Grammar} {table : PredictiveTable}

theorem inRange_empty : (empty).InRange g := ⟨by simp [rule?, empty], by simp [empty]⟩

theorem InRange.enter (inRange : table.InRange g) {cell : PredictiveCell} {rule : Nat}
    (entry : EntryInRange g (cell, rule)) : (table.enter g cell rule).InRange g := by
  obtain ⟨nonTerminal, terminal, known⟩ := entry
  constructor
  · intro row column number found
    rw [rule?, getElem?_enter] at found
    split at found
    · exact Option.some.inj found ▸ known
    · exact inRange.cells row column number found
  · intro conflict recorded
    rcases enter_recorded recorded with old | ⟨previous, present, rfl⟩
    · exact inRange.conflicts conflict old
    · exact ⟨nonTerminal, terminal, inRange.cells _ _ previous present, known⟩

theorem InRange.foldl_enter {entries : List (PredictiveCell × Nat)}
    (each : ∀ entry ∈ entries, EntryInRange g entry) (inRange : table.InRange g) :
    (entries.foldl (fun table (cell, rule) => table.enter g cell rule) table).InRange g := by
  induction entries generalizing table with
  | nil => exact inRange
  | cons entry rest ih =>
    obtain ⟨first, others⟩ := List.forall_mem_cons.mp each
    exact ih others (inRange.enter first)

end PredictiveTable

namespace Analysis

/-- All that is looked up while the tables are built is there. -/
structure BuildsInRange (a : Analysis) : Prop where
  /-- The rules that are entered in the LL(1) table, and the cells. -/
  predictions : ∀ entry ∈ a.grammar.predictions a.first a.follow,
    PredictiveTable.EntryInRange a.grammar entry
  /-- What is in the cells at any time. -/
  entered : ∀ earlier, earlier <+: a.grammar.predictions a.first a.follow →
    (PredictiveTable.enterAll a.grammar earlier).InRange a.grammar
  construction : ∀ work, Relation.ReflTransGen (fun earlier later =>
    Construction.next? a.grammar earlier = some later)
    (Construction.start a.grammar) work → work.InRange a.grammar
  items : ∀ state ∈ a.automaton.states, ∀ item, item ∈ state.items ∨ item ∈ state.kernel →
    item.Fits a.grammar
  edges : ∀ state ∈ a.automaton.states, ∀ edge ∈ state.edges,
    a.grammar.HasSymbol edge.symbol ∧ edge.target < a.automaton.states.length
  /-- The columns for the reductions and for acceptance. -/
  columns : ∀ terminal, (terminal = a.grammar.endMark ∨
      ∃ head follow, a.follow.get? head = some follow ∧ terminal ∈ follow) →
    ∃ column < a.actions.terminals.length, a.actions.terminals.idxOf? terminal = some column
  action : a.actions.action.length = a.automaton.states.length ∧
    ∀ row ∈ a.actions.action, row.length = a.actions.terminals.length
  goto : a.actions.goto.length = a.automaton.states.length ∧
    ∀ row ∈ a.actions.goto, row.length = a.actions.nonTerminals.length

variable {g : Grammar}

open Grammar

/-- Rules, symbols, states and columns are taken by numbers that are in use. -/
theorem buildsInRange (wf : g.WellFormed) (policy : ReducePolicy) :
    (ofGrammar g policy).BuildsInRange := by
  have predicted : ∀ entry ∈ g.predictions g.firstSets (g.followSets g.firstSets),
      PredictiveTable.EntryInRange g entry := by
    rintro ⟨⟨nonTerminal, terminal⟩, number⟩ member
    obtain ⟨rule, -, defined, rfl, predicts⟩ := mem_predictions.mp member
    exact ⟨hasSymbol_head wf defined, hasSymbol_of_isTerminal predicts.isTerminal, rule, defined⟩
  have table : (ofGrammar g policy).actions = _ := Automaton.actionTable_eq g.automaton
  constructor
  · exact predicted
  · intro earlier isPrefix
    exact PredictiveTable.inRange_empty.foldl_enter fun entry member =>
      predicted entry (isPrefix.subset member)
  · exact fun work => Construction.inRange_of_reached
  · intro state member item inside
    obtain ⟨kernel, listed, rfl⟩ := List.mem_map.mp member
    have fits : ∀ item ∈ kernel, item.Fits g := fun item => fits_of_kernel listed
    exact inside.elim (fits_closure fits item) (fits item)
  · intro state member edge leaves
    obtain ⟨kernel, -, rfl⟩ := List.mem_map.mp member
    obtain ⟨moves, numbered⟩ := mem_edgesAmong.mp leaves
    obtain ⟨item, -, next⟩ := ItemSet.mem_transitions.mp moves
    have length : g.automaton.states.length = g.kernels.toList.length := List.length_map _
    refine ⟨hasSymbol_of_le (Nat.le_of_lt (wf.next_bounds next).2), ?_⟩
    rw [show (ofGrammar g policy).automaton = g.automaton from rfl, length]
    exact (List.getElem?_eq_some_iff.mp (Numbering.number?_eq_some numbered)).1
  · intro terminal needed
    have isTerminal : g.isTerminal terminal := by
      rcases needed with rfl | ⟨head, follow, entry, member⟩
      · exact endMark_isTerminal
      · have inFollow : terminal ∈ g.follow head := by
          rw [Grammar.follow, show (g.followSets g.firstSets).get? head = some follow from entry]
          exact member
        exact isTerminal_of_mem_follow inFollow
    obtain ⟨column, located, place⟩ := mem_terminals isTerminal
    exact ⟨column, (List.getElem?_eq_some_iff.mp place).1, located⟩
  · rw [table]
    refine ⟨List.length_map _, fun row member => ?_⟩
    obtain ⟨state, -, rfl⟩ := List.mem_map.mp member
    exact List.length_map _
  · rw [table]
    refine ⟨List.length_map _, fun row member => ?_⟩
    obtain ⟨state, -, rfl⟩ := List.mem_map.mp member
    exact List.length_map _

end Analysis

end ParseTables
