import ParseTables.Predictive.Table
import ParseTables.Proofs.Lookahead.Follow

namespace ParseTables

/-- The conflicts recorded for a cell, in the order in which they arose. -/
def PredictiveTable.conflictsAt (table : PredictiveTable) (cell : PredictiveCell) :
    List PredictiveConflict :=
  table.conflicts.toList.filter fun conflict =>
    (⟨conflict.nonTerminal, conflict.terminal⟩ : PredictiveCell) = cell

namespace Grammar

/-- The LL(1) table with the First and Follow sets of the grammar itself. -/
def llTable (g : Grammar) : PredictiveTable := g.predictiveTable g.firstSets (g.followSets g.firstSets)

/-- Whether a rule of this head and body is to be used when the terminal comes next. -/
def Predicts (g : Grammar) (rule : Rule) (terminal : Nat) : Prop :=
  terminal ∈ (g.first rule.body).terminals ∨ (g.first rule.body).nullable ∧ terminal ∈ g.follow rule.head

instance (g : Grammar) (rule : Rule) (terminal : Nat) : Decidable (g.Predicts rule terminal) :=
  inferInstanceAs (Decidable (_ ∨ _ ∧ _))

/-- The conflicts between neighbours in a list of rules that come into a cell one after the other. -/
def disputes (g : Grammar) (cell : PredictiveCell) (rules : List Nat) : List PredictiveConflict :=
  ((rules.zip rules.tail).filter fun (previous, chosen) =>
    (g.rule? previous).map Rule.body ≠ (g.rule? chosen).map Rule.body).map fun (previous, chosen) =>
      ⟨cell.nonTerminal, cell.terminal, previous, chosen⟩

/-- Those of the numbered rules that come into a cell. -/
def rulesAmong (g : Grammar) (cell : PredictiveCell) (entries : List (Rule × Nat)) : List Nat :=
  (entries.filter fun (rule, _) => rule.head = cell.nonTerminal ∧
    g.Predicts rule cell.terminal).map Prod.snd

/-- The rules of a non-terminal that a terminal calls for, in ascending order. -/
def rulesOn (g : Grammar) (nonTerminal terminal : Nat) : List Nat :=
  g.rulesAmong ⟨nonTerminal, terminal⟩ g.numberedRules

variable {g : Grammar} {cell : PredictiveCell}

theorem mem_predictors {rule : Rule} {terminal : Nat} :
    terminal ∈ g.predictors g.firstSets (g.followSets g.firstSets) rule ↔ g.Predicts rule terminal := by
  rw [predictors, List.mem_append, SortedSet.mem_toList]
  unfold Predicts first follow
  split
  · rename_i vanishes
    simp [vanishes, SortedSet.mem_toList]
  · rename_i kept
    simp [kept]

theorem mem_numberedRules {rule : Rule} {number : Nat} :
    (rule, number) ∈ g.numberedRules ↔ 0 < number ∧ g.rule? number = some rule := by
  rw [numberedRules, List.mem_zipIdx_iff_le_and_getElem?_sub]
  constructor
  · rintro ⟨positive, found⟩
    obtain ⟨place, rfl⟩ := Nat.exists_eq_succ_of_ne_zero (Nat.ne_of_gt positive)
    exact ⟨positive, found⟩
  · rintro ⟨positive, found⟩
    obtain ⟨place, rfl⟩ := Nat.exists_eq_succ_of_ne_zero (Nat.ne_of_gt positive)
    exact ⟨positive, found⟩

theorem mem_predictions {nonTerminal terminal number : Nat} :
    (⟨⟨nonTerminal, terminal⟩, number⟩ : PredictiveCell × Nat) ∈
        g.predictions g.firstSets (g.followSets g.firstSets) ↔
      ∃ rule, 0 < number ∧ g.rule? number = some rule ∧ rule.head = nonTerminal ∧
        g.Predicts rule terminal := by
  rw [predictions, List.mem_flatMap]
  constructor
  · rintro ⟨⟨rule, number'⟩, numbered, member⟩
    obtain ⟨terminal', predicted, same⟩ := List.mem_map.mp member
    obtain ⟨cell, rfl⟩ := Prod.mk.inj same
    obtain ⟨rfl, rfl⟩ := PredictiveCell.mk.inj cell
    obtain ⟨positive, found⟩ := mem_numberedRules.mp numbered
    exact ⟨rule, positive, found, rfl, mem_predictors.mp predicted⟩
  · rintro ⟨rule, positive, found, rfl, predicts⟩
    exact ⟨(rule, number), mem_numberedRules.mpr ⟨positive, found⟩,
      List.mem_map.mpr ⟨terminal, mem_predictors.mpr predicts, rfl⟩⟩

theorem disputes_same {number : Nat} : g.disputes cell [number, number] = [] := by
  simp [disputes]

theorem cell_of_mem_disputes {rules : List Nat} {conflict : PredictiveConflict}
    (disputed : conflict ∈ g.disputes cell rules) :
    ⟨conflict.nonTerminal, conflict.terminal⟩ = cell := by
  obtain ⟨entry, -, rfl⟩ := List.mem_map.mp disputed
  rfl

/-- What comes before a rule in a list, one rule at most, is disputed apart from what comes after it. -/
theorem disputes_append_cons {previous : Option Nat} {number : Nat} {rest : List Nat} :
    g.disputes cell (previous.toList ++ number :: rest) =
      g.disputes cell (previous.toList ++ [number]) ++ g.disputes cell (number :: rest) := by
  cases previous with
  | none => rfl
  | some first =>
    simp only [disputes, Option.toList_some, List.singleton_append, List.tail_cons, List.zip_cons_cons,
      List.filter_cons]
    split <;> simp

end Grammar

namespace PredictiveTable

open Grammar

/-- Puts a numbered rule into all its cells. -/
def enterRule (table : PredictiveTable) (g : Grammar) (entry : Rule × Nat) : PredictiveTable :=
  (g.predictors g.firstSets (g.followSets g.firstSets) entry.1).foldl
    (fun table terminal => table.enter g ⟨entry.1.head, terminal⟩ entry.2) table

variable {g : Grammar} {cell : PredictiveCell} {table : PredictiveTable}

theorem getElem?_enter {other : PredictiveCell} {rule : Nat} :
    (table.enter g cell rule).cells[other]? =
      if cell = other then some rule else table.cells[other]? := by
  have inserted : (table.cells.insert cell rule)[other]? =
      if cell = other then some rule else table.cells[other]? := by
    rw [Std.TreeMap.getElem?_insert]
    simp only [Std.LawfulEqCmp.compare_eq_iff_eq]
  simp only [enter]
  cases table.cells[cell]? with
  | none => exact inserted
  | some previous =>
    dsimp only
    split <;> exact inserted

theorem conflicts_enter {number : Nat} : (table.enter g cell number).conflicts.toList =
    table.conflicts.toList ++ g.disputes cell ((table.cells[cell]?).toList ++ [number]) := by
  unfold enter
  cases table.cells[cell]? with
  | none => simp [disputes]
  | some previous =>
    by_cases same : (g.rule? previous).map Rule.body = (g.rule? number).map Rule.body
      <;> simp [disputes, same]

theorem enter_recorded {number : Nat} {conflict : PredictiveConflict}
    (recorded : conflict ∈ (table.enter g cell number).conflicts) :
    conflict ∈ table.conflicts ∨ ∃ previous, table.cells[cell]? = some previous ∧
      conflict = ⟨cell.nonTerminal, cell.terminal, previous, number⟩ := by
  rw [← Array.mem_toList_iff, conflicts_enter, List.mem_append, Array.mem_toList_iff] at recorded
  refine recorded.imp_right fun disputed => ?_
  cases held : table.cells[cell]? with
  | none => simp [held, disputes] at disputed
  | some previous =>
    rw [held] at disputed
    obtain ⟨⟨earlier, later⟩, kept, rfl⟩ := List.mem_map.mp disputed
    have only : (earlier, later) ∈ [(previous, number)] := (List.mem_filter.mp kept).1
    obtain ⟨rfl, rfl⟩ := Prod.mk.inj (List.mem_singleton.mp only)
    exact ⟨earlier, rfl, rfl⟩

theorem conflictsAt_enter {other : PredictiveCell} {number : Nat} :
    (table.enter g other number).conflictsAt cell = table.conflictsAt cell ++
      if other = cell then g.disputes cell ((table.cells[cell]?).toList ++ [number]) else [] := by
  unfold conflictsAt
  rw [conflicts_enter, List.filter_append]
  congr 1
  split
  · rename_i same
    subst same
    exact List.filter_eq_self.mpr fun conflict disputed => decide_eq_true (cell_of_mem_disputes disputed)
  · rename_i apart
    refine List.filter_eq_nil_iff.mpr fun conflict disputed here => apart ?_
    exact (cell_of_mem_disputes disputed).symm.trans (of_decide_eq_true here)

/-- Putting one rule into its row changes a cell there once, however often the column is named. -/
theorem foldl_enter_row {head number : Nat} {terminals : List Nat} :
    let entered := terminals.foldl (fun table terminal => table.enter g ⟨head, terminal⟩ number) table
    let comes := head = cell.nonTerminal ∧ cell.terminal ∈ terminals
    entered.cells[cell]? = (if comes then some number else table.cells[cell]?) ∧
      entered.conflictsAt cell = table.conflictsAt cell ++
        if comes then g.disputes cell ((table.cells[cell]?).toList ++ [number]) else [] := by
  induction terminals generalizing table with
  | nil => simp
  | cons terminal rest ih =>
    obtain ⟨held, recorded⟩ := @ih (table.enter g ⟨head, terminal⟩ number)
    simp only [List.foldl_cons, held, recorded, getElem?_enter, conflictsAt_enter]
    by_cases first : (⟨head, terminal⟩ : PredictiveCell) = cell
    · subst first
      -- from now on the rule stands there itself, and it has no conflict with itself
      simp [disputes_same]
    · have elsewhere : (head = cell.nonTerminal ∧ cell.terminal ∈ terminal :: rest) ↔
          head = cell.nonTerminal ∧ cell.terminal ∈ rest := by
        refine and_congr_right fun row => List.mem_cons.trans (or_iff_right fun column => first ?_)
        rw [row, ← column]
      simp only [first, elsewhere, if_false, List.append_nil, and_self]

theorem enterRule_cell {rule : Rule} {number : Nat} :
    let entered := table.enterRule g (rule, number)
    let comes := rule.head = cell.nonTerminal ∧ g.Predicts rule cell.terminal
    entered.cells[cell]? = (if comes then some number else table.cells[cell]?) ∧
      entered.conflictsAt cell = table.conflictsAt cell ++
        if comes then g.disputes cell ((table.cells[cell]?).toList ++ [number]) else [] := by
  simp only [← mem_predictors (g := g)]
  exact foldl_enter_row

/-- Of some numbered rules a cell keeps the last one that comes into it, and the disputes between
neighbours among those that do are recorded for it. -/
theorem foldl_enterRule_cell {entries : List (Rule × Nat)} :
    let entered := entries.foldl (fun table entry => table.enterRule g entry) table
    entered.cells[cell]? = (g.rulesAmong cell entries).getLast?.or table.cells[cell]? ∧
      entered.conflictsAt cell = table.conflictsAt cell ++
        g.disputes cell ((table.cells[cell]?).toList ++ g.rulesAmong cell entries) := by
  induction entries generalizing table with
  | nil => cases held : table.cells[cell]? <;> simp [rulesAmong, disputes, held]
  | cons entry rest ih =>
    obtain ⟨rule, number⟩ := entry
    obtain ⟨held, recorded⟩ := @enterRule_cell g cell table rule number
    obtain ⟨heldLast, recordedLast⟩ := @ih (table.enterRule g (rule, number))
    rw [held] at heldLast recordedLast
    rw [recorded, List.append_assoc] at recordedLast
    simp only [List.foldl_cons]
    rw [heldLast, recordedLast]
    by_cases comes : rule.head = cell.nonTerminal ∧ g.Predicts rule cell.terminal
    · have more : g.rulesAmong cell ((rule, number) :: rest) = number :: g.rulesAmong cell rest := by
        simp [rulesAmong, comes]
      rw [more, if_pos comes, if_pos comes, List.getLast?_cons]
      refine ⟨?_, congrArg (table.conflictsAt cell ++ ·) disputes_append_cons.symm⟩
      cases (g.rulesAmong cell rest).getLast? <;> rfl
    · have same : g.rulesAmong cell ((rule, number) :: rest) = g.rulesAmong cell rest := by
        simp [rulesAmong, comes]
      rw [same, if_neg comes, if_neg comes, List.nil_append]
      exact ⟨rfl, rfl⟩

end PredictiveTable

namespace Grammar

variable {g : Grammar}

theorem mem_rulesOn {nonTerminal terminal number : Nat} : number ∈ g.rulesOn nonTerminal terminal ↔
    ∃ rule, 0 < number ∧ g.rule? number = some rule ∧ rule.head = nonTerminal ∧
      g.Predicts rule terminal := by
  simp only [rulesOn, rulesAmong, List.mem_map, List.mem_filter, Prod.exists, mem_numberedRules,
    decide_eq_true_eq]
  constructor
  · rintro ⟨rule, number', ⟨⟨positive, found⟩, head, predicts⟩, rfl⟩
    exact ⟨rule, positive, found, head, predicts⟩
  · rintro ⟨rule, positive, found, head, predicts⟩
    exact ⟨rule, number, ⟨⟨positive, found⟩, head, predicts⟩, rfl⟩

theorem rulesOn_ascending (nonTerminal terminal : Nat) :
    (g.rulesOn nonTerminal terminal).Pairwise (· < ·) := by
  have numbers : g.numberedRules.map Prod.snd = List.range' 1 g.listed.length :=
    List.zipIdx_map_snd 1 g.listed
  exact (numbers ▸ List.pairwise_lt_range').sublist (List.filter_sublist.map Prod.snd)

theorem llTable_eq :
    g.llTable = g.numberedRules.foldl (fun table entry => table.enterRule g entry) .empty := by
  simp only [llTable, predictiveTable, predictions, PredictiveTable.enterRule,
    List.foldl_flatMap, List.foldl_map]

/-- What a cell of the LL(1) table holds, and what is recorded for it. -/
theorem llTable_cell (nonTerminal terminal : Nat) :
    g.llTable.rule? nonTerminal terminal = (g.rulesOn nonTerminal terminal).getLast? ∧
      g.llTable.conflictsAt ⟨nonTerminal, terminal⟩ =
        g.disputes ⟨nonTerminal, terminal⟩ (g.rulesOn nonTerminal terminal) := by
  obtain ⟨held, recorded⟩ :=
    @PredictiveTable.foldl_enterRule_cell g ⟨nonTerminal, terminal⟩ .empty g.numberedRules
  rw [← llTable_eq] at held recorded
  have vacant : PredictiveTable.empty.cells[(⟨nonTerminal, terminal⟩ : PredictiveCell)]? = none := rfl
  rw [vacant] at held recorded
  exact ⟨held.trans Option.or_none, recorded⟩

end Grammar

end ParseTables
