import ParseTables.Proofs.Lookup.Runs
import ParseTables.Proofs.Render.Listing
import ParseTables.Render.Document

namespace ParseTables

open Grammar Render

namespace Text

theorem length_padLeft (width : Nat) (text : String) : width ≤ (padLeft width text).length := by
  rw [padLeft_eq, String.length_append, String.length_ofList, List.length_replicate]
  omega

end Text

namespace Render

/-- The line of a production is at least as wide as the field for its head. -/
theorem Production.width_le_layout {production : Production} (some : production.rights ≠ [])
    (width : Nat) : width ≤ (production.layout width false).length := by
  obtain ⟨first, others, whole⟩ := List.exists_cons_of_ne_nil some
  have padded := Text.length_padLeft width production.left
  simp only [layout, whole, String.append_assoc, String.intercalate_cons_append, String.length_append]
  omega

namespace PredictiveGrid

/-- The rows of the table with their cells written out. -/
def lines (grid : PredictiveGrid) : List (List String) :=
  ("" :: grid.terminals) :: grid.rows.map fun row =>
    row.name :: row.cells.map fun cell => cell.layout row.name.utf8ByteSize false

variable {grid : PredictiveGrid}

theorem cellTexts?_eq
    (fits : ∀ row ∈ grid.rows, ∀ cell ∈ row.cells, cell.rights = [] ∨
      row.name.utf8ByteSize ≤ Text.widestField) : grid.cellTexts? = some grid.lines := by
  rw [cellTexts?, mapM_eq_map fun row member => ?_]
  · rfl
  · have cells : (row.cells.mapM fun cell => cell.plain? row.name.utf8ByteSize false) =
        some (row.cells.map fun cell => cell.layout row.name.utf8ByteSize false) :=
      mapM_eq_map fun cell inside => if_pos (fits row member cell inside)
    rw [cells]
    rfl

section Wide

variable {row : PredictiveRow} {cell : Production} (member : row ∈ grid.rows) (inside : cell ∈ row.cells)
  (some : cell.rights ≠ []) (wide : Text.widestField < row.name.utf8ByteSize)
include member inside some wide

theorem cellTexts?_eq_none : grid.cellTexts? = none := by
  have refused : cell.plain? row.name.utf8ByteSize false = none := by
    rw [Production.plain?, if_neg]
    exact not_or.mpr ⟨some, Nat.not_le_of_lt wide⟩
  rw [cellTexts?, mapM_eq_none_of_mem member]
  · rfl
  · rw [mapM_eq_none_of_mem inside refused]
    rfl

theorem tooWide_lines : Text.TooWide grid.lines :=
  ⟨_, List.mem_cons_of_mem _ (List.mem_map_of_mem member), _,
    List.mem_cons_of_mem _ (List.mem_map_of_mem inside),
    Nat.lt_of_lt_of_le wide (Production.width_le_layout some _)⟩

end Wide

theorem plain?_of_fits (fits : ∀ row ∈ grid.rows, ∀ cell ∈ row.cells,
    cell.rights = [] ∨ row.name.utf8ByteSize ≤ Text.widestField) : grid.plain? =
    (Text.alignColumns? grid.lines).map fun aligned => "\n".intercalate (aligned :: grid.conflicts) := by
  rw [plain?, cellTexts?_eq fits, Option.map_eq_bind]
  rfl

/-- Nothing but a cell that is wider than a field can be prevents the table from being written. -/
theorem plain?_eq_none_iff : grid.plain? = none ↔ Text.TooWide grid.lines := by
  -- a name may fit into its own column and still be too long in bytes, which only the filled cells of
  -- its row show
  by_cases fits : ∀ row ∈ grid.rows, ∀ cell ∈ row.cells, cell.rights = [] ∨
    row.name.utf8ByteSize ≤ Text.widestField
  · rw [plain?_of_fits fits, Option.map_eq_none_iff, Text.alignColumns?_eq_none_iff]
  · push Not at fits
    obtain ⟨row, member, cell, inside, some, wide⟩ := fits
    refine iff_of_true ?_ (tooWide_lines member inside some wide)
    rw [plain?, cellTexts?_eq_none member inside some wide]
    rfl

/-- What is written are the aligned lines, and the conflicts after them. -/
theorem eq_of_plain? {text : String} (written : grid.plain? = some text) :
    text = "\n".intercalate (Text.alignColumns grid.lines :: grid.conflicts) := by
  have narrow : ¬ Text.TooWide grid.lines :=
    fun wide => by cases (plain?_eq_none_iff.mpr wide).symm.trans written
  rw [plain?_of_fits fun row member cell inside => ?_, Text.alignColumns?, if_pos ?_] at written
  · exact (Option.some.inj written).symm
  · rw [Text.columnWidths_le_iff]
    simpa [Text.TooWide] using narrow
  · by_contra wide
    obtain ⟨some, wide⟩ := not_or.mp wide
    exact narrow (tooWide_lines member inside some (not_le.mp wide))

end PredictiveGrid

/-- The rows of the table with their cells written out. -/
def ActionGrid.lines (grid : ActionGrid) : List (List String) :=
  ("" :: grid.terminals ++ grid.nonTerminals) :: grid.rows.zipIdx.map fun (row, number) =>
    toString number :: row.actions.map (fun cell => "; ".intercalate (cell.map Action.plain)) ++
      row.targets.map targetText

theorem ActionGrid.plain?_eq_none_iff {grid : ActionGrid} :
    grid.plain? = none ↔ Text.TooWide grid.lines :=
  Text.alignColumns?_eq_none_iff

/-- Each node but the first is placed at a node before it. -/
theorem StateBox.placement_spec (n : Nat) :
    placement (2 * n + 1) = " [right of = I_" ++ toString (2 * n) ++ "] " ∧
    placement (2 * n + 2) = " [below of = I_" ++ toString (2 * n) ++ "] " := by
  have even : (2 * n) % 2 ≠ 1 := by omega
  have odd : (2 * n + 1) % 2 = 1 := by omega
  exact ⟨by rw [placement, if_neg even], by rw [placement, if_pos odd, Nat.add_sub_cancel]⟩

end Render

variable {g : Grammar}

theorem exists_bodyNames {body : List Nat} (each : ∀ symbol ∈ body, g.HasSymbol symbol) :
    ∃ names, g.bodyNames? body = some names := by
  obtain ⟨names, named⟩ := exists_namesOf each
  exact ⟨shownBody names, by rw [bodyNames?_eq, named, Option.map_some]⟩

theorem exists_terminalNames : ∃ names, g.namesOf? g.terminals = some names :=
  exists_namesOf fun _ member => hasSymbol_of_isTerminal (mem_terminals_iff.mp member)

theorem exists_nonTerminalNames : ∃ names, g.namesOf? g.nonTerminals = some names :=
  exists_namesOf fun _ => hasSymbol_of_listed

/-- The rules of reductions are there. -/
theorem hasRule_of_reductions {items : ItemSet} (fits : ∀ item ∈ items, item.Fits g) :
    ∀ number ∈ items.reductions g, g.HasRule number := by
  intro number member
  obtain ⟨item, complete, rfl⟩ := List.mem_map.mp member
  obtain ⟨rule, defined, -⟩ := fits item (SortedSet.mem_toList.mp (List.mem_filter.mp complete).1)
  exact ⟨rule, defined⟩

/-- The rules by which a state reduces are there. -/
theorem hasRule_of_reduce {state : LRState} (fits : ∀ item ∈ state.items, item.Fits g)
    {follow : FollowSets} {terminal number : Nat}
    (member : .reduce number ∈ state.actionsOn g follow terminal) : g.HasRule number := by
  rcases ActionRow.mem_foldl_addReduction.mp member with other | ⟨rule, applies, same⟩
  · rcases List.mem_append.mp other with shifting | accepting
    · simp at shifting
    · split at accepting <;> simp at accepting
  · obtain rfl := LRAction.reduce.inj same
    exact hasRule_of_reductions fits number (List.mem_filter.mp applies).1

section WellFormed

variable (wf : g.WellFormed)
include wf

theorem Grammar.HasRule.production {number : Nat} (known : g.HasRule number) :
    ∃ production, g.production? number = some production := by
  obtain ⟨rule, defined⟩ := known
  obtain ⟨head, named⟩ := hasSymbol_head wf defined
  obtain ⟨names, shown⟩ := exists_bodyNames (hasSymbol_body wf defined)
  exact ⟨⟨head, [names]⟩, by simp [production?, defined, named, shown]⟩

theorem Grammar.HasRule.text {number : Nat} (known : g.HasRule number) :
    ∃ text, g.ruleText? number = some text := by
  obtain ⟨production, shown⟩ := known.production wf
  exact ⟨production.line, by rw [ruleText?, shown, Option.map_some]⟩

theorem Item.Fits.texts [Text.TeX] {item : Item} (fits : item.Fits g) :
    (∃ text, item.text? g = some text) ∧ ∃ text, item.latex? g = some text := by
  obtain ⟨rule, defined, -⟩ := fits
  obtain ⟨head, named⟩ := hasSymbol_head wf defined
  obtain ⟨names, listed⟩ := exists_namesOf (hasSymbol_body wf defined)
  exact ⟨by simp [Item.text?, defined, named, listed], by simp [Item.latex?, defined, named, listed]⟩

theorem exists_setsTable :
    ∃ table, SetsTable.of? g g.firstSets (g.followSets g.firstSets) = some table := by
  obtain ⟨rows, shown⟩ : ∃ rows,
      g.nonTerminals.mapM (SetsRow.of? g g.firstSets (g.followSets g.firstSets)) = some rows := by
    refine exists_mapM fun symbol listed => ?_
    obtain ⟨name, named⟩ := hasSymbol_of_listed listed
    obtain ⟨sets, found, -⟩ := exists_namedSets wf listed named
    exact ⟨_, setsRow_eq wf listed named found⟩
  exact ⟨⟨rows⟩, by rw [SetsTable.of?, shown]; rfl⟩

section PredictiveTable

variable {table : PredictiveTable} (inRange : table.InRange g)
include inRange

theorem exists_predictiveCell (name : String) (nonTerminal terminal : Nat) :
    ∃ cell, predictiveCell? g table name nonTerminal terminal = some cell := by
  unfold predictiveCell?
  split
  · exact ⟨_, rfl⟩
  · rename_i number entry
    obtain ⟨rule, defined⟩ := inRange.cells _ _ _ entry
    obtain ⟨names, shown⟩ := exists_bodyNames (hasSymbol_body wf defined)
    simp [defined, shown]

theorem exists_predictiveGrid : ∃ grid, PredictiveGrid.of? g table = some grid := by
  obtain ⟨terminals, named⟩ := exists_terminalNames (g := g)
  obtain ⟨rows, shown⟩ : ∃ rows, (g.nonTerminals.mapM fun nonTerminal => do
      let name ← g.name? nonTerminal
      return (⟨name, ← g.terminals.mapM (predictiveCell? g table name nonTerminal)⟩ : PredictiveRow)) =
          some rows := by
    refine exists_mapM fun nonTerminal listed => ?_
    obtain ⟨name, headed⟩ := hasSymbol_of_listed listed
    obtain ⟨cells, filled⟩ := exists_mapM fun terminal (_ : terminal ∈ g.terminals) =>
      exists_predictiveCell wf inRange name nonTerminal terminal
    simp [headed, filled]
  obtain ⟨conflicts, told⟩ : ∃ conflicts, table.conflicts.toList.mapM (PredictiveConflict.text? g) =
      some conflicts := by
    refine exists_mapM fun conflict recorded => ?_
    obtain ⟨⟨row, headed⟩, ⟨column, named⟩, previous, chosen⟩ :=
      inRange.conflicts conflict (Array.mem_toList_iff.mp recorded)
    obtain ⟨previousText, earlier⟩ := previous.text wf
    obtain ⟨chosenText, later⟩ := chosen.text wf
    simp [PredictiveConflict.text?, headed, named, earlier, later]
  exact ⟨⟨terminals, rows, conflicts⟩, by rw [PredictiveGrid.of?, named, shown, told]; rfl⟩

end PredictiveTable

theorem exists_stateBox [Text.TeX] {state : LRState}
    (items : ∀ item, item ∈ state.items ∨ item ∈ state.kernel → item.Fits g)
    (edges : ∀ edge ∈ state.edges, g.HasSymbol edge.symbol) :
    ∃ box, StateBox.of? g state = some box := by
  obtain ⟨kernel, shown⟩ := exists_mapM fun item (member : item ∈ state.kernel.toList) =>
    ((items item (Or.inr (SortedSet.mem_toList.mp member))).texts wf).1
  obtain ⟨extension, added⟩ := exists_mapM fun item (member : item ∈ state.extension) =>
    ((items item (Or.inl (SortedSet.mem_toList.mp (List.mem_filter.mp member).1))).texts wf).1
  obtain ⟨formulas, written⟩ := exists_mapM fun item (member : item ∈ state.items.toList) =>
    ((items item (Or.inl (SortedSet.mem_toList.mp member))).texts wf).2
  obtain ⟨arrows, drawn⟩ : ∃ arrows, (state.edges.mapM fun edge => do
      return (← g.name? edge.symbol, edge.target)) = some arrows := by
    refine exists_mapM fun edge leaves => ?_
    obtain ⟨name, named⟩ := edges edge leaves
    simp [named]
  exact ⟨⟨kernel, extension, arrows, formulas⟩, by rw [StateBox.of?, shown, added, drawn, written]; rfl⟩

theorem exists_conflictText {state : Nat} {items : ItemSet} (fits : ∀ item ∈ items, item.Fits g)
    {policy : ReducePolicy} {conflict : SLRConflict}
    (member : conflict ∈ stateConflicts g (g.followSets g.firstSets) policy state items) :
    ∃ text, conflict.text? g = some text := by
  have known := hasRule_of_reductions fits
  rcases List.mem_append.mp member with shifting | reducing
  · obtain ⟨number, reduces, made⟩ := List.mem_flatMap.mp shifting
    obtain ⟨terminal, inside, rfl⟩ := List.mem_map.mp made
    obtain ⟨rule, defined⟩ := known number reduces
    have follows :=
      (mem_reduceOn defined).mp (SortedSet.mem_filter.mp (SortedSet.mem_toList.mp inside)).1
    obtain ⟨name, named⟩ := hasSymbol_of_isTerminal (isTerminal_of_mem_follow follows)
    obtain ⟨text, written⟩ := HasRule.text wf ⟨rule, defined⟩
    simp [SLRConflict.text?, named, written]
  · obtain ⟨-, rfl⟩ : _ ∧ conflict = .reduceReduce state (items.reductions g) := by simpa using reducing
    obtain ⟨rules, written⟩ := exists_mapM fun number reduces => (known number reduces).text wf
    simp [SLRConflict.text?, written]

section Automaton

variable {automaton : Automaton}
  (items : ∀ state ∈ automaton.states, ∀ item, item ∈ state.items ∨ item ∈ state.kernel → item.Fits g)
include items

theorem exists_diagram [Text.TeX]
    (edges : ∀ state ∈ automaton.states, ∀ edge ∈ state.edges, g.HasSymbol edge.symbol) :
    ∃ diagram, Diagram.of? g automaton = some diagram := by
  obtain ⟨boxes, shown⟩ := exists_mapM fun state reached =>
    exists_stateBox wf (items state reached) (edges state reached)
  exact ⟨⟨boxes⟩, by rw [Diagram.of?, shown]; rfl⟩

theorem exists_conflictReport (policy : ReducePolicy) : ∃ report,
    ConflictReport.of? g (automaton.conflicts g (g.followSets g.firstSets) policy) = some report := by
  obtain ⟨texts, shown⟩ : ∃ texts,
      (automaton.conflicts g (g.followSets g.firstSets) policy).mapM (SLRConflict.text? g) =
          some texts := by
    refine exists_mapM fun conflict member => ?_
    obtain ⟨⟨state, number⟩, reached, conflicting⟩ := List.mem_flatMap.mp member
    have fits := fun item inside => items state (List.fst_mem_of_mem_zipIdx reached) item (Or.inl inside)
    exact exists_conflictText wf fits conflicting
  exact ⟨⟨texts⟩, by rw [ConflictReport.of?, shown]; rfl⟩

theorem exists_actionGrid (follow : FollowSets) : ∃ grid,
    ActionGrid.of? g (automaton.actionTable g follow) = some grid := by
  obtain ⟨terminals, named⟩ := exists_terminalNames (g := g)
  obtain ⟨nonTerminals, headed⟩ := exists_nonTerminalNames (g := g)
  obtain ⟨actions, shown⟩ : ∃ actions, ((automaton.actionTable g follow).action.mapM fun row =>
      row.mapM fun cell => cell.mapM (Render.Action.of? g)) = some actions := by
    rw [Automaton.actionTable_eq]
    refine exists_mapM fun row member => ?_
    obtain ⟨state, reached, rfl⟩ := List.mem_map.mp member
    refine exists_mapM fun cell inRow => ?_
    obtain ⟨terminal, -, rfl⟩ := List.mem_map.mp inRow
    refine exists_mapM fun action inCell => ?_
    cases action with
    | shift target => exact ⟨_, rfl⟩
    | accept => exact ⟨_, rfl⟩
    | reduce number =>
      have known :=
        hasRule_of_reduce (fun item inside => items state reached item (Or.inl inside)) inCell
      obtain ⟨production, written⟩ := known.production wf
      exact ⟨_, by rw [Render.Action.of?, written, Option.map_some]⟩
  -- the columns of the table are those of the grammar, which rewriting does not see
  have columns : g.namesOf? (automaton.actionTable g follow).terminals = some terminals ∧
      g.namesOf? (automaton.actionTable g follow).nonTerminals = some nonTerminals := ⟨named, headed⟩
  exact ⟨_, by rw [ActionGrid.of?, columns.1, columns.2, shown]; rfl⟩

end Automaton

end WellFormed

namespace Analysis

/-- What cannot be written in plain text, as a column of it would be wider than a field can be. -/
def TooWide (a : Analysis) : Subject → Prop
  | .productions => ∃ head ∈ a.grammar.heads, Text.widestField < head.length
  | .predictiveTable => ∃ grid, a.predictiveGrid? = some grid ∧ Text.TooWide grid.lines
  | .actionTable => ∃ grid, a.actionGrid? = some grid ∧ Text.TooWide grid.lines
  | .sets | .automaton | .conflicts => False

/-- Nothing is missing from what is shown, unless it is too wide. -/
structure ShowsInRange (a : Analysis) : Prop where
  latex : ∀ subject, ∃ text, a.render? subject .latex = some text
  json : ∀ subject, ∃ text, a.render? subject .json = some text
  plain : ∀ subject, a.render? subject .plain = none ↔ a.TooWide subject
  /-- Each cell has a width. -/
  columns : ∀ rows : List (List String), ∀ row ∈ rows, row.length ≤ (Text.columnWidths rows).length
  /-- Each state but the first is drawn at one with a smaller number. -/
  placed : ∀ n, StateBox.placement (2 * n + 1) = " [right of = I_" ++ toString (2 * n) ++ "] " ∧
    StateBox.placement (2 * n + 2) = " [below of = I_" ++ toString (2 * n) ++ "] "

/-- Every rule, symbol and item that is shown has its names. -/
theorem showsInRange {pairs : List (String × String)} {designated : Option String}
    (built : ofRules pairs designated = .ok g) (policy : ReducePolicy) :
    (ofGrammar g policy).ShowsInRange := by
  have wf := wellFormed_ofRules built
  have builds := buildsInRange wf policy
  have listed : (ofGrammar g policy).listing? = _ := listing_ofRules built
  obtain ⟨sets, shown⟩ : ∃ sets, (ofGrammar g policy).sets? = some sets := exists_setsTable wf
  obtain ⟨predictive, filled⟩ : ∃ grid, (ofGrammar g policy).predictiveGrid? = some grid :=
    exists_predictiveGrid wf (builds.entered _ List.prefix_rfl)
  obtain ⟨diagram, drawn⟩ : ∃ diagram, (ofGrammar g policy).diagram? = some diagram :=
    exists_diagram wf builds.items fun state reached edge leaves =>
      (builds.edges state reached edge leaves).1
  obtain ⟨report, told⟩ : ∃ report, (ofGrammar g policy).conflictReport? = some report :=
    exists_conflictReport wf builds.items policy
  obtain ⟨actions, entered⟩ : ∃ grid, (ofGrammar g policy).actionGrid? = some grid :=
    exists_actionGrid wf builds.items _
  refine ⟨fun subject => ?_, fun subject => ?_, fun subject => ?_,
    fun _ _ => Text.length_le_columnWidths,
    StateBox.placement_spec⟩
  · cases subject <;> simp [render?, listed, shown, filled, drawn, told, entered, inFormat?]
  · cases subject <;> simp [render?, listed, shown, filled, drawn, told, entered, inFormat?]
  · cases subject with
    | productions =>
      rw [render?, listed]
      exact plain?_ofRules_eq_none_iff built rfl
    | predictiveTable =>
      simp only [render?, TooWide, filled, Option.some.injEq, exists_eq_left']
      exact PredictiveGrid.plain?_eq_none_iff
    | actionTable =>
      simp only [render?, TooWide, entered, Option.some.injEq, exists_eq_left']
      exact ActionGrid.plain?_eq_none_iff
    | sets | automaton | conflicts =>
      simp [render?, shown, drawn, told, inFormat?, Document.plain?, TooWide]

end Analysis

end ParseTables
