import ParseTables.Proofs.Lookup.Documents
import ParseTables.Proofs.Predictive.Rivals

namespace ParseTables

open Grammar Render
open Text (tightWidths column widest InColumns)

namespace PredictiveTable

/-- What a cell has to show: nothing, or its rule as conflicts write it. -/
def cellText? (table : PredictiveTable) (g : Grammar) (nonTerminal terminal : Nat) : Option String :=
  match table.rule? nonTerminal terminal with
  | none => some ""
  | some number => g.ruleText? number

/-- A non-terminal before its entries. -/
def entryRow? (table : PredictiveTable) (g : Grammar) (nonTerminal : Nat) : Option (List String) := do
  return (← g.name? nonTerminal) :: (← g.terminals.mapM (table.cellText? g nonTerminal))

/-- What the table has to show: the terminals above the columns, and below them the rows. -/
def entries? (table : PredictiveTable) (g : Grammar) : Option (List (List String)) := do
  return ("" :: (← g.namesOf? g.terminals)) :: (← g.nonTerminals.mapM (table.entryRow? g))

/-- An entry with the blanks that are put before it in the row of a name: one for each byte that the name
has more than characters. -/
def indent (name entry : String) : String :=
  if entry = "" then ""
  else String.ofList (List.replicate (name.utf8ByteSize - name.length) ' ') ++ entry

/-- A row with its entries set in. -/
def indented : List String → List String
  | [] => []
  | name :: entries => name :: entries.map (indent name)

end PredictiveTable

open PredictiveTable (indent indented)

/-- The first lines of the text show the entries in columns of given widths, and the conflicts come after
them. -/
def Tabulates (widths : List Nat) (entries : List (List String)) (conflicts : List String)
    (text : String) : Prop :=
  ∃ lines, Text.lines text = lines ++ conflicts ∧ List.Forall₂ (InColumns widths) entries lines

namespace PredictiveTable

section Entry

variable {table : PredictiveTable} {g : Grammar} {nonTerminal terminal : Nat}

theorem cellText?_of_free (free : table.rule? nonTerminal terminal = none) :
    table.cellText? g nonTerminal terminal = some "" := by
  rw [cellText?, free]

theorem cellText?_of_filled {number : Nat} (filled : table.rule? nonTerminal terminal = some number) :
    table.cellText? g nonTerminal terminal = g.ruleText? number := by
  rw [cellText?, filled]

end Entry

/-- Only names with more bytes than characters set their entries in. -/
theorem indent_eq_self {name : String} (ascii : name.utf8ByteSize = name.length) (entry : String) :
    indent name entry = entry := by
  unfold indent
  split
  · rename_i empty
    exact empty.symm
  · rw [ascii, Nat.sub_self]
    exact String.empty_append

theorem indented_eq_self {row : List String}
    (ascii : ∀ name ∈ row.head?, name.utf8ByteSize = name.length) : indented row = row := by
  cases row with
  | nil => rfl
  | cons name entries =>
    have same : entries.map (indent name) = entries :=
      (List.map_congr_left fun entry _ => indent_eq_self (ascii name rfl) entry).trans (List.map_id _)
    rw [indented, same]

theorem length_indent (name : String) {entry : String} (filled : entry ≠ "") :
    (indent name entry).length = name.utf8ByteSize - name.length + entry.length := by
  rw [indent, if_neg filled, String.length_append, String.length_ofList, List.length_replicate]

theorem length_le_indent (name entry : String) : entry.length ≤ (indent name entry).length := by
  by_cases empty : entry = ""
  · rw [empty]
    exact Nat.zero_le _
  · rw [length_indent name empty]
    exact Nat.le_add_left _ _

theorem exists_indented (row : List String) (place : Nat) (cell : String)
    (here : row[place]? = some cell) :
    ∃ cell', (indented row)[place]? = some cell' ∧ cell.length ≤ cell'.length := by
  cases row with
  | nil => cases here
  | cons name entries =>
    cases place with
    | zero => exact ⟨cell, here, Nat.le_refl _⟩
    | succ place =>
      rw [List.getElem?_cons_succ] at here
      exact ⟨indent name cell, by simp [indented, here], length_le_indent name cell⟩

theorem length_indented (row : List String) : (indented row).length = row.length := by
  cases row with
  | nil => rfl
  | cons name entries => rw [indented, List.length_cons, List.length_map, List.length_cons]

end PredictiveTable

namespace Text

/-- It makes no difference whether blanks are put before a text at once or in two steps. -/
theorem padLeft_indent {width : Nat} {name entry : String} (fits : (indent name entry).length ≤ width) :
    padLeft width (indent name entry) = padLeft width entry := by
  by_cases empty : entry = ""
  · rw [indent, if_pos empty, empty]
  · have whole := PredictiveTable.length_indent name empty
    rw [padLeft_eq, padLeft_eq, whole, indent, if_neg empty, ← String.append_assoc,
      ← String.ofList_append,
      List.replicate_append_replicate]
    congr 3
    omega

theorem Unbroken.padLeft {text : String} (once : Unbroken text) (width : Nat) :
    Unbroken (padLeft width text) := by
  rw [padLeft_eq]
  refine Unbroken.append (fun member => ?_) once
  rw [String.toList_ofList] at member
  exact absurd (List.eq_of_mem_replicate member) (by decide)

theorem unbroken_alignRow (widths : List Nat) {row : List String} (each : ∀ text ∈ row, Unbroken text) :
    Unbroken (alignRow widths row) := by
  refine Unbroken.intercalate (by decide) fun part member => ?_
  rw [← List.map_uncurry_zip_eq_zipWith] at member
  obtain ⟨⟨width, text⟩, paired, rfl⟩ := List.mem_map.mp member
  exact (each text (List.of_mem_zip paired).2).padLeft width

/-- Rows that are set in stand in their columns as if they were not. -/
theorem inColumns_indented {widths : List Nat} {row : List String}
    (fits : List.Forall₂ (fun width text => text.length ≤ width) widths (indented row)) :
    InColumns widths row (alignRow widths (indented row)) := by
  cases row with
  | nil => exact inColumns_alignRow fits
  | cons name entries =>
    rw [indented, List.forall₂_cons_right_iff] at fits
    obtain ⟨width, rest, first, others, rfl⟩ := fits
    rw [List.forall₂_map_right_iff] at others
    have same : List.zipWith padLeft rest (entries.map (indent name)) =
        List.zipWith padLeft rest entries := by
      rw [List.zipWith_map_right]
      exact List.zipWith_congr _ _ _ _ (others.imp fun _ _ => padLeft_indent)
    have within := others.imp fun width entry =>
      Nat.le_trans (PredictiveTable.length_le_indent name entry)
    have row := inColumns_alignRow (.cons first within)
    rwa [alignRow, indented, List.zipWith_cons_cons, same, ← List.zipWith_cons_cons]

theorem utf8ByteSize_eq_length {text : String} (ascii : ∀ c ∈ text.toList, c.toNat < 128) :
    text.utf8ByteSize = text.length := by
  induction text using String.push_induction with
  | empty => rfl
  | push text c ih =>
    have last : c.utf8Size = 1 := Char.utf8Size_eq_one_iff.mpr (by
      have small := ascii c (by simp)
      exact UInt32.le_iff_toNat_le.mpr (Nat.le_of_lt_succ small))
    rw [String.utf8ByteSize_push, String.length_push, last,
      ih fun d member => ascii d (by simp [member])]

end Text

namespace Render.Production

theorem layout_single (left : String) (right : List String) (width : Nat) :
    (⟨left, [right]⟩ : Production).layout width false = Text.padLeft width left ++ " -> " ++
      " ".intercalate right := by
  simp [layout]

theorem line_single (left : String) (right : List String) :
    (⟨left, [right]⟩ : Production).line = left ++ " -> " ++ " ".intercalate right := by
  rw [line, layout_single, Text.padLeft_eq, Nat.zero_sub]
  simp

/-- The head of a filled cell is padded to the bytes of its name. -/
theorem layout_eq_indent (left : String) (right : List String) :
    (⟨left, [right]⟩ : Production).layout left.utf8ByteSize false =
      indent left (⟨left, [right]⟩ : Production).line := by
  have filled : (⟨left, [right]⟩ : Production).line ≠ "" := by
    rw [line_single]
    simp
  rw [indent, if_neg filled, layout_single, line_single, Text.padLeft_eq]
  simp only [String.append_assoc]

end Render.Production

namespace Grammar

variable {g : Grammar}

theorem of_entryRow {table : PredictiveTable} {nonTerminal : Nat} {row : List String}
    (shown : table.entryRow? g nonTerminal = some row) : ∃ name cells, g.name? nonTerminal = some name ∧
      g.terminals.mapM (table.cellText? g nonTerminal) = some cells ∧ row = name :: cells := by
  obtain ⟨name, named, rest⟩ := Option.bind_eq_some_iff.mp shown
  obtain ⟨cells, filled, made⟩ := Option.bind_eq_some_iff.mp rest
  exact ⟨name, cells, named, filled, (Option.some.inj made).symm⟩

theorem of_entries {table : PredictiveTable} {entries : List (List String)}
    (shown : table.entries? g = some entries) :
    ∃ terminals rows, g.namesOf? g.terminals = some terminals ∧
      g.nonTerminals.mapM (table.entryRow? g) = some rows ∧ entries = ("" :: terminals) :: rows := by
  obtain ⟨terminals, named, rest⟩ := Option.bind_eq_some_iff.mp shown
  obtain ⟨rows, filled, made⟩ := Option.bind_eq_some_iff.mp rest
  exact ⟨terminals, rows, named, filled, (Option.some.inj made).symm⟩

theorem predictiveCell_shows {nonTerminal terminal : Nat} {name : String}
    (named : g.name? nonTerminal = some name) {cell : Production}
    (written : predictiveCell? g g.llTable name nonTerminal terminal = some cell) :
    g.llTable.cellText? g nonTerminal terminal = some cell.line ∧
      cell.layout name.utf8ByteSize false = indent name cell.line := by
  unfold predictiveCell? at written
  split at written
  · rename_i free
    obtain rfl := Option.some.inj written
    exact ⟨PredictiveTable.cellText?_of_free free, rfl⟩
  · rename_i number filled
    obtain ⟨rule, -, defined, rfl, -⟩ := predicts_of_cell filled
    simp only [defined, Option.bind_eq_bind, Option.bind_some] at written
    obtain ⟨names, shown, made⟩ := Option.bind_eq_some_iff.mp written
    obtain rfl := Option.some.inj made
    have text : g.ruleText? number = some (⟨name, [names]⟩ : Production).line := by
      simp [ruleText?, production?, defined, named, shown]
    exact ⟨(PredictiveTable.cellText?_of_filled filled).trans text,
      Production.layout_eq_indent name names⟩

/-- What holds of everything that is looked up, said of the lists. -/
theorem mapM_shows {α β γ δ : Type} {look : α → Option β} {look' : α → Option γ} {entry : β → γ}
    {layout : β → δ} {setIn : γ → δ} {l : List α} {found : List β} (written : l.mapM look = some found)
    (each : ∀ a b, look a = some b → look' a = some (entry b) ∧ layout b = setIn (entry b)) :
    l.mapM look' = some (found.map entry) ∧ found.map layout = (found.map entry).map setIn := by
  constructor
  · refine mapM_iff_forall₂.mpr (List.forall₂_map_right_iff.mpr ?_)
    exact forall₂_of_mapM written fun a _ b here => (each a b here).1
  · rw [List.map_map]
    refine List.map_congr_left fun b inside => ?_
    obtain ⟨a, -, here⟩ := exists_of_mapM_eq_some written inside
    exact (each a b here).2

theorem row_shows {nonTerminal : Nat} {row : PredictiveRow}
    (written : (do
      let name ← g.name? nonTerminal
      return (⟨name, ← g.terminals.mapM (predictiveCell? g g.llTable name nonTerminal)⟩ :
        PredictiveRow)) = some row) :
    g.llTable.entryRow? g nonTerminal = some (row.name :: row.cells.map Production.line) ∧
    row.name :: row.cells.map (fun cell => cell.layout row.name.utf8ByteSize false) =
      indented (row.name :: row.cells.map Production.line) := by
  obtain ⟨name, named, rest⟩ := Option.bind_eq_some_iff.mp written
  obtain ⟨cells, filled, made⟩ := Option.bind_eq_some_iff.mp rest
  obtain rfl := Option.some.inj made
  obtain ⟨entries, layouts⟩ := mapM_shows filled fun terminal cell => predictiveCell_shows named
  exact ⟨by simp [PredictiveTable.entryRow?, named, entries], congrArg (name :: ·) layouts⟩

/-- The lines of the table have the entries in their order, but set in. -/
theorem grid_shows {grid : PredictiveGrid} (written : PredictiveGrid.of? g g.llTable = some grid) :
    ∃ entries, g.llTable.entries? g = some entries ∧ grid.lines = entries.map indented ∧
      g.llTable.conflicts.toList.mapM (PredictiveConflict.text? g) = some grid.conflicts := by
  obtain ⟨terminals, named, rest⟩ := Option.bind_eq_some_iff.mp written
  obtain ⟨rows, filled, rest⟩ := Option.bind_eq_some_iff.mp rest
  obtain ⟨conflicts, told, made⟩ := Option.bind_eq_some_iff.mp rest
  obtain rfl := Option.some.inj made
  obtain ⟨entries, layouts⟩ := mapM_shows filled fun nonTerminal row => row_shows
  have header : indented ("" :: terminals) = "" :: terminals :=
    PredictiveTable.indented_eq_self (by simp)
  refine ⟨("" :: terminals) :: rows.map fun row => row.name :: row.cells.map Production.line,
    ?_, ?_, told⟩
  · rw [PredictiveTable.entries?, named, entries]
    rfl
  · rw [PredictiveGrid.lines, layouts, List.map_cons, header]

/-- Each row has an entry for every terminal, after its name. -/
theorem length_of_mem_entries {entries : List (List String)}
    (shown : g.llTable.entries? g = some entries) :
    ∀ row ∈ entries, row.length = g.terminalCount + 1 := by
  obtain ⟨terminals, rows, named, filled, rfl⟩ := of_entries shown
  have count : g.terminals.length = g.terminalCount := List.length_range'
  refine List.forall_mem_cons.mpr ⟨?_, fun row inside => ?_⟩
  · rw [List.length_cons, ← (mapM_iff_forall₂.mp named).length_eq, count]
  · obtain ⟨nonTerminal, -, here⟩ := exists_of_mapM_eq_some filled inside
    obtain ⟨name, cells, -, filled, rfl⟩ := of_entryRow here
    rw [List.length_cons, ← (mapM_iff_forall₂.mp filled).length_eq, count]

section OfRules

variable {pairs : List (String × String)} {designated : Option String}
    (built : ofRules pairs designated = .ok g)
include built

/-- What is in the table is written with names, which are words. -/
theorem unbroken_name {symbol : Nat} (positive : 0 < symbol) {name : String}
    (named : g.name? symbol = some name) : Text.Unbroken name :=
  Text.unbroken_of_isRun ((reads_of_ofRules built).isRun (name?_mem_names positive named))

theorem unbroken_ruleText {number : Nat} (positive : 0 < number) {text : String}
    (written : g.ruleText? number = some text) : Text.Unbroken text := by
  have wf := wellFormed_ofRules built
  obtain ⟨production, shown, rfl⟩ := Option.map_eq_some_iff.mp written
  obtain ⟨rule, defined, rest⟩ := Option.bind_eq_some_iff.mp shown
  obtain ⟨head, headed, rest⟩ := Option.bind_eq_some_iff.mp rest
  obtain ⟨body, named, made⟩ := Option.bind_eq_some_iff.mp rest
  obtain rfl := Option.some.inj made
  have listed : 0 < rule.head :=
    (mem_nonTerminals_iff.mp (wf.head_mem (mem_listed_of_rule? positive defined))).1
  have words : ∀ word ∈ body, Text.Unbroken word := by
    unfold bodyNames? at named
    split at named
    · obtain rfl := Option.some.inj named
      exact List.forall_mem_singleton.mpr (by decide)
    · intro word inBody
      obtain ⟨symbol, member, called⟩ := exists_of_mapM_eq_some named inBody
      exact unbroken_name built (wf.body_bounds defined symbol member).1 called
  rw [Production.line_single]
  exact ((unbroken_name built listed headed).append (by decide)).append (.intercalate (by decide) words)

theorem unbroken_entries {entries : List (List String)} (shown : g.llTable.entries? g = some entries) :
    ∀ row ∈ entries, ∀ text ∈ row, Text.Unbroken text := by
  obtain ⟨terminals, rows, named, filled, rfl⟩ := of_entries shown
  refine List.forall_mem_cons.mpr
    ⟨List.forall_mem_cons.mpr ⟨by decide, fun name inside => ?_⟩, fun row inside => ?_⟩
  · obtain ⟨terminal, listed, called⟩ := exists_of_mapM_eq_some named inside
    exact unbroken_name built
      (Nat.zero_lt_of_lt (isTerminal_iff.mp (mem_terminals_iff.mp listed)).1) called
  · obtain ⟨nonTerminal, listed, here⟩ := exists_of_mapM_eq_some filled inside
    obtain ⟨name, cells, headed, filled, rfl⟩ := of_entryRow here
    refine List.forall_mem_cons.mpr
      ⟨unbroken_name built (mem_nonTerminals_iff.mp listed).1 headed, fun text member => ?_⟩
    obtain ⟨terminal, -, cell⟩ := exists_of_mapM_eq_some filled member
    cases held : g.llTable.rule? nonTerminal terminal with
    | none =>
      obtain rfl := Option.some.inj ((PredictiveTable.cellText?_of_free held).symm.trans cell)
      decide
    | some number =>
      obtain ⟨-, positive, -⟩ := predicts_of_cell held
      exact unbroken_ruleText built positive ((PredictiveTable.cellText?_of_filled held).symm.trans cell)

theorem unbroken_conflicts {conflicts : List String}
    (told : g.llTable.conflicts.toList.mapM (PredictiveConflict.text? g) = some conflicts) :
    ∀ text ∈ conflicts, Text.Unbroken text := by
  intro text member
  obtain ⟨conflict, recorded, written⟩ := exists_of_mapM_eq_some told member
  obtain ⟨earlier, later, -⟩ := rulesOn_of_mem_conflicts (Array.mem_toList_iff.mp recorded)
  obtain ⟨rule, positive, defined, head, predicts⟩ := mem_rulesOn.mp earlier
  obtain ⟨-, positive', -⟩ := mem_rulesOn.mp later
  obtain ⟨row, headed, rest⟩ := Option.bind_eq_some_iff.mp written
  obtain ⟨column, called, rest⟩ := Option.bind_eq_some_iff.mp rest
  obtain ⟨previous, shown, rest⟩ := Option.bind_eq_some_iff.mp rest
  obtain ⟨chosen, shown', made⟩ := Option.bind_eq_some_iff.mp rest
  obtain rfl := Option.some.inj made
  have listed := (wellFormed_ofRules built).head_mem (mem_listed_of_rule? positive defined)
  have inRow := unbroken_name built (head ▸ (mem_nonTerminals_iff.mp listed).1) headed
  have inColumn :=
    unbroken_name built (Nat.zero_lt_of_lt (isTerminal_iff.mp predicts.isTerminal).1) called
  have place : Text.Unbroken ("conflict at [" ++ row ++ ", " ++ column) :=
    ((Text.Unbroken.append (by decide) inRow).append (by decide)).append inColumn
  exact (((place.append (by decide)).append (unbroken_ruleText built positive shown)).append
    (by decide)).append
    (unbroken_ruleText built positive' shown')

/-- The rows but the first are named after heads. -/
theorem head_of_mem_entries {entries : List (List String)}
    (shown : g.llTable.entries? g = some entries) :
    ∀ row ∈ entries, ∀ name ∈ row.head?, name = "" ∨ name ∈ g.heads := by
  obtain ⟨terminals, rows, named, filled, rfl⟩ := of_entries shown
  refine List.forall_mem_cons.mpr
    ⟨fun name first => Or.inl (Option.some.inj first).symm, fun row inside name first => ?_⟩
  obtain ⟨nonTerminal, listed, here⟩ := exists_of_mapM_eq_some filled inside
  obtain ⟨head, cells, headed, -, rfl⟩ := of_entryRow here
  obtain rfl := Option.some.inj first
  exact Or.inr ((mem_nonTerminals_iff_name (wellFormed_ofRules built)
    (mem_nonTerminals_iff.mp listed).1 headed).mp listed)

end OfRules

/-- The aligned lines and the conflicts are the lines of the text. -/
theorem tabulates_of_plain {entries : List (List String)} {grid : PredictiveGrid}
    (same : grid.lines = entries.map indented) (nonempty : entries ≠ []) {count : Nat}
    (full : ∀ row ∈ entries, row.length = count)
    (unbroken : ∀ row ∈ entries, ∀ text ∈ row, Text.Unbroken text)
    (told : ∀ text ∈ grid.conflicts, Text.Unbroken text) {text : String}
    (written : grid.plain? = some text) :
    Tabulates (tightWidths (entries.map indented)) entries grid.conflicts text := by
  have counts : ∀ row ∈ entries.map indented, row.length = count :=
    List.forall_mem_map.mpr fun row member =>
      (PredictiveTable.length_indented row).trans (full row member)
  have rows : ∀ row ∈ entries, InColumns (tightWidths (entries.map indented)) row
      (Text.alignRow (tightWidths (entries.map indented)) (indented row)) := fun row member =>
    Text.inColumns_indented (Text.fits_tightWidths counts (List.mem_map_of_mem member))
  refine ⟨entries.map fun row => Text.alignRow (tightWidths (entries.map indented)) (indented row), ?_,
    List.forall₂_map_right_iff.mpr (List.forall₂_same.mpr rows)⟩
  rw [grid.eq_of_plain? written, same, Text.alignColumns, Text.columnWidths_eq_tightWidths, List.map_map,
    Text.intercalate_cons_intercalate (by simpa using nonempty)]
  refine Text.lines_intercalate (by simp [nonempty]) (List.forall_mem_append.mpr ⟨?_, told⟩)
  refine List.forall_mem_map.mpr fun row member => ?_
  have line : Text.alignRow (tightWidths (entries.map indented)) (indented row) =
      Text.alignRow (tightWidths (entries.map indented)) row := (rows row member).shows
  rw [Function.comp_apply, line]
  exact Text.unbroken_alignRow _ (unbroken row member)

end Grammar

open Grammar

namespace Analysis

/-- How the LL(1) table stands in plain text, for the entries and the conflicts it has to show. -/
structure Tabulated (a : Analysis) (entries : List (List String)) (conflicts : List String) : Prop where
  shows : a.predictive.entries? a.grammar = some entries
  tells : a.predictive.conflicts.toList.mapM (PredictiveConflict.text? a.grammar) = some conflicts
  /-- It is missing just if an entry that is set in is wider than a field can be. -/
  missing : a.render? .predictiveTable .plain = none ↔ Text.TooWide (entries.map indented)
  /-- Each column is as wide as the widest of its entries that are set in. -/
  aligned : ∀ text, a.render? .predictiveTable .plain = some text →
    Tabulates (tightWidths (entries.map indented)) entries conflicts text
  /-- That is as wide as the widest of its entries, if each rule leaves room for the blanks before it. -/
  tight_iff : tightWidths (entries.map indented) = tightWidths entries ↔
    ∀ name row, name :: row ∈ entries → ∀ place entry, row[place]? = some entry → entry ≠ "" →
      name.utf8ByteSize - name.length + entry.length ≤
        widest ((column entries (place + 1)).map String.length)
  /-- There are no such blanks if all names of heads are of characters of one byte. -/
  tight : (∀ head ∈ a.grammar.heads, ∀ c ∈ head.toList, c.toNat < 128) →
    tightWidths (entries.map indented) = tightWidths entries

/-- Entries that are set in make no column wider exactly if each of them finds room. -/
theorem tightWidths_indented_iff {entries : List (List String)} :
    tightWidths (entries.map indented) = tightWidths entries ↔
    ∀ name row, name :: row ∈ entries → ∀ place entry, row[place]? = some entry → entry ≠ "" →
      name.utf8ByteSize - name.length + entry.length ≤
        widest ((column entries (place + 1)).map String.length) := by
  rw [Text.tightWidths_map_eq_iff PredictiveTable.length_indented PredictiveTable.exists_indented]
  constructor
  · intro within name row member place entry here filled
    have inside : (indented (name :: row))[place + 1]? = some (indent name entry) := by
      simp [indented, here]
    rw [← PredictiveTable.length_indent name filled]
    exact within _ (List.mem_map_of_mem member) (place + 1) _ inside
  · intro room
    refine List.forall_mem_map.mpr fun row member place cell here => ?_
    cases row with
    | nil => simp [indented] at here
    | cons name row =>
      cases place with
      | zero => exact Text.le_widest_column member here
      | succ place =>
        rw [indented, List.getElem?_cons_succ, List.getElem?_map] at here
        obtain ⟨entry, inRow, rfl⟩ := Option.map_eq_some_iff.mp here
        by_cases filled : entry = ""
        · rw [indent, if_pos filled]
          exact Nat.zero_le _
        · rw [PredictiveTable.length_indent name filled]
          exact room name row member place entry inRow filled

/-- The LL(1) table as plain text. Its lines have the same length and their bars at the same places, but
columns are as wide as entries that are set in, and so wider than what they show where a name has more
bytes than characters. -/
theorem tabulated {pairs : List (String × String)} {designated : Option String}
    (built : ofRules pairs designated = .ok g) (policy : ReducePolicy) :
    ∃ entries conflicts, (ofGrammar g policy).Tabulated entries conflicts := by
  have wf := wellFormed_ofRules built
  obtain ⟨grid, filled⟩ := exists_predictiveGrid wf ((buildsInRange wf policy).entered _ List.prefix_rfl)
  have text : (ofGrammar g policy).render? .predictiveTable .plain = grid.plain? :=
    congrArg (Option.bind · (inFormat? .plain)) filled
  obtain ⟨entries, shown, same, told⟩ := grid_shows filled
  have full := length_of_mem_entries shown
  refine ⟨entries, grid.conflicts, shown, told, ?_, fun _ written => ?_, tightWidths_indented_iff,
    fun ascii => ?_⟩
  · rw [text, PredictiveGrid.plain?_eq_none_iff, same]
  · have nonempty : entries ≠ [] := by
      obtain ⟨terminals, rows, -, -, rfl⟩ := of_entries shown
      exact List.cons_ne_nil _ _
    exact tabulates_of_plain same nonempty full (unbroken_entries built shown)
      (unbroken_conflicts built told)
      (text ▸ written)
  · have kept : entries.map indented = entries := by
      refine (List.map_congr_left fun row member => ?_).trans (List.map_id _)
      refine PredictiveTable.indented_eq_self fun name first => ?_
      rcases head_of_mem_entries built shown row member name first with rfl | head
      · rfl
      · exact Text.utf8ByteSize_eq_length (ascii name head)
    rw [kept]

end Analysis

/-- A head with an accent, which is one character of two bytes. -/
def accented : Grammar := ⟨"É'", #["É"], #["a"], 1, [⟨1, [2]⟩]⟩

theorem ofRules_accented : ofRules [("É", "a")] none = .ok accented := by cbv

theorem tabulated_accented : ∃ g, ofRules [("É", "a")] none = .ok g ∧
    ∃ entries conflicts, (Analysis.ofGrammar g .anyMultiple).Tabulated entries conflicts :=
  ⟨accented, ofRules_accented, Analysis.tabulated ofRules_accented .anyMultiple⟩

/-- Such a head makes the column of its rule wider than the rule. -/
theorem column_loose : ¬ ∀ (pairs : List (String × String)) (designated : Option String) (g : Grammar),
    ofRules pairs designated = .ok g →
      ∀ (policy : ReducePolicy) (entries : List (List String)) (conflicts : List String),
    g.llTable.entries? g = some entries →
    g.llTable.conflicts.toList.mapM (PredictiveConflict.text? g) = some conflicts →
    ∀ text, (Analysis.ofGrammar g policy).render? .predictiveTable .plain = some text →
    Tabulates (tightWidths entries) entries conflicts text := by
  intro tight
  have shown : accented.llTable.entries? accented =
      some [["", "a", "$"], ["É", "É -> a", ""]] := by decide +kernel
  have told : accented.llTable.conflicts.toList.mapM (PredictiveConflict.text? accented) =
      some [] := by decide +kernel
  have written : (Analysis.ofGrammar accented .anyMultiple).render? .predictiveTable .plain =
      some "  |       a | $\nÉ |  É -> a |  " := by decide +kernel
  obtain ⟨lines, cut, aligned⟩ :=
    tight _ none accented ofRules_accented .anyMultiple _ _ shown told _ written
  have first : Text.lines "  |       a | $\nÉ |  É -> a |  " =
      ["  |       a | $", "É |  É -> a |  "] := by decide +kernel
  rw [List.append_nil, first] at cut
  subst cut
  -- the line has fifteen characters, and columns of one, six and one would make fourteen
  cases aligned with
  | cons header _ => exact absurd header.length (by decide +kernel)

end ParseTables
