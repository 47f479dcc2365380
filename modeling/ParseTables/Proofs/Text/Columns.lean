import Mathlib.Algebra.GroupWithZero.Nat
import Mathlib.Data.List.Forall2
import ParseTables.Text.Columns

namespace ParseTables.Text

theorem widest_le_iff {widths : List Nat} {bound : Nat} :
    widest widths ≤ bound ↔ ∀ width ∈ widths, width ≤ bound := by
  induction widths with
  | nil => simp [widest]
  | cons width rest ih => rw [widest, List.foldr_cons, Nat.max_le, List.forall_mem_cons, ← ih]; rfl

theorem padLeft_eq (width : Nat) (text : String) :
    padLeft width text = String.ofList (List.replicate (width - text.length) ' ') ++ text := by
  rw [padLeft, List.leftpad, String.ofList_append, String.ofList_toList, String.length_toList]

theorem widen_le_iff {widths : List Nat} {row : List String} {bound : Nat} :
    (∀ width ∈ widen widths row, width ≤ bound) ↔
      (∀ width ∈ widths, width ≤ bound) ∧ ∀ cell ∈ row, cell.length ≤ bound := by
  fun_induction widen widths row with
  | case1 widths => simp
  | case2 row => simp
  | case3 width widths cell row ih =>
    rw [List.forall_mem_cons, List.forall_mem_cons, List.forall_mem_cons, ih, Nat.max_le]
    exact and_and_and_comm

theorem length_widen (widths : List Nat) (row : List String) :
    (widen widths row).length = max widths.length row.length := by
  fun_induction widen widths row with
  | case1 widths => simp
  | case2 row => simp
  | case3 width widths cell row ih =>
    rw [List.length_cons, List.length_cons, List.length_cons, ih]; omega

/-- What is said of the widths after some rows, said of the widths before them and of the rows. -/
theorem foldl_widen_le_iff {rows : List (List String)} {widths : List Nat} {bound : Nat} :
    (∀ width ∈ rows.foldl widen widths, width ≤ bound) ↔
      (∀ width ∈ widths, width ≤ bound) ∧ ∀ row ∈ rows, ∀ cell ∈ row, cell.length ≤ bound := by
  induction rows generalizing widths with
  | nil => simp
  | cons row rest ih => rw [List.foldl_cons, ih, widen_le_iff, List.forall_mem_cons, and_assoc]

theorem columnWidths_le_iff {rows : List (List String)} {bound : Nat} :
    (∀ width ∈ columnWidths rows, width ≤ bound) ↔ ∀ row ∈ rows, ∀ cell ∈ row, cell.length ≤ bound := by
  rw [columnWidths, foldl_widen_le_iff]
  simp

theorem length_foldl_widen (rows : List (List String)) (widths : List Nat) :
    (rows.foldl widen widths).length = max widths.length (widest (rows.map List.length)) := by
  induction rows generalizing widths with
  | nil => exact (Nat.max_zero _).symm
  | cons row rest ih => rw [List.foldl_cons, ih, length_widen, Nat.max_assoc]; rfl

theorem length_columnWidths (rows : List (List String)) :
    (columnWidths rows).length = widest (rows.map List.length) :=
  (length_foldl_widen rows []).trans (Nat.zero_max _)

theorem le_widest {widths : List Nat} {width : Nat} (member : width ∈ widths) : width ≤ widest widths :=
  widest_le_iff.mp (Nat.le_refl _) width member

/-- Each cell of a row has a column. -/
theorem length_le_columnWidths {rows : List (List String)} {row : List String} (member : row ∈ rows) :
    row.length ≤ (columnWidths rows).length := by
  rw [length_columnWidths]
  exact le_widest (List.mem_map_of_mem member)

/-- Some cell is wider than a field can be. -/
def TooWide (rows : List (List String)) : Prop := ∃ row ∈ rows, ∃ cell ∈ row, widestField < cell.length

/-- Nothing but a cell that is wider than a field can be prevents a table from being written. -/
theorem alignColumns?_eq_none_iff {rows : List (List String)} :
    alignColumns? rows = none ↔ TooWide rows := by
  rw [alignColumns?, ite_eq_right_iff]
  simp only [reduceCtorEq, imp_false, columnWidths_le_iff]
  simp [TooWide]

/-- The cells that stand in one column. A row that is too short has none there. -/
def column (rows : List (List String)) (place : Nat) : List String :=
  rows.filterMap fun row => row[place]?

/-- The widths of columns that are just as wide as their widest cells. -/
def tightWidths (rows : List (List String)) : List Nat :=
  (List.range (widest (rows.map List.length))).map fun place =>
    widest ((column rows place).map String.length)

theorem widen_getD (widths : List Nat) (row : List String) (place : Nat) :
    (widen widths row).getD place 0 =
      max (widths.getD place 0) ((row.map String.length).getD place 0) := by
  fun_induction widen widths row generalizing place with
  | case1 widths => simp
  | case2 row => simp
  | case3 width widths cell row ih =>
    cases place with
    | zero => simp
    | succ place => simpa using ih place

theorem foldl_widen_getD (rows : List (List String)) (widths : List Nat) (place : Nat) :
    (rows.foldl widen widths).getD place 0 =
      max (widths.getD place 0) (widest ((column rows place).map String.length)) := by
  induction rows generalizing widths with
  | nil => exact (Nat.max_zero _).symm
  | cons row rest ih =>
    rw [List.foldl_cons, ih, widen_getD, Nat.max_assoc]
    congr 1
    cases here : row[place]? with
    | none => simp [column, here]
    | some cell => simp [column, here, widest]

/-- Columns are just as wide as their widest cells. -/
theorem columnWidths_eq_tightWidths (rows : List (List String)) :
    columnWidths rows = tightWidths rows := by
  refine List.ext_getElem (by simp [tightWidths, length_columnWidths]) fun place inside _ => ?_
  have wide := foldl_widen_getD rows [] place
  rw [← columnWidths, List.getD_eq_getElem?_getD, List.getElem?_eq_getElem inside,
    Option.getD_some] at wide
  simpa [tightWidths] using wide

theorem mem_column {rows : List (List String)} {place : Nat} {cell : String} :
    cell ∈ column rows place ↔ ∃ row ∈ rows, row[place]? = some cell := List.mem_filterMap

theorem le_widest_column {rows : List (List String)} {row : List String} (member : row ∈ rows)
    {place : Nat} {cell : String} (here : row[place]? = some cell) :
    cell.length ≤ widest ((column rows place).map String.length) :=
  le_widest (List.mem_map_of_mem (mem_column.mpr ⟨row, member, here⟩))

/-- Each row of a full table fits into its columns. -/
theorem fits_tightWidths {rows : List (List String)} {count : Nat}
    (full : ∀ row ∈ rows, row.length = count) {row : List String} (member : row ∈ rows) :
    List.Forall₂ (fun width text => text.length ≤ width) (tightWidths rows) row := by
  have lengths : widest (rows.map List.length) = count := by
    refine Nat.le_antisymm (widest_le_iff.mpr ?_)
      (full row member ▸ le_widest (List.mem_map_of_mem member))
    exact List.forall_mem_map.mpr fun other inside => Nat.le_of_eq (full other inside)
  refine List.forall₂_iff_get.mpr
    ⟨by simp [tightWidths, lengths, full row member], fun place _ inside => ?_⟩
  have here : row[place]? = some row[place] := List.getElem?_eq_getElem inside
  simpa [tightWidths] using le_widest_column member here

/-- Where the cells of a table grow, the columns stay as they are if no cell has outgrown its column. -/
theorem tightWidths_map_eq_iff {rows : List (List String)} {grow : List String → List String}
    (kept : ∀ row, (grow row).length = row.length)
    (longer : ∀ (row : List String) (place : Nat) (cell : String), row[place]? = some cell →
      ∃ cell', (grow row)[place]? = some cell' ∧ cell.length ≤ cell'.length) :
    tightWidths (rows.map grow) = tightWidths rows ↔
      ∀ row ∈ rows.map grow, ∀ place cell, row[place]? = some cell →
      cell.length ≤ widest ((column rows place).map String.length) := by
  have lengths : (rows.map grow).map List.length = rows.map List.length := by
    rw [List.map_map]
    exact List.map_congr_left fun row _ => kept row
  rw [tightWidths, tightWidths, lengths, List.map_inj_left]
  constructor
  · intro same row member place cell here
    have inside : place < widest (rows.map List.length) := by
      rw [← lengths]
      exact Nat.lt_of_lt_of_le (List.getElem?_eq_some_iff.mp here).1
        (le_widest (List.mem_map_of_mem member))
    exact same place (List.mem_range.mpr inside) ▸ le_widest_column member here
  · intro within place _
    refine Nat.le_antisymm (widest_le_iff.mpr ?_) (widest_le_iff.mpr ?_)
    · refine List.forall_mem_map.mpr fun cell inside => ?_
      obtain ⟨row, member, here⟩ := mem_column.mp inside
      exact within row member place cell here
    · refine List.forall_mem_map.mpr fun cell inside => ?_
      obtain ⟨row, member, here⟩ := mem_column.mp inside
      obtain ⟨cell', here', more⟩ := longer row place cell here
      exact Nat.le_trans more (le_widest_column (List.mem_map_of_mem member) here')

theorem length_padLeft_of_le {width : Nat} {text : String} (fits : text.length ≤ width) :
    (padLeft width text).length = width := by
  rw [padLeft_eq, String.length_append, String.length_ofList, List.length_replicate,
    Nat.sub_add_cancel fits]

/-- Where the bar after a column starts, in a line with columns of given widths. -/
def barAfter (widths : List Nat) (place : Nat) : Nat := (widths.take (place + 1)).sum + 3 * place

/-- A line shows texts in columns of given widths: each text at the right end of its column, and bars
between the columns. -/
structure InColumns (widths : List Nat) (texts : List String) (line : String) : Prop where
  shows : line = " | ".intercalate (List.zipWith padLeft widths texts)
  fits : List.Forall₂ (fun width text => text.length ≤ width) widths texts
  length : line.length = widths.sum + 3 * (widths.length - 1)
  bars : ∀ place, place + 1 < widths.length → " | ".toList <+: line.toList.drop (barAfter widths place)

theorem length_intercalate_bars (cells : List String) :
    (" | ".intercalate cells).length = (cells.map String.length).sum + 3 * (cells.length - 1) := by
  induction cells with
  | nil => rfl
  | cons cell rest ih =>
    cases rest with
    | nil => simp
    | cons other rest =>
      have bar : " | ".length = 3 := rfl
      simp only [String.intercalate_cons_cons, String.length_append, ih, bar,
        List.map_cons, List.sum_cons,
        List.length_cons]
      omega

theorem bar_isPrefix (cells : List String) {place : Nat} (inside : place + 1 < cells.length) :
    " | ".toList <+: (" | ".intercalate cells).toList.drop
      (barAfter (cells.map String.length) place) := by
  induction cells generalizing place with
  | nil => exact absurd inside (Nat.not_lt_zero _)
  | cons cell rest ih =>
    cases rest with
    | nil => simp at inside
    | cons other rest =>
      rw [String.intercalate_cons_cons, String.toList_append, String.toList_append]
      cases place with
      | zero =>
        have start : barAfter ((cell :: other :: rest).map String.length) 0 = cell.toList.length := by
          rw [String.length_toList]
          simp [barAfter]
        rw [start, List.append_assoc, List.drop_left]
        exact List.prefix_append _ _
      | succ place =>
        have start : barAfter ((cell :: other :: rest).map String.length) (place + 1) =
            (cell.toList ++ " | ".toList).length +
                barAfter ((other :: rest).map String.length) place := by
          have bar : " | ".toList.length = 3 := rfl
          simp only [barAfter, List.map_cons, List.take_succ_cons, List.sum_cons,
            List.length_append, bar,
            String.length_toList]
          omega
        rw [start, ← List.drop_drop, List.drop_left]
        exact ih (Nat.lt_of_succ_lt_succ inside)

theorem map_length_zipWith_padLeft {widths : List Nat} {texts : List String}
    (fits : List.Forall₂ (fun width text => text.length ≤ width) widths texts) :
    (List.zipWith padLeft widths texts).map String.length = widths := by
  induction fits with
  | nil => rfl
  | cons first _ ih => rw [List.zipWith_cons_cons, List.map_cons, length_padLeft_of_le first, ih]

/-- Rows that fit into the columns make lines of the same length with bars at the same places. -/
theorem inColumns_alignRow {widths : List Nat} {texts : List String}
    (fits : List.Forall₂ (fun width text => text.length ≤ width) widths texts) :
    InColumns widths texts (alignRow widths texts) := by
  have lengths := map_length_zipWith_padLeft fits
  have count : (List.zipWith padLeft widths texts).length = widths.length := by
    rw [← lengths, List.length_map, lengths]
  refine ⟨rfl, fits, ?_, fun place inside => ?_⟩
  · rw [alignRow, length_intercalate_bars, lengths, count]
  · have bar := bar_isPrefix (List.zipWith padLeft widths texts) (count.symm ▸ inside)
    rwa [lengths] at bar

end ParseTables.Text
