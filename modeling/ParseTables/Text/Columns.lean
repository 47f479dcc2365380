namespace ParseTables.Text

/-- The text with blanks put before it until it has the given width in characters. A wider text is
unchanged. -/
def padLeft (width : Nat) (text : String) : String :=
  String.ofList (text.toList.leftpad width ' ')

/-- The greatest width to which a text can be padded. The width of a field is a number of sixteen
bits. -/
def widestField : Nat := 65535

/-- The greatest of a list of widths, zero when there is none. -/
def widest (widths : List Nat) : Nat :=
  widths.foldr max 0

/-- Widens columns so that they hold the cells of one more row, and adds columns for a longer row. -/
def widen : List Nat → List String → List Nat
  | widths, [] => widths
  | [], row => row.map String.length
  | width :: widths, cell :: row => max width cell.length :: widen widths row

/-- The width of each column: that of its widest cell. A row may be shorter than others. -/
def columnWidths (rows : List (List String)) : List Nat :=
  rows.foldl widen []

/-- One row with every cell padded to the width of its column. -/
def alignRow (widths : List Nat) (row : List String) : String :=
  " | ".intercalate (List.zipWith padLeft widths row)

/-- The rows as lines with aligned columns. -/
def alignColumns (rows : List (List String)) : String :=
  "\n".intercalate (rows.map (alignRow (columnWidths rows)))

/-- The rows as lines with aligned columns, unless a column is wider than a field can be. -/
def alignColumns? (rows : List (List String)) : Option String :=
  if ∀ width ∈ columnWidths rows, width ≤ widestField then some (alignColumns rows) else none

end ParseTables.Text
