import ParseTables.Text.Blank

namespace ParseTables.Text

/-- The text without the blanks at its ends. -/
def trimChars (text : List Char) : List Char :=
  ((text.dropWhile isBlank).reverse.dropWhile isBlank).reverse

/-- The maximal runs of characters that are not blank, in order. -/
def wordsOfChars (text : List Char) : List (List Char) :=
  (text.splitOnP isBlank).filter fun run => !run.isEmpty

/-- The parts around the arrows `->`, found from left to right. -/
def splitArrows : List Char → List (List Char)
  | [] => [[]]
  | '-' :: '>' :: rest => [] :: splitArrows rest
  | c :: rest => (splitArrows rest).modifyHead (c :: ·)

def trim (text : String) : String :=
  String.ofList (trimChars text.toList)

def words (text : String) : List String :=
  (wordsOfChars text.toList).map String.ofList

/-- The parts of a text between line feeds. A carriage return stays in its line, where it is a blank
like any other. -/
def lines (text : String) : List String :=
  (text.toList.splitOn '\n').map String.ofList

def isBlankText (text : String) : Bool :=
  text.toList.all isBlank

end ParseTables.Text
