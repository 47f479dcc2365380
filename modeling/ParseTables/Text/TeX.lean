namespace ParseTables.Text

/-- A way to write text so that TeX typesets it as it stands. -/
class TeX where
  escape : String → String

namespace TeX

/-- What a single character is written as. -/
def escapeChar (c : Char) : String :=
  match c with
  | '&' | '%' | '$' | '#' | '_' | '{' | '}' => String.ofList ['\\', c]
  | '[' | ']' => String.ofList ['{', c, '}']
  | '~' => "\\textasciitilde\x7b\x7d"
  | '^' => "\\textasciicircum\x7b\x7d"
  | '<' => "\\textless\x7b\x7d"
  | '>' => "\\textgreater\x7b\x7d"
  | '!' => "!\x7b\x7d"
  | '\\' => "\\textbackslash\x7b\x7d"
  | c => c.toString

/-- Escapes the characters one by one. A hyphen before another hyphen gets an empty group after it,
which keeps the two from joining into a dash. -/
def escapeChars : List Char → List Char
  | [] => []
  | c :: rest =>
    (if c = '-' ∧ rest.head? = some '-' then "-\x7b\x7d" else escapeChar c).toList
      ++ escapeChars rest

/-- The text with every character that TeX would interpret escaped. -/
def escapeText (text : String) : String :=
  String.ofList (escapeChars text.toList)

/-- Character by character, unless another way is chosen. -/
instance : TeX := ⟨escapeText⟩

/-- A command applied to one argument, such as `\text{id}`. -/
def command (name argument : String) : String :=
  "\\" ++ name ++ "\x7b" ++ argument ++ "\x7d"

end TeX

end ParseTables.Text
