namespace ParseTables.Text

/-- The text between quotation marks, with a backslash before each quotation mark and backslash. -/
def quoted (text : String) : String :=
  "\"" ++ String.ofList (text.toList.flatMap fun c =>
    if c = '"' ∨ c = '\\' then ['\\', c] else [c]) ++ "\""

/-- A list between brackets with commas, as the messages of a run show it. -/
def bracketed (entries : List String) : String :=
  "[" ++ ", ".intercalate entries ++ "]"

end ParseTables.Text
