namespace ParseTables.CommandLine

/-- Why a file cannot be read. -/
inductive ReadFailure where
  /-- The system refused, in its words and by its number for the reason. -/
  | refused (description : String) (number : Nat)
  /-- The content is no text. -/
  | notText
deriving DecidableEq

namespace ReadFailure

def message : ReadFailure → String
  | refused description number => description ++ " (os error " ++ toString number ++ ")"
  | notText => "stream did not contain valid UTF-8"

/-- There is nothing of that name. -/
def notFound : ReadFailure := refused "No such file or directory" 2

/-- A file stands where the path goes on. -/
def notDirectory : ReadFailure := refused "Not a directory" 20

/-- The path ends at a directory. -/
def isDirectory : ReadFailure := refused "Is a directory" 21

/-- A name or the whole path is too long. -/
def nameTooLong : ReadFailure := refused "File name too long" 36

end ReadFailure

/-- The names on a path. There are empty names where slashes have nothing between them. -/
def pathNames (path : String) : List String :=
  (path.toList.splitOn '/').map String.ofList

/-- A directory held in memory, on which the program runs without real files: the texts of its files,
each with the names on its path. -/
structure Directory where
  files : List (List String × String)

namespace Directory

/-- The directory of files given by their paths. -/
def ofFiles (files : List (String × String)) : Directory :=
  ⟨files.map fun (path, text) => (pathNames path, text)⟩

/-- The greatest size of a name in bytes. -/
def longestName : Nat := 255

/-- The greatest size of a path in bytes. -/
def longestPath : Nat := 4095

/-- Whether a place is a directory: the top, or a part of the way to a file. -/
def hasDirectory (directory : Directory) (place : List String) : Bool :=
  place.isEmpty ||
    directory.files.any fun (path, _) => place.isPrefixOf path && place.length < path.length

/-- Where names lead from a place. -/
def follow (directory : Directory) (place : List String) :
    List String → Except ReadFailure (List String)
  | [] => .ok place
  | name :: rest =>
    if !directory.hasDirectory place then .error .notDirectory
    else if name = "" ∨ name = "." then directory.follow place rest
    else if name = ".." then
      if place = [] then .error .notFound else directory.follow place.dropLast rest
    else if longestName < name.utf8ByteSize then .error .nameTooLong
    else
      let next := place ++ [name]
      if directory.hasDirectory next || (directory.files.lookup next).isSome then
        directory.follow next rest
      else .error .notFound

/-- The text of the file at a path. The path is followed name by name from the top of the directory, and
there are no files outside of it. -/
def read (directory : Directory) (path : String) : Except ReadFailure String :=
  let names := pathNames path
  if path.isEmpty then .error .notFound
  else if longestPath < path.utf8ByteSize then .error .nameTooLong
  else if names.all fun name => name = "" ∨ name = "." ∨ name = ".." then .error .isDirectory
  else if path.toList.head? = some '/' then .error .notFound
  else
    match directory.follow [] names with
    | .error failure => .error failure
    | .ok place =>
      match directory.files.lookup place with
      | some text => .ok text
      | none => .error .isDirectory

end Directory

end ParseTables.CommandLine
