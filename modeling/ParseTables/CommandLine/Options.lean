import ParseTables.Render.Document

namespace ParseTables.CommandLine

/-- Which parser to run on the inputs. -/
inductive ParserChoice where
  /-- The preferred one. -/
  | automatic
  | fixed (kind : ParserKind)
deriving DecidableEq

/-- An option that takes a value. -/
inductive ValueOption where
  | grammar
  | format
  | input
  | inputsFile
  | parser
deriving DecidableEq

/-- An option that takes none. -/
inductive FlagOption where
  | strictReduceReduce
  | trace
deriving DecidableEq

/-- What the arguments ask for. An option that was not given is `none`. -/
structure Options where
  subjects : List Subject
  grammarFile : Option String
  format : Option Format
  inputs : List String
  /-- Whether `--input` was also given without a value. -/
  bareInput : Bool
  inputsFile : Option String
  parser : Option ParserChoice
  strict : Bool
  trace : Bool

def Options.empty : Options := ⟨[], none, none, [], false, none, none, false, false⟩

def subject? : String → Option Subject
  | "prod" => some .productions
  | "ff" => some .sets
  | "ll1" => some .predictiveTable
  | "lr0fsm" => some .automaton
  | "slr1" => some .conflicts
  | "slr1table" => some .actionTable
  | _ => none

def format? : String → Option Format
  | "plain" => some .plain
  | "latex" => some .latex
  | "json" => some .json
  | _ => none

def parserChoice? : String → Option ParserChoice
  | "auto" => some .automatic
  | "ll1" => some (.fixed .predictive)
  | "slr1" => some (.fixed .shiftReduce)
  | _ => none

def longValueOption? : String → Option ValueOption
  | "grammar" => some .grammar
  | "format" => some .format
  | "input" => some .input
  | "inputs-file" => some .inputsFile
  | "parser" => some .parser
  | _ => none

def longFlagOption? : String → Option FlagOption
  | "strict-reduce-reduce" => some .strictReduceReduce
  | "trace" => some .trace
  | _ => none

/-- The option of a letter. Each of them takes a value. -/
def shortOption? : Char → Option ValueOption
  | 'g' => some .grammar
  | 'f' => some .format
  | 'i' => some .input
  | _ => none

namespace Options

/-- Asks for one more thing to print. -/
def addSubject? (options : Options) (name : String) : Option Options :=
  (subject? name).map fun subject => { options with subjects := options.subjects ++ [subject] }

/-- Gives a value to an option that has none yet. -/
def give? (options : Options) (option : ValueOption) (value : String) : Option Options :=
  match option with
  | .grammar =>
    if options.grammarFile = none then some { options with grammarFile := some value } else none
  | .format =>
    if options.format = none then (format? value).map fun f => { options with format := some f }
    else none
  | .input => some { options with inputs := options.inputs ++ [value] }
  | .inputsFile =>
    if options.inputsFile = none then some { options with inputsFile := some value } else none
  | .parser =>
    if options.parser = none then
      (parserChoice? value).map fun choice => { options with parser := some choice }
    else none

/-- Leaves an option without a value, if it may be given once more with one. -/
def leaveBare? (options : Options) : ValueOption → Option Options
  | .input => some { options with bareInput := true }
  | _ => none

/-- Whether no option still lacks its value. -/
def isComplete (options : Options) : Bool := !options.bareInput || !options.inputs.isEmpty

/-- Raises a flag that was not raised yet. -/
def raise? (options : Options) : FlagOption → Option Options
  | .strictReduceReduce => if options.strict then none else some { options with strict := true }
  | .trace => if options.trace then none else some { options with trace := true }

end Options

/-- What a single argument is. An option may come with the value attached to it. -/
inductive Argument where
  | endOfOptions
  | value (option : ValueOption) (attached : Option String)
  | flag (option : FlagOption)
  | subject (name : String)
  | unknown

/-- Recognises an argument after its two hyphens. -/
def longArgument (text : List Char) : Argument :=
  let name := String.ofList (text.takeWhile (· != '='))
  let attached : Option String :=
    match text.dropWhile (· != '=') with
    | [] => none
    | _ :: value => some (String.ofList value)
  match longValueOption? name, longFlagOption? name, attached with
  | some option, _, _ => .value option attached
  | none, some option, none => .flag option
  | _, _, _ => .unknown

/-- Recognises an argument after its hyphen and its letter. An equals sign before an attached value is
not part of it. -/
def shortArgument (letter : Char) (rest : List Char) : Argument :=
  match shortOption? letter, rest with
  | none, _ => .unknown
  | some option, [] => .value option none
  | some option, '=' :: value => .value option (some (String.ofList value))
  | some option, value => .value option (some (String.ofList value))

def recognise (argument : String) : Argument :=
  match argument.toList with
  | ['-', '-'] => .endOfOptions
  | '-' :: '-' :: rest => longArgument rest
  | '-' :: letter :: rest => shortArgument letter rest
  | _ => .subject argument

/-- Whether an argument can be the value of the option before it. -/
def isDetachedValue (argument : String) : Bool :=
  match argument.toList with
  | '-' :: _ :: _ => false
  | _ => true

/-- Reads arguments, given the options read so far. -/
def readArguments (options : Options) : List String → Option Options
  | [] => some options
  | argument :: rest =>
    match recognise argument with
    | .unknown => none
    | .endOfOptions => rest.foldlM Options.addSubject? options
    | .subject name => (options.addSubject? name).bind fun next => readArguments next rest
    | .flag option => (options.raise? option).bind fun next => readArguments next rest
    | .value option (some value) =>
      (options.give? option value).bind fun next => readArguments next rest
    | .value option none =>
      match rest with
      | [] => options.leaveBare? option
      | value :: later =>
        if isDetachedValue value then
          (options.give? option value).bind fun next => readArguments next later
        else (options.leaveBare? option).bind fun next => readArguments next (value :: later)

/-- The options that arguments stand for, if they are in order.

An option with a value takes it from the same argument or from the next one, unless that looks like an
option; a single hyphen does not. Each option but `--input` may be given only once and needs its value.
`--input` may be given many times, and it is enough that one of them has a value. All other arguments
name what to print, and so do all arguments after `--`. -/
def Options.ofArguments? (arguments : List String) : Option Options :=
  (readArguments .empty arguments).filter Options.isComplete

end ParseTables.CommandLine
