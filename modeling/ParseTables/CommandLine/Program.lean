import ParseTables.CommandLine.Directory
import ParseTables.CommandLine.Options
import ParseTables.Grammar.OfText
import ParseTables.Render.Trace

namespace ParseTables.CommandLine

/-- What a run of the program leaves behind. -/
structure Outcome where
  code : Nat
  printed : String
  complaint : String
deriving DecidableEq

def Outcome.success (printed : String) : Outcome := ⟨0, printed, ""⟩

def Outcome.failure (printed reason : String) : Outcome := ⟨1, printed, "error: " ++ reason ++ "\n"⟩

/-- The complaint about a file that cannot be read. -/
def unreadable (name : String) (failure : ReadFailure) : String :=
  "failed to read " ++ name ++ ": " ++ failure.message

namespace Options

def policy (options : Options) : ReducePolicy :=
  if options.strict then .followOverlap else .anyMultiple

/-- The subjects that were asked for, each with a line feed after it. -/
def output? (options : Options) (a : Analysis) : Option String := do
  let texts ← options.subjects.mapM fun subject =>
    a.render? subject (options.format.getD .plain)
  return String.join (texts.map fun text => text ++ "\n")

def parserKind? (options : Options) (a : Analysis) : Option ParserKind :=
  match options.parser.getD .automatic with
  | .automatic => a.preferred?
  | .fixed kind => some kind

end Options

def traceOf? (a : Analysis) (kind : ParserKind) (tokens : List String) : Option String :=
  match kind with
  | .predictive => Predictive.traceText? a.grammar (Predictive.trace a.predictive a.grammar tokens)
  | .shiftReduce => ShiftReduce.traceText? a.grammar (ShiftReduce.trace a.actions a.grammar tokens)

/-- What is printed for an input: either one line, or the input and its trace with a blank line. -/
def inputReport? (a : Analysis) (kind : ParserKind) (trace : Bool) (input : String) :
    Option String := do
  let tokens := splitInput input
  if trace then
    return input ++ "\n" ++ (← traceOf? a kind tokens) ++ "\n\n"
  else
    match a.parse kind tokens with
    | .accepted => return input ++ ": accepted\n"
    | .rejected reason =>
      return input ++ ": rejected (" ++ (← reason.message? a.grammar) ++ ")\n"
    | .undefinedRule _ => none

/-- The lines of a file of inputs that are not blank, without the blanks at their ends. -/
def inputLines (text : String) : List String :=
  ((Text.lines text).filter fun line => !Text.isBlankText line).map Text.trim

/-- Parses the inputs after something has been printed. -/
def parseInputs? (options : Options) (a : Analysis) (printed : String) (inputs : List String) :
    Option Outcome :=
  if inputs = [] then some (.success printed)
  else
    match options.parserKind? a with
    | none =>
      some (.failure printed "the grammar is neither LL(1) nor SLR(1), cannot parse")
    | some kind => do
      let reports ← inputs.mapM (inputReport? a kind options.trace)
      return .success (printed ++ String.join reports)

/-- Runs the program, given how to read a file, which may fail, and the standard input: it reads a
grammar, prints what was asked for, and parses the inputs. What was printed before an error stays. There
is no outcome only if a table refers to something that its grammar lacks, or if a column of a plain text
would be wider than a field can be. -/
def run? {m : Type → Type} [Monad m] (readFile : String → m (Except ReadFailure String))
    (readInput : m String) (options : Options) : m (Option Outcome) := do
  let source ← match options.grammarFile with
    | some name => readFile name
    | none => Except.ok <$> readInput
  match source with
  | .error failure =>
    return some (.failure "" (unreadable (options.grammarFile.getD "") failure))
  | .ok text =>
    match Grammar.ofText text with
    | .error e => return some (.failure "" ("invalid grammar: " ++ e.message))
    | .ok g =>
      let a := Analysis.ofGrammar g options.policy
      match options.output? a with
      | none => return none
      | some printed =>
        match options.inputsFile with
        | none => return parseInputs? options a printed options.inputs
        | some name =>
          match ← readFile name with
          | .error failure => return some (.failure printed (unreadable name failure))
          | .ok lines =>
            return parseInputs? options a printed (options.inputs ++ inputLines lines)

end ParseTables.CommandLine
