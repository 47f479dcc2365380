import ParseTables.Grammar.Basic
import ParseTables.Grammar.Error
import ParseTables.Text.Split
import ParseTables.Text.Uppercase
import Std.Data.TreeMap

namespace ParseTables

/-- A rule as it was entered, with the number by which an error refers to it. -/
structure RuleEntry where
  line : Nat
  head : String
  body : String

/-- The one word of a left side. -/
def leftSideWord (text : String) : Except RuleFault String :=
  match Text.words text with
  | [] => .error .emptyLeftSide
  | [word] => .ok word
  | _ => .error .blankInLeftSide

/-- The name that a rule is entered for. Neither the end mark nor the empty word can be one. -/
def headName (text : String) : Except RuleFault String := do
  let word ← leftSideWord text
  if word = endName ∨ isEmptyWord word then .error (.reservedLeftSide word) else .ok word

/-- The entry with nothing but a name for its head. -/
def RuleEntry.headed (entry : RuleEntry) : Except GrammarError RuleEntry :=
  match headName entry.head with
  | .error fault => .error (.malformedRule entry.line fault)
  | .ok head => .ok { entry with head }

/-- A symbol of a draft. A non-terminal has its own number and those of its rules. -/
inductive Draft.Symbol where
  | nonTerminal (index : Nat) (name : String) (productions : List Nat)
  | terminal (name : String)
deriving DecidableEq

/-- A grammar while its rules are entered. Symbols and rules are numbered as they come, and a symbol is
found by its name from then on. Symbol 0 is the hidden start symbol, which cannot be found. -/
structure Draft where
  symbols : Array Draft.Symbol
  indices : Std.TreeMap String Nat
  rules : Array Rule
  start : Nat
  endMark : Nat

namespace Draft

namespace Symbol

def name : Symbol → String
  | nonTerminal _ name _ => name
  | terminal name => name

def isNonTerminal : Symbol → Bool
  | nonTerminal _ _ _ => true
  | terminal _ => false

/-- The numbers of the rules of a non-terminal. -/
def productions : Symbol → List Nat
  | nonTerminal _ _ productions => productions
  | terminal _ => []

/-- Only non-terminals have rules. -/
def addProduction (rule : Nat) : Symbol → Symbol
  | nonTerminal index name productions => nonTerminal index name (productions ++ [rule])
  | terminal name => terminal name

def rename (name : String) : Symbol → Symbol
  | nonTerminal index _ productions => nonTerminal index name productions
  | terminal old => terminal old

end Symbol

def addNonTerminal (draft : Draft) (name : String) : Draft :=
  { draft with
    symbols := draft.symbols.push (.nonTerminal draft.symbols.size name [])
    indices := draft.indices.insert name draft.symbols.size }

def addTerminal (draft : Draft) (name : String) : Draft :=
  { draft with
    symbols := draft.symbols.push (.terminal name)
    indices := draft.indices.insert name draft.symbols.size }

def addProduction (draft : Draft) (head : Nat) (body : List Nat) : Draft :=
  { draft with
    rules := draft.rules.push ⟨head, body⟩
    symbols := draft.symbols.modify head (Symbol.addProduction draft.rules.size) }

/-- The hidden start symbol has no name until all other names are known. -/
def empty : Draft := ⟨#[.nonTerminal 0 "" []], ∅, #[], 0, 0⟩

/-- Enters the head of a rule, if it is new. -/
def enterHead (draft : Draft) (entry : RuleEntry) : Draft :=
  if draft.indices.contains entry.head then draft else draft.addNonTerminal entry.head

/-- The symbol of a word in the body of a rule. A word that is not known yet becomes a terminal, unless
it looks like a non-terminal. -/
def enterWord (draft : Draft) (line : Nat) (head word : String) : Except GrammarError (Draft × Nat) :=
  if word = endName then .error (.malformedRule line .endMarkInBody)
  else
    match draft.indices[word]? with
    | some symbol => .ok (draft, symbol)
    | none =>
      if Text.startsUppercase word then .error (.undefinedSymbol word head)
      else .ok (draft.addTerminal word, draft.symbols.size)

/-- The symbols of the words in the body of a rule, from left to right. Empty words have none. -/
def enterBody (draft : Draft) (line : Nat) (head : String) :
    List String → Except GrammarError (Draft × List Nat)
  | [] => .ok (draft, [])
  | word :: rest =>
    if isEmptyWord word then draft.enterBody line head rest
    else do
      let (extended, symbol) ← draft.enterWord line head word
      let (full, symbols) ← extended.enterBody line head rest
      return (full, symbol :: symbols)

/-- Enters a rule whose head is known. -/
def enterRule (draft : Draft) (entry : RuleEntry) : Except GrammarError Draft := do
  let (full, body) ← draft.enterBody entry.line entry.head (Text.words entry.body)
  return full.addProduction (draft.indices.getD entry.head 0) body

/-- Of the names that are not shorter, a primed name leaves out the name itself. -/
theorem longer_names_lt {indices : Std.TreeMap String Nat} {name : String} (taken : name ∈ indices) :
    (indices.keys.filter fun other => (name ++ "'").length ≤ other.length).length <
      (indices.keys.filter fun other => name.length ≤ other.length).length := by
  have longer : (name ++ "'").length = name.length + 1 := String.length_append name "'"
  have among : (indices.keys.filter fun other => (name ++ "'").length ≤ other.length) =
      (indices.keys.filter fun other => name.length ≤ other.length).filter fun other =>
        (name ++ "'").length ≤ other.length := by
    rw [List.filter_filter]
    refine List.filter_congr fun other _ => ?_
    rw [longer, ← Bool.decide_and]
    exact decide_eq_decide.mpr ⟨fun above => ⟨above, Nat.le_of_succ_le above⟩, And.left⟩
  rw [among]
  refine List.length_filter_lt_length_iff_exists.mpr ⟨name, ?_, by rw [longer]; simp⟩
  exact List.mem_filter.mpr ⟨Std.TreeMap.mem_keys.mpr taken, decide_eq_true (Nat.le_refl _)⟩

/-- The first of `name`, `name'`, `name''` and so on by which no symbol is found. -/
def primedName (indices : Std.TreeMap String Nat) (name : String) : String :=
  if name ∈ indices then primedName indices (name ++ "'") else name
termination_by (indices.keys.filter fun other => name.length ≤ other.length).length
decreasing_by exact longer_names_lt ‹_›

/-- Adds the end mark and names the hidden start symbol after the start symbol. -/
def close (draft : Draft) (startName : String) : Draft :=
  let closed := draft.addTerminal endName
  { closed with
    endMark := draft.symbols.size
    symbols := closed.symbols.modify 0 (Symbol.rename (primedName closed.indices startName)) }

/-- Enters all rules when all heads are known. The start symbol is one of them. -/
def enterRules (draft : Draft) (startName : String) (entries : List RuleEntry) :
    Except GrammarError Draft :=
  match draft.indices[startName]? with
  | none => .error (.unknownStart startName)
  | some start => do
    let full ← entries.foldlM enterRule ({ draft with start }.addProduction 0 [start])
    return full.close startName

/-- Enters all entries. The start symbol is the designated one or else the first head. Heads are
checked before the start symbol, and the start symbol before the bodies. -/
def ofEntries (entries : List RuleEntry) (designated : Option String) :
    Except GrammarError Draft := do
  let headed ← entries.mapM RuleEntry.headed
  match headed with
  | [] => .error .empty
  | first :: _ =>
    (headed.foldl enterHead empty).enterRules (designated.getD first.head) headed

/-- Enters pairs of a head and a body, in their order. A body is a string of words between blanks, and
one without words, or with empty words only, derives the empty string. -/
def ofRules (rules : List (String × String)) (designated : Option String) : Except GrammarError Draft :=
  ofEntries ((rules.zipIdx 1).map fun ((head, body), line) => ⟨line, head, body⟩) designated

/-- The grammar of a draft that is complete. -/
def grammar (draft : Draft) : Grammar where
  hiddenName := (draft.symbols[0]?.map Symbol.name).getD ""
  heads := (((draft.symbols.toList.filter Symbol.isNonTerminal).map Symbol.name).drop 1).toArray
  terminalNames :=
    ((draft.symbols.toList.filter fun symbol => !symbol.isNonTerminal).map Symbol.name).dropLast.toArray
  start := draft.start
  listed := draft.rules.toList.drop 1

end Draft

namespace Grammar

/-- Builds a grammar from entered rules. -/
def ofEntries (entries : List RuleEntry) (designated : Option String) : Except GrammarError Grammar :=
  (Draft.ofEntries entries designated).map Draft.grammar

/-- Builds a grammar from pairs of a head and a body. -/
def ofRules (rules : List (String × String)) (designated : Option String) :
    Except GrammarError Grammar :=
  (Draft.ofRules rules designated).map Draft.grammar

end Grammar

end ParseTables
