namespace ParseTables

/-- A rule `head -> body`. An empty body derives the empty string. -/
structure Rule where
  head : Nat
  body : List Nat
deriving DecidableEq

/-- A context-free grammar over numbered symbols.

Symbol 0 is the hidden start symbol, which derives the start symbol by rule 0 and by no other rule. The
non-terminals follow it in the order in which they first head a rule, then the terminals in the order in
which they first stand in a body, and last the end mark. Rules are numbered likewise: rule 0 is the
hidden one, and the listed rules follow it from number 1. -/
structure Grammar where
  /-- The name of the hidden start symbol, which no other symbol has. -/
  hiddenName : String
  /-- The names of the non-terminals, from symbol 1 on. -/
  heads : Array String
  /-- The names of the terminals other than the end mark. -/
  terminalNames : Array String
  start : Nat
  /-- The rules as they were entered, from rule 1 on. -/
  listed : List Rule

/-- The name of the end mark, which no rule may use. -/
def endName : String := "$"

/-- How the empty string is shown. -/
def emptyWord : String := "ε"

/-- Whether a word stands for the empty string in a body. -/
def isEmptyWord (word : String) : Bool :=
  word == "e" || word == "ε" || word == "ϵ"

namespace Grammar

/-- The names of all symbols but the hidden one, from symbol 1 on. -/
def names (g : Grammar) : List String :=
  g.heads.toList ++ g.terminalNames.toList ++ [endName]

/-- The number of non-terminals other than the hidden start symbol. -/
def nonTerminalCount (g : Grammar) : Nat := g.heads.size

/-- The number of terminals, the end mark included. -/
def terminalCount (g : Grammar) : Nat := g.terminalNames.size + 1

/-- The symbol that marks the end of the input, the last of all. -/
def endMark (g : Grammar) : Nat := g.nonTerminalCount + g.terminalCount

/-- The number of symbols, the hidden one included. -/
def symbolCount (g : Grammar) : Nat := g.endMark + 1

/-- Whether a symbol derives others. The hidden start symbol does. -/
def isNonTerminal (g : Grammar) (symbol : Nat) : Bool := symbol ≤ g.nonTerminalCount

/-- Whether a symbol is a terminal. The end mark is one. -/
def isTerminal (g : Grammar) (symbol : Nat) : Bool :=
  g.nonTerminalCount < symbol && symbol ≤ g.endMark

/-- The non-terminals other than the hidden start symbol, in ascending order. -/
def nonTerminals (g : Grammar) : List Nat := List.range' 1 g.nonTerminalCount

/-- The terminals in ascending order, the end mark last. -/
def terminals (g : Grammar) : List Nat := List.range' (g.nonTerminalCount + 1) g.terminalCount

def name? (g : Grammar) : Nat → Option String
  | 0 => some g.hiddenName
  | i + 1 =>
    if i < g.heads.size then g.heads[i]?
    else if i + 1 = g.endMark then some endName
    else g.terminalNames[i - g.heads.size]?

/-- Names are looked up in one list, though it is never put together for that. -/
theorem name?_succ {g : Grammar} {i : Nat} : g.name? (i + 1) = g.names[i]? := by
  unfold name? names
  rw [List.append_assoc, List.getElem?_append]
  simp only [Array.length_toList, Array.getElem?_toList]
  split
  · rfl
  · rename_i beyond
    rw [List.getElem?_append]
    simp only [Array.length_toList, Array.getElem?_toList]
    have count : g.endMark = g.heads.size + (g.terminalNames.size + 1) := rfl
    by_cases last : i + 1 = g.endMark
    · rw [if_pos last, if_neg (by omega), show i - g.heads.size - g.terminalNames.size = 0 by omega]
      rfl
    · rw [if_neg last]
      split
      · rfl
      · rw [Array.getElem?_eq_none (by omega),
          List.getElem?_eq_none (by simp only [List.length_singleton]; omega)]

/-- The names of a string of symbols, provided that each has one. -/
def namesOf? (g : Grammar) (symbols : List Nat) : Option (List String) :=
  symbols.mapM g.name?

/-- The symbol of a name. The hidden start symbol cannot be named. -/
def index? (g : Grammar) (name : String) : Option Nat :=
  (g.names.idxOf? name).map (· + 1)

/-- All rules, the hidden one first. -/
def rules (g : Grammar) : List Rule := ⟨0, [g.start]⟩ :: g.listed

def rule? (g : Grammar) (number : Nat) : Option Rule := g.rules[number]?

/-- The listed rules with their numbers. -/
def numberedRules (g : Grammar) : List (Rule × Nat) := g.listed.zipIdx 1

/-- The numbers of the rules that a symbol heads, in ascending order. -/
def productions (g : Grammar) (symbol : Nat) : List Nat :=
  (g.rules.zipIdx.filter fun entry => entry.1.head == symbol).map Prod.snd

end Grammar

end ParseTables
