import ParseTables.Grammar.Basic
import ParseTables.SortedSet

namespace ParseTables

/-- A rule with a dot before the symbol at a position of its body, or at the end. -/
structure Item where
  rule : Nat
  position : Nat
deriving DecidableEq

namespace Item

/-- Items are ordered by their rules and then by the place of the dot. -/
instance : Ord Item := ⟨compareLex (compareOn rule) (compareOn position)⟩

instance : Std.TransOrd Item :=
  inferInstanceAs (Std.TransCmp (compareLex (compareOn rule) (compareOn position)))

instance : Std.LawfulEqOrd Item where
  compare_self := @fun item =>
    @Std.ReflCmp.compare_self _ (compareLex (compareOn rule) (compareOn position)) _ item
  eq_of_compare := @fun a b same => by
    obtain ⟨rules, positions⟩ := Ordering.then_eq_eq.mp same
    cases a
    cases b
    exact congr (congrArg mk (Std.LawfulEqOrd.eq_of_compare rules))
      (Std.LawfulEqOrd.eq_of_compare positions)

/-- The item with the dot one symbol further on. -/
def advanced (item : Item) : Item := ⟨item.rule, item.position + 1⟩

def next? (g : Grammar) (item : Item) : Option Nat :=
  (g.rule? item.rule).bind fun rule => rule.body[item.position]?

def nextNonTerminal? (g : Grammar) (item : Item) : Option Nat :=
  (item.next? g).filter g.isNonTerminal

/-- Whether the dot has passed the whole body. -/
def isComplete (g : Grammar) (item : Item) : Bool :=
  (g.rule? item.rule).any fun rule => rule.body.length ≤ item.position

/-- Whether the item says that the start symbol has been seen. -/
def isAccepting (g : Grammar) (item : Item) : Bool := item.rule == 0 && item.isComplete g

end Item

abbrev ItemSet := SortedSet Item

end ParseTables
