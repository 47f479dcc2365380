import ParseTables.Item.Basic

namespace ParseTables

namespace Grammar

/-- The non-terminal that begins the body of a rule. -/
def leadingNonTerminal? (g : Grammar) (rule : Rule) : Option Nat :=
  rule.body.head?.filter g.isNonTerminal

/-- The non-terminals that begin the bodies of a head. -/
def leaders (g : Grammar) (head : Nat) : List Nat :=
  (g.rules.filter fun rule => rule.head = head).filterMap g.leadingNonTerminal?

/-- Taking up one more head leaves exactly its own rules fewer to take up. -/
theorem length_rules_insert {rules : List Rule} {found : SortedSet Nat} {head : Nat}
    (fresh : head ∉ found) :
    (rules.filter fun rule => rule.head = head).length +
        (rules.filter fun rule => rule.head ∉ found.insert head).length =
      (rules.filter fun rule => rule.head ∉ found).length := by
  induction rules with
  | nil => rfl
  | cons rule rest ih =>
    have entered : rule.head ∉ found.insert head ↔ rule.head ≠ head ∧ rule.head ∉ found := by simp
    by_cases same : rule.head = head
    · have new : rule.head ∉ found := same ▸ fresh
      grind
    · by_cases old : rule.head ∈ found <;> grind

/-- The found non-terminals, and all those that begin strings derived from the pending ones without
passing a symbol. -/
def openedFrom (g : Grammar) (pending : List Nat) (found : SortedSet Nat) : SortedSet Nat :=
  match pending with
  | [] => found
  | head :: rest =>
    if head ∈ found then g.openedFrom rest found
    else g.openedFrom (g.leaders head ++ rest) (found.insert head)
termination_by pending.length + (g.rules.filter fun rule => rule.head ∉ found).length
decreasing_by
  · simp only [List.length_cons]
    omega
  · have bounded : (g.leaders head).length ≤ (g.rules.filter fun rule => rule.head = head).length :=
      List.length_filterMap_le _ _
    have := @length_rules_insert g.rules found head ‹head ∉ found›
    simp only [List.length_append, List.length_cons]
    omega

/-- The rules headed by any of the given non-terminals, with the dot in front. -/
def openings (g : Grammar) (heads : SortedSet Nat) : ItemSet :=
  SortedSet.ofList
    ((g.rules.zipIdx.filter fun entry => entry.1.head ∈ heads).map fun entry => ⟨entry.2, 0⟩)

end Grammar

namespace ItemSet

/-- The set together with the opening items of all non-terminals that come to stand after a dot. -/
def closure (g : Grammar) (items : ItemSet) : ItemSet :=
  items ∪ g.openings (g.openedFrom (items.toList.filterMap (Item.nextNonTerminal? g)) ∅)

/-- The symbols after the dots, each with its item moved past it. -/
def moves (g : Grammar) (items : ItemSet) : List (Nat × Item) :=
  items.toList.filterMap fun item => (item.next? g).map fun symbol => (symbol, item.advanced)

/-- The items among some moves that passed a symbol. -/
def reachedBy (moves : List (Nat × Item)) (symbol : Nat) : ItemSet :=
  SortedSet.ofList ((moves.filter fun move => move.1 = symbol).map Prod.snd)

/-- The items with the given symbol after the dot, moved past it. -/
def passing (g : Grammar) (items : ItemSet) (symbol : Nat) : ItemSet :=
  reachedBy (items.moves g) symbol

/-- The closed set after passing a symbol. It is empty when no item has the symbol after its dot. -/
def goto (g : Grammar) (items : ItemSet) (symbol : Nat) : ItemSet :=
  closure g (passing g items symbol)

/-- The symbols that stand after a dot. -/
def transitions (g : Grammar) (items : ItemSet) : SortedSet Nat :=
  SortedSet.ofList ((items.moves g).map Prod.fst)

/-- The symbols that stand after a dot in ascending order, each with the set of the items moved past
it. -/
def successors (g : Grammar) (items : ItemSet) : List (Nat × ItemSet) :=
  let moves := items.moves g
  (SortedSet.ofList (moves.map Prod.fst)).toList.map fun symbol => (symbol, reachedBy moves symbol)

theorem successors_eq {g : Grammar} {items : ItemSet} :
    items.successors g =
      (items.transitions g).toList.map fun symbol => (symbol, items.passing g symbol) := rfl

/-- Whether the grammar has the rule of every item. -/
def allDefined (g : Grammar) (items : ItemSet) : Bool :=
  items.toList.all fun item => (g.rule? item.rule).isSome

/-- The closure of a set whose rules are all defined. -/
def closure? (g : Grammar) (items : ItemSet) : Option ItemSet :=
  if items.allDefined g then some (items.closure g) else none

/-- The set after passing a symbol from a set whose rules are all defined. -/
def goto? (g : Grammar) (items : ItemSet) (symbol : Nat) : Option ItemSet :=
  if items.allDefined g then some (items.goto g symbol) else none

/-- The symbols after a dot of a set whose rules are all defined. -/
def transitions? (g : Grammar) (items : ItemSet) : Option (SortedSet Nat) :=
  if items.allDefined g then some (items.transitions g) else none

end ItemSet

end ParseTables
