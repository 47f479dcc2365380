import ParseTables.Item.Closure
import ParseTables.Numbering

namespace ParseTables

/-- A transition to a state on a symbol. -/
structure Edge where
  symbol : Nat
  target : Nat
deriving DecidableEq

/-- A state: its kernel, the closure of it, and its transitions by ascending symbols. -/
structure LRState where
  kernel : ItemSet
  items : ItemSet
  edges : List Edge

namespace LRState

/-- The items that the closure adds to the kernel. -/
def extension (state : LRState) : List Item :=
  state.items.toList.filter fun item => item ∉ state.kernel

/-- Where the state goes on a symbol. -/
def target? (state : LRState) (symbol : Nat) : Option Nat :=
  (state.edges.find? fun edge => edge.symbol = symbol).map Edge.target

end LRState

/-- The automaton. State 0 is where it starts. -/
structure Automaton where
  states : List LRState

namespace Grammar

/-- The kernel of the state in which the search begins. -/
def startKernel : ItemSet := .singleton ⟨0, 0⟩

/-- Visits all neighbours of a state in ascending order of their symbols. Kernels that have not been
found before are added. -/
def visitAll (g : Grammar) (found : Numbering ItemSet) (items : ItemSet) : Numbering ItemSet :=
  (items.successors g).foldl (fun found successor => found.add successor.2) found

/-- The search: takes up the found kernels one after another, from the given place on and at most as
many as the limit says. -/
def search (g : Grammar) : (limit place : Nat) → Numbering ItemSet → Numbering ItemSet
  | 0, _, found => found
  | limit + 1, place, found =>
    match found.entry? place with
    | none => found
    | some kernel => g.search limit (place + 1) (g.visitAll found (kernel.closure g))

/-- The number of items of the rules, with the dot at every place. -/
def itemCount (g : Grammar) : Nat :=
  g.rules.foldr (fun rule count => rule.body.length + 1 + count) 0

/-- The kernels of all states, numbered in the order in which they are found. They are different sets
of items, so there are no more of them than two to the number of items. -/
def kernels (g : Grammar) : Numbering ItemSet :=
  g.search (1 <<< g.itemCount) 0 (Numbering.empty.add startKernel)

/-- The transitions of a set of items among states with the given kernels. -/
def edgesAmong (g : Grammar) (kernels : Numbering ItemSet) (items : ItemSet) : List Edge :=
  (items.successors g).filterMap fun (symbol, kernel) =>
    (kernels.number? kernel).map (⟨symbol, ·⟩)

/-- The LR(0) automaton of the grammar. Its states are the non-empty closed sets of items that are
reached from the opening item of the hidden rule by passing symbols. They are numbered in the order in
which a breadth-first search finds them that tries the symbols of each state in ascending order. The
search tells states apart by their kernels, since all other items of a state follow from its kernel. -/
def automaton (g : Grammar) : Automaton :=
  let kernels := g.kernels
  ⟨kernels.toList.map fun kernel =>
    let items := kernel.closure g
    ⟨kernel, items, g.edgesAmong kernels items⟩⟩

end Grammar

/-- The state with exactly the given items. -/
def Automaton.stateOf? (automaton : Automaton) (items : ItemSet) : Option Nat :=
  automaton.states.findIdx? fun state => state.items = items

end ParseTables
