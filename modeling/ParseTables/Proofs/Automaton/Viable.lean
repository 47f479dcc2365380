import ParseTables.Proofs.Automaton.Paths
import ParseTables.Proofs.Grammar.Derivation

namespace ParseTables.Grammar

/-- Some string derived from the start symbol begins with the given symbols and with what comes after the
dot of the item. -/
def Viable (g : Grammar) (symbols : List Nat) (item : Item) : Prop :=
  ∃ rule rest, g.rule? item.rule = some rule ∧
    g.Derives [g.start] (symbols ++ rule.body.drop item.position ++ rest)

variable {g : Grammar} {symbols : List Nat}

theorem Viable.opened (wf : g.WellFormed) {parent : Item} (viable : g.Viable symbols parent)
    {number : Nat} {rule : Rule} (next : parent.next? g = some rule.head)
    (found : g.rule? number = some rule) : g.Viable symbols ⟨number, 0⟩ := by
  obtain ⟨outer, rest, foundOuter, derives⟩ := viable
  obtain ⟨after, dropped⟩ := drop_of_next foundOuter next
  have positive : 0 < number := by
    refine Nat.pos_of_ne_zero fun hidden => ?_
    subst hidden
    cases Option.some.inj found
    exact Nat.lt_irrefl 0 (wf.next_bounds next).1
  have listed := mem_listed_of_rule? positive found
  rw [dropped, List.append_assoc, List.cons_append] at derives
  refine ⟨rule, after ++ rest, found, ?_⟩
  exact derives.tail (.rewrite symbols (after ++ rest) listed)

theorem Viable.advanced {item : Item} (viable : g.Viable symbols item) {symbol : Nat}
    (next : item.next? g = some symbol) : g.Viable (symbols ++ [symbol]) item.advanced := by
  obtain ⟨rule, rest, found, derives⟩ := viable
  obtain ⟨after, dropped⟩ := drop_of_next found next
  have behind : rule.body.drop (item.position + 1) = after := (next_of_drop found dropped).2.1
  refine ⟨rule, rest, found, ?_⟩
  show g.Derives [g.start] (symbols ++ [symbol] ++ rule.body.drop (item.position + 1) ++ rest)
  rw [dropped] at derives
  rw [behind, List.append_assoc symbols, List.singleton_append]
  exact derives

theorem Viable.closure (wf : g.WellFormed) {items : ItemSet}
    (viable : ∀ item ∈ items, g.Viable symbols item) :
    ∀ item ∈ items.closure g, g.Viable symbols item := fun _ member =>
  ItemSet.closure_induction viable
    (fun _ _ parent _ _ next _ found => parent.opened wf next found) member

/-- The items of a state are viable after all that leads to it. -/
theorem Spells.viable (wf : g.WellFormed) {state : Nat} {below spelled : List Nat}
    (path : g.Spells (state :: below) spelled) :
    ∀ item ∈ g.itemsAt state, g.Viable spelled.reverse item := by
  generalize stacked : state :: below = states at path
  induction path generalizing state below with
  | start =>
    obtain ⟨rfl, rfl⟩ := List.cons.inj stacked
    rw [itemsAt_zero]
    refine Viable.closure wf fun item first => ?_
    rw [startKernel, SortedSet.mem_singleton] at first
    exact first ▸ ⟨⟨0, [g.start]⟩, [], rfl, .refl _⟩
  | push _ edge ih =>
    obtain ⟨rfl, rfl⟩ := List.cons.inj stacked
    rw [(itemsAt_target edge).2, List.reverse_cons]
    refine Viable.closure wf fun item passed => ?_
    obtain ⟨previous, member, next, rfl⟩ := ItemSet.mem_passing.mp passed
    exact (ih rfl previous member).advanced next

/-- What a path spells begins a string derived from the start symbol, even where nothing finite is
derived from a symbol on the way. -/
theorem Spells.exists_form (wf : g.WellFormed) {state : Nat} {below spelled : List Nat}
    (path : g.Spells (state :: below) spelled) :
    ∃ rest, g.Derives [g.start] (spelled.reverse ++ rest) := by
  obtain ⟨item, member⟩ := path.exists_item
  obtain ⟨rule, rest, -, derives⟩ := path.viable wf item member
  rw [List.append_assoc] at derives
  exact ⟨_, derives⟩

end ParseTables.Grammar
