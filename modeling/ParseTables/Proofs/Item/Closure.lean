import Mathlib.Logic.Relation
import ParseTables.Item.Closure
import ParseTables.Proofs.Grammar.Draft

namespace ParseTables

namespace Grammar

variable {g : Grammar}

/-- One non-terminal begins a body of another. -/
def Leads (g : Grammar) (head leader : Nat) : Prop := leader ∈ g.leaders head

theorem leads_iff {head leader : Nat} : g.Leads head leader ↔
    ∃ rule ∈ g.rules, rule.head = head ∧ rule.body.head? = some leader ∧ g.isNonTerminal leader := by
  unfold Leads leaders leadingNonTerminal?
  simp only [List.mem_filterMap, List.mem_filter, decide_eq_true_eq,
    Option.filter_eq_some_iff, and_assoc]

theorem sound_openedFrom {pending : List Nat} {found : SortedSet Nat} {symbol : Nat}
    (member : symbol ∈ g.openedFrom pending found) :
    symbol ∈ found ∨ ∃ first ∈ pending, Relation.ReflTransGen g.Leads first symbol := by
  fun_induction openedFrom g pending found with
  | case1 found => exact Or.inl member
  | case2 found head rest known ih =>
    rcases ih member with old | ⟨first, inside, path⟩
    · exact Or.inl old
    · exact Or.inr ⟨first, List.mem_cons_of_mem _ inside, path⟩
  | case3 found head rest fresh ih =>
    rcases ih member with old | ⟨first, inside, path⟩
    · rcases SortedSet.mem_insert.mp old with rfl | older
      · exact Or.inr ⟨symbol, List.mem_cons_self, .refl⟩
      · exact Or.inl older
    · rcases List.mem_append.mp inside with leader | later
      · exact Or.inr ⟨head, List.mem_cons_self, .head leader path⟩
      · exact Or.inr ⟨first, List.mem_cons_of_mem _ later, path⟩

/-- The search for openings loses nothing that it has found or has yet to take up. -/
theorem closed_openedFrom {pending : List Nat} {found : SortedSet Nat}
    (closed : ∀ head ∈ found, ∀ leader, g.Leads head leader → leader ∈ found ∨ leader ∈ pending) :
    (∀ symbol, symbol ∈ found ∨ symbol ∈ pending → symbol ∈ g.openedFrom pending found) ∧
      ∀ head ∈ g.openedFrom pending found, ∀ leader, g.Leads head leader →
        leader ∈ g.openedFrom pending found := by
  fun_induction openedFrom g pending found with
  | case1 found =>
    exact ⟨by simp, fun head member leader leads => by simpa using closed head member leader leads⟩
  | case2 found head rest known ih =>
    obtain ⟨kept, closed'⟩ := ih fun head' member leader leads => by
      rcases closed head' member leader leads with old | pending
      · exact Or.inl old
      · rcases List.mem_cons.mp pending with rfl | later
        · exact Or.inl known
        · exact Or.inr later
    refine ⟨fun symbol member => kept symbol ?_, closed'⟩
    rcases member with old | pending
    · exact Or.inl old
    · rcases List.mem_cons.mp pending with rfl | later
      · exact Or.inl known
      · exact Or.inr later
  | case3 found head rest fresh ih =>
    obtain ⟨kept, closed'⟩ := ih fun head' member leader leads => by
      rcases SortedSet.mem_insert.mp member with rfl | old
      · exact Or.inr (List.mem_append_left _ leads)
      · rcases closed head' old leader leads with old | pending
        · exact Or.inl (SortedSet.mem_insert.mpr (Or.inr old))
        · rcases List.mem_cons.mp pending with rfl | later
          · exact Or.inl (SortedSet.mem_insert.mpr (Or.inl rfl))
          · exact Or.inr (List.mem_append_right _ later)
    refine ⟨fun symbol member => kept symbol ?_, closed'⟩
    rcases member with old | pending
    · exact Or.inl (SortedSet.mem_insert.mpr (Or.inr old))
    · rcases List.mem_cons.mp pending with rfl | later
      · exact Or.inl (SortedSet.mem_insert.mpr (Or.inl rfl))
      · exact Or.inr (List.mem_append_right _ later)

/-- What is opened are the pending non-terminals and those that come to stand in front of them. -/
theorem mem_openedFrom {pending : List Nat} {symbol : Nat} :
    symbol ∈ g.openedFrom pending ∅ ↔ ∃ first ∈ pending, Relation.ReflTransGen g.Leads first symbol := by
  constructor
  · intro member
    exact (sound_openedFrom member).resolve_left SortedSet.not_mem_empty
  · rintro ⟨first, inside, path⟩
    obtain ⟨kept, closed⟩ := @closed_openedFrom g pending ∅
      fun head member => absurd member SortedSet.not_mem_empty
    induction path with
    | refl => exact kept first (Or.inr inside)
    | tail _ leads ih => exact closed _ ih _ leads

theorem mem_openings {heads : SortedSet Nat} {item : Item} : item ∈ g.openings heads ↔
    item.position = 0 ∧ ∃ rule, g.rule? item.rule = some rule ∧ rule.head ∈ heads := by
  unfold openings
  rw [SortedSet.mem_ofList, List.mem_map]
  constructor
  · rintro ⟨⟨rule, number⟩, member, rfl⟩
    obtain ⟨place, opened⟩ := List.mem_filter.mp member
    exact ⟨rfl, rule, List.mem_zipIdx_iff_getElem?.mp place, of_decide_eq_true opened⟩
  · obtain ⟨number, position⟩ := item
    rintro ⟨rfl, rule, found, opened⟩
    exact ⟨(rule, number), List.mem_filter.mpr
      ⟨List.mem_zipIdx_iff_getElem?.mpr found, decide_eq_true opened⟩, rfl⟩

end Grammar

namespace ItemSet

variable {g : Grammar} {items : ItemSet}

theorem mem_closure {item : Item} : item ∈ closure g items ↔ item ∈ items ∨ item.position = 0 ∧
    ∃ rule, g.rule? item.rule = some rule ∧ ∃ parent ∈ items, ∃ first,
      parent.nextNonTerminal? g = some first ∧ Relation.ReflTransGen g.Leads first rule.head := by
  unfold closure
  simp only [SortedSet.mem_union, Grammar.mem_openings, Grammar.mem_openedFrom, List.mem_filterMap]
  constructor
  · rintro (old | ⟨start, rule, found, first, ⟨parent, member, next⟩, path⟩)
    · exact Or.inl old
    · exact Or.inr ⟨start, rule, found, parent, member, first, next, path⟩
  · rintro (old | ⟨start, rule, found, parent, member, first, next, path⟩)
    · exact Or.inl old
    · exact Or.inr ⟨start, rule, found, first, ⟨parent, member, next⟩, path⟩

theorem mem_closure_of_mem {item : Item} (member : item ∈ items) : item ∈ closure g items :=
  mem_closure.mpr (Or.inl member)

theorem nextNonTerminal?_eq_some {item : Item} {symbol : Nat} :
    item.nextNonTerminal? g = some symbol ↔ item.next? g = some symbol ∧ g.isNonTerminal symbol := by
  unfold Item.nextNonTerminal?
  exact Option.filter_eq_some_iff

theorem next?_eq_some {item : Item} {symbol : Nat} : item.next? g = some symbol ↔
    ∃ rule, g.rule? item.rule = some rule ∧ rule.body[item.position]? = some symbol :=
  Option.bind_eq_some_iff

/-- The closure has, with each of its items, the opening items of the non-terminal after the dot. -/
theorem closure_closed {item : Item} (member : item ∈ closure g items) {number : Nat} {rule : Rule}
    (next : item.next? g = some rule.head) (nonTerminal : g.isNonTerminal rule.head)
    (found : g.rule? number = some rule) : ⟨number, 0⟩ ∈ closure g items := by
  refine mem_closure.mpr (Or.inr ⟨rfl, rule, found, ?_⟩)
  rcases mem_closure.mp member with old | ⟨start, rule', found', parent, inside, first, next', path⟩
  · exact ⟨item, old, rule.head, nextNonTerminal?_eq_some.mpr ⟨next, nonTerminal⟩, .refl⟩
  · refine ⟨parent, inside, first, next', path.tail (Grammar.leads_iff.mpr ?_)⟩
    obtain ⟨rule'', found'', symbol⟩ := next?_eq_some.mp next
    rw [found'] at found''
    cases Option.some.inj found''
    rw [start] at symbol
    exact ⟨rule', List.mem_of_getElem? found', rfl, by rw [List.head?_eq_getElem?, symbol], nonTerminal⟩

/-- What holds of a set and goes from each item to those that its next symbol opens holds of the
closure. -/
theorem closure_induction {P : Item → Prop} (kernel : ∀ item ∈ items, P item)
    (opened : ∀ parent ∈ closure g items, P parent → ∀ number rule, parent.next? g = some rule.head →
      g.isNonTerminal rule.head → g.rule? number = some rule → P ⟨number, 0⟩)
    {item : Item} (member : item ∈ closure g items) : P item := by
  rcases mem_closure.mp member with old | ⟨start, rule, found, parent, inside, first, next, path⟩
  · exact kernel item old
  obtain ⟨number, position⟩ := item
  obtain rfl : position = 0 := start
  obtain ⟨next', nonTerminal⟩ := nextNonTerminal?_eq_some.mp next
  -- along the path each opened head has an opening item in the closure
  suffices reached : ∀ symbol, Relation.ReflTransGen g.Leads first symbol →
      ∀ number rule, g.rule? number = some rule → rule.head = symbol →
        ⟨number, 0⟩ ∈ closure g items ∧
          P ⟨number, 0⟩ from (reached rule.head path number rule found rfl).2
  intro symbol reaches
  induction reaches with
  | refl =>
    rintro number rule found rfl
    have inClosure := mem_closure_of_mem (g := g) inside
    exact ⟨closure_closed inClosure next' nonTerminal found,
      opened parent inClosure (kernel parent inside) number rule next' nonTerminal found⟩
  | tail _ leads ih =>
    rintro number rule found rfl
    obtain ⟨rule', member', head, begins, nonTerminal'⟩ := Grammar.leads_iff.mp leads
    obtain ⟨number', found'⟩ := List.mem_iff_getElem?.mp member'
    obtain ⟨inClosure, holds⟩ := ih number' rule' found' head
    have next'' : Item.next? g ⟨number', 0⟩ = some rule.head :=
      next?_eq_some.mpr ⟨rule', found', by rw [← List.head?_eq_getElem?, begins]⟩
    exact ⟨closure_closed inClosure next'' nonTerminal' found,
      opened _ inClosure holds number rule next'' nonTerminal' found⟩

theorem closure_cases {item : Item} (member : item ∈ closure g items) :
    item ∈ items ∨ item.position = 0 ∧ ∃ parent ∈ closure g items, ∃ rule,
      g.rule? item.rule = some rule ∧ parent.next? g = some rule.head :=
  closure_induction (P := fun item => item ∈ items ∨ item.position = 0 ∧
      ∃ parent ∈ closure g items, ∃ rule, g.rule? item.rule = some rule ∧
        parent.next? g = some rule.head)
    (fun _ => Or.inl)
    (fun parent inside _ _ rule next _ found => Or.inr ⟨rfl, parent, inside, rule, found, next⟩) member

theorem mem_moves {symbol : Nat} {item : Item} : (symbol, item) ∈ items.moves g ↔
    ∃ previous ∈ items, previous.next? g = some symbol ∧ item = previous.advanced := by
  unfold moves
  simp only [List.mem_filterMap, Option.map_eq_some_iff, Prod.mk.injEq, SortedSet.mem_toList]
  constructor
  · rintro ⟨previous, member, symbol', next, rfl, rfl⟩
    exact ⟨previous, member, next, rfl⟩
  · rintro ⟨previous, member, next, rfl⟩
    exact ⟨previous, member, symbol, next, rfl, rfl⟩

theorem mem_passing {symbol : Nat} {item : Item} : item ∈ passing g items symbol ↔
    ∃ previous ∈ items, previous.next? g = some symbol ∧ item = previous.advanced := by
  unfold passing reachedBy
  rw [SortedSet.mem_ofList, List.mem_map]
  constructor
  · rintro ⟨⟨symbol', item'⟩, member, rfl⟩
    obtain ⟨moved, same⟩ := List.mem_filter.mp member
    obtain rfl : symbol' = symbol := of_decide_eq_true same
    exact mem_moves.mp moved
  · intro moved
    exact ⟨(symbol, item), List.mem_filter.mpr ⟨mem_moves.mpr moved, decide_eq_true rfl⟩, rfl⟩

theorem mem_transitions {symbol : Nat} : symbol ∈ items.transitions g ↔
    ∃ item ∈ items, item.next? g = some symbol := by
  unfold transitions
  rw [SortedSet.mem_ofList, List.mem_map]
  constructor
  · rintro ⟨⟨symbol', item⟩, moved, rfl⟩
    obtain ⟨previous, member, next, -⟩ := mem_moves.mp moved
    exact ⟨previous, member, next⟩
  · rintro ⟨item, member, next⟩
    exact ⟨(symbol, item.advanced), mem_moves.mpr ⟨item, member, next, rfl⟩, rfl⟩

theorem mem_successors {symbol : Nat} {kernel : ItemSet} : (symbol, kernel) ∈ items.successors g ↔
    symbol ∈ items.transitions g ∧ kernel = items.passing g symbol := by
  rw [successors_eq, List.mem_map]
  constructor
  · rintro ⟨symbol', member, same⟩
    obtain ⟨rfl, rfl⟩ := Prod.mk.inj same
    exact ⟨member, rfl⟩
  · rintro ⟨member, rfl⟩
    exact ⟨symbol, member, rfl⟩

end ItemSet

namespace Grammar

variable {g : Grammar}

theorem next_of_drop {number position symbol : Nat} {rule : Rule} {rest : List Nat}
    (found : g.rule? number = some rule) (dropped : rule.body.drop position = symbol :: rest) :
    Item.next? g ⟨number, position⟩ = some symbol ∧ rule.body.drop (position + 1) = rest ∧
      rule.body = rule.body.take position ++ symbol :: rest := by
  refine ⟨ItemSet.next?_eq_some.mpr ⟨rule, found, ?_⟩, ?_, ?_⟩
  · rw [← List.head?_drop, dropped]
    rfl
  · rw [← List.drop_drop, dropped]
    rfl
  · rw [← dropped, List.take_append_drop]

theorem drop_of_next {number position symbol : Nat} {rule : Rule} (found : g.rule? number = some rule)
    (next : Item.next? g ⟨number, position⟩ = some symbol) :
    ∃ rest, rule.body.drop position = symbol :: rest := by
  obtain ⟨rule', found', place⟩ := ItemSet.next?_eq_some.mp next
  cases Option.some.inj (found.symm.trans found')
  obtain ⟨inside, rfl⟩ := List.getElem?_eq_some_iff.mp place
  exact ⟨_, List.drop_eq_getElem_cons inside⟩

end Grammar

end ParseTables
