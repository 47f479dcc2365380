import ParseTables.Proofs.Automaton.Search

namespace ParseTables

namespace Grammar

/-- The items of a state. -/
def itemsAt (g : Grammar) (state : Nat) : ItemSet :=
  ((g.automaton.states[state]?).map LRState.items).getD ∅

/-- Where a state goes on a symbol. -/
def target? (g : Grammar) (state symbol : Nat) : Option Nat :=
  (g.automaton.states[state]?).bind fun found => found.target? symbol

/-- A stack of states and the symbols passed on the way to the topmost one, both from the top down. -/
inductive Spells (g : Grammar) : List Nat → List Nat → Prop
  | start : Spells g [0] []
  | push {state below symbols symbol target} : Spells g (state :: below) symbols →
      g.target? state symbol = some target → Spells g (target :: state :: below) (symbol :: symbols)

variable {g : Grammar}

theorem getElem?_states {state : Nat} :
    g.automaton.states[state]? = (g.kernels.toList[state]?).map fun kernel =>
      ⟨kernel, kernel.closure g, g.edgesAmong g.kernels (kernel.closure g)⟩ := List.getElem?_map

theorem itemsAt_eq {state : Nat} {kernel : ItemSet} (entry : g.kernels.toList[state]? = some kernel) :
    g.itemsAt state = kernel.closure g := by
  unfold itemsAt
  rw [getElem?_states, entry]
  rfl

theorem itemsAt_zero : g.itemsAt 0 = startKernel.closure g := itemsAt_eq kernels_zero

theorem exists_kernel {state : Nat} {item : Item} (member : item ∈ g.itemsAt state) :
    ∃ kernel, g.kernels.toList[state]? = some kernel ∧ g.itemsAt state = kernel.closure g := by
  cases entry : g.kernels.toList[state]? with
  | none => simp [itemsAt, getElem?_states, entry] at member
  | some kernel => exact ⟨kernel, rfl, itemsAt_eq entry⟩

theorem fits_itemsAt {state : Nat} {item : Item} (member : item ∈ g.itemsAt state) : item.Fits g := by
  obtain ⟨kernel, entry, same⟩ := exists_kernel member
  rw [same] at member
  exact fits_closure (fun _ => fits_of_kernel (List.mem_of_getElem? entry)) item member

theorem mem_edgesAmong {kernels : Numbering ItemSet} {items : ItemSet} {edge : Edge} :
    edge ∈ g.edgesAmong kernels items ↔
      edge.symbol ∈ items.transitions g ∧
        kernels.number? (items.passing g edge.symbol) = some edge.target := by
  unfold edgesAmong
  simp only [List.mem_filterMap, Option.map_eq_some_iff]
  constructor
  · rintro ⟨⟨symbol, kernel⟩, successor, target, numbered, rfl⟩
    obtain ⟨moves, rfl⟩ := ItemSet.mem_successors.mp successor
    exact ⟨moves, numbered⟩
  · rintro ⟨moves, numbered⟩
    exact ⟨(edge.symbol, _), ItemSet.mem_successors.mpr ⟨moves, rfl⟩, edge.target, numbered, rfl⟩

theorem target?_eq {state symbol : Nat} {kernel : ItemSet}
    (entry : g.kernels.toList[state]? = some kernel) : g.target? state symbol =
      ((g.edgesAmong g.kernels (kernel.closure g)).find? fun edge => edge.symbol = symbol).map
        Edge.target := by
  unfold target?
  rw [getElem?_states, entry]
  rfl

theorem edge_of_target {state symbol target : Nat} {kernel : ItemSet}
    (entry : g.kernels.toList[state]? = some kernel) (edge : g.target? state symbol = some target) :
    symbol ∈ (kernel.closure g).transitions g ∧
      g.kernels.toList[target]? = some ((kernel.closure g).passing g symbol) := by
  rw [target?_eq entry] at edge
  obtain ⟨found, search, rfl⟩ := Option.map_eq_some_iff.mp edge
  have same := List.find?_some search
  obtain rfl : found.symbol = symbol := of_decide_eq_true same
  obtain ⟨moves, numbered⟩ := mem_edgesAmong.mp (List.mem_of_find?_eq_some search)
  exact ⟨moves, Numbering.number?_eq_some numbered⟩

/-- An edge leads from a state with a symbol after a dot to the closure of what passes the symbol. -/
theorem itemsAt_target {state symbol target : Nat} (edge : g.target? state symbol = some target) :
    (∃ item ∈ g.itemsAt state, item.next? g = some symbol) ∧
      g.itemsAt target = ((g.itemsAt state).passing g symbol).closure g := by
  cases entry : g.kernels.toList[state]? with
  | none => simp [target?, getElem?_states, entry] at edge
  | some kernel =>
    obtain ⟨moves, entry'⟩ := edge_of_target entry edge
    rw [itemsAt_eq entry]
    exact ⟨ItemSet.mem_transitions.mp moves, itemsAt_eq entry'⟩

theorem exists_target {state symbol : Nat} {item : Item} (member : item ∈ g.itemsAt state)
    (next : item.next? g = some symbol) : ∃ target, g.target? state symbol = some target := by
  obtain ⟨kernel, entry, same⟩ := exists_kernel member
  rw [same] at member
  have moves := ItemSet.mem_transitions.mpr ⟨item, member, next⟩
  obtain ⟨target, numbered⟩ :=
    Numbering.exists_number? (kernels_closed (List.mem_of_getElem? entry) moves)
  have edge : (⟨symbol, target⟩ : Edge) ∈ g.edgesAmong g.kernels (kernel.closure g) :=
    mem_edgesAmong.mpr ⟨moves, numbered⟩
  rw [target?_eq entry, ← Option.isSome_iff_exists, Option.isSome_map, List.find?_isSome]
  exact ⟨_, edge, decide_eq_true rfl⟩

/-- The item moved past a symbol is in the state to which the symbol leads. -/
theorem advanced_mem_target {state symbol target : Nat} {item : Item} (member : item ∈ g.itemsAt state)
    (next : item.next? g = some symbol) (edge : g.target? state symbol = some target) :
    item.advanced ∈ g.itemsAt target := by
  rw [(itemsAt_target edge).2]
  exact ItemSet.mem_closure_of_mem (ItemSet.mem_passing.mpr ⟨item, member, next, rfl⟩)

theorem opening_mem {state number : Nat} {item : Item} {rule : Rule} (member : item ∈ g.itemsAt state)
    (next : item.next? g = some rule.head) (nonTerminal : g.isNonTerminal rule.head)
    (found : g.rule? number = some rule) : ⟨number, 0⟩ ∈ g.itemsAt state := by
  obtain ⟨kernel, entry, same⟩ := exists_kernel member
  rw [same] at member ⊢
  exact ItemSet.closure_closed member next nonTerminal found

theorem WellFormed.body_bounds (wf : g.WellFormed) {number : Nat} {rule : Rule}
    (found : g.rule? number = some rule) : ∀ symbol ∈ rule.body, 0 < symbol ∧ symbol < g.endMark := by
  intro symbol member
  rcases List.mem_cons.mp (List.mem_of_getElem? found) with rfl | listed
  · obtain rfl := List.mem_singleton.mp member
    refine ⟨wf.start_pos, ?_⟩
    have := wf.start_le
    unfold endMark terminalCount
    omega
  · exact ⟨wf.body_pos rule listed symbol member, wf.body_lt rule listed symbol member⟩

theorem WellFormed.next_bounds (wf : g.WellFormed) {item : Item} {symbol : Nat}
    (next : item.next? g = some symbol) : 0 < symbol ∧ symbol < g.endMark := by
  obtain ⟨rule, found, place⟩ := ItemSet.next?_eq_some.mp next
  exact wf.body_bounds found symbol (List.mem_of_getElem? place)

theorem WellFormed.edge_bounds (wf : g.WellFormed) {state symbol target : Nat}
    (edge : g.target? state symbol = some target) : 0 < symbol ∧ symbol < g.endMark := by
  obtain ⟨item, -, next⟩ := (itemsAt_target edge).1
  exact wf.next_bounds next

theorem Spells.getLast? {states symbols : List Nat} (path : g.Spells states symbols) :
    states.getLast? = some 0 := by
  induction path with
  | start => rfl
  | push _ _ ih => rw [List.getLast?_cons_cons, ih]

theorem Spells.tail {state symbol : Nat} {below older : List Nat}
    (path : g.Spells (state :: below) (symbol :: older)) : g.Spells below older := by
  cases path with
  | push rest _ => exact rest

/-- The lower part of a stack spells the symbols under those of the upper part. -/
theorem Spells.lower {upper newer older below : List Nat} {state : Nat}
    (path : g.Spells (upper ++ state :: below) (newer ++ older)) (same : newer.length = upper.length) :
    g.Spells (state :: below) older := by
  induction upper generalizing newer with
  | nil =>
    obtain rfl := List.length_eq_zero_iff.mp same
    exact path
  | cons top upper ih =>
    obtain ⟨symbol, newer, rfl⟩ := List.exists_cons_of_length_eq_add_one same
    exact ih path.tail (Nat.succ.inj same)

theorem Spells.bounds (wf : g.WellFormed) {states symbols : List Nat} (path : g.Spells states symbols) :
    ∀ symbol ∈ symbols, 0 < symbol ∧ symbol < g.endMark := by
  induction path with
  | start => simp
  | push _ edge ih =>
    intro symbol member
    rcases List.mem_cons.mp member with rfl | older
    · exact wf.edge_bounds edge
    · exact ih symbol older

/-- The items after a symbol are moved past it or open another item there. -/
theorem cases_target {state symbol target : Nat} (edge : g.target? state symbol = some target)
    {item : Item} (member : item ∈ g.itemsAt target) :
    (∃ previous ∈ g.itemsAt state, previous.next? g = some symbol ∧ item = previous.advanced) ∨
      item.position = 0 ∧ ∃ parent ∈ g.itemsAt target, ∃ rule,
        g.rule? item.rule = some rule ∧ parent.next? g = some rule.head := by
  rw [(itemsAt_target edge).2] at member ⊢
  rcases ItemSet.closure_cases member with passed | opened
  · exact Or.inl (ItemSet.mem_passing.mp passed)
  · exact Or.inr opened

/-- An opening item in a state is the first one of all, or it opens the next symbol of another. -/
theorem Spells.opened {state number : Nat} {below symbols : List Nat}
    (path : g.Spells (state :: below) symbols) (member : ⟨number, 0⟩ ∈ g.itemsAt state) :
    number = 0 ∧ state = 0 ∧ below = [] ∧ symbols = [] ∨
      ∃ parent ∈ g.itemsAt state, ∃ rule, g.rule? number = some rule ∧
        parent.next? g = some rule.head := by
  cases path with
  | start =>
    rw [itemsAt_zero] at member ⊢
    rcases ItemSet.closure_cases member with first | ⟨-, opened⟩
    · rw [startKernel, SortedSet.mem_singleton] at first
      exact Or.inl ⟨congrArg Item.rule first, rfl, rfl, rfl⟩
    · exact Or.inr opened
  | push _ edge =>
    rcases cases_target edge member with ⟨previous, -, -, moved⟩ | ⟨-, opened⟩
    · exact absurd (congrArg Item.position moved) (Nat.zero_ne_add_one _)
    · exact Or.inr opened

/-- The hidden rule is open in the first state only. -/
theorem Spells.of_hidden (wf : g.WellFormed) {state : Nat} {below symbols : List Nat}
    (path : g.Spells (state :: below) symbols) (member : ⟨0, 0⟩ ∈ g.itemsAt state) :
    state = 0 ∧ below = [] ∧ symbols = [] := by
  rcases path.opened member with ⟨-, bottom⟩ | ⟨parent, -, rule, found, next⟩
  · exact bottom
  · cases Option.some.inj found
    exact absurd (wf.next_bounds next).1 (Nat.lt_irrefl 0)

theorem Spells.exists_item {state : Nat} {below symbols : List Nat}
    (path : g.Spells (state :: below) symbols) : ∃ item, item ∈ g.itemsAt state := by
  cases path with
  | start =>
    rw [itemsAt_zero]
    exact ⟨_, ItemSet.mem_closure_of_mem (SortedSet.mem_singleton.mpr rfl)⟩
  | push _ edge =>
    obtain ⟨item, member, next⟩ := (itemsAt_target edge).1
    exact ⟨item.advanced, advanced_mem_target member next edge⟩

/-- A state in which a listed rule is open goes on to another one on the head of the rule. -/
theorem Spells.exists_goto {state number : Nat} {below symbols : List Nat} {rule : Rule}
    (path : g.Spells (state :: below) symbols) (member : ⟨number, 0⟩ ∈ g.itemsAt state)
    (positive : 0 < number) (found : g.rule? number = some rule) :
    ∃ target, g.target? state rule.head = some target := by
  rcases path.opened member with ⟨zero, -⟩ | ⟨parent, inside, rule', found', next⟩
  · exact absurd zero (Nat.ne_of_gt positive)
  · cases Option.some.inj (found.symm.trans found')
    exact exists_target inside next

/-- An item of the topmost state tells what was passed last: the part of the body before the dot. Below
that the rule was open. -/
theorem Spells.of_item {state : Nat} {below symbols : List Nat}
    (path : g.Spells (state :: below) symbols) {number position : Nat}
    (member : ⟨number, position⟩ ∈ g.itemsAt state) {rule : Rule} (found : g.rule? number = some rule) :
    ∃ origin remaining, (state :: below).drop position = origin :: remaining ∧
      symbols.take position = (rule.body.take position).reverse ∧
      ⟨number, 0⟩ ∈ g.itemsAt origin ∧ g.Spells (origin :: remaining) (symbols.drop position) := by
  induction position generalizing state below symbols with
  | zero => exact ⟨state, below, rfl, by simp, member, path⟩
  | succ position ih =>
    cases path with
    | start =>
      rw [itemsAt_zero] at member
      rcases ItemSet.closure_cases member with first | ⟨start, -⟩
      · rw [startKernel, SortedSet.mem_singleton] at first
        exact absurd (congrArg Item.position first) (Nat.succ_ne_zero _)
      · exact absurd start (Nat.succ_ne_zero _)
    | @push state' below' symbols' symbol target rest edge =>
      rcases cases_target edge member with ⟨previous, inside, next, moved⟩ | ⟨start, -⟩
      · obtain ⟨number', position'⟩ := previous
        obtain ⟨rfl, same⟩ := Item.mk.inj moved
        obtain rfl := Nat.succ.inj same
        obtain ⟨rule', found', place⟩ := ItemSet.next?_eq_some.mp next
        cases Option.some.inj (found.symm.trans found')
        obtain ⟨origin, remaining, dropped, taken, opened, path'⟩ := ih rest inside
        refine ⟨origin, remaining, dropped, ?_, opened, path'⟩
        rw [List.take_succ_cons, taken, List.take_add_one, place, List.reverse_append]
        rfl
      · exact absurd start (Nat.succ_ne_zero _)

/-- The hidden rule has been passed on the start symbol alone. -/
theorem Spells.of_accepting (wf : g.WellFormed) {state : Nat} {below symbols : List Nat}
    (path : g.Spells (state :: below) symbols) (member : ⟨0, 1⟩ ∈ g.itemsAt state) :
    symbols = [g.start] := by
  have hidden : g.rule? 0 = some ⟨0, [g.start]⟩ := rfl
  obtain ⟨origin, remaining, -, taken, opened, path'⟩ := path.of_item member hidden
  obtain ⟨-, -, bottom⟩ := path'.of_hidden wf opened
  rw [← List.take_append_drop 1 symbols, taken, bottom]
  rfl

end Grammar

end ParseTables
