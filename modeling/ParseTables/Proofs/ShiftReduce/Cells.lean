import ParseTables.Proofs.Automaton.Kernels
import ParseTables.Proofs.Lookahead.Follow
import ParseTables.Proofs.ShiftReduce.Filling

namespace ParseTables

namespace Grammar

variable {g : Grammar}

/-- The SLR(1) table with the automaton and the Follow sets of the grammar itself. -/
def slrTable (g : Grammar) : ActionTable := g.automaton.actionTable g (g.followSets g.firstSets)

/-- The reductions of a state on a terminal. -/
def reductionsOn (g : Grammar) (state terminal : Nat) : List Nat :=
  ((g.itemsAt state).reductions g).filter fun rule =>
    terminal ∈ g.reduceOn (g.followSets g.firstSets) rule

theorem mem_terminals {terminal : Nat} (isTerminal : g.isTerminal terminal) :
    ∃ column, g.terminals.idxOf? terminal = some column ∧ g.terminals[column]? = some terminal := by
  have member : terminal ∈ g.terminals := mem_terminals_iff.mpr isTerminal
  obtain ⟨column, located⟩ := Option.ne_none_iff_exists'.mp fun missing =>
    List.idxOf?_eq_none_iff.mp missing member
  obtain ⟨inside, same, -⟩ := List.idxOf?_eq_some_iff.mp located
  exact ⟨column, located, List.getElem?_eq_some_iff.mpr ⟨inside, same⟩⟩

theorem isComplete_iff {item : Item} (fits : item.Fits g) : item.isComplete g ↔
    ∃ rule, g.rule? item.rule = some rule ∧ item.position = rule.body.length := by
  obtain ⟨rule, found, inside⟩ := fits
  unfold Item.isComplete
  rw [found, Option.any_some, decide_eq_true_eq]
  constructor
  · intro complete
    exact ⟨rule, rfl, Nat.le_antisymm inside complete⟩
  · rintro ⟨rule', same, place⟩
    cases Option.some.inj same
    exact Nat.le_of_eq place.symm

/-- A rule stands complete once in a state. -/
theorem nodup_reductions {state : Nat} : ((g.itemsAt state).reductions g).Nodup := by
  refine List.Nodup.map_on (fun item member item' member' same => ?_) ((SortedSet.nodup _).filter _)
  have place : ∀ item ∈ (g.itemsAt state).toList.filter fun item =>
      item.isComplete g && !item.isAccepting g,
      ∃ rule, g.rule? item.rule = some rule ∧ item.position = rule.body.length := by
    intro item member
    obtain ⟨inside, completes⟩ := List.mem_filter.mp member
    exact (isComplete_iff (fits_itemsAt inside)).mp (Bool.and_eq_true_iff.mp completes).1
  obtain ⟨rule, found, position⟩ := place item member
  obtain ⟨rule', found', position'⟩ := place item' member'
  rw [same] at found
  obtain rfl := Option.some.inj (found.symm.trans found')
  cases item
  cases item'
  exact congr (congrArg Item.mk same) (position.trans position'.symm)

/-- Of edges with ascending symbols there is one for a symbol at most. -/
theorem filter_edges_of_ascending {edges : List Edge} {symbol : Nat}
    (ascending : edges.Pairwise fun edge edge' => edge.symbol < edge'.symbol) :
    (edges.filter fun edge => symbol = edge.symbol) =
      (edges.find? fun edge => edge.symbol = symbol).toList := by
  induction edges with
  | nil => rfl
  | cons edge rest ih =>
    obtain ⟨first, later⟩ := List.pairwise_cons.mp ascending
    by_cases here : edge.symbol = symbol
    · have others : (rest.filter fun other => symbol = other.symbol) = [] :=
        List.filter_eq_nil_iff.mpr fun other member => by
          have := first other member
          simp only [decide_eq_true_eq]
          omega
      rw [List.filter_cons_of_pos (by simp [here]), List.find?_cons_of_pos (by simp [here]), others]
      rfl
    · rw [List.filter_cons_of_neg (by simpa using Ne.symm here),
        List.find?_cons_of_neg (by simpa using here), ih later]

theorem filter_edges {found : LRState} (reached : found ∈ g.automaton.states) {symbol : Nat} :
    (found.edges.filter fun edge => symbol = edge.symbol) =
      (found.edges.find? fun edge => edge.symbol = symbol).toList := by
  obtain ⟨kernel, -, rfl⟩ := List.mem_map.mp reached
  exact filter_edges_of_ascending edgesAmong_ascending

/-- The actions in a cell: shifts before acceptance before reductions. -/
theorem actions_eq {state terminal : Nat} (isTerminal : g.isTerminal terminal) :
    g.slrTable.actions state terminal =
      (g.target? state terminal).toList.map .shift ++
        (if terminal = g.endMark ∧ (g.itemsAt state).toList.any (Item.isAccepting g) then [.accept]
          else []) ++
        (g.reductionsOn state terminal).map .reduce := by
  obtain ⟨column, located, place⟩ := mem_terminals isTerminal
  have nodup : ((g.itemsAt state).reductions g).Nodup := nodup_reductions
  unfold ActionTable.actions target? reductionsOn
  simp only [slrTable, Automaton.actionTable_eq, located, Option.bind_some, List.getElem?_map]
  unfold itemsAt at nodup ⊢
  cases found : g.automaton.states[state]? with
  | none => simp [ItemSet.reductions]
  | some reached =>
    simp only [found, Option.map_some, Option.getD_some] at nodup
    simp only [Option.map_some, Option.bind_some, List.getElem?_map, place, Option.getD_some,
      LRState.actionsOn, LRState.target?, filter_edges (List.mem_of_getElem? found)]
    rw [ActionRow.foldl_addReduction (nodup.filter _), Option.toList_map, List.map_map]
    · rfl
    · intro rule _ known
      rcases List.mem_append.mp known with shift | accept
      · simp at shift
      · split at accept <;> simp at accept

theorem actions_eq_nil {state terminal : Nat} (other : ¬ g.isTerminal terminal) :
    g.slrTable.actions state terminal = [] := by
  have missing : g.terminals.idxOf? terminal = none :=
    List.idxOf?_eq_none_iff.mpr fun member => other (mem_terminals_iff.mp member)
  unfold ActionTable.actions
  simp [slrTable, Automaton.actionTable_eq, missing]

theorem goto?_eq {state symbol : Nat} (listed : symbol ∈ g.nonTerminals) :
    g.slrTable.goto? state symbol = g.target? state symbol := by
  obtain ⟨column, located⟩ := Option.ne_none_iff_exists'.mp fun missing =>
    List.idxOf?_eq_none_iff.mp missing listed
  obtain ⟨inside, same, -⟩ := List.idxOf?_eq_some_iff.mp located
  have place : g.nonTerminals[column]? = some symbol := List.getElem?_eq_some_iff.mpr ⟨inside, same⟩
  unfold ActionTable.goto? target?
  simp only [slrTable, Automaton.actionTable_eq, located, Option.bind_some, List.getElem?_map]
  cases found : g.automaton.states[state]? with
  | none => rfl
  | some reached =>
    have last (edge? : Option Edge) : edge?.toList.getLast? = edge? := by cases edge? <;> rfl
    simp [place, LRState.targetOn, LRState.target?, filter_edges (List.mem_of_getElem? found), last]

theorem mem_reductions {state number : Nat} : number ∈ (g.itemsAt state).reductions g ↔
    0 < number ∧ ∃ rule, g.rule? number = some rule ∧ ⟨number, rule.body.length⟩ ∈ g.itemsAt state := by
  unfold ItemSet.reductions
  simp only [List.mem_map, List.mem_filter, Bool.and_eq_true, Bool.not_eq_true']
  constructor
  · rintro ⟨⟨number', position⟩, ⟨member, complete, refused⟩, rfl⟩
    obtain ⟨rule, found, place⟩ := (isComplete_iff (fits_itemsAt member)).mp complete
    simp only [Item.isAccepting, complete, Bool.and_true, beq_eq_false_iff_ne] at refused
    exact ⟨Nat.pos_of_ne_zero refused, rule, found, place ▸ member⟩
  · rintro ⟨positive, rule, found, member⟩
    have complete := (isComplete_iff (fits_itemsAt member)).mpr ⟨rule, found, rfl⟩
    refine ⟨_, ⟨member, complete, ?_⟩, rfl⟩
    simp only [Item.isAccepting, complete, Bool.and_true, beq_eq_false_iff_ne]
    exact Nat.ne_of_gt positive

theorem mem_reduceOn {number terminal : Nat} {rule : Rule} (found : g.rule? number = some rule) :
    terminal ∈ g.reduceOn (g.followSets g.firstSets) number ↔ terminal ∈ g.follow rule.head := by
  unfold reduceOn follow
  rw [found, Option.bind_some]

theorem mem_reductionsOn {state terminal number : Nat} : number ∈ g.reductionsOn state terminal ↔
    0 < number ∧ ∃ rule, g.rule? number = some rule ∧ ⟨number, rule.body.length⟩ ∈ g.itemsAt state ∧
      terminal ∈ g.follow rule.head := by
  unfold reductionsOn
  rw [List.mem_filter, mem_reductions, decide_eq_true_eq]
  constructor
  · rintro ⟨⟨positive, rule, found, member⟩, reduces⟩
    exact ⟨positive, rule, found, member, (mem_reduceOn found).mp reduces⟩
  · rintro ⟨positive, rule, found, member, follows⟩
    exact ⟨⟨positive, rule, found, member⟩, (mem_reduceOn found).mpr follows⟩

theorem any_isAccepting {state : Nat} :
    (g.itemsAt state).toList.any (Item.isAccepting g) ↔ ⟨0, 1⟩ ∈ g.itemsAt state := by
  rw [List.any_eq_true]
  constructor
  · rintro ⟨⟨number, position⟩, member, accepting⟩
    obtain ⟨hidden, complete⟩ := Bool.and_eq_true_iff.mp accepting
    obtain rfl : number = 0 := eq_of_beq hidden
    obtain ⟨rule, found, place⟩ := (isComplete_iff (fits_itemsAt member)).mp complete
    cases Option.some.inj found
    obtain rfl : position = 1 := place
    exact member
  · intro member
    exact ⟨⟨0, 1⟩, member, Bool.and_eq_true_iff.mpr
      ⟨rfl, (isComplete_iff (fits_itemsAt member)).mpr ⟨⟨0, [g.start]⟩, rfl, rfl⟩⟩⟩

theorem shift_mem_actions {state terminal target : Nat} :
    .shift target ∈ g.slrTable.actions state terminal ↔
    g.isTerminal terminal ∧ g.target? state terminal = some target := by
  by_cases isTerminal : g.isTerminal terminal
  · rw [actions_eq isTerminal]
    split <;> simp [isTerminal]
  · simp [actions_eq_nil isTerminal, isTerminal]

theorem accept_mem_actions {state terminal : Nat} : .accept ∈ g.slrTable.actions state terminal ↔
    terminal = g.endMark ∧ ⟨0, 1⟩ ∈ g.itemsAt state := by
  by_cases isTerminal : g.isTerminal terminal
  · rw [actions_eq isTerminal, ← any_isAccepting]
    split <;> simp_all
  · rw [actions_eq_nil isTerminal]
    refine ⟨fun member => absurd member List.not_mem_nil, ?_⟩
    rintro ⟨rfl, -⟩
    exact absurd endMark_isTerminal isTerminal

theorem reduce_mem_actions {state terminal number : Nat} :
    .reduce number ∈ g.slrTable.actions state terminal ↔ number ∈ g.reductionsOn state terminal := by
  by_cases isTerminal : g.isTerminal terminal
  · rw [actions_eq isTerminal]
    split <;> simp
  · rw [actions_eq_nil isTerminal]
    refine ⟨fun member => absurd member List.not_mem_nil, fun member => ?_⟩
    obtain ⟨-, rule, -, -, follows⟩ := mem_reductionsOn.mp member
    exact absurd (isTerminal_of_mem_follow follows) isTerminal

/-- Where there is an edge the parser shifts. -/
theorem head?_actions_of_target {state terminal target : Nat} (isTerminal : g.isTerminal terminal)
    (edge : g.target? state terminal = some target) :
    (g.slrTable.actions state terminal).head? = some (.shift target) := by
  rw [actions_eq isTerminal, edge]
  rfl

end Grammar

end ParseTables
