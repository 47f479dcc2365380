import Mathlib.Computability.EpsilonNFA
import ParseTables.Proofs.Automaton.Construction
import ParseTables.Proofs.Item.Closing

namespace ParseTables

namespace Grammar

/-- The nondeterministic automaton of the items. A dot moves past the symbol after it, and without a
symbol an item leads to the rules of the non-terminal after its dot. -/
def itemAutomaton (g : Grammar) : εNFA Nat Item where
  step
    | item, some symbol => {target | item.next? g = some symbol ∧ target = item.advanced}
    | item, none => {target | target.position = 0 ∧
        ∃ rule, g.rule? target.rule = some rule ∧ item.next? g = some rule.head}
  start := {⟨0, 0⟩}
  accept := Set.univ

variable {g : Grammar}

theorem WellFormed.head_isNonTerminal (wf : g.WellFormed) {number : Nat} {rule : Rule}
    (found : g.rule? number = some rule) : g.isNonTerminal rule.head := by
  rcases List.mem_cons.mp (List.mem_of_getElem? found) with rfl | listed
  · exact decide_eq_true (Nat.zero_le _)
  · exact decide_eq_true (wf.head_le rule listed)

/-- The closure of a set of items is what they reach without passing a symbol. -/
theorem setOf_mem_closure (wf : g.WellFormed) (items : ItemSet) :
    {item | item ∈ items.closure g} = g.itemAutomaton.εClosure {item | item ∈ items} := by
  refine Set.Subset.antisymm (fun item member => ?_) (fun item reached => ?_)
  · refine ItemSet.closure_induction (P := (· ∈ g.itemAutomaton.εClosure {item | item ∈ items}))
      (fun item inside => .base item inside) (fun parent _ reached number rule next _ found => ?_) member
    exact εNFA.εClosure.step parent ⟨number, 0⟩ ⟨rfl, rule, found, next⟩ reached
  · induction reached with
    | base item inside => exact ItemSet.mem_closure_of_mem inside
    | step parent item opens _ inside =>
      obtain ⟨number, position⟩ := item
      obtain ⟨rfl, rule, found, next⟩ := opens
      exact ItemSet.closure_closed inside next (wf.head_isNonTerminal found) found

/-- After one more symbol what is reached is the closure of what passes the symbol. -/
theorem stepSet_eq (wf : g.WellFormed) (items : ItemSet) (symbol : Nat) :
    g.itemAutomaton.stepSet {item | item ∈ items} symbol =
      {item | item ∈ (items.passing g symbol).closure g} := by
  rw [setOf_mem_closure wf]
  ext item
  rw [εNFA.mem_stepSet_iff, εNFA.mem_εClosure_iff_exists]
  constructor
  · rintro ⟨parent, member, reached⟩
    obtain ⟨target, moved, reached⟩ := g.itemAutomaton.mem_εClosure_iff_exists.mp reached
    exact ⟨target, ItemSet.mem_passing.mpr ⟨parent, member, moved⟩, reached⟩
  · rintro ⟨target, passed, reached⟩
    obtain ⟨parent, member, moved⟩ := ItemSet.mem_passing.mp passed
    exact ⟨parent, member, g.itemAutomaton.mem_εClosure_iff_exists.mpr ⟨target, moved, reached⟩⟩

/-- Along a string of symbols the automaton leads to the state with the items that are reached along it,
or nowhere if there are none. -/
theorem eval_walk (wf : g.WellFormed) (symbols : List Nat) :
    (∀ state, g.walk? symbols = some state →
      {item | item ∈ g.itemsAt state} = g.itemAutomaton.eval symbols) ∧
      (g.walk? symbols = none → g.itemAutomaton.eval symbols = ∅) := by
  induction symbols using List.reverseRecOn with
  | nil =>
    refine ⟨fun state walk => ?_, fun nowhere => absurd nowhere (Option.some_ne_none 0)⟩
    obtain rfl := Option.some.inj walk
    rw [itemsAt_zero, setOf_mem_closure wf, εNFA.eval_nil]
    simp only [startKernel, SortedSet.mem_singleton]
    rfl
  | append_singleton symbols symbol ih =>
    rw [walk?_concat, εNFA.eval_append_singleton]
    cases walk : g.walk? symbols with
    | none => exact ⟨fun state next => by simp at next, fun _ => by rw [ih.2 walk, εNFA.stepSet_empty]⟩
    | some state =>
      rw [← ih.1 state walk, stepSet_eq wf]
      refine ⟨fun target edge => by rw [(itemsAt_target edge).2], fun blocked => ?_⟩
      have none : ∀ item, item ∉ (g.itemsAt state).passing g symbol := by
        intro item passed
        obtain ⟨parent, member, next, -⟩ := ItemSet.mem_passing.mp passed
        obtain ⟨target, edge⟩ := exists_target member next
        exact absurd (blocked.symm.trans edge) (Option.some_ne_none target).symm
      refine Set.eq_empty_of_forall_notMem fun item member => ?_
      exact ItemSet.closure_induction (P := fun _ => False) none
        (fun _ _ never _ _ _ _ _ => never) member

theorem kernel_of_walk {symbols : List Nat} {state : Nat} (walk : g.walk? symbols = some state) :
    ∃ kernel, g.kernels.toList[state]? = some kernel := by
  induction symbols using List.reverseRecOn generalizing state with
  | nil =>
    obtain rfl := Option.some.inj walk
    exact ⟨startKernel, kernels_zero⟩
  | append_singleton symbols symbol ih =>
    rw [walk?_concat] at walk
    obtain ⟨previous, walk, edge⟩ := Option.bind_eq_some_iff.mp walk
    obtain ⟨kernel, entry⟩ := ih walk
    exact ⟨_, (edge_of_target entry edge).2⟩

theorem exists_state {state : Nat} {kernel : ItemSet} (entry : g.kernels.toList[state]? = some kernel) :
    ∃ found, g.automaton.states[state]? = some found ∧ found.items = g.itemsAt state := by
  refine ⟨_, getElem?_states.trans (congrArg _ entry), ?_⟩
  rw [itemsAt_eq entry]

/-- The loops over the items of a set and over the states end, with the closure and the automaton. Its
states are different sets of items, none is empty, each has one edge for a symbol at most, and each is
reached. Along a string of symbols the edges lead to the items that are reached along it, exactly if
there are any. -/
theorem automaton_subsets {pairs : List (String × String)} {designated : Option String} {g : Grammar}
    (built : Grammar.ofRules pairs designated = .ok g) :
    (∀ kernel, ∃ expanded, Relation.ReflTransGen (fun earlier later =>
      Closing.next? g earlier = some later)
      (Closing.start kernel) ⟨kernel.closure g, [], expanded⟩) ∧
    (∃ index, Relation.ReflTransGen (fun earlier later => Construction.next? g earlier = some later)
      (Construction.start g) ⟨g.automaton.states, index, []⟩) ∧
    (g.automaton.states.map LRState.items).Nodup ∧
    (∀ state ∈ g.automaton.states, (∃ item, item ∈ state.items) ∧
      state.edges.Pairwise fun edge edge' => edge.symbol < edge'.symbol) ∧
    (∀ state < g.automaton.states.length, ∃ symbols, g.walk? symbols = some state) ∧
    ∀ symbols, ((g.walk? symbols).isSome ↔ (g.itemAutomaton.eval symbols).Nonempty) ∧
      ∀ state, g.walk? symbols = some state → ∃ found, g.automaton.states[state]? = some found ∧
        {item | item ∈ found.items} = g.itemAutomaton.eval symbols := by
  have wf := wellFormed_ofRules built
  refine ⟨Closing.exists_last g, Construction.exists_run g, nodup_items, fun state member => ⟨?_, ?_⟩,
    fun _ => exists_walk, fun symbols => ?_⟩
  · obtain ⟨kernel, listed, rfl⟩ := List.mem_map.mp member
    obtain ⟨item, inside⟩ := (isKernel_of_mem listed).exists_mem
    exact ⟨item, ItemSet.mem_closure_of_mem inside⟩
  · obtain ⟨kernel, -, rfl⟩ := List.mem_map.mp member
    exact edgesAmong_ascending
  · have leads : ∀ state, g.walk? symbols = some state →
        ∃ found, g.automaton.states[state]? = some found ∧
        {item | item ∈ found.items} = g.itemAutomaton.eval symbols := by
      intro state walk
      obtain ⟨kernel, entry⟩ := kernel_of_walk walk
      obtain ⟨found, entry', items⟩ := exists_state entry
      exact ⟨found, entry', items ▸ (eval_walk wf symbols).1 state walk⟩
    refine ⟨?_, leads⟩
    cases walk : g.walk? symbols with
    | none => simp [(eval_walk wf symbols).2 walk]
    | some state =>
      obtain ⟨kernel, entry⟩ := kernel_of_walk walk
      obtain ⟨item, inside⟩ := (isKernel_of_mem (List.mem_of_getElem? entry)).exists_mem
      rw [← (eval_walk wf symbols).1 state walk, itemsAt_eq entry]
      exact iff_of_true rfl ⟨item, ItemSet.mem_closure_of_mem inside⟩

/-- Nested brackets: `S -> a S b` and `S -> e`. -/
def brackets : Grammar := ⟨"S'", #["S"], #["a", "b"], 1, [⟨1, [2, 1, 3]⟩, ⟨1, []⟩]⟩

/-- However many brackets have been opened, the same items are reached. Nothing is reached by a closed
bracket right after an opened one, since the `S` between them has to be passed. -/
theorem automaton_subsets_brackets :
    Grammar.ofRules [("S", "a S b"), ("S", "e")] none = .ok brackets ∧
      (∃ index, Relation.ReflTransGen (fun earlier later =>
        Construction.next? brackets earlier = some later)
        (Construction.start brackets) ⟨brackets.automaton.states, index, []⟩) ∧
      brackets.itemAutomaton.eval [2, 2, 2] = brackets.itemAutomaton.eval [2] ∧
      ¬ (brackets.itemAutomaton.eval [2, 3]).Nonempty := by
  have built : Grammar.ofRules [("S", "a S b"), ("S", "e")] none = .ok brackets := by cbv
  obtain ⟨-, ends, -, -, -, along⟩ := automaton_subsets built
  refine ⟨built, ends, ?_, fun reached => ?_⟩
  · have again : brackets.walk? [2, 2, 2] = some 2 ∧ brackets.walk? [2] = some 2 := by decide +kernel
    obtain ⟨found, entry, items⟩ := (along [2, 2, 2]).2 2 again.1
    obtain ⟨found', entry', items'⟩ := (along [2]).2 2 again.2
    cases Option.some.inj (entry.symm.trans entry')
    exact items.symm.trans items'
  · have somewhere := (along [2, 3]).1.mpr reached
    exact absurd somewhere (by decide +kernel)

end Grammar

end ParseTables
