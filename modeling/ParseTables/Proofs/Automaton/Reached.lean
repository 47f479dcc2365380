import Mathlib.Data.Set.Card
import ParseTables.Proofs.Automaton.Subsets

namespace ParseTables.Grammar

/-- The nonempty sets of items that are reached along strings of symbols. -/
def reachedSets (g : Grammar) : Set (Set Item) :=
  {items | items.Nonempty ∧ ∃ symbols, g.itemAutomaton.eval symbols = items}

variable {g : Grammar}

/-- As sets of items the states are just the nonempty sets that are reached along strings. -/
theorem mem_reachedSets_iff (wf : g.WellFormed) {items : Set Item} : items ∈ g.reachedSets ↔
    ∃ state ∈ g.automaton.states, {item | item ∈ state.items} = items := by
  constructor
  · rintro ⟨nonempty, symbols, rfl⟩
    cases walk : g.walk? symbols with
    | none => exact absurd nonempty (by rw [(eval_walk wf symbols).2 walk]; exact Set.not_nonempty_empty)
    | some state =>
      obtain ⟨kernel, entry⟩ := kernel_of_walk walk
      obtain ⟨found, entry', same⟩ := exists_state entry
      exact ⟨found, List.mem_of_getElem? entry', same ▸ (eval_walk wf symbols).1 state walk⟩
  · rintro ⟨found, member, rfl⟩
    obtain ⟨state, inside, rfl⟩ := List.getElem_of_mem member
    obtain ⟨symbols, walk⟩ := exists_walk inside
    obtain ⟨kernel, entry⟩ := kernel_of_walk walk
    obtain ⟨found, entry', same⟩ := exists_state entry
    obtain rfl := Option.some.inj ((List.getElem?_eq_getElem inside).symm.trans entry')
    obtain ⟨item, inKernel⟩ := (isKernel_of_mem (List.mem_of_getElem? entry)).exists_mem
    refine ⟨⟨item, ?_⟩, symbols, ?_⟩
    · rw [same, itemsAt_eq entry]
      exact ItemSet.mem_closure_of_mem inKernel
    · rw [same]
      exact ((eval_walk wf symbols).1 state walk).symm

/-- There are as many states as sets reached along strings. -/
theorem length_states (wf : g.WellFormed) : g.automaton.states.length = g.reachedSets.ncard := by
  classical
  have members : Function.Injective fun items : ItemSet => {item | item ∈ items} :=
    fun items items' same => SortedSet.ext fun item => Set.ext_iff.mp same item
  have distinct :
      ((g.automaton.states.map LRState.items).map fun items => {item | item ∈ items}).Nodup :=
    nodup_items.map members
  have reached : g.reachedSets =
      ((g.automaton.states.map LRState.items).map fun items => {item | item ∈ items}).toFinset := by
    ext items
    rw [mem_reachedSets_iff wf]
    simp
  rw [reached, Set.ncard_coe_finset, List.toFinset_card_of_nodup distinct, List.length_map,
    List.length_map]

end ParseTables.Grammar
