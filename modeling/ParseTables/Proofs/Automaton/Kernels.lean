import ParseTables.Proofs.Automaton.Paths

namespace ParseTables

namespace Grammar

/-- Follows the edges from the first state along a string of symbols. -/
def walk? (g : Grammar) (symbols : List Nat) : Option Nat := symbols.foldlM g.target? 0

/-- The kernel of the first state, or items whose dots have passed a symbol. -/
def IsKernel (kernel : ItemSet) : Prop :=
  kernel = startKernel ∨ (∃ item, item ∈ kernel) ∧ ∀ item ∈ kernel, 0 < item.position

variable {g : Grammar}

/-- What holds of kernels and goes on to what passes their symbols holds of all that the search finds. -/
theorem search_induction {P : ItemSet → Prop}
    (moved : ∀ kernel, P kernel →
      ∀ symbol ∈ (kernel.closure g).transitions g, P ((kernel.closure g).passing g symbol))
    (limit : Nat) {place : Nat} {found : Numbering ItemSet}
    (before : ∀ kernel ∈ found.toList, P kernel) :
    ∀ kernel ∈ (g.search limit place found).toList, P kernel := by
  fun_induction Grammar.search g limit place found with
  | case1 => exact before
  | case2 => exact before
  | case3 limit place found kernel entry ih =>
    rw [Numbering.entry?_eq] at entry
    refine ih fun kernel' member => ?_
    rcases mem_visitAll.mp member with old | ⟨symbol, moves, rfl⟩
    · exact before kernel' old
    · exact moved kernel (before kernel (List.mem_of_getElem? entry)) symbol moves

theorem kernels_induction {P : ItemSet → Prop} (start : P startKernel)
    (moved : ∀ kernel, P kernel → ∀ symbol ∈ (kernel.closure g).transitions g,
      P ((kernel.closure g).passing g symbol)) : ∀ kernel ∈ g.kernels.toList, P kernel := by
  refine search_induction moved _ fun kernel member => ?_
  rw [toList_startKernel] at member
  exact List.mem_singleton.mp member ▸ start

theorem isKernel_passing {items : ItemSet} {symbol : Nat} (moves : symbol ∈ items.transitions g) :
    IsKernel (items.passing g symbol) := by
  obtain ⟨item, member, next⟩ := ItemSet.mem_transitions.mp moves
  refine Or.inr
    ⟨⟨item.advanced, ItemSet.mem_passing.mpr ⟨item, member, next, rfl⟩⟩, fun moved inside => ?_⟩
  obtain ⟨previous, -, -, rfl⟩ := ItemSet.mem_passing.mp inside
  exact Nat.succ_pos _

theorem isKernel_of_mem {kernel : ItemSet} (member : kernel ∈ g.kernels.toList) : IsKernel kernel :=
  kernels_induction (P := IsKernel) (Or.inl rfl)
    (fun _ _ _ moves => isKernel_passing moves) kernel member

/-- The items of a kernel are those of its closure whose dot is not in front. If there is none, it is the
first kernel. -/
theorem IsKernel.mem_iff {kernel : ItemSet} (isKernel : IsKernel kernel) {item : Item} :
    item ∈ kernel ↔ item ∈ kernel.closure g ∧
      (0 < item.position ∨ item = ⟨0, 0⟩ ∧ ∀ other ∈ kernel.closure g, other.position = 0) := by
  rcases isKernel with rfl | ⟨⟨first, inside⟩, moved⟩
  · have opening : ∀ other ∈ startKernel.closure g, other.position = 0 := by
      intro other member
      rcases ItemSet.closure_cases member with start | ⟨zero, -⟩
      · rw [SortedSet.mem_singleton.mp start]
      · exact zero
    constructor
    · intro member
      have only : item = ⟨0, 0⟩ := SortedSet.mem_singleton.mp member
      exact ⟨ItemSet.mem_closure_of_mem member, Or.inr ⟨only, opening⟩⟩
    · rintro ⟨member, positive | ⟨only, -⟩⟩
      · have zero := opening item member
        omega
      · exact SortedSet.mem_singleton.mpr only
  · constructor
    · intro member
      exact ⟨ItemSet.mem_closure_of_mem member, Or.inl (moved item member)⟩
    · rintro ⟨member, positive | ⟨-, opening⟩⟩
      · rcases ItemSet.closure_cases member with old | ⟨zero, -⟩
        · exact old
        · omega
      · have zero := opening first (ItemSet.mem_closure_of_mem inside)
        have positive := moved first inside
        omega

/-- A kernel can be told from its closure. -/
theorem IsKernel.eq_of_closure_eq {kernel kernel' : ItemSet} (isKernel : IsKernel kernel)
    (isKernel' : IsKernel kernel') (same : kernel.closure g = kernel'.closure g) : kernel = kernel' := by
  refine SortedSet.ext fun item => ?_
  rw [isKernel.mem_iff (g := g), isKernel'.mem_iff (g := g), same]

theorem IsKernel.exists_mem {kernel : ItemSet} (isKernel : IsKernel kernel) : ∃ item, item ∈ kernel := by
  rcases isKernel with rfl | ⟨some, -⟩
  · exact ⟨⟨0, 0⟩, SortedSet.mem_singleton.mpr rfl⟩
  · exact some

/-- Different states have different sets of items. -/
theorem nodup_items : (g.automaton.states.map LRState.items).Nodup := by
  have items : g.automaton.states.map LRState.items = g.kernels.toList.map (·.closure g) := List.map_map
  rw [items]
  refine List.Nodup.map_on (fun kernel member kernel' member' same => ?_) kernels_spec.2.distinct
  exact (isKernel_of_mem member).eq_of_closure_eq (isKernel_of_mem member') same

theorem edgesAmong_eq {kernels : Numbering ItemSet} {items : ItemSet} : g.edgesAmong kernels items =
    (items.transitions g).toList.filterMap fun symbol =>
      (kernels.number? (items.passing g symbol)).map (⟨symbol, ·⟩) := by
  rw [edgesAmong, ItemSet.successors_eq, List.filterMap_map]
  rfl

/-- The edges of a state ascend by their symbols, so there is one for a symbol at most. -/
theorem edgesAmong_ascending {kernels : Numbering ItemSet} {items : ItemSet} :
    (g.edgesAmong kernels items).Pairwise fun edge edge' => edge.symbol < edge'.symbol := by
  rw [edgesAmong_eq]
  refine List.Pairwise.filterMap _ (fun symbol symbol' below edge made edge' made' => ?_)
    (items.transitions g).ascending
  obtain ⟨target, -, rfl⟩ := Option.map_eq_some_iff.mp made
  obtain ⟨target', -, rfl⟩ := Option.map_eq_some_iff.mp made'
  exact Nat.compare_eq_lt.mp below

theorem walk?_concat {symbols : List Nat} {symbol : Nat} :
    g.walk? (symbols ++ [symbol]) = (g.walk? symbols).bind fun state => g.target? state symbol := by
  unfold walk?
  rw [List.foldlM_append]
  exact congrArg (Option.bind _) (funext fun state => by simp)

/-- Each state is reached along some string of symbols. -/
theorem exists_walk {state : Nat} (inside : state < g.automaton.states.length) :
    ∃ symbols, g.walk? symbols = some state := by
  have reached : ∀ kernel ∈ g.kernels.toList, ∃ symbols state,
      g.walk? symbols = some state ∧ g.kernels.toList[state]? = some kernel := by
    refine kernels_induction ⟨[], 0, rfl, kernels_zero⟩ fun kernel before symbol moves => ?_
    obtain ⟨symbols, state, walk, entry⟩ := before
    obtain ⟨item, member, next⟩ := ItemSet.mem_transitions.mp moves
    obtain ⟨target, edge⟩ := exists_target (itemsAt_eq entry ▸ member) next
    refine ⟨symbols ++ [symbol], target, ?_, (edge_of_target entry edge).2⟩
    rw [walk?_concat, walk]
    exact edge
  have few : state < g.kernels.toList.length := by
    rwa [automaton, List.length_map] at inside
  obtain ⟨symbols, other, walk, entry⟩ := reached _ (List.getElem_mem few)
  obtain ⟨inside', same⟩ := List.getElem?_eq_some_iff.mp entry
  have equal : other = state := (List.Nodup.getElem_inj_iff kernels_spec.2.distinct).mp same
  exact ⟨symbols, equal ▸ walk⟩

end Grammar

end ParseTables
