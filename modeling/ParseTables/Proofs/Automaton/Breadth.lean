import Mathlib.Data.Prod.Lex
import ParseTables.Proofs.Automaton.Construction

namespace ParseTables

/-- The pairs of a state and a symbol from which an edge leads to a state. They are ordered by their
states, and those of one state by their symbols. -/
def Automaton.entries (automaton : Automaton) (state : Nat) : Set (Nat ×ₗ Nat) :=
  {pair | ∃ source, automaton.states[(ofLex pair).1]? = some source ∧
    ⟨(ofLex pair).2, state⟩ ∈ source.edges}

namespace Grammar

open Construction (addPassing)

/-- From a kernel that has been found, given by its number, a symbol leads to a kernel. -/
def Enters (g : Grammar) (found : Numbering ItemSet) (kernel : ItemSet) (pair : Nat ×ₗ Nat) : Prop :=
  ∃ source, found.toList[(ofLex pair).1]? = some source ∧
    (ofLex pair).2 ∈ (source.closure g).transitions g ∧
      (source.closure g).passing g (ofLex pair).2 = kernel

/-- What the search has done when it has tried all pairs below a bound. -/
structure Discovered (g : Grammar) (bound : Nat ×ₗ Nat) (found : Numbering ItemSet)
    (entry : Nat → Nat ×ₗ Nat) :
    Prop where
  /-- Wherever a tried pair leads has been found. -/
  tried : ∀ pair < bound, ∀ kernel, g.Enters found kernel pair → kernel ∈ found.toList
  /-- Each kernel but the first has been found by the least pair that leads to it. -/
  least : ∀ state kernel, 0 < state → found.toList[state]? = some kernel →
    IsLeast {pair | g.Enters found kernel pair} (entry state)
  /-- This pair has been tried, and the kernel it leaves was found before. -/
  below : ∀ state, 0 < state → state < found.toList.length →
    entry state < bound ∧ (ofLex (entry state)).1 < state
  ascending : ∀ state state', 0 < state → state < state' → state' < found.toList.length →
    entry state < entry state'

variable {g : Grammar} {found found' : Numbering ItemSet} {bound : Nat ×ₗ Nat} {entry : Nat → Nat ×ₗ Nat}
  {kernel : ItemSet}

theorem Enters.inside {pair : Nat ×ₗ Nat} (enters : g.Enters found kernel pair) :
    (ofLex pair).1 < found.toList.length := by
  obtain ⟨source, here, -⟩ := enters
  exact (List.getElem?_eq_some_iff.mp here).1

theorem Enters.of_source {source : ItemSet} {place : Nat} (here : found.toList[place]? = some source)
    {pair : Nat ×ₗ Nat} (enters : g.Enters found kernel pair) (leaves : (ofLex pair).1 = place) :
    (ofLex pair).2 ∈ (source.closure g).transitions g ∧
      (source.closure g).passing g (ofLex pair).2 = kernel := by
  obtain ⟨source', here', moves, passed⟩ := enters
  rw [leaves, here] at here'
  cases here'
  exact ⟨moves, passed⟩

theorem enters_iff_of_extended (kept : found.toList <+: found'.toList) {pair : Nat ×ₗ Nat}
    (inside : (ofLex pair).1 < found.toList.length) :
    g.Enters found' kernel pair ↔ g.Enters found kernel pair := by
  have same : found'.toList[(ofLex pair).1]? = found.toList[(ofLex pair).1]? := by
    rw [List.prefix_iff_getElem?.mp kept _ inside, List.getElem?_eq_getElem inside]
  rw [Enters, Enters, same]

/-- Kernels that are found later have greater numbers, so no lesser pair leads to a kernel because of
them. -/
theorem isLeast_of_extended (kept : found.toList <+: found'.toList) {pair : Nat ×ₗ Nat}
    (least : IsLeast {other | g.Enters found kernel other} pair) :
    IsLeast {other | g.Enters found' kernel other} pair := by
  have inside := least.1.inside
  refine ⟨(enters_iff_of_extended kept inside).mpr least.1, fun other enters => ?_⟩
  by_cases early : (ofLex other).1 < found.toList.length
  · exact least.2 ((enters_iff_of_extended kept early).mp enters)
  · exact Prod.Lex.le_iff.mpr (Or.inl (by omega))

theorem lt_toLex_iff {pair : Nat ×ₗ Nat} {place symbol : Nat} : pair < toLex (place, symbol) ↔
    (ofLex pair).1 < place ∨ (ofLex pair).1 = place ∧ (ofLex pair).2 < symbol := Prod.Lex.lt_iff

namespace Discovered

/-- The bound can be raised over pairs that lead nowhere. -/
theorem raise (before : g.Discovered bound found entry) {bound' : Nat ×ₗ Nat} (higher : bound ≤ bound')
    (idle : ∀ pair < bound', ∀ kernel, g.Enters found kernel pair → pair < bound) :
    g.Discovered bound' found entry where
  tried pair low kernel enters := before.tried pair (idle pair low kernel enters) kernel enters
  least := before.least
  below state positive inside :=
    ⟨(before.below state positive inside).1.trans_le higher, (before.below state positive inside).2⟩
  ascending := before.ascending

section Visit

variable {place symbol : Nat} {source : ItemSet}
    (before : g.Discovered (toLex (place, symbol)) found entry)
  (here : found.toList[place]? = some source)
include before here

theorem tried_addPassing : ∀ pair < toLex (place, symbol + 1), ∀ kernel,
    g.Enters (addPassing g (source.closure g) found symbol) kernel pair →
    kernel ∈ (addPassing g (source.closure g) found symbol).toList := by
  intro pair low kernel enters
  have inside := (List.getElem?_eq_some_iff.mp here).1
  have kept : found.toList <+: (addPassing g (source.closure g) found symbol).toList :=
    found.prefix_add _
  rw [lt_toLex_iff] at low
  rw [enters_iff_of_extended kept (by omega)] at enters
  refine Numbering.mem_add.mpr ?_
  by_cases earlier : pair < toLex (place, symbol)
  · exact Or.inl (before.tried pair earlier kernel enters)
  · have same : (ofLex pair).1 = place ∧ (ofLex pair).2 = symbol := by
      rw [lt_toLex_iff] at earlier
      omega
    exact Or.inr (same.2 ▸ (enters.of_source here same.1).2.symm)

/-- The least pair that leads to a kernel that has not been found before is the one that is tried. -/
theorem isLeast_new (moves : symbol ∈ (source.closure g).transitions g)
    (new : found.number? ((source.closure g).passing g symbol) = none) :
    IsLeast {pair | g.Enters (addPassing g (source.closure g) found symbol)
      ((source.closure g).passing g symbol) pair}
      (toLex (place, symbol)) := by
  have inside := (List.getElem?_eq_some_iff.mp here).1
  have kept : found.toList <+: (addPassing g (source.closure g) found symbol).toList :=
    found.prefix_add _
  have enters : g.Enters found ((source.closure g).passing g symbol) (toLex (place, symbol)) :=
    ⟨source, here, moves, rfl⟩
  refine ⟨(enters_iff_of_extended kept enters.inside).mpr enters, fun pair enters => ?_⟩
  -- a lesser pair has been tried, so that the kernel would not be new
  by_contra lesser
  have low : pair < toLex (place, symbol) := not_le.mp lesser
  have early := lt_toLex_iff.mp low
  rw [Set.mem_ofPred_eq, enters_iff_of_extended kept (by omega)] at enters
  exact Numbering.number?_eq_none_iff.mp new (before.tried pair low _ enters)

/-- A kernel that has not been found before gets the next number. -/
theorem visit_new (moves : symbol ∈ (source.closure g).transitions g)
    (new : found.number? ((source.closure g).passing g symbol) = none) :
    g.Discovered (toLex (place, symbol + 1)) (addPassing g (source.closure g) found symbol)
      (Function.update entry found.toList.length (toLex (place, symbol))) := by
  have inside := (List.getElem?_eq_some_iff.mp here).1
  have kept : found.toList <+: (addPassing g (source.closure g) found symbol).toList :=
    found.prefix_add _
  have grown : (addPassing g (source.closure g) found symbol).toList =
      found.toList ++ [(source.closure g).passing g symbol] := Numbering.toList_add_new new
  have count : (addPassing g (source.closure g) found symbol).toList.length =
      found.toList.length + 1 := by
    rw [grown, List.length_append, List.length_singleton]
  refine ⟨before.tried_addPassing here, fun state kernel positive listed => ?_,
    fun state positive early => ?_, fun state state' positive less early => ?_⟩
  · rcases Nat.lt_or_ge state found.toList.length with old | last
    · rw [grown, List.getElem?_append_left old] at listed
      rw [Function.update_of_ne (Nat.ne_of_lt old)]
      exact isLeast_of_extended kept (before.least state kernel positive listed)
    · obtain rfl : state = found.toList.length := by
        have := (List.getElem?_eq_some_iff.mp listed).1
        omega
      obtain rfl : (source.closure g).passing g symbol = kernel := by simpa [grown] using listed
      rw [Function.update_self]
      exact before.isLeast_new here moves new
  · rcases Nat.lt_or_ge state found.toList.length with old | last
    · obtain ⟨low, older⟩ := before.below state positive old
      rw [Function.update_of_ne (Nat.ne_of_lt old)]
      exact ⟨low.trans (lt_toLex_iff.mpr (Or.inr ⟨rfl, Nat.lt_succ_self symbol⟩)), older⟩
    · obtain rfl : state = found.toList.length := by omega
      rw [Function.update_self]
      exact ⟨lt_toLex_iff.mpr (Or.inr ⟨rfl, Nat.lt_succ_self symbol⟩), inside⟩
  · rw [Function.update_of_ne (by omega : state ≠ found.toList.length)]
    rcases Nat.lt_or_ge state' found.toList.length with old | last
    · rw [Function.update_of_ne (Nat.ne_of_lt old)]
      exact before.ascending state state' positive less old
    · obtain rfl : state' = found.toList.length := by omega
      rw [Function.update_self]
      exact (before.below state positive less).1

theorem visit (moves : symbol ∈ (source.closure g).transitions g) :
    ∃ entry', g.Discovered (toLex (place, symbol + 1))
      (addPassing g (source.closure g) found symbol) entry' := by
  cases known : found.number? ((source.closure g).passing g symbol) with
  | none => exact ⟨_, before.visit_new here moves known⟩
  | some number =>
    have same : addPassing g (source.closure g) found symbol = found := Numbering.add_of_number? known
    have tried := before.tried_addPassing here
    rw [same] at tried ⊢
    refine ⟨entry, tried, before.least, fun state positive early => ?_, before.ascending⟩
    obtain ⟨low, older⟩ := before.below state positive early
    exact ⟨low.trans (lt_toLex_iff.mpr (Or.inr ⟨rfl, Nat.lt_succ_self symbol⟩)), older⟩

end Visit

/-- When all symbols from a bound on have been tried in ascending order, the next kernel is taken up. -/
theorem foldl_visit {place : Nat} {source : ItemSet} (symbols : List Nat) {low : Nat}
    (before : g.Discovered (toLex (place, low)) found entry) (here : found.toList[place]? = some source)
    (ascending : symbols.Pairwise (· < ·))
    (left : ∀ symbol, symbol ∈ symbols ↔ symbol ∈ (source.closure g).transitions g ∧ low ≤ symbol) :
    ∃ entry', g.Discovered (toLex (place + 1, 0))
      (symbols.foldl (addPassing g (source.closure g)) found) entry' := by
  induction symbols generalizing found entry low with
  | nil =>
    refine ⟨entry, before.raise (lt_toLex_iff.mpr (Or.inl (Nat.lt_succ_self place))).le
      fun pair under kernel enters => lt_toLex_iff.mpr ?_⟩
    rcases lt_toLex_iff.mp under with earlier | ⟨-, none⟩
    · refine (Nat.lt_succ_iff_lt_or_eq.mp earlier).imp_right fun leaves => ⟨leaves, ?_⟩
      by_contra beyond
      exact List.not_mem_nil ((left _).mpr ⟨(enters.of_source here leaves).1, not_lt.mp beyond⟩)
    · exact absurd none (Nat.not_lt_zero _)
  | cons symbol rest ih =>
    obtain ⟨least, later⟩ := List.pairwise_cons.mp ascending
    obtain ⟨moves, above⟩ := (left symbol).mp List.mem_cons_self
    have next : g.Discovered (toLex (place, symbol)) found entry := by
      refine before.raise (Prod.Lex.toLex_le_toLex.mpr (Or.inr ⟨rfl, above⟩))
        fun pair under kernel enters => lt_toLex_iff.mpr ?_
      refine (lt_toLex_iff.mp under).imp_right fun ⟨leaves, less⟩ => ⟨leaves, ?_⟩
      by_contra beyond
      rcases List.mem_cons.mp ((left _).mpr ⟨(enters.of_source here leaves).1, not_lt.mp beyond⟩)
        with same | inRest
      · exact Nat.ne_of_lt less same
      · exact Nat.lt_asymm less (least _ inRest)
    obtain ⟨entry', visited⟩ := next.visit here moves
    have kept : found.toList <+: (addPassing g (source.closure g) found symbol).toList :=
      found.prefix_add _
    have here' := Construction.getElem?_of_prefix kept here
    refine ih visited here' later fun other => ?_
    constructor
    · intro inRest
      exact ⟨((left other).mp (List.mem_cons_of_mem _ inRest)).1, least other inRest⟩
    · rintro ⟨moves', beyond⟩
      rcases List.mem_cons.mp ((left other).mpr ⟨moves', Nat.le_trans above (Nat.le_of_succ_le beyond)⟩)
        with same | inRest
      · exact absurd same (Nat.ne_of_gt beyond)
      · exact inRest

theorem visitAll {place : Nat} {source : ItemSet} (before : g.Discovered (toLex (place, 0)) found entry)
    (here : found.toList[place]? = some source) :
    ∃ entry', g.Discovered (toLex (place + 1, 0)) (g.visitAll found (source.closure g)) entry' := by
  rw [Construction.visitAll_eq]
  refine before.foldl_visit _ here
    (((source.closure g).transitions g).ascending.imp Nat.compare_eq_lt.mp) fun symbol => ?_
  rw [SortedSet.mem_toList]
  exact (and_iff_left (Nat.zero_le symbol)).symm

theorem search (limit : Nat) {place : Nat} (before : g.Discovered (toLex (place, 0)) found entry) :
    ∃ bound entry', g.Discovered bound (g.search limit place found) entry' := by
  fun_induction Grammar.search g limit place found generalizing entry with
  | case1 => exact ⟨_, entry, before⟩
  | case2 => exact ⟨_, entry, before⟩
  | case3 limit place found source here ih =>
    rw [Numbering.entry?_eq] at here
    obtain ⟨entry', after⟩ := before.visitAll here
    exact ih after

/-- Nothing has been tried at first, and only the first kernel has been found. -/
theorem start (entry : Nat → Nat ×ₗ Nat) :
    g.Discovered (toLex (0, 0)) (Numbering.empty.add startKernel) entry := by
  have only : (Numbering.empty.add startKernel).toList.length = 1 :=
    congrArg List.length toList_startKernel
  refine ⟨fun pair low => ?_, fun state kernel positive listed => ?_, fun state positive inside => ?_,
    fun state state' positive less inside => ?_⟩
  · rw [lt_toLex_iff] at low
    omega
  · have inside := (List.getElem?_eq_some_iff.mp listed).1
    omega
  · omega
  · omega

end Discovered

theorem exists_discovered (g : Grammar) : ∃ bound entry, g.Discovered bound g.kernels entry :=
  (Discovered.start fun _ => toLex (0, 0)).search (1 <<< g.itemCount)

/-- The edges to a state are the pairs that lead to its kernel. -/
theorem mem_entries_iff {state : Nat} (here : g.kernels.toList[state]? = some kernel)
    {pair : Nat ×ₗ Nat} : pair ∈ g.automaton.entries state ↔ g.Enters g.kernels kernel pair := by
  have numbered : ∀ other, g.kernels.number? other = some state ↔ other = kernel := fun other => by
    rw [Numbering.number?_eq_some_iff kernels_spec.2.distinct, here, Option.some.injEq, eq_comm]
  simp only [Automaton.entries, Set.mem_ofPred_eq, getElem?_states, Option.map_eq_some_iff]
  constructor
  · rintro ⟨_, ⟨source, leaves, rfl⟩, edge⟩
    obtain ⟨moves, target⟩ := mem_edgesAmong.mp edge
    exact ⟨source, leaves, moves, (numbered _).mp target⟩
  · rintro ⟨source, leaves, moves, passed⟩
    exact ⟨_, ⟨source, leaves, rfl⟩, mem_edgesAmong.mpr ⟨moves, (numbered _).mpr passed⟩⟩

/-- The states are numbered breadth first: each state but the first is entered from a state with a lesser
number, and the least pairs of a state and a symbol that lead to the states ascend with their numbers. -/
theorem states_breadthFirst (g : Grammar) : ∃ entry : Nat → Nat ×ₗ Nat,
    (∀ state, 0 < state → state < g.automaton.states.length →
      IsLeast (g.automaton.entries state) (entry state) ∧ (ofLex (entry state)).1 < state) ∧
    ∀ state state', 0 < state → state < state' → state' < g.automaton.states.length →
      entry state < entry state' := by
  obtain ⟨bound, entry, discovered⟩ := exists_discovered g
  have count : g.automaton.states.length = g.kernels.toList.length := List.length_map _
  rw [count]
  refine ⟨entry, fun state positive inside => ⟨?_, (discovered.below state positive inside).2⟩,
    discovered.ascending⟩
  have here := List.getElem?_eq_getElem inside
  have same : g.automaton.entries state = {pair | g.Enters g.kernels g.kernels.toList[state] pair} :=
    Set.ext fun pair => mem_entries_iff here
  rw [same]
  exact discovered.least state _ positive here

/-- The third state of `S -> S S`, `S -> a` is entered from all others, and the fourth from the second
and from itself. -/
example :
    (Grammar.automaton ⟨"S'", #["S"], #["a"], 1, [⟨1, [1, 1]⟩, ⟨1, [2]⟩]⟩).states.map LRState.edges =
    [[⟨1, 1⟩, ⟨2, 2⟩], [⟨1, 3⟩, ⟨2, 2⟩], [], [⟨1, 3⟩, ⟨2, 2⟩]] := by
  decide +kernel

end Grammar

end ParseTables
