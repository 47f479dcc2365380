import Mathlib.Order.Closure
import ParseTables.Proofs.Item.Closing

namespace ParseTables

/-- Sets are ordered by inclusion. -/
instance {α : Type} [Ord α] [Std.TransOrd α] [Std.LawfulEqOrd α] : PartialOrder (SortedSet α) where
  le s t := ∀ a ∈ s, a ∈ t
  le_refl _ _ := id
  le_trans _ _ _ first second a member := second a (first a member)
  le_antisymm _ _ first second := SortedSet.ext fun a => ⟨first a, second a⟩

namespace SortedSet

variable {α : Type} [Ord α] [Std.TransOrd α] [Std.LawfulEqOrd α] {s t u : SortedSet α}

theorem union_le (left : s ≤ u) (right : t ≤ u) : s ∪ t ≤ u := by
  intro a member
  rcases mem_union.mp member with inLeft | inRight
  · exact left a inLeft
  · exact right a inRight

theorem le_union_left : s ≤ s ∪ t := fun _ member => mem_union.mpr (Or.inl member)

theorem le_union_right : t ≤ s ∪ t := fun _ member => mem_union.mpr (Or.inr member)

end SortedSet

namespace ItemSet

variable {g : Grammar} {items others : ItemSet} {symbol : Nat}

/-- The set has, with each of its items, all rules of the non-terminal after the dot, with the dot in
front. -/
def IsClosed (g : Grammar) (items : ItemSet) : Prop :=
  ∀ item ∈ items, ∀ number rule, item.nextNonTerminal? g = some rule.head → g.rule? number = some rule →
    ⟨number, 0⟩ ∈ items

theorem isClosed_closure (g : Grammar) (items : ItemSet) : (items.closure g).IsClosed g := by
  intro item member number rule next found
  obtain ⟨next, nonTerminal⟩ := nextNonTerminal?_eq_some.mp next
  exact closure_closed member next nonTerminal found

theorem closure_le (below : items ≤ others) (closed : others.IsClosed g) : items.closure g ≤ others := by
  intro item member
  refine closure_induction (P := (· ∈ others)) below
    (fun parent _ inside number rule next nonTerminal found => ?_) member
  exact closed parent inside number rule (nextNonTerminal?_eq_some.mpr ⟨next, nonTerminal⟩) found

/-- Closing a set of items. That it can be repeated without effect and keeps inclusions holds of every
closure operator. -/
def closing (g : Grammar) : ClosureOperator ItemSet :=
  .ofPred (closure g) (IsClosed g) (fun _ _ => mem_closure_of_mem) (isClosed_closure g)
    fun _ _ => closure_le

theorem IsClosed.union (closed : items.IsClosed g) (closed' : others.IsClosed g) :
    (items ∪ others).IsClosed g := by
  intro item member number rule next found
  rcases SortedSet.mem_union.mp member with inLeft | inRight
  · exact SortedSet.mem_union.mpr (Or.inl (closed item inLeft number rule next found))
  · exact SortedSet.mem_union.mpr (Or.inr (closed' item inRight number rule next found))

theorem closure_union : (items ∪ others).closure g = items.closure g ∪ others.closure g := by
  refine le_antisymm (closure_le ?_ ((isClosed_closure g items).union (isClosed_closure g others))) ?_
  · exact SortedSet.union_le (((closing g).le_closure items).trans SortedSet.le_union_left)
      (((closing g).le_closure others).trans SortedSet.le_union_right)
  · exact SortedSet.union_le ((closing g).monotone SortedSet.le_union_left)
      ((closing g).monotone SortedSet.le_union_right)

theorem passing_union :
    (items ∪ others).passing g symbol = items.passing g symbol ∪ others.passing g symbol := by
  ext item
  simp only [SortedSet.mem_union, mem_passing, or_and_right, exists_or]

theorem goto_union : (items ∪ others).goto g symbol = items.goto g symbol ∪ others.goto g symbol := by
  rw [goto, passing_union, closure_union]
  rfl

/-- Nothing is closed to nothing, so only a symbol after a dot leads anywhere. -/
theorem goto_eq_empty_iff : items.goto g symbol = ∅ ↔ ∀ item ∈ items, item.next? g ≠ some symbol := by
  constructor
  · intro none item member next
    have moved : item.advanced ∈ items.goto g symbol :=
      mem_closure_of_mem (mem_passing.mpr ⟨item, member, next, rfl⟩)
    rw [none] at moved
    exact SortedSet.not_mem_empty moved
  · intro blocked
    have still : ∀ item, item ∉ items.passing g symbol := by
      intro item passed
      obtain ⟨previous, member, next, -⟩ := mem_passing.mp passed
      exact blocked previous member next
    have least : items.goto g symbol ≤ ∅ :=
      closure_le (fun item passed => absurd passed (still item)) fun item none =>
        absurd none SortedSet.not_mem_empty
    exact SortedSet.ext fun item => ⟨least item, fun none => absurd none SortedSet.not_mem_empty⟩

theorem allDefined_iff : items.allDefined g ↔ ∀ item ∈ items, ∃ rule, g.rule? item.rule = some rule := by
  simp only [allDefined, List.all_eq_true, Option.isSome_iff_exists, SortedSet.mem_toList]

theorem allDefined_union (defined : items.allDefined g) (defined' : others.allDefined g) :
    (items ∪ others).allDefined g := by
  rw [allDefined_iff] at *
  intro item member
  rcases SortedSet.mem_union.mp member with inLeft | inRight
  · exact defined item inLeft
  · exact defined' item inRight

theorem allDefined_closure (defined : items.allDefined g) : (items.closure g).allDefined g := by
  rw [allDefined_iff] at *
  intro item member
  rcases mem_closure.mp member with old | ⟨-, rule, found, -⟩
  · exact defined item old
  · exact ⟨rule, found⟩

/-- Of items whose rules are all defined the loop over them ends with the closure, the least closed set
around them. Closing it again adds nothing, larger sets have larger closures, and the closure of a union,
like the set reached from it by a symbol, is the union of those of its parts. A symbol leads to nothing
exactly if it stands after no dot. -/
theorem closure_isLeast (defined : items.allDefined g) (defined' : others.allDefined g) (symbol : Nat) :
    (∃ expanded, Relation.ReflTransGen (fun earlier later => Closing.next? g earlier = some later)
      (Closing.start items) ⟨items.closure g, [], expanded⟩) ∧
    items.closure? g = some (items.closure g) ∧
    IsLeast {closed | items ≤ closed ∧ closed.IsClosed g} (items.closure g) ∧
    (items.closure g).closure? g = some (items.closure g) ∧
    (items ≤ others → items.closure g ≤ others.closure g) ∧
    (items ∪ others).closure? g = some (items.closure g ∪ others.closure g) ∧
    items.goto? g symbol = some (items.goto g symbol) ∧
    (items ∪ others).goto? g symbol = some (items.goto g symbol ∪ others.goto g symbol) ∧
    (items.goto g symbol = ∅ ↔ ∀ item ∈ items, item.next? g ≠ some symbol) := by
  have union := allDefined_union defined defined'
  refine ⟨Closing.exists_last g items, if_pos defined, ⟨?_, ?_⟩, ?_,
    fun below => (closing g).monotone below, ?_,
    if_pos defined, ?_, goto_eq_empty_iff⟩
  · exact ⟨(closing g).le_closure items, isClosed_closure g items⟩
  · exact fun closed ⟨below, isClosed⟩ => closure_le below isClosed
  · rw [closure?, if_pos (allDefined_closure defined)]
    exact congrArg some ((closing g).idempotent items)
  · rw [closure?, if_pos union, closure_union]
  · rw [goto?, if_pos union, goto_union]

/-- Two non-terminals that begin each other's bodies: `S -> A x` and `S -> a`, `A -> S y` and `A ->
e`. -/
def intertwined : Grammar :=
  ⟨"S'", #["S", "A"], #["x", "a", "y"], 1, [⟨1, [2, 3]⟩, ⟨1, [4]⟩, ⟨2, [1, 5]⟩, ⟨2, []⟩]⟩

/-- Where either non-terminal is after a dot, all rules are opened, and each once, though some were there
before. A dot beyond the end of a body opens nothing. -/
theorem closure_isLeast_intertwined :
    Grammar.ofRules [("S", "A x"), ("S", "a"), ("A", "S y"), ("A", "e")] none = .ok intertwined ∧
      (closure? intertwined (SortedSet.ofList [⟨3, 0⟩, ⟨1, 0⟩] ∪ SortedSet.ofList [⟨2, 7⟩])).map
        SortedSet.toList =
        some [⟨1, 0⟩, ⟨2, 0⟩, ⟨2, 7⟩, ⟨3, 0⟩, ⟨4, 0⟩] := by
  obtain ⟨-, -, -, -, -, union, -⟩ := @closure_isLeast intertwined (SortedSet.ofList [⟨3, 0⟩, ⟨1, 0⟩])
    (SortedSet.ofList [⟨2, 7⟩]) (by decide +kernel) (by decide +kernel) 0
  refine ⟨by cbv, ?_⟩
  rw [union]
  decide +kernel

end ItemSet

end ParseTables
