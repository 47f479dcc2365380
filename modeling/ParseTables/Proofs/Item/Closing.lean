import ParseTables.Proofs.Item.Closure
import ParseTables.Proofs.Lookahead.Saturation

namespace ParseTables

/-- The items so far, those that have yet to be taken up, and the non-terminals whose rules have been
added. -/
structure Closing where
  items : ItemSet
  pending : List Item
  expanded : SortedSet Nat

namespace Closing

/-- All items of the set are to be taken up, the last one first. -/
def start (kernel : ItemSet) : Closing := ⟨kernel, kernel.toList.reverse, ∅⟩

/-- Takes up the item on top of the stack, if there is one. -/
def next? (g : Grammar) : Closing → Option Closing
  | ⟨_, [], _⟩ => none
  | ⟨items, item :: rest, expanded⟩ =>
    match item.nextNonTerminal? g with
    | none => some ⟨items, rest, expanded⟩
    | some symbol =>
      if symbol ∈ expanded then some ⟨items, rest, expanded⟩
      else
        let opened := g.openings (.singleton symbol)
        let fresh := opened.toList.filter fun item => item ∉ items
        some ⟨items ∪ opened, fresh.reverse ++ rest, expanded.insert symbol⟩

/-- What the loop keeps: it adds nothing that is not in the closure, and an item that leads to rules that
have not been added is on the stack. -/
structure Sound (g : Grammar) (kernel : ItemSet) (closing : Closing) : Prop where
  kept : ∀ item ∈ kernel, item ∈ closing.items
  within : ∀ item ∈ closing.items, item ∈ kernel.closure g
  waiting : ∀ item ∈ closing.pending, item ∈ closing.items
  followed : ∀ item ∈ closing.items, ∀ symbol, item.nextNonTerminal? g = some symbol →
    item ∈ closing.pending ∨ symbol ∈ closing.expanded
  opened : ∀ symbol ∈ closing.expanded, ∀ item ∈ g.openings (.singleton symbol), item ∈ closing.items

/-- Bounds how many items can still be taken up: those on the stack and one for each rule not yet
added. -/
def load (g : Grammar) (closing : Closing) : Nat :=
  closing.pending.length + (g.rules.filter fun rule => rule.head ∉ closing.expanded).length

variable {g : Grammar} {kernel : ItemSet} {closing later : Closing}

theorem mem_openings_singleton {symbol : Nat} {item : Item} : item ∈ g.openings (.singleton symbol) ↔
    item.position = 0 ∧ ∃ rule, g.rule? item.rule = some rule ∧ rule.head = symbol := by
  rw [Grammar.mem_openings]
  simp only [SortedSet.mem_singleton]

/-- No more items are opened than there are rules for the symbol. -/
theorem size_openings_le (symbol : Nat) :
    (g.openings (.singleton symbol)).toList.length ≤
      (g.rules.filter fun rule => rule.head = symbol).length := by
  let entries := g.rules.zipIdx.filter fun entry => entry.1.head = symbol
  have few : (g.openings (.singleton symbol)).size ≤
      (entries.map fun entry => (⟨entry.2, 0⟩ : Item)).length := by
    refine SortedSet.size_le_length fun item member => ?_
    obtain ⟨zero, rule, found, head⟩ := mem_openings_singleton.mp member
    refine List.mem_map.mpr ⟨(rule, item.rule), List.mem_filter.mpr ⟨?_, decide_eq_true head⟩, ?_⟩
    · exact List.mem_zipIdx_iff_getElem?.mpr found
    · rw [← zero]
  have rules : entries.map Prod.fst = g.rules.filter fun rule => rule.head = symbol := by
    have whole := List.zipIdx_map_fst 0 g.rules
    conv_rhs => rw [← whole, List.filter_map]
    rfl
  have same := congrArg List.length rules
  rw [List.length_map] at same few
  exact Nat.le_trans few (Nat.le_of_eq same)

theorem Sound.start (kernel : ItemSet) : Sound g kernel (start kernel) where
  kept := fun _ => id
  within := fun _ => ItemSet.mem_closure_of_mem
  waiting := fun _ member => List.mem_reverse.mp member
  followed := fun _ member _ _ => Or.inl (List.mem_reverse.mpr member)
  opened := fun _ expanded => absurd expanded SortedSet.not_mem_empty

/-- An item that leads to no rules that are missing is taken off the stack. -/
theorem Sound.skip {items : ItemSet} {item : Item} {rest : List Item} {expanded : SortedSet Nat}
    (sound : Sound g kernel ⟨items, item :: rest, expanded⟩)
    (idle : ∀ symbol, item.nextNonTerminal? g = some symbol → symbol ∈ expanded) :
    Sound g kernel ⟨items, rest, expanded⟩ := by
  refine ⟨sound.kept, sound.within,
    fun other member => sound.waiting other (List.mem_cons_of_mem _ member),
    fun other member symbol next => ?_, sound.opened⟩
  rcases sound.followed other member symbol next with waits | done
  · rcases List.mem_cons.mp waits with rfl | later
    · exact Or.inr (idle symbol next)
    · exact Or.inl later
  · exact Or.inr done

/-- An item that leads to missing rules is taken off the stack, and the new ones among its rules are put
on it. -/
theorem Sound.expand {items : ItemSet} {item : Item} {rest : List Item} {expanded : SortedSet Nat}
    {symbol : Nat} (sound : Sound g kernel ⟨items, item :: rest, expanded⟩)
    (leads : item.nextNonTerminal? g = some symbol) :
    Sound g kernel ⟨items ∪ g.openings (.singleton symbol),
      ((g.openings (.singleton symbol)).toList.filter fun item => item ∉ items).reverse ++ rest,
      expanded.insert symbol⟩ := by
  have fresh : ∀ other,
      other ∈ ((g.openings (.singleton symbol)).toList.filter fun item => item ∉ items).reverse ↔
        other ∈ g.openings (.singleton symbol) ∧ other ∉ items := by
    intro other
    rw [List.mem_reverse, List.mem_filter, SortedSet.mem_toList, decide_eq_true_eq]
  refine ⟨fun other member => SortedSet.mem_union.mpr (Or.inl (sound.kept other member)),
    fun other member => ?_, fun other member => ?_, fun other member leader next => ?_,
    fun leader member other opens => ?_⟩
  · rcases SortedSet.mem_union.mp member with old | opens
    · exact sound.within other old
    · obtain ⟨number, position⟩ := other
      obtain ⟨rfl, rule, found, rfl⟩ := mem_openings_singleton.mp opens
      obtain ⟨next, nonTerminal⟩ := ItemSet.nextNonTerminal?_eq_some.mp leads
      have parent := sound.within item (sound.waiting item List.mem_cons_self)
      exact ItemSet.closure_closed parent next nonTerminal found
  · rcases List.mem_append.mp member with new | later
    · exact SortedSet.mem_union.mpr (Or.inr ((fresh other).mp new).1)
    · exact SortedSet.mem_union.mpr (Or.inl (sound.waiting other (List.mem_cons_of_mem _ later)))
  · by_cases old : other ∈ items
    · rcases sound.followed other old leader next with waits | done
      · rcases List.mem_cons.mp waits with rfl | later
        · cases Option.some.inj (leads.symm.trans next)
          exact Or.inr (SortedSet.mem_insert.mpr (Or.inl rfl))
        · exact Or.inl (List.mem_append_right _ later)
      · exact Or.inr (SortedSet.mem_insert.mpr (Or.inr done))
    · have opens := (SortedSet.mem_union.mp member).resolve_left old
      exact Or.inl (List.mem_append_left _ ((fresh other).mpr ⟨opens, old⟩))
  · rcases SortedSet.mem_insert.mp member with rfl | done
    · exact SortedSet.mem_union.mpr (Or.inr opens)
    · exact SortedSet.mem_union.mpr (Or.inl (sound.opened leader done other opens))

/-- What the loop keeps, it keeps when an item is taken up, and that lessens the load. -/
theorem Sound.next (sound : Sound g kernel closing) (step : closing.next? g = some later) :
    Sound g kernel later ∧ later.load g < closing.load g := by
  obtain ⟨items, pending, expanded⟩ := closing
  cases pending with
  | nil => simp [next?] at step
  | cons item rest =>
    cases leads : item.nextNonTerminal? g with
    | none =>
      simp only [next?, leads, Option.some.injEq] at step
      subst step
      refine ⟨sound.skip fun symbol next => ?_, ?_⟩
      · rw [leads] at next
        exact absurd next (Option.some_ne_none symbol).symm
      · simp only [load, List.length_cons]
        omega
    | some symbol =>
      simp only [next?, leads] at step
      split at step
      · rename_i done
        cases Option.some.inj step
        refine ⟨sound.skip fun other next => ?_, ?_⟩
        · cases Option.some.inj (leads.symm.trans next)
          exact done
        · simp only [load, List.length_cons]
          omega
      · rename_i new
        cases Option.some.inj step
        refine ⟨sound.expand leads, ?_⟩
        have added := @Grammar.length_rules_insert g.rules expanded symbol new
        have opened := size_openings_le (g := g) symbol
        have fresh := List.length_filter_le (fun item => decide (item ∉ items))
          (g.openings (.singleton symbol)).toList
        simp only [load, List.length_append, List.length_reverse, List.length_cons]
        omega

/-- When nothing is left to be taken up, the set is the closure. -/
theorem Sound.items_eq (sound : Sound g kernel closing) (done : closing.pending = []) :
    closing.items = kernel.closure g := by
  refine SortedSet.ext fun item => ⟨sound.within item, fun member => ?_⟩
  refine ItemSet.closure_induction (P := (· ∈ closing.items)) sound.kept
    (fun parent _ inside number rule next nonTerminal found => ?_) member
  have leads := ItemSet.nextNonTerminal?_eq_some.mpr ⟨next, nonTerminal⟩
  rcases sound.followed parent inside rule.head leads with waits | expanded
  · simp [done] at waits
  · exact sound.opened rule.head expanded _ (mem_openings_singleton.mpr ⟨rfl, rule, found, rfl⟩)

theorem pending_eq_nil (last : closing.next? g = none) : closing.pending = [] := by
  obtain ⟨items, pending, expanded⟩ := closing
  cases pending with
  | nil => rfl
  | cons item rest =>
    simp only [next?] at last
    split at last
    · exact absurd last (Option.some_ne_none _)
    · split at last <;> exact absurd last (Option.some_ne_none _)

theorem Sound.exists_last (sound : Sound g kernel closing) : ∃ expanded,
    Relation.ReflTransGen (fun earlier later => next? g earlier = some later) closing
      ⟨kernel.closure g, [], expanded⟩ := by
  induction bound : closing.load g using Nat.strongRecOn generalizing closing with
  | ind load ih =>
    cases step : closing.next? g with
    | none =>
      have done := pending_eq_nil step
      refine ⟨closing.expanded, ?_⟩
      rw [← sound.items_eq done, ← done]
    | some later =>
      obtain ⟨sound', less⟩ := sound.next step
      obtain ⟨expanded, run⟩ := ih (later.load g) (bound ▸ less) sound' rfl
      exact ⟨expanded, .head step run⟩

/-- The loop over the items ends with the closure. -/
theorem exists_last (g : Grammar) (kernel : ItemSet) : ∃ expanded,
    Relation.ReflTransGen (fun earlier later => next? g earlier = some later) (start kernel)
      ⟨kernel.closure g, [], expanded⟩ := (Sound.start kernel).exists_last

end Closing

end ParseTables
