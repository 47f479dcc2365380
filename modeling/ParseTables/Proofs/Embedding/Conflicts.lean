import Mathlib.Logic.Equiv.Set
import ParseTables.Proofs.Embedding.Basic
import ParseTables.Proofs.Predictive.Rivals
import ParseTables.Proofs.ShiftReduce.Clashes

namespace ParseTables

/-- The item with another number for its rule. -/
def Item.renumber (number : Nat → Nat) (item : Item) : Item := ⟨number item.rule, item.position⟩

theorem Item.renumber_injective {number : Nat → Nat} (injective : Function.Injective number) :
    Function.Injective (Item.renumber number) := by
  rintro ⟨rule, position⟩ ⟨rule', position'⟩ same
  obtain ⟨rules, positions⟩ := Item.mk.inj same
  exact congr (congrArg Item.mk (injective rules)) positions

namespace Grammar.Embeds

variable {symbol number : Equiv.Perm Nat} {g g' : Grammar}

theorem next? (embeds : Embeds symbol number g g') {item : Item} {passed : Nat}
    (next : item.next? g = some passed) : (item.renumber number).next? g' = some (symbol passed) := by
  obtain ⟨rule, found, place⟩ := ItemSet.next?_eq_some.mp next
  refine ItemSet.next?_eq_some.mpr ⟨rule.renumber symbol, embeds.rule item.rule rule found, ?_⟩
  exact (List.getElem?_map ..).trans (congrArg (Option.map symbol) place)

/-- Each move of an item is one of the renumbered items. -/
theorem mem_step (embeds : Embeds symbol number g g') {item target : Item} {label : Option Nat}
    (moves : target ∈ g.itemAutomaton.step item label) :
    target.renumber number ∈ g'.itemAutomaton.step (item.renumber number) (label.map symbol) := by
  cases label with
  | none =>
    obtain ⟨opening, rule, found, next⟩ := moves
    exact ⟨opening, rule.renumber symbol, embeds.rule target.rule rule found, embeds.next? next⟩
  | some passed =>
    obtain ⟨next, rfl⟩ := moves
    exact ⟨embeds.next? next, rfl⟩

theorem mem_εClosure (embeds : Embeds symbol number g g') {items items' : Set Item}
    (below : ∀ item ∈ items, item.renumber number ∈ items') {item : Item}
    (reached : item ∈ g.itemAutomaton.εClosure items) :
    item.renumber number ∈ g'.itemAutomaton.εClosure items' := by
  induction reached with
  | base item inside => exact .base _ (below item inside)
  | step parent item opens _ ih => exact εNFA.εClosure.step _ _ (embeds.mem_step opens) ih

/-- What is reached along a string in the smaller grammar is reached along the same symbols in the larger
one. -/
theorem mem_eval (embeds : Embeds symbol number g g') {symbols : List Nat} {item : Item}
    (reached : item ∈ g.itemAutomaton.eval symbols) :
    item.renumber number ∈ g'.itemAutomaton.eval (symbols.map symbol) := by
  induction symbols using List.reverseRecOn generalizing item with
  | nil =>
    refine embeds.mem_εClosure (fun first start => ?_) reached
    obtain rfl : first = ⟨0, 0⟩ := start
    exact congrArg (Item.mk · 0) embeds.hidden
  | append_singleton symbols passed ih =>
    rw [εNFA.eval_append_singleton, εNFA.mem_stepSet_iff] at reached
    rw [List.map_append, List.map_singleton, εNFA.eval_append_singleton, εNFA.mem_stepSet_iff]
    obtain ⟨parent, before, after⟩ := reached
    exact ⟨parent.renumber number, ih before,
      embeds.mem_εClosure (fun _ moves => embeds.mem_step moves) after⟩

theorem completes (embeds : Embeds symbol number g g') {items items' : Set Item}
    (below : ∀ item ∈ items, item.renumber number ∈ items') {place : Nat} {rule : Rule}
    (complete : g.Completes items place rule) :
    g'.Completes items' (number place) (rule.renumber symbol) where
  positive := embeds.number_pos complete.positive
  found := embeds.rule place rule complete.found
  member := by
    have inside := below _ complete.member
    simpa only [Item.renumber, Rule.renumber, List.length_map] using inside

variable (wf : g.WellFormed) (wf' : g'.WellFormed)
include wf wf'

/-- Items that clash clash in the larger grammar, with whatever items beside them. -/
theorem clash (embeds : Embeds symbol number g g') {policy : ReducePolicy} {items items' : Set Item}
    (below : ∀ item ∈ items, item.renumber number ∈ items') (clash : g.Clash policy items) :
    g'.Clash policy items' := by
  have follows : ∀ place rule terminal, g.Completes items place rule → terminal ∈ g.follow rule.head →
      symbol terminal ∈ g'.follow (rule.renumber symbol).head := fun place rule terminal complete =>
    embeds.mem_follow wf wf' (wf.head_mem (mem_listed_of_rule? complete.positive complete.found))
  cases clash with
  | shift complete followed member next =>
    exact .shift (embeds.completes below complete) (follows _ _ _ complete followed) (below _ member)
      (embeds.next? next)
  | reduce complete complete' differ shared =>
    refine .reduce (embeds.completes below complete) (embeds.completes below complete')
      (fun same => differ (number.injective same)) fun finer => ?_
    obtain ⟨terminal, followed, followed'⟩ := shared finer
    exact ⟨symbol terminal, follows _ _ _ complete followed, follows _ _ _ complete' followed'⟩

/-- A larger grammar without SLR(1) conflicts has none in the smaller one. -/
theorem isSLR (embeds : Embeds symbol number g g') {policy : ReducePolicy}
    (clean : (Analysis.ofGrammar g' policy).isSLR) : (Analysis.ofGrammar g policy).isSLR :=
  (isSLR_iff_clash wf).mpr fun symbols clash =>
    (isSLR_iff_clash wf').mp clean (symbols.map symbol)
      (embeds.clash wf wf' (fun _ reached => embeds.mem_eval reached) clash)

theorem rivals (embeds : Embeds symbol number g g') {rule rule' : Rule} (rivals : g.Rivals rule rule') :
    g'.Rivals (rule.renumber symbol) (rule'.renumber symbol) where
  listed := embeds.mem_listed rivals.listed
  listed' := embeds.mem_listed rivals.listed'
  heads := congrArg symbol rivals.heads
  bodies := fun same => rivals.bodies (List.map_injective_iff.mpr symbol.injective same)
  disputed := by
    obtain ⟨terminal, predicts, predicts'⟩ := rivals.disputed
    exact ⟨symbol terminal, embeds.predicts wf wf' rivals.listed predicts,
      embeds.predicts wf wf' rivals.listed' predicts'⟩

/-- An LL(1) conflict of the smaller grammar is one of the larger one. -/
theorem hasConflict (embeds : Embeds symbol number g g') (conflicting : g.llTable.hasConflict) :
    g'.llTable.hasConflict := by
  obtain ⟨rule, rule', rivals⟩ := hasConflict_iff_rivals.mp conflicting
  exact hasConflict_iff_rivals.mpr ⟨_, _, embeds.rivals wf wf' rivals⟩

omit wf wf'

/-- If each grammar is inside the other, they reach the same items along the same symbols. -/
theorem eval_eq (embeds : Embeds symbol number g g') (back : Embeds symbol.symm number.symm g' g)
    (symbols : List Nat) : g'.itemAutomaton.eval (symbols.map symbol) =
      Item.renumber number '' g.itemAutomaton.eval symbols := by
  refine Set.Subset.antisymm (fun item reached => ?_) ?_
  · -- the way back leads along the first symbols again
    have before := back.mem_eval reached
    rw [List.map_map, Equiv.symm_comp_self, List.map_id] at before
    exact ⟨_, before, by simp [Item.renumber]⟩
  · rintro _ ⟨item, reached, rfl⟩
    exact embeds.mem_eval reached

theorem reachedSets_eq (embeds : Embeds symbol number g g')
    (back : Embeds symbol.symm number.symm g' g) :
    g'.reachedSets = (Item.renumber number '' ·) '' g.reachedSets := by
  ext items
  constructor
  · rintro ⟨nonempty, symbols, rfl⟩
    have again : (symbols.map symbol.symm).map symbol = symbols := by
      rw [List.map_map, Equiv.self_comp_symm, List.map_id]
    rw [← again, eval_eq embeds back] at nonempty ⊢
    exact ⟨_, ⟨Set.image_nonempty.mp nonempty, _, rfl⟩, rfl⟩
  · rintro ⟨_, ⟨nonempty, symbols, rfl⟩, rfl⟩
    exact ⟨nonempty.image _, symbols.map symbol, eval_eq embeds back symbols⟩

include wf wf' in
theorem length_states_eq (embeds : Embeds symbol number g g')
    (back : Embeds symbol.symm number.symm g' g) :
    g'.automaton.states.length = g.automaton.states.length := by
  rw [length_states wf, length_states wf', reachedSets_eq embeds back]
  exact Set.ncard_image_of_injective _ (Item.renumber_injective number.injective).image_injective

end Grammar.Embeds

end ParseTables
