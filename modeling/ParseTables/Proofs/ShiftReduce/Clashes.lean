import Mathlib.Data.Finset.Card
import ParseTables.Proofs.Automaton.Reached
import ParseTables.Proofs.ShiftReduce.Conflicts

namespace ParseTables.Grammar

/-- A rule other than the hidden one stands complete among the items. -/
structure Completes (g : Grammar) (items : Set Item) (number : Nat) (rule : Rule) : Prop where
  positive : 0 < number
  found : g.rule? number = some rule
  member : ⟨number, rule.body.length⟩ ∈ items

/-- The items ask for a reduction on a terminal that can be shifted, or for two reductions. The finer
policy lets the latter pass if the same terminal never follows both heads. -/
inductive Clash (g : Grammar) (policy : ReducePolicy) (items : Set Item) : Prop
  | shift {number : Nat} {rule : Rule} {item : Item} {terminal : Nat} : g.Completes items number rule →
      terminal ∈ g.follow rule.head → item ∈ items → item.next? g = some terminal → Clash g policy items
  | reduce {number number' : Nat} {rule rule' : Rule} : g.Completes items number rule →
      g.Completes items number' rule' → number ≠ number' →
      (policy = .followOverlap → ∃ terminal, terminal ∈ g.follow rule.head ∧
        terminal ∈ g.follow rule'.head) →
      Clash g policy items

variable {g : Grammar} {state : Nat}

theorem Clash.nonempty {policy : ReducePolicy} {items : Set Item} (clash : g.Clash policy items) :
    items.Nonempty := by
  cases clash with
  | shift complete => exact ⟨_, complete.member⟩
  | reduce complete => exact ⟨_, complete.member⟩

theorem mem_reductions_iff_completes {number : Nat} : number ∈ (g.itemsAt state).reductions g ↔
    ∃ rule, g.Completes {item | item ∈ g.itemsAt state} number rule := by
  rw [mem_reductions]
  exact ⟨fun ⟨positive, rule, found, member⟩ => ⟨rule, positive, found, member⟩,
    fun ⟨rule, complete⟩ => ⟨complete.positive, rule, complete.found, complete.member⟩⟩

theorem mem_reductionsOn_iff_completes {terminal number : Nat} : number ∈ g.reductionsOn state terminal ↔
    ∃ rule, g.Completes {item | item ∈ g.itemsAt state} number rule ∧ terminal ∈ g.follow rule.head := by
  rw [mem_reductionsOn]
  exact ⟨fun ⟨positive, rule, found, member, follows⟩ => ⟨rule, ⟨positive, found, member⟩, follows⟩,
    fun ⟨rule, complete, follows⟩ => ⟨complete.positive, rule, complete.found, complete.member, follows⟩⟩

theorem length_le_one_iff {α : Type} [DecidableEq α] {l : List α} (distinct : l.Nodup) :
    l.length ≤ 1 ↔ ∀ a ∈ l, ∀ b ∈ l, a = b := by
  rw [← List.toFinset_card_of_nodup distinct, Finset.card_le_one]
  simp only [List.mem_toFinset]

/-- A policy refuses the reductions of a state if two of them clash. -/
theorem refuses_eq_false {policy : ReducePolicy} :
    policy.refuses g (g.followSets g.firstSets) ((g.itemsAt state).reductions g) = false ↔
      ∀ number number' rule rule', g.Completes {item | item ∈ g.itemsAt state} number rule →
        g.Completes {item | item ∈ g.itemsAt state} number' rule' →
        (policy = .followOverlap →
          ∃ terminal, terminal ∈ g.follow rule.head ∧ terminal ∈ g.follow rule'.head) →
            number = number' := by
  cases policy with
  | anyMultiple =>
    have few : ReducePolicy.anyMultiple.refuses g (g.followSets g.firstSets)
        ((g.itemsAt state).reductions g) =
        false ↔ ((g.itemsAt state).reductions g).length ≤ 1 := decide_eq_false_iff_not.trans Nat.not_lt
    rw [few, length_le_one_iff nodup_reductions]
    simp only [mem_reductions_iff_completes]
    constructor
    · intro alike number number' rule rule' complete complete' _
      exact alike number ⟨rule, complete⟩ number' ⟨rule', complete'⟩
    · rintro alike number ⟨rule, complete⟩ number' ⟨rule', complete'⟩
      exact alike number number' rule rule' complete complete' nofun
  | followOverlap =>
    rw [refuses_followOverlap]
    constructor
    · intro alike number number' rule rule' complete complete' shared
      obtain ⟨terminal, follows, follows'⟩ := shared rfl
      exact (length_le_one_iff (nodup_reductions.filter _)).mp (alike terminal)
        number (mem_reductionsOn_iff_completes.mpr ⟨rule, complete, follows⟩)
        number' (mem_reductionsOn_iff_completes.mpr ⟨rule', complete', follows'⟩)
    · intro alike terminal
      refine (length_le_one_iff (nodup_reductions.filter _)).mpr
        fun number reduces number' reduces' => ?_
      obtain ⟨rule, complete, follows⟩ := mem_reductionsOn_iff_completes.mp reduces
      obtain ⟨rule', complete', follows'⟩ := mem_reductionsOn_iff_completes.mp reduces'
      exact alike number number' rule rule' complete complete' fun _ => ⟨terminal, follows, follows'⟩

/-- A state without conflict is a set of items without clash. -/
theorem clean_iff_clash {policy : ReducePolicy} :
    (∀ terminal, g.reductionsOn state terminal ≠ [] → g.target? state terminal = none) ∧
        policy.refuses g (g.followSets g.firstSets) ((g.itemsAt state).reductions g) = false ↔
      ¬ g.Clash policy {item | item ∈ g.itemsAt state} := by
  rw [refuses_eq_false]
  constructor
  · rintro ⟨apart, alike⟩ (⟨complete, follows, member, next⟩ | ⟨complete, complete', differ, shared⟩)
    · have reduces := mem_reductionsOn_iff_completes.mpr ⟨_, complete, follows⟩
      obtain ⟨target, edge⟩ := exists_target member next
      exact absurd (edge.symm.trans (apart _ (List.ne_nil_of_mem reduces))) (Option.some_ne_none target)
    · exact differ (alike _ _ _ _ complete complete' shared)
  · intro peaceful
    refine ⟨fun terminal nonempty => ?_, fun number number' rule rule' complete complete' shared => ?_⟩
    · obtain ⟨number, reduces⟩ := List.exists_mem_of_ne_nil _ nonempty
      obtain ⟨rule, complete, follows⟩ := mem_reductionsOn_iff_completes.mp reduces
      refine Option.eq_none_iff_forall_ne_some.mpr fun target edge => peaceful ?_
      obtain ⟨item, member, next⟩ := (itemsAt_target edge).1
      exact .shift complete follows member next
    · exact Decidable.not_not.mp fun differ => peaceful (.reduce complete complete' differ shared)

/-- A grammar has no SLR(1) conflict exactly if no set of items clashes that is reached along a
string. -/
theorem isSLR_iff_clash (wf : g.WellFormed) {policy : ReducePolicy} :
    (Analysis.ofGrammar g policy).isSLR ↔
      ∀ symbols, ¬ g.Clash policy (g.itemAutomaton.eval symbols) := by
  rw [isSLR_iff, conflicts_eq_nil]
  simp only [clean_iff_clash]
  constructor
  · intro peaceful symbols
    cases walk : g.walk? symbols with
    | none =>
      rw [(eval_walk wf symbols).2 walk]
      exact fun clash => Set.not_nonempty_empty clash.nonempty
    | some state =>
      rw [← (eval_walk wf symbols).1 state walk]
      exact peaceful state
  · intro peaceful state
    -- beyond the last state there are no items
    by_cases inside : state < g.automaton.states.length
    · obtain ⟨symbols, walk⟩ := exists_walk inside
      rw [(eval_walk wf symbols).1 state walk]
      exact peaceful symbols
    · have empty : g.itemsAt state = ∅ := by
        rw [itemsAt, List.getElem?_eq_none (Nat.le_of_not_lt inside)]
        rfl
      rw [empty]
      exact fun clash => SortedSet.not_mem_empty clash.nonempty.choose_spec

end ParseTables.Grammar
