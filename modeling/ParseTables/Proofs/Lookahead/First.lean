import ParseTables.Lookahead.First
import ParseTables.Proofs.Grammar.Derivation
import ParseTables.Proofs.Lookahead.Saturation

namespace ParseTables

namespace FirstSet

/-- All that one set allows is allowed by the other. -/
def Le (s t : FirstSet) : Prop := (∀ a ∈ s.terminals, a ∈ t.terminals) ∧ (s.nullable → t.nullable)

theorem Le.refl (s : FirstSet) : Le s s := ⟨fun _ => id, id⟩

theorem Le.trans (r s t : FirstSet) (first : Le r s) (second : Le s t) : Le r t :=
  ⟨fun a member => second.1 a (first.1 a member), second.2 ∘ first.2⟩

theorem Le.antisymm (s t : FirstSet) (first : Le s t) (second : Le t s) : s = t := by
  obtain ⟨terminals, nullable⟩ := s
  obtain ⟨terminals', nullable'⟩ := t
  have same : terminals = terminals' := SortedSet.ext fun a => ⟨first.1 a, second.1 a⟩
  have same' : nullable = nullable' := Bool.eq_iff_iff.mpr ⟨first.2, second.2⟩
  rw [same, same']

theorem le_merge (s t : FirstSet) : Le s (s.merge t) :=
  ⟨fun _ member => SortedSet.mem_union.mpr (Or.inl member), fun null => by simp [merge, null]⟩

theorem le_merge_right (s t : FirstSet) : Le t (s.merge t) :=
  ⟨fun _ member => SortedSet.mem_union.mpr (Or.inr member), fun null => by simp [merge, null]⟩

/-- A set that allows more misses less of a bound that it keeps. -/
theorem Le.strict {s t : FirstSet} {bound : Nat} (below : Le s t) (size : t.terminals.size ≤ bound) :
    bound + 1 - t.size ≤ bound + 1 - s.size ∧
      (bound + 1 - s.size ≤ bound + 1 - t.size → s = t) := by
  have terminals : s.terminals.size ≤ t.terminals.size := SortedSet.size_le_length below.1
  have nullable : s.nullable.toNat ≤ t.nullable.toNat := by
    have kept := below.2
    revert kept
    cases s.nullable <;> cases t.nullable <;> simp
  have bit := Bool.toNat_le t.nullable
  unfold FirstSet.size
  refine ⟨by omega, fun full => ?_⟩
  have same : s.terminals = t.terminals := SortedSet.eq_of_size_le below.1 (by omega)
  refine Le.antisymm s t below ⟨fun a member => same ▸ member, fun null => ?_⟩
  rw [null] at full bit nullable
  cases known : s.nullable with
  | true => rfl
  | false =>
    rw [known] at full
    simp only [Bool.toNat_true, Bool.toNat_false] at full bit
    omega

end FirstSet

namespace Grammar

variable {g : Grammar}

theorem isTerminal_iff {symbol : Nat} :
    g.isTerminal symbol ↔ g.nonTerminalCount < symbol ∧ symbol ≤ g.endMark := by
  simp [isTerminal]

theorem mem_terminals_iff {symbol : Nat} : symbol ∈ g.terminals ↔ g.isTerminal symbol := by
  rw [isTerminal_iff, terminals, List.mem_range'_1, endMark]
  omega

theorem length_terminals : g.terminals.length = g.terminalCount := List.length_range'

theorem mem_nonTerminals_iff {symbol : Nat} :
    symbol ∈ g.nonTerminals ↔ 0 < symbol ∧ symbol ≤ g.nonTerminalCount := by
  rw [nonTerminals, List.mem_range'_1]
  omega

/-- What is known about an entry of the First sets: it allows nothing that is not derived. -/
def FirstSound (g : Grammar) (sets : FirstSets) : Prop :=
  ∀ head first, sets.get? head = some first →
    (∀ terminal ∈ first.terminals, g.isTerminal terminal ∧ ∃ rest, g.Derives [head] (terminal :: rest)) ∧
      (first.nullable → g.Derives [head] [])

theorem FirstSound.ofSequence {sets : FirstSets} (sound : g.FirstSound sets) (symbols : List Nat) :
    (∀ terminal ∈ (sets.ofSequence g symbols).terminals,
      g.isTerminal terminal ∧ ∃ rest, g.Derives symbols (terminal :: rest)) ∧
      ((sets.ofSequence g symbols).nullable → g.Derives symbols []) := by
  induction symbols with
  | nil => exact ⟨fun _ member => absurd member SortedSet.not_mem_empty, fun _ => .refl _⟩
  | cons symbol rest ih =>
    unfold FirstSets.ofSequence
    split
    · rename_i isTerminal
      refine ⟨fun terminal member => ?_, fun null => by simp at null⟩
      obtain rfl := SortedSet.mem_singleton.mp member
      exact ⟨isTerminal, rest, .refl _⟩
    · split
      · exact ⟨fun _ member => absurd member SortedSet.not_mem_empty, fun null => by
          simp [FirstSet.nothing] at null⟩
      · rename_i first entry
        obtain ⟨begins, vanishes⟩ := sound symbol first entry
        have fromSymbol : ∀ terminal ∈ first.terminals,
            g.isTerminal terminal ∧ ∃ more, g.Derives (symbol :: rest) (terminal :: more) := by
          intro terminal member
          obtain ⟨isTerminal, more, derives⟩ := begins terminal member
          exact ⟨isTerminal, more ++ rest, derives.append (.refl rest)⟩
        split
        · rename_i null
          have empty := vanishes null
          refine ⟨fun terminal member => ?_, fun null' => empty.append (ih.2 null')⟩
          rcases SortedSet.mem_union.mp member with early | late
          · exact fromSymbol terminal early
          · obtain ⟨isTerminal, more, derives⟩ := ih.1 terminal late
            exact ⟨isTerminal, more, empty.append derives⟩
        · rename_i kept
          exact ⟨fromSymbol, fun null => absurd null kept⟩

theorem FirstSound.firstStep {sets : FirstSets} (sound : g.FirstSound sets) {rule : Rule}
    (member : rule ∈ g.listed) : g.FirstSound (g.firstStep sets rule) := by
  intro head first entry
  obtain ⟨begins, vanishes⟩ := sound.ofSequence rule.body
  rw [Grammar.firstStep, ByNonTerminal.get?_update] at entry
  split at entry
  · rename_i same
    subst same
    obtain ⟨old, before, rfl⟩ := Option.map_eq_some_iff.mp entry
    obtain ⟨begins', vanishes'⟩ := sound _ old before
    refine ⟨fun terminal inside => ?_, fun null => ?_⟩
    · rcases SortedSet.mem_union.mp inside with known | new
      · exact begins' terminal known
      · obtain ⟨isTerminal, rest, derives⟩ := begins terminal new
        exact ⟨isTerminal, rest, (Derives.of_rule member).trans derives⟩
    · rcases Bool.or_eq_true_iff.mp null with known | new
      · exact vanishes' known
      · exact (Derives.of_rule member).trans (vanishes new)
  · exact sound head first entry

theorem below_firstStep (sets : FirstSets) (rule : Rule) :
    ByNonTerminal.Below FirstSet.Le sets (g.firstStep sets rule) :=
  ByNonTerminal.below_update FirstSet.Le.refl (fun first => first.le_merge _) sets _

/-- Sets that lie above others miss less, unless they are the same. -/
theorem FirstSound.eq_of_missing_le {sets sets' : FirstSets} (sound : g.FirstSound sets')
    (below : ByNonTerminal.Below FirstSet.Le sets sets')
    (missing : g.firstMissing sets ≤ g.firstMissing sets') : sets = sets' := by
  refine ByNonTerminal.eq_of_total_le below (fun s t inside low => ?_) missing
  obtain ⟨head, entry⟩ := ByNonTerminal.mem_entries_iff.mp inside
  refine low.strict ?_
  rw [← length_terminals]
  exact SortedSet.size_le_length fun terminal member =>
    mem_terminals_iff.mpr ((sound head t entry).1 terminal member).1

theorem firstSound_nothing : g.FirstSound (.replicate g.nonTerminalCount .nothing) := by
  intro head first entry
  rw [ByNonTerminal.get?_replicate] at entry
  split at entry
  · cases Option.some.inj entry
    exact ⟨fun _ member => absurd member SortedSet.not_mem_empty, fun null => by
      simp [FirstSet.nothing] at null⟩
  · simp at entry

/-- A pass takes up listed rules only. -/
theorem firstPass_eq : g.firstPass =
    g.listed.attach.foldl (fun sets (rule : { rule // rule ∈ g.listed }) => g.firstStep sets rule) := by
  funext sets
  exact (List.foldl_attach (f := g.firstStep)).symm

/-- The First sets are sound, have an entry for each listed non-terminal, and no rule adds to them. -/
theorem firstSets_at_rest (g : Grammar) : g.FirstSound g.firstSets ∧
    (∀ symbol, (g.firstSets.get? symbol).isSome ↔ symbol ∈ g.nonTerminals) ∧
    ∀ rule ∈ g.listed, g.firstStep g.firstSets rule = g.firstSets := by
  obtain ⟨sound, above, rest⟩ := saturate_at_rest
    (ByNonTerminal.Below.refl FirstSet.Le.refl) (ByNonTerminal.Below.trans FirstSet.Le.trans)
    (ByNonTerminal.Below.antisymm FirstSet.Le.antisymm)
    (fun sets (rule : { rule // rule ∈ g.listed }) => below_firstStep (g := g) sets rule.1)
    (fun sets rule kept => kept.firstStep rule.2) (fun _ _ kept => kept.eq_of_missing_le) g.listed.attach
    firstSound_nothing
  rw [← firstPass_eq] at sound above rest
  refine ⟨sound, fun symbol => ?_, fun rule member => rest ⟨rule, member⟩ (List.mem_attach _ _)⟩
  rw [firstSets, firstPasses, ByNonTerminal.get?_isSome_of_below above, ByNonTerminal.get?_replicate,
    mem_nonTerminals_iff]
  split <;> simp_all

/-- First of a string of symbols. -/
def first (g : Grammar) (symbols : List Nat) : FirstSet := g.firstSets.ofSequence g symbols

theorem exists_firstSet {symbol : Nat} (listed : symbol ∈ g.nonTerminals) :
    ∃ found, g.firstSets.get? symbol = some found :=
  Option.isSome_iff_exists.mp ((g.firstSets_at_rest.2.1 symbol).mpr listed)

theorem not_isTerminal_of_listed {symbol : Nat} (listed : symbol ∈ g.nonTerminals) :
    g.isTerminal symbol = false := by
  have := mem_nonTerminals_iff.mp listed
  simp only [isTerminal, Bool.and_eq_false_imp, decide_eq_true_eq]
  omega

theorem isNonTerminal_of_listed {symbol : Nat} (listed : symbol ∈ g.nonTerminals) :
    g.isNonTerminal symbol := decide_eq_true (mem_nonTerminals_iff.mp listed).2

theorem WellFormed.head_mem (wf : g.WellFormed) {rule : Rule} (member : rule ∈ g.listed) :
    rule.head ∈ g.nonTerminals :=
  mem_nonTerminals_iff.mpr ⟨wf.head_pos rule member, wf.head_le rule member⟩

theorem WellFormed.listed_of_vanishing (wf : g.WellFormed) {symbol : Nat}
    (vanishes : g.Derives [symbol] []) : symbol ∈ g.nonTerminals := by
  obtain ⟨rule, member, rfl, -⟩ := exists_rule_of_vanishing vanishes
  exact wf.head_mem member

theorem first_body_le {rule : Rule} (member : rule ∈ g.listed) {found : FirstSet}
    (entry : g.firstSets.get? rule.head = some found) : FirstSet.Le (g.first rule.body) found := by
  have rest := g.firstSets_at_rest.2.2 rule member
  have merged := congrArg (fun sets : FirstSets => sets.get? rule.head) rest
  simp only [firstStep, ByNonTerminal.get?_update, if_true, entry, Option.map_some,
    Option.some.injEq] at merged
  have below := found.le_merge_right (g.firstSets.ofSequence g rule.body)
  rwa [merged] at below

theorem first_append (u v : List Nat) : g.first (u ++ v) =
    if (g.first u).nullable then
      ⟨(g.first u).terminals ∪ (g.first v).terminals, (g.first v).nullable⟩
    else g.first u := by
  induction u with
  | nil =>
    refine FirstSet.Le.antisymm _ _ ?_ ?_ <;> simp [first, FirstSets.ofSequence, FirstSet.Le]
  | cons symbol rest ih =>
    unfold first at ih ⊢
    rw [List.cons_append, FirstSets.ofSequence, FirstSets.ofSequence]
    split
    · simp
    · split
      · simp [FirstSet.nothing]
      · rename_i found _
        by_cases null : found.nullable
        · simp only [null, if_true]
          rw [ih]
          split
          · refine FirstSet.Le.antisymm _ _ ?_ ?_ <;> simp [FirstSet.Le, or_assoc]
          · rfl
        · simp [null]

theorem first_cons_listed {symbol : Nat} {found : FirstSet} (listed : symbol ∈ g.nonTerminals)
    (entry : g.firstSets.get? symbol = some found) : g.first [symbol] = found := by
  simp only [first, FirstSets.ofSequence, not_isTerminal_of_listed listed, entry, if_false,
    Bool.false_eq_true]
  split
  · rename_i null
    refine FirstSet.Le.antisymm _ _ ?_ ?_ <;> simp [FirstSet.Le, null]
  · rfl

theorem FirstSet.Le.append {u u' v : List Nat} (below : FirstSet.Le (g.first u) (g.first u')) :
    FirstSet.Le (g.first (u ++ v)) (g.first (u' ++ v)) := by
  rw [first_append, first_append]
  obtain ⟨terminals, nullable⟩ := below
  by_cases null : (g.first u).nullable
  · simp only [null, nullable null, if_true]
    refine ⟨fun a member => ?_, id⟩
    exact SortedSet.mem_union.mpr ((SortedSet.mem_union.mp member).imp_left (terminals a))
  · rw [if_neg null]
    split
    · exact ⟨fun a member => SortedSet.mem_union.mpr (Or.inl (terminals a member)),
        fun null' => absurd null' null⟩
    · exact ⟨terminals, fun null' => absurd null' null⟩

theorem Produces.first_le (wf : g.WellFormed) {u v : List Nat} (step : g.Produces u v) :
    FirstSet.Le (g.first v) (g.first u) := by
  cases step with
  | @rewrite rule before after member =>
    have listed := wf.head_mem member
    obtain ⟨found, entry⟩ := exists_firstSet listed
    have below : FirstSet.Le (g.first rule.body) (g.first [rule.head]) := by
      rw [first_cons_listed listed entry]
      exact first_body_le member entry
    have longer : FirstSet.Le (g.first (rule.body ++ after)) (g.first (rule.head :: after)) :=
      FirstSet.Le.append below
    rw [List.append_assoc, first_append before, first_append before]
    split
    · refine ⟨fun a member => ?_, longer.2⟩
      exact SortedSet.mem_union.mpr ((SortedSet.mem_union.mp member).imp_right (longer.1 a))
    · exact .refl _

theorem Derives.first_le (wf : g.WellFormed) {u v : List Nat} (derives : g.Derives u v) :
    FirstSet.Le (g.first v) (g.first u) := by
  induction derives with
  | refl => exact .refl _
  | tail _ step ih => exact (step.first_le wf).trans _ _ _ ih

/-- First of a string holds exactly the terminals with which the strings derived from it begin. -/
theorem mem_first_iff (wf : g.WellFormed) {symbols : List Nat} {terminal : Nat} :
    terminal ∈ (g.first symbols).terminals ↔
      g.isTerminal terminal ∧ ∃ rest, g.Derives symbols (terminal :: rest) := by
  constructor
  · exact (g.firstSets_at_rest.1.ofSequence symbols).1 terminal
  · rintro ⟨isTerminal, rest, derives⟩
    refine (derives.first_le wf).1 terminal ?_
    simp [first, FirstSets.ofSequence, isTerminal]

/-- First of a string tells whether the empty string is derived from it. -/
theorem nullable_first_iff (wf : g.WellFormed) {symbols : List Nat} :
    (g.first symbols).nullable ↔ g.Derives symbols [] := by
  constructor
  · exact (g.firstSets_at_rest.1.ofSequence symbols).2
  · intro derives
    exact (derives.first_le wf).2 rfl

end Grammar

end ParseTables
