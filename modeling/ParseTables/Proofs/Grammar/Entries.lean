import Mathlib.Data.List.Forall2
import ParseTables.Proofs.Grammar.Reading

namespace ParseTables

/-- The error without the place where it was found. -/
def GrammarError.unplaced : GrammarError → GrammarError
  | malformedRule _ fault => malformedRule 0 fault
  | other => other

/-- What comes of reading, without the place of an error. -/
def unplaced {α : Type} (result : Except GrammarError α) : Except GrammarError α :=
  result.mapError GrammarError.unplaced

/-- Two entries have the same words. -/
structure RuleEntry.Alike (entry entry' : RuleEntry) : Prop where
  head : headName entry.head = headName entry'.head
  body : bodyWords entry.body = bodyWords entry'.body

/-- Two rules have the same names. -/
structure NamedRule.Alike (rule rule' : NamedRule) : Prop where
  head : rule.head = rule'.head
  body : rule.body = rule'.body

open List (Forall₂)

/-- Alike entries are read as alike rules, or the first of them that cannot be read has the same
fault. -/
theorem mapM_named_alike {entries entries' : List RuleEntry}
    (alike : Forall₂ RuleEntry.Alike entries entries') :
    (∃ error error', entries.mapM RuleEntry.named = .error error ∧
      entries'.mapM RuleEntry.named = .error error' ∧
      error.unplaced = error'.unplaced) ∨
    ∃ rules rules', entries.mapM RuleEntry.named = .ok rules ∧
      entries'.mapM RuleEntry.named = .ok rules' ∧
      Forall₂ NamedRule.Alike rules rules' := by
  induction alike with
  | nil => exact Or.inr ⟨[], [], rfl, rfl, .nil⟩
  | @cons entry entry' rest rest' first _ ih =>
    rw [List.mapM_cons, List.mapM_cons]
    cases named : headName entry.head with
    | error fault =>
      have failed : entry.named = .error (.malformedRule entry.line fault) := by
        rw [RuleEntry.named, named]
      have failed' : entry'.named = .error (.malformedRule entry'.line fault) := by
        rw [RuleEntry.named, ← first.head, named]
      exact Or.inl
        ⟨.malformedRule entry.line fault, .malformedRule entry'.line fault, by rw [failed]; rfl,
        by rw [failed']; rfl, rfl⟩
    | ok head =>
      have read : entry.named = .ok ⟨entry.line, head, bodyWords entry.body⟩ :=
        RuleEntry.named_eq_ok_iff.mpr ⟨named, rfl, rfl⟩
      have read' : entry'.named = .ok ⟨entry'.line, head, bodyWords entry'.body⟩ :=
        RuleEntry.named_eq_ok_iff.mpr ⟨first.head ▸ named, rfl, rfl⟩
      rw [read, read']
      rcases ih with ⟨error, error', failed, failed', same⟩ | ⟨rules, rules', others, others', later⟩
      · exact Or.inl ⟨error, error', by rw [failed]; rfl, by rw [failed']; rfl, same⟩
      · exact Or.inr ⟨⟨entry.line, head, bodyWords entry.body⟩ :: rules,
          ⟨entry'.line, head, bodyWords entry'.body⟩ :: rules',
          by rw [others]; rfl, by rw [others']; rfl, .cons ⟨rfl, first.body⟩ later⟩

section Rules

variable {rules rules' : List NamedRule} (alike : Forall₂ NamedRule.Alike rules rules')
include alike

theorem map_eq_of_alike {β : Type} {f : NamedRule → β}
    (same : ∀ {rule rule' : NamedRule}, rule.Alike rule' → f rule = f rule') :
    rules.map f = rules'.map f := by
  induction alike with
  | nil => rfl
  | cons first _ ih => rw [List.map_cons, List.map_cons, same first, ih]

theorem findSome?_fault_alike (heads : List String) :
    (rules.findSome? (NamedRule.fault? heads)).map GrammarError.unplaced =
      (rules'.findSome? (NamedRule.fault? heads)).map GrammarError.unplaced := by
  induction alike with
  | nil => rfl
  | @cons rule rule' _ _ first _ ih =>
    -- the faults of the two rules differ in their lines at most
    have same : (rule.fault? heads).map GrammarError.unplaced =
        (rule'.fault? heads).map GrammarError.unplaced := by
      unfold NamedRule.fault? wordFault?
      rw [← first.body, ← first.head, List.map_findSome?, List.map_findSome?]
      congr 1
      funext word
      simp only [Function.comp_apply]
      split
      · rfl
      · split <;> rfl
    rw [List.findSome?_cons, List.findSome?_cons]
    cases fault : rule.fault? heads <;> cases fault' : rule'.fault? heads <;> simp_all

theorem ofNamed_alike (heads : List String) (start : Nat) (startName : String) :
    Grammar.ofNamed heads start startName rules = Grammar.ofNamed heads start startName rules' := by
  have bodies : rules.flatMap NamedRule.body = rules'.flatMap NamedRule.body := by
    rw [List.flatMap_def, List.flatMap_def, map_eq_of_alike alike fun same => same.body]
  have listed (symbol : String → Nat) :
      rules.map (fun rule => (⟨symbol rule.head, rule.body.map symbol⟩ : Rule)) =
      rules'.map fun rule => ⟨symbol rule.head, rule.body.map symbol⟩ :=
    map_eq_of_alike alike fun same => by rw [same.head, same.body]
  simp only [Grammar.ofNamed, bodies, Grammar.mk.injEq, true_and]
  exact listed fun name => (heads ++ Grammar.bodyTerminals heads rules').idxOf name + 1

end Rules

/-- Entries that are alike make the same grammar or are refused for the same reason. -/
theorem ofEntries_unplaced {entries entries' : List RuleEntry}
    (alike : Forall₂ RuleEntry.Alike entries entries') (designated : Option String) :
    unplaced (Grammar.ofEntries entries designated) =
      unplaced (Grammar.ofEntries entries' designated) := by
  rw [Grammar.ofEntries_eq, Grammar.ofEntries_eq]
  unfold Grammar.atOnce Grammar.ofHeads
  rcases mapM_named_alike alike
    with ⟨error, error', failed, failed', same⟩ | ⟨rules, rules', read, read', later⟩
  · rw [failed, failed']
    exact congrArg Except.error same
  · rw [read, read']
    cases later with
    | nil => rfl
    | @cons rule rule' rest rest' first others =>
      have heads := map_eq_of_alike (.cons first others) NamedRule.Alike.head
      have faults :=
        findSome?_fault_alike (.cons first others) (distinct ((rule' :: rest').map NamedRule.head))
      simp only [bind, Except.bind, heads, first.head]
      split
      · rfl
      · rename_i place _
        rw [ofNamed_alike (.cons first others)]
        split
        · rename_i fault found
          rw [found] at faults
          obtain ⟨fault', found', same⟩ := Option.map_eq_some_iff.mp faults.symm
          rw [found']
          exact congrArg Except.error same.symm
        · rename_i sound
          rw [sound] at faults
          rw [Option.map_eq_none_iff.mp faults.symm]

/-- The pairs of some entries make the same grammar as the entries do. -/
theorem ofRules_unplaced {entries : List RuleEntry} {pairs : List (String × String)}
    (alike : Forall₂ (fun entry pair => headName entry.head = headName pair.1 ∧
      bodyWords entry.body = bodyWords pair.2) entries pairs)
    (designated : Option String) :
    unplaced (Grammar.ofEntries entries designated) = unplaced (Grammar.ofRules pairs designated) := by
  refine ofEntries_unplaced ?_ designated
  generalize 1 = line
  induction alike generalizing line with
  | nil => exact .nil
  | cons first _ ih => exact .cons ⟨first.1, first.2⟩ (ih (line + 1))

theorem unplaced_eq_ok_iff {α : Type} {result : Except GrammarError α} {a : α} :
    unplaced result = .ok a ↔ result = .ok a := by
  cases result <;> simp [unplaced, Except.mapError]

end ParseTables
