import ParseTables.Grammar.Draft

namespace ParseTables

/-- The elements of a list in the order of their first appearance, each once. -/
def distinct {α : Type} [DecidableEq α] : List α → List α
  | [] => []
  | a :: rest => a :: (distinct rest).filter fun b => b ≠ a

/-- The first of `name`, `name'`, `name''` and so on that is not taken. Each name that turns
out to be taken is out of the way afterwards, because all later ones are longer. -/
def freshName (taken : List String) (name : String) : String :=
  if name ∈ taken then freshName (taken.erase name) (name ++ "'") else name
termination_by taken.length
decreasing_by
  rename_i occurs
  have := List.length_erase_of_mem occurs
  have := List.length_pos_of_mem occurs
  omega

/-- The words of a body that stand for symbols. -/
def bodyWords (text : String) : List String :=
  (Text.words text).filter fun word => !isEmptyWord word

/-- A rule whose head is a name and whose body is a string of names. -/
structure NamedRule where
  line : Nat
  head : String
  body : List String

/-- Reads the head and the body of a rule. Empty words disappear from the body. -/
def RuleEntry.named (entry : RuleEntry) : Except GrammarError NamedRule :=
  match headName entry.head with
  | .error fault => .error (.malformedRule entry.line fault)
  | .ok head => .ok ⟨entry.line, head, bodyWords entry.body⟩

/-- The rule of an entry whose head is a name. -/
def RuleEntry.rule (entry : RuleEntry) : NamedRule :=
  ⟨entry.line, entry.head, bodyWords entry.body⟩

/-- The fault of a word in a body, if it has one. Only the heads matter for that. -/
def wordFault? (heads : List String) (line : Nat) (head word : String) : Option GrammarError :=
  if word = endName then some (.malformedRule line .endMarkInBody)
  else if word ∉ heads ∧ Text.startsUppercase word then some (.undefinedSymbol word head)
  else none

/-- The first word of a body that cannot be used there, told as the refusal it leads to. -/
def NamedRule.fault? (heads : List String) (rule : NamedRule) : Option GrammarError :=
  rule.body.findSome? (wordFault? heads rule.line rule.head)

namespace Grammar

/-- Numbers the symbols of named rules. The symbol of a name is one more than its place among
the non-terminals followed by the terminals. -/
def ofNamed (heads : List String) (start : Nat) (startName : String) (rules : List NamedRule) :
    Grammar :=
  let terminalNames := distinct ((rules.flatMap NamedRule.body).filter fun word => word ∉ heads)
  let names := heads ++ terminalNames
  let symbol (name : String) : Nat := names.idxOf name + 1
  { hiddenName := freshName (names ++ [endName]) startName
    heads := heads.toArray
    terminalNames := terminalNames.toArray
    start
    listed := rules.map fun rule => ⟨symbol rule.head, rule.body.map symbol⟩ }

/-- The grammar of named rules with these heads. -/
def ofHeads (heads : List String) (startName : String) (rules : List NamedRule) :
    Except GrammarError Grammar :=
  match heads.idxOf? startName with
  | none => .error (.unknownStart startName)
  | some place =>
    match rules.findSome? (NamedRule.fault? heads) with
    | some fault => .error fault
    | none => .ok (.ofNamed heads (place + 1) startName rules)

/-- The grammar of entered rules, told from all of them at once. The symbols are those that the
tables of a draft have in the end. -/
def atOnce (entries : List RuleEntry) (designated : Option String) :
    Except GrammarError Grammar := do
  let rules ← entries.mapM RuleEntry.named
  match rules with
  | [] => .error .empty
  | first :: _ =>
    ofHeads (distinct (rules.map NamedRule.head)) (designated.getD first.head) rules

end Grammar

theorem mem_distinct {α : Type} [DecidableEq α] {l : List α} {a : α} : a ∈ distinct l ↔ a ∈ l := by
  induction l with
  | nil => exact Iff.rfl
  | cons b rest ih =>
    by_cases same : a = b
    · simp [distinct, same]
    · simp [distinct, same, ih]

theorem nodup_distinct {α : Type} [DecidableEq α] (l : List α) : (distinct l).Nodup := by
  induction l with
  | nil => exact List.nodup_nil
  | cons b rest ih => exact List.nodup_cons.mpr ⟨by simp, ih.filter _⟩

theorem distinct_filter {α : Type} [DecidableEq α] {p : α → Bool} {l : List α} :
    distinct (l.filter p) = (distinct l).filter p := by
  induction l with
  | nil => rfl
  | cons a rest ih =>
    by_cases kept : p a
    · rw [List.filter_cons_of_pos kept, distinct, distinct, List.filter_cons_of_pos kept, ih,
        List.filter_filter, List.filter_filter]
      simp only [Bool.and_comm]
    · rw [List.filter_cons_of_neg kept, distinct, List.filter_cons_of_neg kept, ih,
        List.filter_filter]
      refine List.filter_congr fun b _ => ?_
      by_cases same : b = a
      · simp [same, kept]
      · simp [same]

theorem RuleEntry.named_eq (entry : RuleEntry) : entry.named = entry.headed.map RuleEntry.rule := by
  unfold named headed
  cases headName entry.head <;> rfl

/-- Heads may be checked before the bodies are split. -/
theorem mapM_named (entries : List RuleEntry) :
    entries.mapM RuleEntry.named = (entries.mapM RuleEntry.headed).map (List.map RuleEntry.rule) := by
  induction entries with
  | nil => rfl
  | cons entry rest ih =>
    rw [List.mapM_cons, List.mapM_cons, ih, entry.named_eq]
    cases entry.headed with
    | error fault => rfl
    | ok first => cases rest.mapM RuleEntry.headed <;> rfl

theorem length_le_freshName (taken : List String) (name : String) :
    name.length ≤ (freshName taken name).length := by
  fun_induction freshName taken name with
  | case1 taken name occurs ih =>
    rw [String.length_append] at ih
    omega
  | case2 taken name free => exact Nat.le_refl _

theorem freshName_not_mem (taken : List String) (name : String) : freshName taken name ∉ taken := by
  fun_induction freshName taken name with
  | case1 taken name occurs ih =>
    have longer := length_le_freshName (taken.erase name) (name ++ "'")
    rw [String.length_append, show "'".length = 1 from rfl] at longer
    have other : freshName (taken.erase name) (name ++ "'") ≠ name := fun same => by
      rw [same] at longer
      omega
    exact fun member => ih ((List.mem_erase_of_ne other).mpr member)
  | case2 taken name free => exact free

end ParseTables
