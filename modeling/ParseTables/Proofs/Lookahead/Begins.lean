import ParseTables.Proofs.Lookahead.Follow

namespace ParseTables.Grammar

/-- A string that leftmost rewriting turns into one that begins with the terminal. -/
inductive Begins (g : Grammar) (terminal : Nat) : List Nat → Prop
  | here {rest} : g.isTerminal terminal → Begins g terminal (terminal :: rest)
  | skip {symbol rest} : g.Derives [symbol] [] → Begins g terminal rest →
      Begins g terminal (symbol :: rest)
  | enter {rule : Rule} {rest} : rule ∈ g.listed → Begins g terminal rule.body →
      Begins g terminal (rule.head :: rest)

variable {g : Grammar} {terminal : Nat}

theorem Begins.append {u : List Nat} (begins : g.Begins terminal u) (v : List Nat) :
    g.Begins terminal (u ++ v) := by
  induction begins with
  | here isTerminal => exact .here isTerminal
  | skip vanishes _ ih => exact .skip vanishes ih
  | enter member body _ => exact .enter member body

theorem Begins.after {u v : List Nat} (vanish : g.Derives u []) (begins : g.Begins terminal v) :
    g.Begins terminal (u ++ v) := by
  induction u with
  | nil => exact begins
  | cons symbol u ih =>
    have each := derives_nil_iff.mp vanish
    have rest : g.Derives u [] :=
      derives_nil_iff.mpr fun other member => each other (List.mem_cons_of_mem _ member)
    exact .skip (each symbol List.mem_cons_self) (ih rest)

theorem Begins.split {u v : List Nat} (begins : g.Begins terminal (u ++ v)) :
    g.Begins terminal u ∨ g.Derives u [] ∧ g.Begins terminal v := by
  induction u with
  | nil => exact Or.inr ⟨.refl _, begins⟩
  | cons symbol u ih =>
    cases begins with
    | here isTerminal => exact Or.inl (.here isTerminal)
    | skip vanishes rest =>
      rcases ih rest with inside | ⟨vanish, after⟩
      · exact Or.inl (.skip vanishes inside)
      · exact Or.inr ⟨vanishes.append vanish, after⟩
    | enter member body => exact Or.inl (.enter member body)

theorem begins_of_derives (isTerminal : g.isTerminal terminal) {symbols rest : List Nat}
    (derives : g.Derives symbols (terminal :: rest)) : g.Begins terminal symbols := by
  induction derives using Relation.ReflTransGen.head_induction_on with
  | refl => exact .here isTerminal
  | head step _ ih =>
    cases step with
    | @rewrite rule before after member =>
      rw [List.append_assoc] at ih
      rcases ih.split with inside | ⟨vanish, behind⟩
      · exact inside.append _
      · refine Begins.after vanish ?_
        rcases behind.split with inBody | ⟨empty, late⟩
        · exact .enter member inBody
        · exact .skip ((Derives.of_rule member).trans empty) late

theorem Begins.derives {symbols : List Nat} (begins : g.Begins terminal symbols) :
    g.isTerminal terminal ∧ ∃ rest, g.Derives symbols (terminal :: rest) := by
  induction begins with
  | here isTerminal => exact ⟨isTerminal, _, .refl _⟩
  | skip vanishes _ ih =>
    obtain ⟨isTerminal, rest, derives⟩ := ih
    exact ⟨isTerminal, rest, vanishes.append derives⟩
  | @enter rule after member _ ih =>
    obtain ⟨isTerminal, rest, derives⟩ := ih
    exact ⟨isTerminal, rest ++ after, ((Derives.of_rule member).trans derives).append (.refl after)⟩

theorem begins_iff (wf : g.WellFormed) {symbols : List Nat} :
    g.Begins terminal symbols ↔ terminal ∈ (g.first symbols).terminals := by
  rw [mem_first_iff wf]
  exact ⟨Begins.derives, fun ⟨isTerminal, _, derives⟩ => begins_of_derives isTerminal derives⟩

theorem Before.of_body (wf : g.WellFormed) {rule : Rule} (listed : rule ∈ g.listed) {After : Nat → Prop}
    (before : g.Before rule.body After terminal) : g.Before [rule.head] After terminal := by
  rcases before with inside | ⟨vanish, after⟩
  · exact Or.inl ((begins_iff wf).mp (.enter listed ((begins_iff wf).mpr inside)))
  · refine Or.inr ⟨(nullable_first_iff wf).mpr ?_, after⟩
    exact (Derives.of_rule listed).trans ((nullable_first_iff wf).mp vanish)

/-- Each non-terminal derives the empty string or a string that begins with a terminal. -/
def Fertile (g : Grammar) : Prop :=
  ∀ symbol ∈ g.nonTerminals, g.Derives [symbol] [] ∨
    ∃ terminal rest, g.isTerminal terminal ∧ g.Derives [symbol] (terminal :: rest)

/-- If every non-terminal can begin or vanish, some terminal may come next before any string. -/
theorem Fertile.exists_before (fertile : g.Fertile) (wf : g.WellFormed) {symbols : List Nat}
    (bounds : ∀ symbol ∈ symbols, 0 < symbol ∧ symbol < g.endMark) (last : Nat) :
    ∃ terminal, g.Before symbols (· = last) terminal := by
  induction symbols with
  | nil => exact ⟨last, before_nil.mpr rfl⟩
  | cons symbol rest ih =>
    obtain ⟨terminal, behind⟩ := ih fun other member => bounds other (List.mem_cons_of_mem _ member)
    obtain ⟨positive, low⟩ := bounds symbol List.mem_cons_self
    by_cases listed : symbol ∈ g.nonTerminals
    · rcases fertile symbol listed with vanishes | ⟨first, others, isTerminal, derives⟩
      · have null := (nullable_first_iff wf).mpr vanishes
        exact ⟨terminal, before_append (u := [symbol]).mpr (Or.inr ⟨null, behind⟩)⟩
      · have inside := (mem_first_iff wf).mpr ⟨isTerminal, others, derives⟩
        exact ⟨first, before_append (u := [symbol]).mpr (Or.inl inside)⟩
    · have isTerminal : g.isTerminal symbol := by
        rw [mem_nonTerminals_iff] at listed
        rw [isTerminal_iff]
        omega
      have inside := (mem_first_iff wf).mpr ⟨isTerminal, [], .refl [symbol]⟩
      exact ⟨symbol, before_append (u := [symbol]).mpr (Or.inl inside)⟩

end ParseTables.Grammar
