import Mathlib.Logic.Relation
import ParseTables.Proofs.Grammar.Draft

namespace ParseTables.Grammar

/-- One rewriting by a listed rule. -/
inductive Produces (g : Grammar) : List Nat → List Nat → Prop
  | rewrite {rule : Rule} (before after : List Nat) : rule ∈ g.listed →
      Produces g (before ++ rule.head :: after) (before ++ rule.body ++ after)

/-- Rewriting by listed rules, any number of times. -/
def Derives (g : Grammar) : List Nat → List Nat → Prop := Relation.ReflTransGen g.Produces

/-- A string of symbols with a derivation tree for each of them, and the terminals at the leaves. This
is the form of a derivation that a parser follows. -/
inductive Parses (g : Grammar) : List Nat → List Nat → Prop
  | nil : Parses g [] []
  | terminal {terminal symbols word} : g.isTerminal terminal → Parses g symbols word →
      Parses g (terminal :: symbols) (terminal :: word)
  | expand {rule : Rule} {symbols early late} : rule ∈ g.listed → Parses g rule.body early →
      Parses g symbols late → Parses g (rule.head :: symbols) (early ++ late)

variable {g : Grammar}

@[refl]
theorem Derives.refl (symbols : List Nat) : g.Derives symbols symbols := Relation.ReflTransGen.refl

theorem Derives.trans {first middle last : List Nat} (before : g.Derives first middle)
    (after : g.Derives middle last) : g.Derives first last :=
  Relation.ReflTransGen.trans before after

theorem Derives.of_rule {rule : Rule} (member : rule ∈ g.listed) :
    g.Derives [rule.head] rule.body := by
  have step := Produces.rewrite [] [] member
  rw [List.nil_append, List.nil_append, List.append_nil] at step
  exact .single step

theorem Produces.context {u v : List Nat} (step : g.Produces u v) (left right : List Nat) :
    g.Produces (left ++ u ++ right) (left ++ v ++ right) := by
  cases step with
  | rewrite before after member =>
    have step := Produces.rewrite (left ++ before) (after ++ right) member
    simpa only [List.append_assoc, List.cons_append] using step

theorem Derives.context {u v : List Nat} (derives : g.Derives u v) (left right : List Nat) :
    g.Derives (left ++ u ++ right) (left ++ v ++ right) := by
  induction derives with
  | refl => exact .refl _
  | tail _ step ih => exact ih.tail (step.context left right)

theorem Derives.append {u u' v v' : List Nat} (left : g.Derives u u') (right : g.Derives v v') :
    g.Derives (u ++ v) (u' ++ v') := by
  have first := left.context [] v
  have second := right.context u' []
  rw [List.nil_append, List.nil_append] at first
  rw [List.append_nil, List.append_nil] at second
  exact first.trans second

theorem Parses.derives {symbols word : List Nat} (parses : g.Parses symbols word) :
    g.Derives symbols word := by
  induction parses with
  | nil => exact .refl _
  | @terminal terminal symbols word _ _ ih => exact (Derives.refl [terminal]).append ih
  | expand member _ _ ihBody ihRest => exact ((Derives.of_rule member).trans ihBody).append ihRest

theorem Parses.isTerminal {symbols word : List Nat} (parses : g.Parses symbols word) :
    ∀ terminal ∈ word, g.isTerminal terminal := by
  induction parses with
  | nil => simp
  | terminal isTerminal _ ih => simpa [isTerminal] using ih
  | expand _ _ _ ihBody ihRest =>
    intro terminal member
    exact (List.mem_append.mp member).elim (ihBody terminal) (ihRest terminal)

theorem Parses.of_terminals {word : List Nat} (terminals : ∀ terminal ∈ word, g.isTerminal terminal) :
    g.Parses word word := by
  induction word with
  | nil => exact .nil
  | cons terminal rest ih =>
    exact .terminal (terminals terminal List.mem_cons_self)
      (ih fun other member => terminals other (List.mem_cons_of_mem _ member))

theorem Parses.append {u v early late : List Nat} (left : g.Parses u early)
    (right : g.Parses v late) : g.Parses (u ++ v) (early ++ late) := by
  induction left with
  | nil => exact right
  | terminal isTerminal _ ih => exact .terminal isTerminal ih
  | expand member body _ _ ih =>
    rw [List.cons_append, List.append_assoc]
    exact .expand member body ih

theorem Parses.split {u v word : List Nat} (parses : g.Parses (u ++ v) word) :
    ∃ early late, word = early ++ late ∧ g.Parses u early ∧ g.Parses v late := by
  induction u generalizing word with
  | nil => exact ⟨[], word, rfl, .nil, parses⟩
  | cons symbol u ih =>
    cases parses with
    | terminal isTerminal rest =>
      obtain ⟨early, late, rfl, left, right⟩ := ih rest
      exact ⟨_ :: early, late, rfl, .terminal isTerminal left, right⟩
    | expand member body rest =>
      obtain ⟨early, late, rfl, left, right⟩ := ih rest
      exact ⟨_ ++ early, late, (List.append_assoc ..).symm, .expand member body left, right⟩

/-- Derivation trees and rewriting in any order say the same about terminal strings. -/
theorem parses_iff_derives {symbols word : List Nat}
    (terminals : ∀ terminal ∈ word, g.isTerminal terminal) :
    g.Parses symbols word ↔ g.Derives symbols word := by
  refine ⟨Parses.derives, fun derives => ?_⟩
  induction derives using Relation.ReflTransGen.head_induction_on with
  | refl => exact .of_terminals terminals
  | head step _ ih =>
    cases step with
    | rewrite before after member =>
      obtain ⟨early, late, rfl, left, right⟩ := ih.split
      obtain ⟨first, second, rfl, untouched, body⟩ := left.split
      rw [List.append_assoc]
      exact untouched.append (.expand member body right)

theorem parses_nil_iff {symbols : List Nat} : g.Parses symbols [] ↔ g.Derives symbols [] :=
  parses_iff_derives (by simp)

/-- A string vanishes exactly if each of its symbols does. -/
theorem derives_nil_iff {symbols : List Nat} :
    g.Derives symbols [] ↔ ∀ symbol ∈ symbols, g.Derives [symbol] [] := by
  constructor
  · intro derives symbol member
    obtain ⟨before, after, rfl⟩ := List.append_of_mem member
    obtain ⟨early, late, empty, -, right⟩ := (parses_nil_iff.mpr derives).split
    obtain ⟨-, rfl⟩ := List.append_eq_nil_iff.mp empty.symm
    obtain ⟨one, rest, empty, only, -⟩ := Parses.split (u := [symbol]) right
    obtain ⟨rfl, -⟩ := List.append_eq_nil_iff.mp empty.symm
    exact only.derives
  · intro each
    induction symbols with
    | nil => exact .refl _
    | cons symbol rest ih =>
      exact (each symbol List.mem_cons_self).append
        (ih fun other member => each other (List.mem_cons_of_mem _ member))

theorem exists_rule_of_vanishing {symbol : Nat} (vanishes : g.Derives [symbol] []) :
    ∃ rule ∈ g.listed, rule.head = symbol ∧ g.Derives rule.body [] := by
  obtain ⟨word, empty, parses⟩ : ∃ word, word = [] ∧ g.Parses [symbol] word :=
    ⟨[], rfl, parses_nil_iff.mpr vanishes⟩
  cases parses with
  | terminal => simp at empty
  | @expand rule _ early late member body _ =>
    obtain ⟨rfl, -⟩ := List.append_eq_nil_iff.mp empty
    exact ⟨rule, member, rfl, body.derives⟩

/-- The words that are parsed: strings of terminals other than the end mark. -/
def IsWord (g : Grammar) (word : List Nat) : Prop :=
  ∀ terminal ∈ word, g.isTerminal terminal ∧ terminal ≠ g.endMark

theorem IsWord.isTerminal {word : List Nat} (isWord : g.IsWord word) :
    ∀ terminal ∈ word, g.isTerminal terminal := fun terminal member => (isWord terminal member).1

theorem IsWord.endMark_not_mem {word : List Nat} (isWord : g.IsWord word) : g.endMark ∉ word :=
  fun member => (isWord _ member).2 rfl

end ParseTables.Grammar
