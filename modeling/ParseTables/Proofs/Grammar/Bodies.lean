import Mathlib.Data.List.Forall2
import ParseTables.Proofs.Grammar.Numbered
import ParseTables.Proofs.Lookahead.Named

namespace ParseTables

open List (Forall₂)

theorem mapM_iff_forall₂ {α β : Type} {f : α → Option β} {l : List α} {out : List β} :
    l.mapM f = some out ↔ Forall₂ (fun a b => f a = some b) l out := by
  rw [mapM_eq_some_iff, ← List.forall₂_eq_eq_eq, List.forall₂_map_left_iff, List.forall₂_map_right_iff]

/-- All that is looked up fits to what it is looked up for, if each of it does. -/
theorem forall₂_of_mapM {α β : Type} {f : α → Option β} {fits : α → β → Prop} {l : List α} {out : List β}
    (found : l.mapM f = some out) (each : ∀ a ∈ l, ∀ b, f a = some b → fits a b) :
    Forall₂ fits l out := by
  have listed := (List.forall₂_and_left l out).mpr ⟨fun a member => member, mapM_iff_forall₂.mp found⟩
  exact listed.imp fun a b ⟨member, value⟩ => each a member b value

/-- The bodies of the pairs with a head, as words. -/
def bodiesUnder (pairs : List (String × String)) (head : String) : List (List String) :=
  (pairs.filter fun pair => Text.trim pair.1 = head).map fun pair => bodyWords pair.2

namespace Grammar

/-- The bodies of the rules of a symbol, by names. The body of an empty rule has none. -/
def bodies? (g : Grammar) (symbol : Nat) : Option (List (List String)) :=
  (g.productions symbol).mapM fun number => do g.namesOf? (← g.rule? number).body

variable {g : Grammar}

/-- The numbers of the rules of a symbol lead to them. -/
theorem productions_spec (symbol : Nat) : Forall₂ (fun number rule => g.rule? number = some rule)
    (g.productions symbol) (g.rules.filter fun rule => rule.head == symbol) := by
  have rules : g.rules.filter (fun rule => rule.head == symbol) =
      (g.rules.zipIdx.filter fun entry => entry.1.head == symbol).map Prod.fst := by
    conv_lhs => rw [← List.zipIdx_map_fst 0 g.rules, List.filter_map]
    rfl
  rw [productions, rules, List.forall₂_map_left_iff, List.forall₂_map_right_iff, List.forall₂_same]
  rintro ⟨rule, number⟩ member
  exact List.mem_zipIdx_iff_getElem?.mp (List.mem_filter.mp member).1

theorem mapM_productions {α : Type} (read : Rule → Option α) (symbol : Nat) {out : List α} :
    ((g.productions symbol).mapM fun number => do read (← g.rule? number)) = some out ↔
      Forall₂ (fun rule a => read rule = some a)
        (g.rules.filter fun rule => rule.head == symbol) out := by
  rw [mapM_iff_forall₂]
  have numbered := g.productions_spec symbol
  revert numbered
  generalize g.productions symbol = numbers
  generalize g.rules.filter (fun rule => rule.head == symbol) = rules
  intro numbered
  induction numbered generalizing out with
  | nil => cases out <;> simp
  | cons first _ ih =>
    cases out with
    | nil => simp
    | cons a rest =>
      rw [List.forall₂_cons, List.forall₂_cons, first]
      exact and_congr Iff.rfl ih

section OfRules

variable {pairs : List (String × String)} {designated : Option String}
    (built : ofRules pairs designated = .ok g)
include built

/-- Each listed rule has the names of the pair in its place. -/
theorem listed_spec : Forall₂ (fun (rule : Rule) pair => g.name? rule.head = some (Text.trim pair.1) ∧
    g.namesOf? rule.body = some (bodyWords pair.2)) g.listed pairs := by
  have reads := reads_of_ofRules built
  obtain ⟨rules, -, -, named, -⟩ := exists_named built
  have heads := reads.heads
  have bodies := reads.bodies
  have proper : ∀ pair ∈ pairs, headName pair.1 = .ok (Text.trim pair.1) := by
    intro pair member
    obtain ⟨name, proper⟩ := (exists_ofRules_iff.mp ⟨g, built⟩).2.1 pair member
    rw [proper, trim_of_headName proper]
  rw [List.map_congr_left fun pair member => congrArg Except.toOption (proper pair member)] at heads
  rw [← List.forall₂_eq_eq_eq, List.forall₂_map_left_iff, List.forall₂_map_right_iff] at heads bodies
  simp only [namesOf?_eq_some_iff]
  exact List.forall₂_iff_zip.mpr ⟨heads.length_eq, fun inside =>
    ⟨(List.forall₂_iff_zip.mp heads).2 inside, (List.forall₂_iff_zip.mp bodies).2 inside⟩⟩

/-- The bodies of a non-terminal are those of the pairs with its name as their head, in the same
order. -/
theorem bodies?_ofRules {symbol : Nat} (listed : symbol ∈ g.nonTerminals) {head : String}
    (named : g.name? symbol = some head) : g.bodies? symbol = some (bodiesUnder pairs head) := by
  have wf := wellFormed_ofRules built
  have fresh := hiddenName_not_mem built
  obtain ⟨positive, -⟩ := mem_nonTerminals_iff.mp listed
  have same : ∀ ⦃rule : Rule⦄ ⦃pair : String × String⦄, g.name? rule.head = some (Text.trim pair.1) ∧
      g.namesOf? rule.body = some (bodyWords pair.2) →
      ((rule.head == symbol) = true ↔ decide (Text.trim pair.1 = head) = true) := by
    rintro rule pair ⟨headed, -⟩
    rw [beq_iff_eq, decide_eq_true_iff]
    constructor
    · rintro rfl
      exact Option.some.inj (headed.symm.trans named)
    · intro equal
      exact name?_injective wf fresh (exists_name_iff.mp ⟨_, headed⟩) (exists_name_iff.mp ⟨_, named⟩)
        (headed.trans (equal ▸ named.symm))
  refine (mapM_productions (fun rule => g.namesOf? rule.body) symbol).mpr ?_
  rw [rules, List.filter_cons_of_neg (by simpa using Nat.ne_of_lt positive), bodiesUnder,
    List.forall₂_map_right_iff]
  exact (List.rel_filter same (listed_spec built)).imp fun _ _ => And.right

end OfRules

end Grammar

end ParseTables
