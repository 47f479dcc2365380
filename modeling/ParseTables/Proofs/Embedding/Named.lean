import Mathlib.Data.List.Permutation
import Mathlib.Logic.Equiv.Basic
import ParseTables.Proofs.Embedding.Basic
import ParseTables.Proofs.Grammar.Reading
import ParseTables.Proofs.Lookahead.Named

namespace ParseTables

/-- Keeps zero, and permutes the numbers after it as another permutation does all numbers. -/
def shifted (places : Equiv.Perm Nat) : Equiv.Perm Nat where
  toFun
    | 0 => 0
    | n + 1 => places n + 1
  invFun
    | 0 => 0
    | n + 1 => places.symm n + 1
  left_inv n := by cases n <;> simp
  right_inv n := by cases n <;> simp

/-- A list in another order has its elements at other places. -/
theorem exists_places {α : Type} {l l' : List α} (perm : l.Perm l') :
    ∃ places : Equiv.Perm Nat, ∀ place, l'[places place]? = l[place]? := by
  induction perm with
  | nil => exact ⟨Equiv.refl _, fun _ => rfl⟩
  | cons a _ ih =>
    obtain ⟨places, found⟩ := ih
    exact ⟨shifted places, fun place => by cases place with
      | zero => rfl
      | succ place => exact found place⟩
  | swap a b l =>
    refine ⟨Equiv.swap 0 1, fun place => ?_⟩
    match place with
    | 0 => rfl
    | 1 => rfl
    | place + 2 => rw [Equiv.swap_apply_of_ne_of_ne (by omega) (by omega)]; rfl
  | trans _ _ ih ih' =>
    obtain ⟨places, found⟩ := ih
    obtain ⟨places', found'⟩ := ih'
    exact ⟨places.trans places', fun place => (found' (places place)).trans (found place)⟩

namespace Grammar

variable {g g' : Grammar}

section Renaming

variable {names : Equiv.Perm Nat}
  (renamed : ∀ place name, g.names[place]? = some name → g'.names[names place]? = some name)

theorem shifted_pos {symbol : Nat} (positive : 0 < symbol) : 0 < shifted names symbol := by
  obtain ⟨place, rfl⟩ := Nat.exists_eq_succ_of_ne_zero (Nat.ne_of_gt positive)
  exact Nat.succ_pos _

include renamed

theorem name?_shifted {symbol : Nat} {name : String} (positive : 0 < symbol)
    (named : g.name? symbol = some name) : g'.name? (shifted names symbol) = some name := by
  obtain ⟨place, rfl⟩ := Nat.exists_eq_succ_of_ne_zero (Nat.ne_of_gt positive)
  rw [Nat.succ_eq_add_one, name?_succ] at named
  exact name?_succ.trans (renamed place name named)

/-- The new number of a symbol is the symbol of the other grammar that has its name. -/
theorem shifted_eq (wf' : g'.WellFormed) {symbol symbol' : Nat} (positive : 0 < symbol)
    (bound : symbol ≤ g.endMark) (positive' : 0 < symbol') (names' : g'.name? symbol' = g.name? symbol) :
    shifted names symbol = symbol' := by
  obtain ⟨name, named⟩ := exists_name positive bound
  have renamed := name?_shifted renamed positive named
  refine eq_of_name? wf' ⟨shifted_pos positive, ?_⟩ positive' (renamed.trans (names'.trans named).symm)
  exact le_endMark_of_name? (shifted_pos positive) renamed

theorem map_shifted (wf' : g'.WellFormed) {symbols symbols' : List Nat}
    (bounds : ∀ symbol ∈ symbols, 0 < symbol ∧ symbol ≤ g.endMark)
    (positive' : ∀ symbol ∈ symbols', 0 < symbol)
    (names' : symbols'.map g'.name? = symbols.map g.name?) : symbols.map (shifted names) = symbols' := by
  induction symbols generalizing symbols' with
  | nil => exact (List.map_eq_nil_iff.mp names').symm
  | cons symbol rest ih =>
    cases symbols' with
    | nil => cases names'
    | cons symbol' rest' =>
      obtain ⟨first, others⟩ := List.cons.inj names'
      rw [List.forall_mem_cons] at bounds positive'
      rw [List.map_cons, shifted_eq renamed wf' bounds.1.1 bounds.1.2 positive'.1 first,
        ih bounds.2 positive'.2 others]

end Renaming

variable {pairs pairs' : List (String × String)} {designated designated' : Option String}

/-- Rules for one pair have the same names in two grammars. -/
theorem Reads.names_eq (reads : g.Reads pairs designated) (reads' : g'.Reads pairs' designated')
    {place place' : Nat} {rule rule' : Rule} (found : g.listed[place]? = some rule)
    (found' : g'.listed[place']? = some rule') (same : pairs'[place']? = pairs[place]?) :
    g'.name? rule'.head = g.name? rule.head ∧ rule'.body.map g'.name? = rule.body.map g.name? := by
  have head := congrArg (·[place]?) reads.heads
  have head' := congrArg (·[place']?) reads'.heads
  have body := congrArg (·[place]?) reads.bodies
  have body' := congrArg (·[place']?) reads'.bodies
  simp only [List.getElem?_map, found, found', same, Option.map_some] at head head' body body'
  exact ⟨Option.some.inj (head'.trans head.symm), Option.some.inj (body'.trans body.symm)⟩

theorem Reads.length (reads : g.Reads pairs designated) : g.listed.length = pairs.length := by
  simpa only [List.length_map] using congrArg List.length reads.heads

section Places

variable {places names : Equiv.Perm Nat} (reads : g.Reads pairs designated)
    (reads' : g'.Reads pairs' designated')
  (moved : ∀ place pair, pairs[place]? = some pair → pairs'[places place]? = some pair)
  (renamed : ∀ place name, g.names[place]? = some name → g'.names[names place]? = some name)
include reads reads' renamed

/-- The listed rules stand at the places of their pairs, with the new numbers of their symbols. -/
theorem Reads.getElem?_renumbered {place place' : Nat} {rule : Rule}
    (found : g.listed[place]? = some rule)
    (same : ∀ pair, pairs[place]? = some pair → pairs'[place']? = some pair) :
    g'.listed[place']? = some (rule.renumber (shifted names)) := by
  have wf := reads.wf
  have wf' := reads'.wf
  obtain ⟨inside, -⟩ := List.getElem?_eq_some_iff.mp found
  rw [reads.length] at inside
  have pair := List.getElem?_eq_getElem inside
  have pair' := same _ pair
  obtain ⟨inside', -⟩ := List.getElem?_eq_some_iff.mp pair'
  rw [← reads'.length] at inside'
  have found' := List.getElem?_eq_getElem inside'
  obtain ⟨head, body⟩ := reads.names_eq reads' found found' (pair'.trans pair.symm)
  have listed := List.mem_of_getElem? found
  have listed' := List.mem_of_getElem? found'
  have headBound : rule.head ≤ g.endMark := Nat.le_trans (wf.head_le rule listed) (Nat.le_add_right _ _)
  have bodyBounds : ∀ symbol ∈ rule.body, 0 < symbol ∧ symbol ≤ g.endMark := fun symbol inBody =>
    ⟨wf.body_pos rule listed symbol inBody, Nat.le_of_lt (wf.body_lt rule listed symbol inBody)⟩
  rw [found', Rule.renumber,
    shifted_eq renamed wf' (wf.head_pos rule listed) headBound (wf'.head_pos _ listed') head,
    map_shifted renamed wf' bodyBounds (wf'.body_pos _ listed') body]

/-- If the heads are the same, a symbol is a non-terminal under its new number exactly if it was one. -/
theorem Reads.shifted_mem_nonTerminals_iff (heads : ∀ name, Heads pairs name ↔ Heads pairs' name)
    {symbol : Nat} (positive : 0 < symbol) (bound : symbol ≤ g.endMark) :
    shifted names symbol ∈ g'.nonTerminals ↔ symbol ∈ g.nonTerminals := by
  obtain ⟨name, named⟩ := exists_name positive bound
  rw [mem_nonTerminals_iff_name reads.wf positive named,
    mem_nonTerminals_iff_name reads'.wf (shifted_pos positive) (name?_shifted renamed positive named),
    reads.mem_heads, reads'.mem_heads, heads]

include moved in
/-- A grammar is inside another one in which its pairs and its names are found at new places, if there
are no other heads and the start symbol is the same. -/
theorem Reads.embeds (heads : ∀ name, Heads pairs name ↔ Heads pairs' name)
    (start : g'.name? g'.start = g.name? g.start) : Embeds (shifted names) (shifted places) g g' := by
  have wf := reads.wf
  have wf' := reads'.wf
  constructor
  · rfl
  · exact shifted_eq renamed wf' endMark_pos (Nat.le_refl _) endMark_pos
      (name?_endMark.trans name?_endMark.symm)
  · intro symbol listed
    obtain ⟨positive, bound⟩ := mem_nonTerminals_iff.mp listed
    have inGrammar : symbol ≤ g.endMark := Nat.le_trans bound (Nat.le_add_right _ _)
    exact (reads.shifted_mem_nonTerminals_iff reads' renamed heads positive inGrammar).mpr listed
  · intro symbol isTerminal
    obtain ⟨above, bound⟩ := isTerminal_iff.mp isTerminal
    have positive : 0 < symbol := Nat.lt_of_le_of_lt (Nat.zero_le _) above
    obtain ⟨name, named⟩ := exists_name positive bound
    have other := mt (reads.shifted_mem_nonTerminals_iff reads' renamed heads positive bound).mp
      fun listed => Nat.not_le.mpr above (mem_nonTerminals_iff.mp listed).2
    rw [mem_nonTerminals_iff, not_and, Nat.not_le] at other
    exact isTerminal_iff.mpr ⟨other (shifted_pos positive),
      le_endMark_of_name? (shifted_pos positive) (name?_shifted renamed positive named)⟩
  · intro place rule found
    cases place with
    | zero =>
      -- the hidden rule is kept because the start symbols have one name
      obtain rfl : ⟨0, [g.start]⟩ = rule := Option.some.inj found
      have bound : g.start ≤ g.endMark := Nat.le_trans wf.start_le (Nat.le_add_right _ _)
      show some (⟨0, [g'.start]⟩ : Rule) = some ⟨0, [shifted names g.start]⟩
      rw [shifted_eq renamed wf' wf.start_pos bound wf'.start_pos start]
    | succ place => exact reads.getElem?_renumbered reads' renamed found (moved place)
  · exact fun symbol name => name?_shifted renamed

end Places

/-- Terminals keep their names, so those of a set are among those of the set that it goes to. -/
theorem Lists.subset {symbol number : Equiv.Perm Nat} (embeds : Embeds symbol number g g')
    {set set' : SortedSet Nat} {names names' : List String} (lists : g.Lists set names)
    (lists' : g'.Lists set' names')
    (kept : ∀ terminal ∈ set, g.isTerminal terminal ∧ symbol terminal ∈ set') : names ⊆ names' := by
  intro name member
  obtain ⟨terminal, inside, named⟩ := (lists.mem_iff name).mp member
  obtain ⟨isTerminal, inside'⟩ := kept terminal inside
  have positive : 0 < terminal := Nat.lt_of_le_of_lt (Nat.zero_le _) (isTerminal_iff.mp isTerminal).1
  exact (lists'.mem_iff name).mpr ⟨symbol terminal, inside', embeds.name terminal name positive named⟩

namespace Embeds

variable {symbol number : Equiv.Perm Nat} (wf : g.WellFormed) (wf' : g'.WellFormed)
include wf wf'

/-- By names the sets of a non-terminal are parts of those that it has in a larger grammar. -/
theorem namedSets_le (embeds : Embeds symbol number g g') {nonTerminal : Nat}
    (listed : nonTerminal ∈ g.nonTerminals) {sets sets' : NamedSets} (has : g.HasSets nonTerminal sets)
    (has' : g'.HasSets (symbol nonTerminal) sets') :
    sets.Le sets' where
  first := has.first.subset embeds has'.first fun _ inside =>
    ⟨((mem_first_iff wf).mp inside).1, embeds.mem_first wf wf' inside⟩
  nullable := fun vanishes =>
    has'.nullable.trans (embeds.nullable_first wf wf' (has.nullable.symm.trans vanishes))
  follow := has.follow.subset embeds has'.follow fun _ inside =>
    ⟨isTerminal_of_mem_follow inside, embeds.mem_follow wf wf' listed inside⟩

/-- The sets of a non-terminal of the smaller grammar are found by its name in both. -/
theorem exists_namedSets (embeds : Embeds symbol number g g') {head : String} (member : head ∈ g.heads) :
    ∃ nonTerminal ∈ g.nonTerminals, ∃ sets sets', g.namedSets? head = some sets ∧
      g'.namedSets? head = some sets' ∧
      g.HasSets nonTerminal sets ∧ g'.HasSets (symbol nonTerminal) sets' := by
  obtain ⟨nonTerminal, listed, named⟩ := exists_nonTerminal member
  have named' := embeds.name _ _ (mem_nonTerminals_iff.mp listed).1 named
  obtain ⟨sets, found, has⟩ := Grammar.exists_namedSets wf listed named
  obtain ⟨sets', found', has'⟩ := Grammar.exists_namedSets wf' (embeds.nonTerminal _ listed) named'
  exact ⟨nonTerminal, listed, sets, sets', found, found', has, has'⟩

end Embeds

end Grammar

end ParseTables
