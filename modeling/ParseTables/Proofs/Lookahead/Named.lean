import ParseTables.Proofs.Grammar.Sentence
import ParseTables.Proofs.Lookahead.Follow
import ParseTables.Render.Sets

namespace ParseTables

/-- What a non-terminal begins with, whether it can vanish, and what follows it. -/
structure NamedSets where
  first : List String
  nullable : Bool
  follow : List String
deriving DecidableEq

namespace NamedSets

/-- Each set grows, and what can vanish still can. -/
structure Le (sets sets' : NamedSets) : Prop where
  first : sets.first ⊆ sets'.first
  nullable : sets.nullable → sets'.nullable
  follow : sets.follow ⊆ sets'.follow

end NamedSets

namespace Grammar

/-- The sets of the non-terminal of a name. -/
def namedSets? (g : Grammar) (head : String) : Option NamedSets := do
  let symbol ← g.index? head
  let begins ← g.firstSets.get? symbol
  let after ← (g.followSets g.firstSets).get? symbol
  return ⟨← g.sortedNames? begins.terminals.toList, begins.nullable, ← g.sortedNames? after.toList⟩

variable {g : Grammar}

theorem namesOf?_eq_some_iff {symbols : List Nat} {names : List String} :
    g.namesOf? symbols = some names ↔ symbols.map g.name? = names.map some := mapM_eq_some_iff

/-- The names of the terminals in a set, in their order and each once. -/
structure Lists (g : Grammar) (set : SortedSet Nat) (names : List String) : Prop where
  distinct : names.Nodup
  ascending : names.Pairwise (· ≤ ·)
  mem_iff : ∀ name, name ∈ names ↔ ∃ terminal ∈ set, g.name? terminal = some name

theorem exists_sortedNames (wf : g.WellFormed) {set : SortedSet Nat}
    (terminals : ∀ terminal ∈ set, g.isTerminal terminal) :
    ∃ names, g.sortedNames? set.toList = some names ∧ g.Lists set names := by
  obtain ⟨names, named⟩ := exists_names terminals
  have same := namesOf?_eq_some_iff.mp named
  have mem_iff : ∀ name, name ∈ names ↔ ∃ terminal ∈ set, g.name? terminal = some name := by
    intro name
    have member : some name ∈ set.toList.map g.name? ↔ some name ∈ names.map some := by rw [same]
    simpa [SortedSet.mem_toList] using member.symm
  have distinct : names.Nodup := by
    refine List.Nodup.of_map some
      (same ▸ List.Nodup.map_on (fun a member b member' equal => ?_) set.nodup)
    have bounds := isTerminal_iff.mp (terminals a member)
    have bounds' := isTerminal_iff.mp (terminals b member')
    exact eq_of_name? wf ⟨by omega, bounds.2⟩ (by omega) equal
  have sorted := List.mergeSort_perm names fun a b => a ≤ b
  refine ⟨_, congrArg (Option.map _) named, sorted.nodup_iff.mpr distinct, ?_, fun name => ?_⟩
  · have trans : ∀ a b c : String, decide (a ≤ b) → decide (b ≤ c) → decide (a ≤ c) :=
      fun a b c below below' =>
        decide_eq_true (String.le_trans (of_decide_eq_true below) (of_decide_eq_true below'))
    have total : ∀ a b : String, decide (a ≤ b) || decide (b ≤ a) :=
      fun a b => by simpa using String.le_total a b
    exact (List.pairwise_mergeSort trans total names).imp of_decide_eq_true
  · exact sorted.mem_iff.trans (mem_iff name)

theorem Lists.antisymm {g' : Grammar} {set set' : SortedSet Nat} {names names' : List String}
    (lists : g.Lists set names) (lists' : g'.Lists set' names') (below : names ⊆ names')
    (above : names' ⊆ names) :
    names = names' :=
  List.Perm.eq_of_pairwise (fun _ _ _ _ => String.le_antisymm) lists.ascending lists'.ascending
    ((List.perm_ext_iff_of_nodup lists.distinct lists'.distinct).mpr fun _ => ⟨(below ·), (above ·)⟩)

/-- The sets are those of the non-terminal. -/
structure HasSets (g : Grammar) (nonTerminal : Nat) (sets : NamedSets) : Prop where
  first : g.Lists (g.first [nonTerminal]).terminals sets.first
  nullable : sets.nullable = (g.first [nonTerminal]).nullable
  follow : g.Lists (g.follow nonTerminal) sets.follow

theorem HasSets.antisymm {g' : Grammar} {nonTerminal nonTerminal' : Nat} {sets sets' : NamedSets}
    (has : g.HasSets nonTerminal sets) (has' : g'.HasSets nonTerminal' sets') (below : sets.Le sets')
    (above : sets'.Le sets) : sets = sets' := by
  have first := has.first.antisymm has'.first below.first above.first
  have follow := has.follow.antisymm has'.follow below.follow above.follow
  have nullable : sets.nullable = sets'.nullable := Bool.eq_iff_iff.mpr ⟨below.nullable, above.nullable⟩
  cases sets
  cases sets'
  simp_all

/-- The sets of a non-terminal are found by its name. -/
theorem exists_namedSets (wf : g.WellFormed) {nonTerminal : Nat} (listed : nonTerminal ∈ g.nonTerminals)
    {head : String} (named : g.name? nonTerminal = some head) :
    ∃ sets, g.namedSets? head = some sets ∧ g.HasSets nonTerminal sets := by
  obtain ⟨found, entry⟩ := exists_firstSet listed
  obtain ⟨-, found', -, entry', -⟩ := exists_seed listed
  have first := first_cons_listed listed entry
  have follow : g.follow nonTerminal = found' := congrArg (Option.getD · ∅) entry'
  obtain ⟨begins, sorted, begins_spec⟩ := exists_sortedNames wf fun terminal member =>
    ((g.firstSets_at_rest.1 nonTerminal found entry).1 terminal member).1
  obtain ⟨behind, sorted', behind_spec⟩ := exists_sortedNames wf fun terminal member =>
    isTerminal_of_mem_follow (follow ▸ member : terminal ∈ g.follow nonTerminal)
  refine ⟨⟨begins, found.nullable, behind⟩, ?_, ⟨first ▸ begins_spec, first ▸ rfl, follow ▸ behind_spec⟩⟩
  simp [namedSets?, index?_of_name? wf (mem_nonTerminals_iff.mp listed).1 named, entry, entry',
    sorted, sorted']

/-- A row is made from the sets that are found by the name of the non-terminal. -/
theorem setsRow_eq (wf : g.WellFormed) {nonTerminal : Nat} (listed : nonTerminal ∈ g.nonTerminals)
    {name : String} (named : g.name? nonTerminal = some name) {sets : NamedSets}
    (found : g.namedSets? name = some sets) :
    Render.SetsRow.of? g g.firstSets (g.followSets g.firstSets) nonTerminal =
      some ⟨name, sets.nullable, sets.first ++ if sets.nullable then [emptyWord] else [],
        sets.follow⟩ := by
  rw [namedSets?, index?_of_name? wf (mem_nonTerminals_iff.mp listed).1 named] at found
  obtain ⟨symbol, same, found⟩ := Option.bind_eq_some_iff.mp found
  obtain rfl := Option.some.inj same
  obtain ⟨begins, entry, found⟩ := Option.bind_eq_some_iff.mp found
  obtain ⟨behind, entry', found⟩ := Option.bind_eq_some_iff.mp found
  obtain ⟨firstNames, sorted, found⟩ := Option.bind_eq_some_iff.mp found
  obtain ⟨followNames, sorted', found⟩ := Option.bind_eq_some_iff.mp found
  obtain rfl := Option.some.inj found
  simp [Render.SetsRow.of?, entry, entry', named, sorted, sorted']

end Grammar

end ParseTables
