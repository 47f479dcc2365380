import ParseTables.Proofs.Grammar.Bodies

namespace ParseTables

/-- Each head with its bodies, one pair for each. -/
def grouped (pairs : List (String × String)) (write : List String → String) : List (String × String) :=
  (headsOf pairs).flatMap fun head => (bodiesUnder pairs head).map fun words => (head, write words)

/-- The same heads in the same order, and the same bodies under each of them. -/
structure SameBodies (pairs pairs' : List (String × String)) : Prop where
  heads : headsOf pairs' = headsOf pairs
  bodies : ∀ head ∈ headsOf pairs, bodiesUnder pairs' head = bodiesUnder pairs head

/-- The heads are single words that may stand on a left side. -/
def Proper (pairs : List (String × String)) : Prop :=
  ∀ pair ∈ pairs, headName pair.1 = .ok (Text.trim pair.1)

/-- The same names of non-terminals in the same order, the same start symbol, the same names of terminals
in any order, and the same bodies under each head. -/
structure Grammar.SameNames (g g' : Grammar) : Prop where
  heads : g'.heads = g.heads
  start : g'.name? g'.start = g.name? g.start
  terminals : ∀ name, name ∈ g'.terminalNames ↔ name ∈ g.terminalNames
  bodies : ∀ symbol ∈ g.nonTerminals, ∃ bodies, g.bodies? symbol = some bodies ∧
    g'.bodies? symbol = some bodies

variable {pairs pairs' : List (String × String)}

theorem mem_headsOf {head : String} :
    head ∈ headsOf pairs ↔ ∃ pair ∈ pairs, Text.trim pair.1 = head := by
  simp [headsOf, trimmedHeads, List.mem_eraseDups]

theorem mem_bodiesUnder {head : String} {words : List String} :
    words ∈ bodiesUnder pairs head ↔
      ∃ pair ∈ pairs, Text.trim pair.1 = head ∧ bodyWords pair.2 = words := by
  simp [bodiesUnder, and_assoc]

theorem bodiesUnder_ne_nil {head : String} (member : head ∈ headsOf pairs) :
    bodiesUnder pairs head ≠ [] := by
  obtain ⟨pair, inside, same⟩ := mem_headsOf.mp member
  exact List.ne_nil_of_mem (mem_bodiesUnder.mpr ⟨pair, inside, same, rfl⟩)

theorem head?_headsOf : (headsOf pairs).head? = (trimmedHeads pairs).head? := by
  cases pairs with
  | nil => rfl
  | cons pair rest => rw [headsOf, trimmedHeads, List.map_cons, List.eraseDups_cons]; rfl

theorem occurs_iff {word : String} :
    Occurs pairs word ↔ ∃ head ∈ headsOf pairs, ∃ words ∈ bodiesUnder pairs head, word ∈ words := by
  simp only [Occurs, mem_headsOf, mem_bodiesUnder]
  constructor
  · rintro ⟨pair, inside, member⟩
    exact ⟨_, ⟨pair, inside, rfl⟩, _, ⟨pair, inside, rfl, rfl⟩, member⟩
  · rintro ⟨_, -, _, ⟨pair, inside, -, rfl⟩, member⟩
    exact ⟨pair, inside, member⟩

theorem Proper.heads_iff (proper : Proper pairs) {name : String} :
    Heads pairs name ↔ name ∈ headsOf pairs := by
  rw [Heads, mem_headsOf]
  refine exists_congr fun pair => and_congr_right fun inside => ?_
  rw [proper pair inside, Except.ok.injEq]

theorem proper_of_ofRules {designated : Option String} {g : Grammar}
    (built : Grammar.ofRules pairs designated = .ok g) : Proper pairs := by
  intro pair inside
  obtain ⟨name, named⟩ := (Grammar.exists_ofRules_iff.mp ⟨g, built⟩).2.1 pair inside
  rw [named, trim_of_headName named]

namespace SameBodies

variable (same : SameBodies pairs pairs')
include same

theorem occurs {word : String} : Occurs pairs' word ↔ Occurs pairs word := by
  rw [occurs_iff, occurs_iff, same.heads]
  refine exists_congr fun head => and_congr_right fun inside => ?_
  rw [same.bodies head inside]

/-- Pairs with the same bodies make a grammar that is the same by names. -/
theorem exists_ofRules (proper : Proper pairs') {g : Grammar}
    (built : Grammar.ofRules pairs none = .ok g) :
    ∃ g', Grammar.ofRules pairs' none = .ok g' ∧ g.SameNames g' := by
  have heads : ∀ name, Heads pairs' name ↔ Heads pairs name := fun name => by
    rw [proper.heads_iff, (proper_of_ofRules built).heads_iff, same.heads]
  obtain ⟨nonempty, -, -, sound⟩ := Grammar.exists_ofRules_iff.mp ⟨g, built⟩
  obtain ⟨g', built'⟩ : ∃ g', Grammar.ofRules pairs' none = .ok g' := by
    refine Grammar.exists_ofRules_iff.mpr
      ⟨?_, fun pair inside => ⟨_, proper pair inside⟩, by simp, fun word occurs => ?_⟩
    · rintro rfl
      obtain ⟨pair, inside⟩ := List.exists_mem_of_ne_nil pairs nonempty
      have member := mem_headsOf.mpr ⟨pair, inside, rfl⟩
      rw [← same.heads] at member
      cases member
    · rw [heads]
      exact sound word (same.occurs.mp occurs)
  have sameHeads : g'.heads = g.heads := by
    rw [← Array.toList_inj, Grammar.heads_ofRules built', Grammar.heads_ofRules built]
    exact same.heads
  refine ⟨g', built', sameHeads, ?_, fun name => ?_, fun symbol listed => ?_⟩
  · have starts := Grammar.start_ofRules built
    have starts' := Grammar.start_ofRules built'
    rw [← head?_headsOf] at starts starts'
    rw [starts, starts', same.heads]
  · rw [(Grammar.reads_of_ofRules built').mem_terminals,
      (Grammar.reads_of_ofRules built).mem_terminals, heads,
      same.occurs]
  · have listed' : symbol ∈ g'.nonTerminals := by
      rwa [Grammar.nonTerminals, Grammar.nonTerminalCount, sameHeads]
    obtain ⟨positive, bound⟩ := Grammar.mem_nonTerminals_iff.mp listed
    obtain ⟨place, rfl⟩ := Nat.exists_eq_succ_of_ne_zero (Nat.ne_of_gt positive)
    have inside : place < g.heads.size := bound
    have named : g.name? (place + 1) = some g.heads[place] := by
      rw [Grammar.name?, if_pos inside, Array.getElem?_eq_getElem inside]
    have named' : g'.name? (place + 1) = some g.heads[place] := by
      rw [Grammar.name?, sameHeads, if_pos inside, Array.getElem?_eq_getElem inside]
    have member : g.heads[place] ∈ headsOf pairs := by
      rw [← Grammar.heads_ofRules built]
      exact Array.getElem_mem_toList inside
    refine ⟨_, Grammar.bodies?_ofRules built listed named, ?_⟩
    rw [← same.bodies _ member]
    exact Grammar.bodies?_ofRules built' listed' named'

end SameBodies

section Runs

variable {α β : Type}

/-- A run of one element, with none of it later, counts once. -/
theorem eraseDups_run [DecidableEq α] {run rest : List α} {a : α} (nonempty : run ≠ [])
    (only : ∀ b ∈ run, b = a) (absent : a ∉ rest) : (run ++ rest).eraseDups = a :: rest.eraseDups := by
  cases run with
  | nil => exact absurd rfl nonempty
  | cons b others =>
    obtain ⟨rfl, only⟩ := List.forall_mem_cons.mp only
    have gone : others.filter (fun c => !c == b) = [] :=
      List.filter_eq_nil_iff.mpr fun c member => by simp [only c member]
    have kept : rest.filter (fun c => !c == b) = rest :=
      List.filter_eq_self.mpr fun c member => by simpa using fun same : c = b => absent (same ▸ member)
    rw [List.cons_append, List.eraseDups_cons, List.filter_append, gone, kept, List.nil_append]

theorem eraseDups_flatMap [DecidableEq α] {heads : List α} {run : α → List α} (distinct : heads.Nodup)
    (runs : ∀ head ∈ heads, run head ≠ [] ∧ ∀ b ∈ run head, b = head) :
    (heads.flatMap run).eraseDups = heads := by
  induction heads with
  | nil => rfl
  | cons head rest ih =>
    obtain ⟨absent, distinct⟩ := List.nodup_cons.mp distinct
    obtain ⟨⟨nonempty, only⟩, runs⟩ := List.forall_mem_cons.mp runs
    have elsewhere : head ∉ rest.flatMap run := by
      rw [List.mem_flatMap]
      rintro ⟨other, inRest, member⟩
      exact absent ((runs other inRest).2 head member ▸ inRest)
    rw [List.flatMap_cons, eraseDups_run nonempty only elsewhere, ih distinct runs]

/-- What belongs to one head stands together. -/
theorem filter_flatMap_of_mem {heads : List α} {part : α → List β} (distinct : heads.Nodup) {head : α}
    (member : head ∈ heads) {belongs : β → Bool}
    (only : ∀ other ∈ heads, ∀ b ∈ part other, (belongs b ↔ other = head)) :
    (heads.flatMap part).filter belongs = part head := by
  obtain ⟨before, after, rfl⟩ := List.append_of_mem member
  have apart : ∀ others ⊆ before ++ head :: after, head ∉ others →
      (others.flatMap part).filter belongs = [] := by
    intro others inside absent
    refine List.filter_eq_nil_iff.mpr fun b found => ?_
    obtain ⟨other, listed, inPart⟩ := List.mem_flatMap.mp found
    rw [only other (inside listed) b inPart]
    rintro rfl
    exact absent listed
  have here : (part head).filter belongs = part head :=
    List.filter_eq_self.mpr fun b inPart => (only head member b inPart).mpr rfl
  obtain ⟨-, later, disjoint⟩ := List.nodup_append.mp distinct
  rw [List.flatMap_append, List.flatMap_cons, List.filter_append, List.filter_append, here,
    apart before (List.subset_append_left _ _) fun inBefore =>
      disjoint _ inBefore _ List.mem_cons_self rfl,
    apart after (List.subset_append_of_subset_right _ (List.subset_cons_self _ _))
      (List.nodup_cons.mp later).1,
    List.nil_append, List.append_nil]

end Runs

theorem nodup_headsOf : (headsOf pairs).Nodup := by
  rw [headsOf, ← distinct_eq_eraseDups]
  exact nodup_distinct _

/-- To put the rules of each head together changes no bodies, if the heads and the bodies are read as
they are written. -/
theorem sameBodies_grouped {write : List String → String}
    (heads : ∀ head ∈ headsOf pairs, Text.trim head = head)
    (bodies : ∀ pair ∈ pairs, bodyWords (write (bodyWords pair.2)) = bodyWords pair.2) :
    SameBodies pairs (grouped pairs write) := by
  constructor
  · have trimmed : trimmedHeads (grouped pairs write) =
        (headsOf pairs).flatMap fun head => (bodiesUnder pairs head).map fun _ => Text.trim head := by
      rw [trimmedHeads, grouped, List.map_flatMap]
      simp only [List.map_map]
      rfl
    rw [headsOf, trimmed]
    refine eraseDups_flatMap nodup_headsOf fun head member =>
      ⟨by simpa using bodiesUnder_ne_nil member, ?_⟩
    intro b inRun
    obtain ⟨-, -, rfl⟩ := List.mem_map.mp inRun
    exact heads head member
  · intro head member
    have together : (grouped pairs write).filter (fun pair => Text.trim pair.1 = head) =
        (bodiesUnder pairs head).map fun words => (head, write words) := by
      refine filter_flatMap_of_mem nodup_headsOf member fun other listed pair inPart => ?_
      obtain ⟨words, -, rfl⟩ := List.mem_map.mp inPart
      rw [decide_eq_true_iff, heads other listed]
    rw [bodiesUnder, together, List.map_map]
    refine (List.map_congr_left fun words inside => ?_).trans (List.map_id _)
    obtain ⟨pair, inPairs, -, rfl⟩ := mem_bodiesUnder.mp inside
    exact bodies pair inPairs

theorem proper_grouped {write : List String → String} (proper : Proper pairs)
    (heads : ∀ head ∈ headsOf pairs, Text.words head = [head]) : Proper (grouped pairs write) := by
  intro entry inside
  obtain ⟨head, listed, inPart⟩ := List.mem_flatMap.mp inside
  obtain ⟨words, -, rfl⟩ := List.mem_map.mp inPart
  obtain ⟨pair, member, rfl⟩ := mem_headsOf.mp listed
  have single := heads _ listed
  show headName (Text.trim pair.1) = .ok (Text.trim (Text.trim pair.1))
  rw [Text.words_eq_of_trim single]
  exact headName_eq_ok_iff.mpr ⟨single, (headName_eq_ok_iff.mp (proper pair member)).2⟩

end ParseTables
