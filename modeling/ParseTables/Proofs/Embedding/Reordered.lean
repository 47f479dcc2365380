import ParseTables.Proofs.Embedding.Conflicts
import ParseTables.Proofs.Embedding.Named

namespace ParseTables

namespace Grammar

variable {pairs pairs' : List (String × String)} {g g' : Grammar}

theorem heads_iff_of_perm (perm : pairs.Perm pairs') (name : String) :
    Heads pairs name ↔ Heads pairs' name := by
  simp only [Heads, perm.mem_iff]

theorem occurs_iff_of_perm (perm : pairs.Perm pairs') (word : String) :
    Occurs pairs word ↔ Occurs pairs' word := by
  simp only [Occurs, perm.mem_iff]

theorem Reads.names_perm {designated designated' : Option String} (reads : g.Reads pairs designated)
    (reads' : g'.Reads pairs' designated') (perm : pairs.Perm pairs') : g.names.Perm g'.names := by
  refine (List.perm_ext_iff_of_nodup reads.wf.names_nodup reads'.wf.names_nodup).mpr fun name => ?_
  rw [reads.mem_names, reads'.mem_names, heads_iff_of_perm perm, occurs_iff_of_perm perm]

theorem WellFormed.heads_nodup (wf : g.WellFormed) : g.heads.toList.Nodup :=
  (wf.names_nodup.sublist (List.sublist_append_left _ _)).sublist (List.sublist_append_left _ _)

/-- Each of two grammars for the same pairs is inside the other. -/
theorem Reads.exists_renaming {start : String} (reads : g.Reads pairs (some start))
    (reads' : g'.Reads pairs' (some start)) (perm : pairs.Perm pairs') :
    ∃ symbol number : Equiv.Perm Nat, Embeds symbol number g g' ∧
      Embeds symbol.symm number.symm g' g := by
  obtain ⟨places, moved⟩ := exists_places perm
  obtain ⟨names, renamed⟩ := exists_places (reads.names_perm reads' perm)
  have heads := heads_iff_of_perm perm
  have starts : g'.name? g'.start = g.name? g.start := reads'.start.trans reads.start.symm
  -- the inverse permutations lead back, so the same lemma serves both ways
  have moved' : ∀ place, pairs[places.symm place]? = pairs'[place]? := fun place => by
    rw [← moved, Equiv.apply_symm_apply]
  have renamed' : ∀ place, g.names[names.symm place]? = g'.names[place]? := fun place => by
    rw [← renamed, Equiv.apply_symm_apply]
  refine ⟨shifted names, shifted places, ?_, ?_⟩
  · exact reads.embeds reads' (fun place _ => (moved place).trans)
      (fun place _ => (renamed place).trans) heads starts
  · exact reads'.embeds reads (fun place _ => (moved' place).trans)
      (fun place _ => (renamed' place).trans)
      (fun name => (heads name).symm) starts.symm

/-- Pairs in another order make a grammar too, with the same start symbol. It has the same First and
Follow sets by names, as many states, and conflicts in its tables exactly if the other one has them. -/
theorem ofRules_perm (perm : pairs.Perm pairs') (start : String) :
    ((∃ g, ofRules pairs (some start) = .ok g) ↔ ∃ g', ofRules pairs' (some start) = .ok g') ∧
    ∀ g g', ofRules pairs (some start) = .ok g → ofRules pairs' (some start) = .ok g' →
      g.heads.toList.Perm g'.heads.toList ∧
      (∀ head ∈ g.heads, ∃ sets, g.namedSets? head = some sets ∧ g'.namedSets? head = some sets) ∧
      g.automaton.states.length = g'.automaton.states.length ∧
      ∀ policy, (Analysis.ofGrammar g policy).isLL = (Analysis.ofGrammar g' policy).isLL ∧
        (Analysis.ofGrammar g policy).isSLR = (Analysis.ofGrammar g' policy).isSLR := by
  refine ⟨?_, fun g g' built built' => ?_⟩
  · have empty : pairs = [] ↔ pairs' = [] := by
      rw [← List.length_eq_zero_iff, perm.length_eq, List.length_eq_zero_iff]
    simp only [exists_ofRules_iff, ne_eq, empty, perm.mem_iff, heads_iff_of_perm perm,
      occurs_iff_of_perm perm]
  have reads := reads_of_ofRules built
  have reads' := reads_of_ofRules built'
  have wf := reads.wf
  have wf' := reads'.wf
  have heads : ∀ head, head ∈ g.heads ↔ head ∈ g'.heads := fun head => by
    rw [reads.mem_heads, reads'.mem_heads, heads_iff_of_perm perm]
  obtain ⟨symbol, number, embeds, back⟩ := reads.exists_renaming reads' perm
  refine ⟨?_, fun head member => ?_, ?_, fun policy => ⟨?_, ?_⟩⟩
  · refine (List.perm_ext_iff_of_nodup wf.heads_nodup wf'.heads_nodup).mpr fun head => ?_
    exact Array.mem_toList_iff.trans ((heads head).trans Array.mem_toList_iff.symm)
  · obtain ⟨nonTerminal, listed, sets, sets', found, found', has, has'⟩ :=
      embeds.exists_namedSets wf wf' member
    have below := embeds.namedSets_le wf wf' listed has has'
    have above := back.namedSets_le wf' wf (embeds.nonTerminal _ listed) has' (by simpa using has)
    exact ⟨sets, found, has.antisymm has' below above ▸ found'⟩
  · exact (embeds.length_states_eq wf wf' back).symm
  · exact congrArg (!·) (Bool.eq_iff_iff.mpr ⟨embeds.hasConflict wf wf', back.hasConflict wf' wf⟩)
  · exact Bool.eq_iff_iff.mpr ⟨back.isSLR wf' wf, embeds.isSLR wf wf'⟩

/-- Sums of ones and brackets. -/
def bracketedSums : Grammar :=
  ⟨"E''", #["E", "E'", "T"], #["+", "(", ")", "1"], 1,
    [⟨1, [3, 2]⟩, ⟨2, [4, 3, 2]⟩, ⟨2, []⟩, ⟨3, [5, 1, 6]⟩, ⟨3, [7]⟩]⟩

/-- Sums of sums and ones. -/
def ungroupedSums : Grammar := ⟨"E'", #["E"], #["+", "1"], 1, [⟨1, [1, 2, 1]⟩, ⟨1, [3]⟩]⟩

/-- The rules for sums from the last to the first, of which all is known from the rules in their usual
order. The bracketed ones have no conflict, the ungrouped ones have conflicts in both tables. -/
theorem ofRules_perm_bracketedSums :
    ([("E", "T E'"), ("E'", "+ T E'"), ("E'", "e"), ("T", "( E )"), ("T", "1")].Perm
        [("T", "1"), ("T", "( E )"), ("E'", "e"), ("E'", "+ T E'"), ("E", "T E'")] ∧
      ∃ g, ofRules [("T", "1"), ("T", "( E )"), ("E'", "e"), ("E'", "+ T E'"), ("E", "T E'")]
        (some "E") = .ok g ∧
        g.namedSets? "E'" = some ⟨["+"], true, ["$", ")"]⟩ ∧ g.automaton.states.length = 11 ∧
        (Analysis.ofGrammar g .anyMultiple).isLL ∧ (Analysis.ofGrammar g .anyMultiple).isSLR) ∧
    [("E", "E + E"), ("E", "1")].Perm [("E", "1"), ("E", "E + E")] ∧
      ∃ g, ofRules [("E", "1"), ("E", "E + E")] (some "E") = .ok g ∧
        g.namedSets? "E" = some ⟨["1"], false, ["$", "+"]⟩ ∧ g.automaton.states.length = 5 ∧
        ∀ policy, ¬(Analysis.ofGrammar g policy).isLL ∧ ¬(Analysis.ofGrammar g policy).isSLR := by
  constructor
  · have perm : [("E", "T E'"), ("E'", "+ T E'"), ("E'", "e"), ("T", "( E )"), ("T", "1")].Perm
        [("T", "1"), ("T", "( E )"), ("E'", "e"), ("E'", "+ T E'"), ("E", "T E'")] :=
      (List.reverse_perm _).symm
    have built : ofRules [("E", "T E'"), ("E'", "+ T E'"), ("E'", "e"), ("T", "( E )"), ("T", "1")]
        (some "E") = .ok bracketedSums := by cbv
    obtain ⟨succeeds, alike⟩ := ofRules_perm perm "E"
    obtain ⟨g, built'⟩ := succeeds.mp ⟨bracketedSums, built⟩
    obtain ⟨-, named, states, verdicts⟩ := alike bracketedSums g built built'
    obtain ⟨sets, found, found'⟩ := named "E'" (by simp [bracketedSums])
    have known : bracketedSums.namedSets? "E'" = some ⟨["+"], true, ["$", ")"]⟩ := by cbv
    obtain ⟨predictive, shiftReduce⟩ := verdicts .anyMultiple
    refine ⟨perm, g, built', found'.trans (found.symm.trans known), ?_, ?_, ?_⟩
    · rw [← states]
      decide +kernel
    · rw [← predictive]
      decide +kernel
    · rw [← shiftReduce]
      decide +kernel
  · have perm : [("E", "E + E"), ("E", "1")].Perm [("E", "1"), ("E", "E + E")] := .swap ..
    have built : ofRules [("E", "E + E"), ("E", "1")] (some "E") = .ok ungroupedSums := by cbv
    obtain ⟨succeeds, alike⟩ := ofRules_perm perm "E"
    obtain ⟨g, built'⟩ := succeeds.mp ⟨ungroupedSums, built⟩
    obtain ⟨-, named, states, verdicts⟩ := alike ungroupedSums g built built'
    obtain ⟨sets, found, found'⟩ := named "E" (by simp [ungroupedSums])
    have known : ungroupedSums.namedSets? "E" = some ⟨["1"], false, ["$", "+"]⟩ := by cbv
    refine ⟨perm, g, built', found'.trans (found.symm.trans known), ?_, fun policy => ?_⟩
    · rw [← states]
      decide +kernel
    · obtain ⟨predictive, shiftReduce⟩ := verdicts policy
      rw [← predictive, ← shiftReduce]
      cases policy <;> decide +kernel

end Grammar

end ParseTables
