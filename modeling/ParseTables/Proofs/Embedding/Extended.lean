import ParseTables.Proofs.Embedding.Conflicts
import ParseTables.Proofs.Embedding.Named

namespace ParseTables

namespace Grammar

variable {pairs more : List (String × String)} {designated : Option String} {g g' : Grammar}

theorem heads_append {name : String} :
    Heads (pairs ++ more) name ↔ Heads pairs name ∨ Heads more name := by
  simp only [Heads, List.mem_append, or_and_right, exists_or]

theorem occurs_append {word : String} :
    Occurs (pairs ++ more) word ↔ Occurs pairs word ∨ Occurs more word := by
  simp only [Occurs, List.mem_append, or_and_right, exists_or]

/-- The names of a grammar are found again among those of one with further pairs. -/
theorem Reads.exists_names (reads : g.Reads pairs designated)
    (reads' : g'.Reads (pairs ++ more) designated) :
    ∃ places : Equiv.Perm Nat, ∀ place name, g.names[place]? = some name →
      g'.names[places place]? = some name := by
  have included : g.names ⊆ g'.names := by
    intro name member
    rw [reads'.mem_names, heads_append, occurs_append]
    exact (reads.mem_names.mp member).imp Or.inl (Or.imp_left Or.inl)
  -- up to their order, the names are the known ones and others after them
  obtain ⟨known, same, part⟩ := List.subperm_of_subset reads.wf.names_nodup included
  obtain ⟨others, whole⟩ := part.exists_perm_append
  obtain ⟨places, found⟩ := exists_places ((same.symm.append_right others).trans whole.symm)
  refine ⟨places, fun place name named => ?_⟩
  obtain ⟨inside, -⟩ := List.getElem?_eq_some_iff.mp named
  rw [found, List.getElem?_append_left inside, named]

/-- A grammar is inside one with further pairs for the heads that it has. -/
theorem Reads.exists_embedding (reads : g.Reads pairs designated)
    (reads' : g'.Reads (pairs ++ more) designated) (nonempty : pairs ≠ [])
    (heads : ∀ name, Heads more name → Heads pairs name) :
    ∃ symbol number, Embeds symbol number g g' := by
  have sameHeads : ∀ name, Heads pairs name ↔ Heads (pairs ++ more) name := fun name => by
    rw [heads_append, or_iff_left_of_imp (heads name)]
  have start : g'.name? g'.start = g.name? g.start := by
    rw [reads.start, reads'.start, List.head?_append_of_ne_nil _ nonempty]
  obtain ⟨names, renamed⟩ := reads.exists_names reads'
  have kept : ∀ place pair, pairs[place]? = some pair →
      (pairs ++ more)[Equiv.refl Nat place]? = some pair := by
    intro place pair found
    obtain ⟨inside, -⟩ := List.getElem?_eq_some_iff.mp found
    exact (List.getElem?_append_left inside).trans found
  exact ⟨_, _, reads.embeds reads' kept renamed sameHeads start⟩

/-- With a further alternative for one of its heads, a grammar has First and Follow sets that are at
least as large, what could vanish still can, and a conflict in either table stays one under the same
policy. -/
theorem ofRules_append {pair : String × String} (built : ofRules pairs designated = .ok g)
    {name : String} (headed : headName pair.1 = .ok name) (known : name ∈ g.heads)
    (built' : ofRules (pairs ++ [pair]) designated = .ok g') :
    (∀ head ∈ g.heads, ∃ sets sets', g.namedSets? head = some sets ∧ g'.namedSets? head = some sets' ∧
      sets.Le sets') ∧
    ∀ policy,
      ((Analysis.ofGrammar g policy).predictive.hasConflict →
        (Analysis.ofGrammar g' policy).predictive.hasConflict) ∧
      ((Analysis.ofGrammar g policy).conflicts ≠ [] →
        (Analysis.ofGrammar g' policy).conflicts ≠ []) := by
  have reads := reads_of_ofRules built
  have reads' := reads_of_ofRules built'
  have wf := reads.wf
  have wf' := reads'.wf
  have nonempty : pairs ≠ [] := (exists_ofRules_iff.mp ⟨g, built⟩).1
  obtain ⟨symbol, number, embeds⟩ := reads.exists_embedding reads' nonempty fun other heads => by
    obtain ⟨pair, member, head⟩ := heads
    obtain rfl := List.mem_singleton.mp member
    obtain rfl : name = other := Except.ok.inj (headed.symm.trans head)
    exact (reads.mem_heads name).mp known
  refine ⟨fun head member => ?_, fun policy => ⟨embeds.hasConflict wf wf', fun conflicting clean => ?_⟩⟩
  · obtain ⟨nonTerminal, listed, sets, sets', found, found', has, has'⟩ :=
      embeds.exists_namedSets wf wf' member
    exact ⟨sets, sets', found, found', embeds.namedSets_le wf wf' listed has has'⟩
  · have none : (Analysis.ofGrammar g policy).isSLR := embeds.isSLR wf wf' (List.isEmpty_iff.mpr clean)
    exact conflicting (List.isEmpty_iff.mp none)

/-- Sums in which the order of the additions is open. -/
def openSums : Grammar := ⟨"E'", #["E"], #["+", "a"], 1, [⟨1, [1, 2, 1]⟩, ⟨1, [3]⟩]⟩

/-- With brackets added there are other terminals and more states, and still conflicts in both tables. -/
theorem ofRules_append_openSums :
    headName " E" = .ok "E" ∧ openSums.namedSets? "E" = some ⟨["a"], false, ["$", "+"]⟩ ∧
      ∃ g, ofRules [("E", "E + E"), ("E", "a"), (" E", "( E )")] none = .ok g ∧
        (∃ sets, g.namedSets? "E" = some sets ∧ ["a"] ⊆ sets.first ∧ ["$", "+"] ⊆ sets.follow) ∧
        (Analysis.ofGrammar g .followOverlap).predictive.hasConflict ∧
        (Analysis.ofGrammar g .followOverlap).conflicts ≠ [] := by
  have built : ofRules [("E", "E + E"), ("E", "a")] none = .ok openSums := by cbv
  have headed : headName " E" = .ok "E" := by cbv
  have known : openSums.namedSets? "E" = some ⟨["a"], false, ["$", "+"]⟩ := by cbv
  have built' : ofRules ([("E", "E + E"), ("E", "a")] ++ [(" E", "( E )")]) none =
      .ok ⟨"E'", #["E"], #["+", "a", "(", ")"], 1, [⟨1, [1, 2, 1]⟩, ⟨1, [3]⟩, ⟨1, [4, 1, 5]⟩]⟩ := by cbv
  obtain ⟨grows, kept⟩ := ofRules_append built headed (by simp [openSums]) built'
  obtain ⟨sets, sets', found, found', below⟩ := grows "E" (by simp [openSums])
  obtain rfl := Option.some.inj (found.symm.trans known)
  obtain ⟨predictive, shiftReduce⟩ := kept .followOverlap
  exact ⟨headed, known, _, built', ⟨sets', found', below.first, below.follow⟩,
    predictive (by decide +kernel), shiftReduce (by decide +kernel)⟩

end Grammar

end ParseTables
