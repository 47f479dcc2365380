import ParseTables.Proofs.Lookahead.Named
import ParseTables.Proofs.Lookup.Documents
import ParseTables.Proofs.Text.TeX

namespace ParseTables

open Grammar Render

namespace Render.SetsRow

/-- The symbol for the empty string in TeX. -/
def emptyMark : String := "$\\epsilon$"

theorem latexEmptyWords_append (text after : String) :
    latexEmptyWords (text ++ after) = latexEmptyWords text ++ latexEmptyWords after := by
  rw [latexEmptyWords, String.toList_append, List.flatMap_append, String.ofList_append]
  rfl

theorem not_mem_latexEmptyWords (text : String) : 'ε' ∉ (latexEmptyWords text).toList := by
  rw [latexEmptyWords, String.toList_ofList, List.mem_flatMap]
  rintro ⟨c, -, written⟩
  split at written
  · exact absurd written (by decide)
  · rename_i other
    exact other (List.mem_singleton.mp written).symm

theorem latexEmptyWords_eq_iff {text : String} : latexEmptyWords text = text ↔ 'ε' ∉ text.toList := by
  constructor
  · intro same
    rw [← same]
    exact not_mem_latexEmptyWords text
  · intro free
    have each : ∀ c ∈ text.toList, (if c = 'ε' then "$\\epsilon$".toList else [c]) = [c] := by
      intro c member
      refine if_neg ?_
      rintro rfl
      exact free member
    rw [latexEmptyWords, List.flatMap_def, List.map_congr_left each, ← List.flatMap_def,
      List.flatMap_singleton',
      String.ofList_toList]

/-- Each part of a text is replaced on its own. -/
theorem latexEmptyWords_intercalate {separator : String} (free : 'ε' ∉ separator.toList)
    (parts : List String) :
    latexEmptyWords (separator.intercalate parts) =
      separator.intercalate (parts.map latexEmptyWords) := by
  induction parts with
  | nil => rfl
  | cons part rest ih =>
    cases rest with
    | nil => rw [String.intercalate_singleton, List.map_singleton, String.intercalate_singleton]
    | cons other rest =>
      rw [List.map_cons, List.map_cons, String.intercalate_cons_cons, String.intercalate_cons_cons,
        ← List.map_cons, ← ih,
        latexEmptyWords_append, latexEmptyWords_append, latexEmptyWords_eq_iff.mpr free]

theorem isInfix_latexEmptyWords {text : String} (letter : 'ε' ∈ text.toList) :
    emptyMark.toList <:+: (latexEmptyWords text).toList := by
  obtain ⟨before, after, whole⟩ := List.append_of_mem letter
  rw [latexEmptyWords, String.toList_ofList, whole, List.flatMap_append, List.flatMap_cons, if_pos rfl]
  exact ⟨_, _, List.append_assoc _ _ _⟩

/-- A cell with some names, each written in some way, and with the symbol for the empty string at its end
if it belongs there. -/
def cell (write : String → String) (names : List String) (nullable : Bool) : String :=
  "\\ ".intercalate (names.map write ++ if nullable then [emptyMark] else [])

/-- A name as it is in a cell: escaped, and then with the symbol for the empty string for a letter. -/
def writtenName [Text.TeX] (name : String) : String := latexEmptyWords (Text.TeX.escape name)

theorem latexEntries_eq [Text.TeX] [Text.TeX.Lawful] (names : List String) (nullable : Bool) :
    latexEntries (names ++ if nullable then [emptyWord] else []) = cell writtenName names nullable := by
  have empty : latexEmptyWords (Text.TeX.escape emptyWord) = emptyMark := by
    rw [emptyWord, Text.TeX.Lawful.alone]
    rfl
  rw [latexEntries, latexEmptyWords_intercalate (by decide), cell, List.map_append, List.map_append,
    List.map_map]
  cases nullable with
  | false => rfl
  | true => exact congrArg (fun last => "\\ ".intercalate (names.map writtenName ++ [last])) empty

/-- A cell is that of the escaped names unless there is the letter in one of them. -/
theorem cell_writtenName_eq_iff [Text.TeX] [Text.TeX.Lawful] {names : List String} {nullable : Bool} :
    cell writtenName names nullable = cell Text.TeX.escape names nullable ↔
      ∀ name ∈ names, 'ε' ∉ name.toList := by
  constructor
  · intro same name member letter
    -- nothing of the letter is left in what is written
    have none : 'ε' ∉ (cell writtenName names nullable).toList := by
      rw [← latexEntries_eq, latexEntries]
      exact not_mem_latexEmptyWords _
    have entry : Text.TeX.escape name ∈
        names.map Text.TeX.escape ++ if nullable then [emptyMark] else [] :=
      List.mem_append_left _ (List.mem_map_of_mem member)
    rw [same] at none
    exact none ((Text.isInfix_intercalate entry).subset ((Text.TeX.Lawful.letter _).mpr letter))
  · intro free
    have written : names.map writtenName = names.map Text.TeX.escape :=
      List.map_congr_left fun name member =>
      latexEmptyWords_eq_iff.mpr fun letter => free name member ((Text.TeX.Lawful.letter _).mp letter)
    rw [cell, cell, written]

/-- Among names alone there is a symbol for the empty string just if there is the letter in one of
them. -/
theorem isInfix_cell_iff [Text.TeX] [Text.TeX.Lawful] {names : List String} :
    emptyMark.toList <:+: (cell writtenName names false).toList ↔ ∃ name ∈ names, 'ε' ∈ name.toList := by
  constructor
  · intro marked
    by_contra none
    have free : ∀ name ∈ names, 'ε' ∉ name.toList :=
      fun name member letter => none ⟨name, member, letter⟩
    rw [cell_writtenName_eq_iff.mpr free, cell, if_neg Bool.false_ne_true, List.append_nil] at marked
    have plain : Text.TeX.NoEpsilon ("\\ ".intercalate (names.map Text.TeX.escape)).toList :=
      Text.TeX.noEpsilon_intercalate (by decide +kernel)
        (List.forall_mem_map.mpr fun name _ => Text.TeX.Lawful.noEpsilon name)
    have command : ['\\', 'e'] <:+: emptyMark.toList := by decide +kernel
    exact plain.free (command.trans marked)
  · rintro ⟨name, member, letter⟩
    have entry : writtenName name ∈ names.map writtenName ++ if false then [emptyMark] else [] :=
      List.mem_append_left _ (List.mem_map_of_mem member)
    exact (isInfix_latexEmptyWords ((Text.TeX.Lawful.letter _).mpr letter)).trans
      (Text.isInfix_intercalate entry)

/-- A row has the sets of a non-terminal. In a cell each name is escaped, and the symbol for the empty
string is the last entry of First just if the non-terminal derives the empty string. Each letter for the
empty string in a name is replaced by the symbol as well, which is seen just if there is one. -/
structure Shows [Text.TeX] (g : Grammar) (nonTerminal : Nat) (sets : NamedSets)
    (row : SetsRow) : Prop where
  name : g.name? nonTerminal = some row.name
  has : g.HasSets nonTerminal sets
  nullable : sets.nullable ↔ g.Derives [nonTerminal] []
  latex : row.latex = Text.TeX.escape row.name ++ " & " ++ toString sets.nullable ++ " & " ++
    cell writtenName sets.first sets.nullable ++ " & " ++ cell writtenName sets.follow false
  first : cell writtenName sets.first sets.nullable = cell Text.TeX.escape sets.first sets.nullable ↔
    ∀ name ∈ sets.first, 'ε' ∉ name.toList
  follow : cell writtenName sets.follow false = cell Text.TeX.escape sets.follow false ↔
    ∀ name ∈ sets.follow, 'ε' ∉ name.toList
  marked : emptyMark.toList <:+: (cell writtenName sets.follow false).toList ↔
    ∃ name ∈ sets.follow, 'ε' ∈ name.toList

end Render.SetsRow

open Render.SetsRow

variable {g : Grammar}

section WellFormed

variable (wf : g.WellFormed)
include wf

theorem exists_setsRow [Text.TeX] [Text.TeX.Lawful] {nonTerminal : Nat}
    (listed : nonTerminal ∈ g.nonTerminals) : ∃ row sets,
    SetsRow.of? g g.firstSets (g.followSets g.firstSets) nonTerminal = some row ∧
      row.Shows g nonTerminal sets := by
  obtain ⟨name, named⟩ := hasSymbol_of_listed listed
  obtain ⟨sets, found, has⟩ := exists_namedSets wf listed named
  refine ⟨_, sets, setsRow_eq wf listed named found, named, has, ?_, ?_, cell_writtenName_eq_iff,
    cell_writtenName_eq_iff, isInfix_cell_iff⟩
  · rw [has.nullable]
    exact nullable_first_iff wf
  · have alone := latexEntries_eq sets.follow false
    rw [if_neg Bool.false_ne_true, List.append_nil] at alone
    rw [SetsRow.latex, latexEntries_eq, alone]

end WellFormed

/-- The table in TeX has a row for each non-terminal. Its cells have the names of the sets, each escaped,
and the symbol for the empty string where it belongs, but also wherever the letter for it is in a
name. -/
theorem showsSets [Text.TeX] [Text.TeX.Lawful] {pairs : List (String × String)}
    {designated : Option String} (built : ofRules pairs designated = .ok g) (policy : ReducePolicy) :
    ∃ table : SetsTable, (Analysis.ofGrammar g policy).render? .sets .latex = some table.latex ∧
      List.Forall₂ (fun nonTerminal row => ∃ sets, row.Shows g nonTerminal sets)
        g.nonTerminals table.rows := by
  have wf := wellFormed_ofRules built
  obtain ⟨table, shown⟩ := exists_setsTable wf
  refine ⟨table, congrArg (Option.bind · (inFormat? .latex)) shown, ?_⟩
  obtain ⟨rows, written, made⟩ := Option.bind_eq_some_iff.mp shown
  obtain rfl := Option.some.inj made
  refine forall₂_of_mapM written fun nonTerminal listed row here => ?_
  obtain ⟨row', sets, here', shows⟩ := exists_setsRow wf listed
  obtain rfl := Option.some.inj (here.symm.trans here')
  exact ⟨sets, shows⟩

/-- A terminal with the letter in its name, after a non-terminal that derives the empty string. -/
def lettered : Grammar := ⟨"S'", #["S", "A"], #["aε", "b"], 1, [⟨1, [2, 3]⟩, ⟨2, [4]⟩, ⟨2, []⟩]⟩

theorem ofRules_lettered : ofRules [("S", "A aε"), ("A", "b"), ("A", "e")] none = .ok lettered := by cbv

theorem showsSets_lettered : ∃ g, ofRules [("S", "A aε"), ("A", "b"), ("A", "e")] none = .ok g ∧
    ∃ table : SetsTable, (Analysis.ofGrammar g .anyMultiple).render? .sets .latex = some table.latex ∧
      List.Forall₂ (fun nonTerminal row => ∃ sets, row.Shows g nonTerminal sets)
        g.nonTerminals table.rows :=
  ⟨lettered, ofRules_lettered, showsSets ofRules_lettered .anyMultiple⟩

/-- What is replaced in a name makes a symbol for the empty string in Follow. -/
theorem letter_replaced :
    ¬ ∀ (pairs : List (String × String)) (designated : Option String) (g : Grammar),
    ofRules pairs designated = .ok g →
      ∀ nonTerminal ∈ g.nonTerminals, ∀ sets, g.HasSets nonTerminal sets →
    ∀ row, SetsRow.of? g g.firstSets (g.followSets g.firstSets) nonTerminal = some row →
    row.latex = Text.TeX.escape row.name ++ " & " ++ toString sets.nullable ++ " & " ++
        cell Text.TeX.escape sets.first sets.nullable ++ " & " ++
          cell Text.TeX.escape sets.follow false ∧
      ¬ emptyMark.toList <:+: (latexEntries row.follow).toList := by
  intro claimed
  have wf := wellFormed_ofRules ofRules_lettered
  have listed : 2 ∈ lettered.nonTerminals := by decide
  obtain ⟨sets, found, has⟩ := exists_namedSets wf listed rfl
  have known : lettered.namedSets? "A" = some ⟨["b"], true, ["aε"]⟩ := by decide +kernel
  have row := setsRow_eq wf listed rfl known
  obtain rfl := Option.some.inj (found.symm.trans known)
  exact (claimed _ none lettered ofRules_lettered 2 listed _ has _ row).2 (by decide +kernel)

end ParseTables
