import ParseTables.Proofs.Grammar.Grouped
import ParseTables.Proofs.Grammar.Spelling
import ParseTables.Proofs.Text.Columns
import ParseTables.Render.Production

namespace ParseTables

open Render

/-- The pairs as they are printed, those of each head together. -/
def printedPairs (pairs : List (String × String)) : List (String × String) :=
  grouped pairs fun body => " ".intercalate (shownBody body)

/-- The production of a head, with its bodies as they are shown. -/
def Render.Production.under (pairs : List (String × String)) (head : String) : Production :=
  ⟨head, (bodiesUnder pairs head).map shownBody⟩

namespace Grammar

variable {g : Grammar}

theorem bodyNames?_eq (body : List Nat) : g.bodyNames? body = (g.namesOf? body).map shownBody := by
  unfold bodyNames?
  split
  · rename_i empty
    subst empty
    rfl
  · rename_i nonempty
    cases named : g.namesOf? body with
    | none => rfl
    | some names =>
      have same := congrArg List.length (namesOf?_eq_some_iff.mp named)
      have some : names ≠ [] := by
        rintro rfl
        rw [List.length_map, List.map_nil, List.length_nil] at same
        exact nonempty (List.length_eq_zero_iff.mp same)
      rw [Option.map_some, shownBody, if_neg some]

section OfRules

variable {pairs : List (String × String)} {designated : Option String}
    (built : ofRules pairs designated = .ok g)
include built

theorem productionsOf?_ofRules {symbol : Nat} (listed : symbol ∈ g.nonTerminals) {head : String}
    (named : g.name? symbol = some head) : g.productionsOf? symbol = some (.under pairs head) := by
  have bodies :=
    (mapM_productions (fun rule => g.namesOf? rule.body) symbol).mp (bodies?_ofRules built listed named)
  have rights := (mapM_productions (fun rule => g.bodyNames? rule.body) symbol).mpr
    (List.forall₂_map_right_iff.mpr
      (bodies.imp fun rule words same => by rw [bodyNames?_eq, same, Option.map_some]))
  unfold productionsOf?
  rw [rights, named]
  rfl

/-- A listing has the heads with all their bodies. -/
theorem listing_ofRules : Listing.ofGrammar? g =
    some ⟨(headsOf pairs).map (.under pairs), g.terminalNames.toList ++ [endName]⟩ := by
  have heads : g.nonTerminals.map g.name? = (headsOf pairs).map some := by
    rw [map_name?_kinds.1, heads_ofRules built]
  have each : g.nonTerminals.mapM g.productionsOf? = some ((headsOf pairs).map (.under pairs)) := by
    rw [← List.forall₂_eq_eq_eq, List.forall₂_map_left_iff, List.forall₂_map_right_iff] at heads
    rw [mapM_iff_forall₂, List.forall₂_map_right_iff]
    exact List.forall₂_iff_zip.mpr ⟨heads.length_eq, fun inside =>
      productionsOf?_ofRules built (List.of_mem_zip inside).1 ((List.forall₂_iff_zip.mp heads).2 inside)⟩
  have terminals : g.namesOf? g.terminals = some (g.terminalNames.toList ++ [endName]) :=
    namesOf?_eq_some_iff.mpr map_name?_kinds.2
  unfold Listing.ofGrammar?
  rw [each, terminals]
  rfl

end OfRules

end Grammar

namespace Render

/-- The lines of a production, one for each alternative. -/
def Production.lines (width : Nat) (production : Production) : List String :=
  match production.rights with
  | [] => []
  | first :: others => (Text.padLeft width production.left ++ " -> " ++ " ".intercalate first) ::
      others.map fun right => Text.padLeft width "" ++ "  | " ++ " ".intercalate right

/-- The alternatives of a production as pairs. -/
def Production.pairs (production : Production) : List (String × String) :=
  production.rights.map fun right => (production.left, " ".intercalate right)

theorem Production.layout_eq (width : Nat) (production : Production) :
    production.layout width true = "\n".intercalate (production.lines width) := by
  unfold layout lines
  cases production.rights with
  | nil => rfl
  | cons first others => rfl

theorem Production.lines_ne_nil {width : Nat} {production : Production} (some : production.rights ≠ []) :
    production.lines width ≠ [] := by
  obtain ⟨first, others, whole⟩ := List.exists_cons_of_ne_nil some
  simp [lines, whole]

/-- Texts put together from parts are put together from all parts at once. -/
theorem intercalate_flatMap {α : Type} (separator : String) {l : List α} {parts : α → List String}
    (some : ∀ a ∈ l, parts a ≠ []) :
    separator.intercalate (l.map fun a => separator.intercalate (parts a)) =
      separator.intercalate (l.flatMap parts) := by
  induction l with
  | nil => rfl
  | cons a rest ih =>
    obtain ⟨first, others⟩ := List.forall_mem_cons.mp some
    cases rest with
    | nil => simp
    | cons b rest =>
      have later : (b :: rest).flatMap parts ≠ [] := by
        simpa using fun empty => absurd empty (others b List.mem_cons_self)
      have split : (a :: b :: rest).flatMap parts = parts a ++ (b :: rest).flatMap parts :=
        List.flatMap_cons
      rw [List.map_cons, String.intercalate_cons_of_ne_nil (by simp), ih others, split,
        String.intercalate_append_of_ne_nil first later]

theorem isSpace_replicate (width : Nat) : Layout.IsSpace (String.ofList (List.replicate width ' ')) := by
  constructor
  · intro c member
    rw [String.toList_ofList] at member
    obtain rfl := List.eq_of_mem_replicate member
    decide
  · rw [String.toList_ofList]
    exact fun member => absurd (List.eq_of_mem_replicate member) (by decide)

theorem padded_left (width : Nat) (left : String) :
    Layout.Padded left (Text.padLeft width left ++ " ") :=
  ⟨_, " ", isSpace_replicate _, by decide, by rw [Text.padLeft_eq]⟩

theorem isSpace_margin (width : Nat) : Layout.IsSpace (Text.padLeft width "" ++ "  ") := by
  have margin : Layout.IsSpace (Text.padLeft width "") := by
    rw [Text.padLeft_eq, String.append_empty]
    exact isSpace_replicate _
  constructor
  · intro c member
    rw [String.toList_append, List.mem_append] at member
    exact member.elim (margin.blank c) ((by decide : Layout.IsSpace "  ").blank c)
  · rw [String.toList_append, List.mem_append]
    exact fun member => member.elim margin.inLine (by decide)

/-- One alternative with the blank before it. -/
theorem barred_right {right : List String} (alternative : Layout.IsAlternative (" ".intercalate right)) :
    Layout.Barred [" ".intercalate right] (" " ++ " ".intercalate right) :=
  .last alternative ⟨" ", "", by decide, by decide, by simp⟩

/-- The lines after the first one go on with the production. -/
theorem writes_others (width : Nat) {left : String} {others : List (List String)}
    (alternatives : ∀ right ∈ others, Layout.IsAlternative (" ".intercalate right))
    {pairs : List (String × String)} {lines : List String}
    (later : Layout.Writes (some left) pairs lines) :
    Layout.Writes (some left) (others.map (fun right => (left, " ".intercalate right)) ++ pairs)
      (others.map (fun right => Text.padLeft width "" ++ "  | " ++ " ".intercalate right) ++ lines) := by
  induction others with
  | nil => exact later
  | cons right rest ih =>
    obtain ⟨alternative, others⟩ := List.forall_mem_cons.mp alternatives
    have line : Text.padLeft width "" ++ "  | " ++ " ".intercalate right =
        (Text.padLeft width "" ++ "  ") ++ "|" ++ (" " ++ " ".intercalate right) := by
      rw [show "  | " = "  " ++ "|" ++ " " from rfl]
      simp only [String.append_assoc]
    rw [List.map_cons, List.map_cons, line]
    exact .continued (isSpace_margin width) (barred_right alternative) (ih others)

/-- The lines of productions write their pairs, whatever stands before them. -/
theorem writes_productions (width : Nat) {productions : List Production}
    (heads : ∀ production ∈ productions, Layout.IsHead production.left)
    (alternatives : ∀ production ∈ productions, ∀ right ∈ production.rights,
      Layout.IsAlternative (" ".intercalate right)) (previous : Option String) :
    Layout.Writes previous (productions.flatMap Production.pairs)
      (productions.flatMap (Production.lines width)) := by
  induction productions generalizing previous with
  | nil => exact .done
  | cons production rest ih =>
    obtain ⟨head, otherHeads⟩ := List.forall_mem_cons.mp heads
    obtain ⟨rights, others⟩ := List.forall_mem_cons.mp alternatives
    obtain ⟨left, rights'⟩ := production
    cases rights' with
    | nil => exact ih otherHeads others previous
    | cons first later =>
      obtain ⟨alternative, afterwards⟩ := List.forall_mem_cons.mp rights
      have line : Text.padLeft width left ++ " -> " ++ " ".intercalate first =
          (Text.padLeft width left ++ " ") ++ "->" ++ (" " ++ " ".intercalate first) := by
        rw [show " -> " = " " ++ "->" ++ " " from rfl]
        simp only [String.append_assoc]
      simp only [List.flatMap_cons, Production.pairs, Production.lines, List.map_cons,
        List.cons_append, line]
      exact .rule head (padded_left width left) (barred_right alternative)
        (writes_others width afterwards (ih otherHeads others (some left)))

namespace Listing

/-- The width of the column of heads. -/
def width (listing : Listing) : Nat :=
  Text.widest (listing.productions.map fun production => production.left.length)

/-- The lines of all productions. -/
def text (listing : Listing) : String :=
  "\n".intercalate (listing.productions.flatMap (Production.lines listing.width))

variable {listing : Listing}

theorem width_le_iff {bound : Nat} : listing.width ≤ bound ↔
    ∀ production ∈ listing.productions, production.left.length ≤ bound := by
  rw [width, Text.widest_le_iff, List.forall_mem_map]

/-- Nothing but a head that is wider than a field can be prevents a listing from being printed. -/
theorem plain?_eq (nonempty : listing.productions ≠ [])
    (some : ∀ production ∈ listing.productions, production.rights ≠ []) :
    listing.plain? = if listing.width ≤ Text.widestField then .some listing.text else none := by
  have whole : listing.plain? =
      (listing.productions.mapM (Production.plain? · listing.width true)).map "\n".intercalate :=
    Option.map_eq_bind.symm
  rw [whole]
  split
  · rename_i fits
    have each : listing.productions.mapM (Production.plain? · listing.width true) =
        .some (listing.productions.map fun production =>
            "\n".intercalate (production.lines listing.width)) := by
      refine mapM_eq_map fun production _ => ?_
      rw [Production.plain?, if_pos (Or.inr fits), Production.layout_eq]
    rw [each, Option.map_some, text, intercalate_flatMap "\n" fun production member =>
      Production.lines_ne_nil (some production member)]
  · rename_i wide
    obtain ⟨production, rest, split⟩ := List.exists_cons_of_ne_nil nonempty
    have fails : production.plain? listing.width true = none := by
      rw [Production.plain?, if_neg]
      exact not_or.mpr ⟨some production (split ▸ List.mem_cons_self), wide⟩
    simp [split, fails]

end Listing

end Render

section OfRules

variable {pairs : List (String × String)}

theorem headsOf_ne_nil {designated : Option String} {g : Grammar}
    (built : Grammar.ofRules pairs designated = .ok g) : headsOf pairs ≠ [] := by
  obtain ⟨pair, inside⟩ := List.exists_mem_of_ne_nil pairs (Grammar.exists_ofRules_iff.mp ⟨g, built⟩).1
  exact List.ne_nil_of_mem (mem_headsOf.mpr ⟨pair, inside, rfl⟩)

/-- The text of a listing, if no head is too wide. -/
theorem plain?_ofRules {designated : Option String} {g : Grammar} {listing : Listing}
    (built : Grammar.ofRules pairs designated = .ok g)
    (productions : listing.productions = (headsOf pairs).map (.under pairs)) :
    listing.plain? = if listing.width ≤ Text.widestField then some listing.text else none := by
  refine Listing.plain?_eq ?_ ?_
  · rw [productions]
    simpa using headsOf_ne_nil built
  · rw [productions, List.forall_mem_map]
    exact fun head member => by simpa [Production.under] using bodiesUnder_ne_nil member

theorem plain?_ofRules_eq_none_iff {designated : Option String} {g : Grammar} {listing : Listing}
    (built : Grammar.ofRules pairs designated = .ok g)
    (productions : listing.productions = (headsOf pairs).map (.under pairs)) :
    listing.plain? = none ↔ ∃ head ∈ g.heads, Text.widestField < head.length := by
  rw [plain?_ofRules built productions, ite_eq_right_iff]
  simp only [reduceCtorEq, imp_false, Listing.width_le_iff, productions, List.forall_mem_map]
  have heads : ∀ head, head ∈ headsOf pairs ↔ head ∈ g.heads := fun head => by
    rw [← Array.mem_toList_iff, Grammar.heads_ofRules built]
  simp [heads, Production.under]

theorem pairs_under :
    ((headsOf pairs).map (Production.under pairs)).flatMap Production.pairs = printedPairs pairs := by
  rw [List.flatMap_map, printedPairs, grouped]
  simp only [Production.pairs, Production.under, List.map_map]
  rfl

theorem SameBodies.map_under {pairs' : List (String × String)} (same : SameBodies pairs pairs') :
    (headsOf pairs').map (Production.under pairs') = (headsOf pairs).map (.under pairs) := by
  rw [same.heads]
  exact List.map_congr_left fun head member =>
    by rw [Production.under, Production.under, same.bodies head member]

end OfRules

namespace Spelled

variable {pairs : List (String × String)} (spelled : Spelled pairs)
include spelled

theorem isHead {head : String} (member : head ∈ headsOf pairs) : Layout.IsHead head := by
  obtain ⟨pair, inside, rfl⟩ := mem_headsOf.mp member
  exact spelled.heads pair inside

theorem sameBodies : SameBodies pairs (printedPairs pairs) :=
  sameBodies_grouped (fun _ member => (spelled.isHead member).trim) fun pair inside =>
    bodyWords_shownBody (spelled.words pair inside)

/-- The lines of the productions write the pairs. -/
theorem writes (width : Nat) : Layout.Writes none (printedPairs pairs)
    (((headsOf pairs).map (.under pairs)).flatMap (Production.lines width)) := by
  rw [← pairs_under]
  refine writes_productions width ?_ ?_ none
  · exact List.forall_mem_map.mpr fun head member => spelled.isHead member
  · refine List.forall_mem_map.mpr fun head member right shown => ?_
    obtain ⟨body, inBodies, rfl⟩ := List.mem_map.mp shown
    obtain ⟨pair, inside, -, rfl⟩ := mem_bodiesUnder.mp inBodies
    exact isAlternative_shownBody (spelled.words pair inside)

end Spelled

open Grammar in
/-- A grammar that was read can be printed unless one of its heads is wider than a field can be. What is
printed is read as a grammar that is the same by names, and this one is printed alike. -/
theorem ofText_listing {text : String} {g : Grammar} (read : ofText text = .ok g) :
    ∃ listing, Listing.ofGrammar? g = some listing ∧
      (listing.plain? = none ↔ ∃ head ∈ g.heads, Text.widestField < head.length) ∧
      ∀ printed, listing.plain? = some printed →
        ∃ g' listing', ofText printed = .ok g' ∧ g.SameNames g' ∧ Listing.ofGrammar? g' = some listing' ∧
          listing'.plain? = some printed := by
  obtain ⟨pairs, built, spelled⟩ := exists_pairs_of_ofText read
  refine ⟨_, listing_ofRules built, plain?_ofRules_eq_none_iff built rfl, fun printed shown => ?_⟩
  have same := spelled.sameBodies
  have proper : Proper (printedPairs pairs) :=
    proper_grouped (proper_of_ofRules built) fun head member => (spelled.isHead member).words
  obtain ⟨g', built', sameNames⟩ := same.exists_ofRules proper built
  refine ⟨g', _, ?_, sameNames, listing_ofRules built', ?_⟩
  · rw [plain?_ofRules built rfl] at shown
    obtain ⟨-, written⟩ := Option.ite_none_right_eq_some.mp shown
    rw [← Option.some.inj written, ← unplaced_eq_ok_iff]
    exact (spelled.writes _).ofText.trans (unplaced_eq_ok_iff.mpr built')
  · rw [← shown, same.map_under]
    rfl

open Grammar in
/-- Rules of two heads in turns, with an empty alternative, one that is written as a word, and one on a
line of its own. -/
theorem ofText_listing_turns : ∃ g g' listing',
    ofText "S -> x S\nT ->\nS -> T ε | -\n|" = .ok g ∧
    ofText "S -> x S\n   | T\n   | -\n   | ε\nT -> ε" = .ok g' ∧ g.SameNames g' ∧
    Listing.ofGrammar? g' = some listing' ∧
      listing'.plain? = some "S -> x S\n   | T\n   | -\n   | ε\nT -> ε" := by
  have entries : readLines none ((Text.lines "S -> x S\nT ->\nS -> T ε | -\n|").zipIdx 1) =
      .ok [⟨1, "S", " x S"⟩, ⟨2, "T", ""⟩, ⟨3, "S", " T ε "⟩, ⟨3, "S", " -"⟩, ⟨4, "S", ""⟩] := rfl
  have read : ofText "S -> x S\nT ->\nS -> T ε | -\n|" = .ok ⟨"S'", #["S", "T"], #["x", "-"], 1,
      [⟨1, [3, 1]⟩, ⟨2, []⟩, ⟨1, [2]⟩, ⟨1, [4]⟩, ⟨1, []⟩]⟩ := by
    rw [ofText, entries]
    cbv
  obtain ⟨listing, listed, -, again⟩ := ofText_listing read
  have printed : listing.plain? = some "S -> x S\n   | T\n   | -\n   | ε\nT -> ε" := by
    have shown : (Listing.ofGrammar? ⟨"S'", #["S", "T"], #["x", "-"], 1,
        [⟨1, [3, 1]⟩, ⟨2, []⟩, ⟨1, [2]⟩, ⟨1, [4]⟩, ⟨1, []⟩]⟩).bind Listing.plain? =
        some "S -> x S\n   | T\n   | -\n   | ε\nT -> ε" := by decide +kernel
    rwa [listed, Option.bind_some] at shown
  obtain ⟨g', listing', read', same, listed', printed'⟩ := again _ printed
  exact ⟨_, g', listing', read, read', same, listed', printed'⟩

/-- A word that is longer than each of the reserved ones is the head of a rule. -/
theorem headName_of_long {head : String} (isHead : Layout.IsHead head) (long : 1 < head.length) :
    headName head = .ok head := by
  have other : ∀ word : String, word.length = 1 → head ≠ word := by
    rintro word single rfl
    omega
  refine headName_eq_ok_iff.mpr ⟨isHead.words, other "$" rfl, ?_⟩
  simp [isEmptyWord, other "e" rfl, other "ε" rfl, other "ϵ" rfl]

open Grammar in
/-- A head that is wider than a field can be makes a grammar that cannot be printed. -/
theorem not_printed_of_wide {head : String} (isHead : Layout.IsHead head)
    (wide : Text.widestField < head.length) :
    ∃ g listing, ofText (head ++ " -> x") = .ok g ∧ Listing.ofGrammar? g = some listing ∧
      listing.plain? = none := by
  have long : 1 < head.length := Nat.lt_trans (by decide) wide
  have named := headName_of_long isHead long
  have words : bodyWords "x" = ["x"] := by decide
  obtain ⟨g, built⟩ : ∃ g, ofRules [(head, "x")] none = .ok g := by
    refine exists_ofRules_iff.mpr ⟨by simp, by simpa using ⟨head, named⟩, by simp, ?_⟩
    rintro word ⟨pair, inside, inBody⟩
    obtain rfl := List.mem_singleton.mp inside
    rw [words, List.mem_singleton] at inBody
    subst inBody
    exact ⟨by decide, fun upper => absurd upper (by decide)⟩
  have line : head ++ " -> x" = (head ++ " ") ++ "->" ++ " x" := by
    rw [show " -> x" = " " ++ "->" ++ " x" from rfl]
    simp only [String.append_assoc]
  have writes : Layout.Writes none [(head, "x")] [head ++ " -> x"] := by
    rw [line]
    exact .rule isHead ⟨"", " ", by decide, by decide, by simp⟩
      (.last (by decide) ⟨" ", "", by decide, by decide, rfl⟩)
      .done
  have read := writes.ofText
  rw [String.intercalate_singleton, unplaced_eq_ok_iff.mpr built, unplaced_eq_ok_iff] at read
  refine ⟨g, _, read, listing_ofRules built, (plain?_ofRules_eq_none_iff built rfl).mpr ⟨head, ?_, wide⟩⟩
  rw [← Array.mem_toList_iff, heads_ofRules built, headsOf, trimmedHeads, List.map_singleton,
    isHead.trim]
  simp

open Grammar in
/-- The letter A, 65536 times. -/
theorem letters_not_printed :
    ∃ g listing, ofText (String.ofList (List.replicate 65536 'A') ++ " -> x") = .ok g ∧
    Listing.ofGrammar? g = some listing ∧ listing.plain? = none := by
  have isHead : Layout.IsHead (String.ofList (List.replicate 65536 'A')) := by
    constructor
    · intro empty
      have none := congrArg String.length empty
      rw [String.length_ofList, List.length_replicate] at none
      cases none
    · intro c member
      rw [String.toList_ofList] at member
      rw [List.eq_of_mem_replicate member]
      decide
    · intro found
      rw [String.toList_ofList] at found
      have member : '-' ∈ List.replicate 65536 'A' := found.subset (by decide)
      exact absurd (List.eq_of_mem_replicate member) (by decide)
  refine not_printed_of_wide isHead ?_
  rw [String.length_ofList, List.length_replicate]
  decide

end ParseTables
