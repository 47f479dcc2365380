import ParseTables.Grammar.OfText
import ParseTables.Proofs.Grammar.Entries
import ParseTables.Proofs.Text.Separators

namespace ParseTables

open List (Forall₂)

namespace Layout

/-- Blanks that do not end the line. -/
structure IsSpace (text : String) : Prop where
  blank : Text.IsGap text.toList
  inLine : '\n' ∉ text.toList

/-- A part of a line with blanks around it. -/
def Padded (part written : String) : Prop :=
  ∃ before after, IsSpace before ∧ IsSpace after ∧ written = before ++ part ++ after

instance (text : String) : Decidable (IsSpace text) :=
  decidable_of_iff (text.toList.all Text.isBlank = true ∧ '\n' ∉ text.toList)
    ⟨fun h => ⟨List.all_eq_true.mp h.1, h.2⟩, fun h => ⟨List.all_eq_true.mpr h.1, h.2⟩⟩

/-- What can stand before an arrow: a word that has no arrow in it. -/
structure IsHead (head : String) : Prop where
  nonempty : head ≠ ""
  solid : ∀ c ∈ head.toList, ¬ Text.isBlank c
  noArrow : Text.NoArrow head.toList

/-- What can stand between bars. It may have no words at all. -/
structure IsAlternative (body : String) : Prop where
  inLine : '\n' ∉ body.toList
  noBar : '|' ∉ body.toList
  noArrow : Text.NoArrow body.toList

instance (head : String) : Decidable (IsHead head) :=
  decidable_of_iff (head ≠ "" ∧ head.toList.any Text.isBlank = false ∧ Text.NoArrow head.toList)
    ⟨fun h => ⟨h.1, List.any_eq_false.mp h.2.1, h.2.2⟩, fun h => ⟨h.1, List.any_eq_false.mpr h.2, h.3⟩⟩

instance (body : String) : Decidable (IsAlternative body) :=
  decidable_of_iff ('\n' ∉ body.toList ∧ '|' ∉ body.toList ∧ Text.NoArrow body.toList)
    ⟨fun h => ⟨h.1, h.2.1, h.2.2⟩, fun h => ⟨h.1, h.2, h.3⟩⟩

/-- The alternatives of one line, with bars between them. -/
inductive Barred : List String → String → Prop
  | last {body written} : IsAlternative body → Padded body written → Barred [body] written
  | bar {body written bodies rest} : IsAlternative body → Padded body written → Barred bodies rest →
      Barred (body :: bodies) (written ++ "|" ++ rest)

/-- The lines write the pairs of heads and alternatives, if the head given is that of the rule before. -/
inductive Writes : Option String → List (String × String) → List String → Prop
  | done {previous} : Writes previous [] []
  | blank {previous pairs line lines} : IsSpace line → Writes previous pairs lines →
      Writes previous pairs (line :: lines)
  | rule {previous head left bodies right pairs lines} :
      IsHead head → Padded head left → Barred bodies right →
      Writes (some head) pairs lines →
      Writes previous (bodies.map (head, ·) ++ pairs) ((left ++ "->" ++ right) :: lines)
  | continued {head before bodies right pairs lines} : IsSpace before → Barred bodies right →
      Writes (some head) pairs lines →
      Writes (some head) (bodies.map (head, ·) ++ pairs) ((before ++ "|" ++ right) :: lines)

section Parts

variable {part written : String} (padded : Padded part written)
include padded

theorem Padded.words : Text.wordsOfChars written.toList = Text.wordsOfChars part.toList := by
  obtain ⟨before, after, space, space', rfl⟩ := padded
  rw [String.toList_append, String.toList_append, Text.wordsOfChars_append_gap space'.blank,
    Text.wordsOfChars_gap_append space.blank]

theorem Padded.noArrow (free : Text.NoArrow part.toList) : Text.NoArrow written.toList := by
  obtain ⟨before, after, space, space', rfl⟩ := padded
  rw [String.toList_append, String.toList_append]
  exact (free.gap_append space.blank).append_gap space'.blank

theorem Padded.inLine (free : '\n' ∉ part.toList) : '\n' ∉ written.toList := by
  obtain ⟨before, after, space, space', rfl⟩ := padded
  simp [space.inLine, space'.inLine, free]

theorem Padded.noBar (free : '|' ∉ part.toList) : '|' ∉ written.toList := by
  obtain ⟨before, after, space, space', rfl⟩ := padded
  have solid : ¬ Text.isBlank '|' := by decide
  simp [space.blank.not_mem solid, space'.blank.not_mem solid, free]

end Parts

theorem Barred.noArrow {bodies : List String} {right : String} (barred : Barred bodies right) :
    Text.NoArrow right.toList := by
  induction barred with
  | last alternative padded => exact padded.noArrow alternative.noArrow
  | bar alternative padded _ ih =>
    rw [String.toList_append, String.toList_append, List.append_assoc]
    exact (padded.noArrow alternative.noArrow).append_cons ih Text.bar_not_mem_arrow

theorem Barred.inLine {bodies : List String} {right : String} (barred : Barred bodies right) :
    '\n' ∉ right.toList := by
  induction barred with
  | last alternative padded => exact padded.inLine alternative.inLine
  | bar alternative padded _ ih => simp [padded.inLine alternative.inLine, ih]

/-- Between the bars are the words of the alternatives. -/
theorem Barred.words {bodies : List String} {right : String} (barred : Barred bodies right) :
    (right.toList.splitOn '|').map Text.wordsOfChars =
      bodies.map fun body => Text.wordsOfChars body.toList := by
  induction barred with
  | last alternative padded =>
    rw [List.splitOn_eq_singleton (padded.noBar alternative.noBar)]
    exact congrArg (· :: []) padded.words
  | bar alternative padded _ ih =>
    rw [String.toList_append, String.toList_append, List.append_assoc, show "|".toList = ['|'] from rfl,
      List.singleton_append,
      List.splitOn_append_cons_self_of_not_mem (padded.noBar alternative.noBar), List.map_cons,
      List.map_cons, ih, padded.words]

theorem IsHead.words {head : String} (isHead : IsHead head) : Text.words head = [head] := by
  have run : Text.IsRun head.toList := ⟨by simpa using isHead.nonempty, isHead.solid⟩
  rw [Text.words, Text.wordsOfChars_run run, List.map_singleton, String.ofList_toList]

theorem leftSideWord_of_padded {head left : String} (isHead : IsHead head) (padded : Padded head left) :
    leftSideWord left = .ok head := by
  have words : Text.words left = [head] := by rw [Text.words, padded.words, ← Text.words, isHead.words]
  rw [leftSideWord, words]

theorem readLine_rule {previous : Option String} {head left right : String} {bodies : List String}
    (isHead : IsHead head) (padded : Padded head left) (barred : Barred bodies right) :
    readLine previous (left ++ "->" ++ right).toList =
      .ok (head, (right.toList.splitOn '|').map String.ofList) := by
  have cut : Text.splitArrows (left ++ "->" ++ right).toList = [left.toList, right.toList] := by
    rw [String.toList_append, String.toList_append, show "->".toList = Text.arrow from rfl,
      Text.splitArrows_append (padded.noArrow isHead.noArrow),
      Text.splitArrows_of_noArrow barred.noArrow]
  rw [readLine, cut]
  simp only [String.ofList_toList, leftSideWord_of_padded isHead padded]
  rfl

/-- A line that begins with a bar goes on with the rule before it. -/
theorem readLine_continued {head before right : String} {bodies : List String} (space : IsSpace before)
    (barred : Barred bodies right) : ∃ parts : List (List Char),
      readLine (some head) (before ++ "|" ++ right).toList = .ok (head, parts.map String.ofList) ∧
      parts.map Text.wordsOfChars = bodies.map fun body => Text.wordsOfChars body.toList := by
  have whole : (before ++ "|" ++ right).toList = before.toList ++ '|' :: right.toList := by simp
  obtain ⟨kept, gap, blanks, split, trimmed⟩ :=
    Text.trimChars_append_cons space.blank (show ¬ Text.isBlank '|' by decide) right.toList
  have free : Text.NoArrow (before.toList ++ '|' :: right.toList) :=
    Text.NoArrow.gap_append space.blank
      (Text.noArrow_nil.append_cons barred.noArrow Text.bar_not_mem_arrow)
  refine ⟨kept.splitOn '|', ?_, ?_⟩
  · rw [readLine, whole, Text.splitArrows_of_noArrow free]
    simp only [trimmed]
  · rw [← barred.words, split, Text.map_words_splitOn_append_gap blanks]

/-- The entries of a line have the words of its alternatives. -/
theorem alike_of_words {number : Nat} {head : String} {parts : List (List Char)} {bodies : List String}
    (words : parts.map Text.wordsOfChars = bodies.map fun body => Text.wordsOfChars body.toList) :
    Forall₂ (fun (entry : RuleEntry) pair => headName entry.head = headName pair.1 ∧
        bodyWords entry.body = bodyWords pair.2)
      ((parts.map String.ofList).map fun body => ⟨number, head, body⟩) (bodies.map (head, ·)) := by
  rw [← List.forall₂_eq_eq_eq, List.forall₂_map_left_iff, List.forall₂_map_right_iff] at words
  rw [List.map_map, List.forall₂_map_left_iff, List.forall₂_map_right_iff]
  refine words.imp fun part body same => ⟨rfl, ?_⟩
  simp only [bodyWords, Text.words, Function.comp_apply, String.toList_ofList, same]

/-- What is written is read: one entry for each pair, with its words. -/
theorem Writes.read {previous : Option String} {pairs : List (String × String)} {lines : List String}
    (writes : Writes previous pairs lines) (number : Nat) :
    ∃ entries, readLines previous (lines.zipIdx number) = .ok entries ∧
      Forall₂ (fun entry pair => headName entry.head = headName pair.1 ∧
        bodyWords entry.body = bodyWords pair.2)
        entries pairs := by
  induction writes generalizing number with
  | done => exact ⟨[], rfl, .nil⟩
  | @blank _ _ line _ space _ ih =>
    obtain ⟨entries, read, alike⟩ := ih (number + 1)
    have blank : Text.isBlankText line := List.all_eq_true.mpr space.blank
    refine ⟨entries, ?_, alike⟩
    rw [List.zipIdx_cons, readLines, if_pos blank, read]
  | @rule previous head left bodies right _ _ isHead padded barred _ ih =>
    obtain ⟨entries, read, alike⟩ := ih (number + 1)
    have solid : ¬ Text.isBlankText (left ++ "->" ++ right) := fun blank =>
      absurd (List.all_eq_true.mp blank '-' (by simp)) (by decide)
    refine ⟨_, ?_, List.rel_append (@alike_of_words number _ _ _ barred.words) alike⟩
    rw [List.zipIdx_cons, readLines, if_neg solid, readLine_rule isHead padded barred]
    simp only [read]
    rfl
  | @continued head before bodies right _ _ space barred _ ih =>
    obtain ⟨entries, read, alike⟩ := ih (number + 1)
    have solid : ¬ Text.isBlankText (before ++ "|" ++ right) := fun blank =>
      absurd (List.all_eq_true.mp blank '|' (by simp)) (by decide)
    obtain ⟨parts, continued, words⟩ := @readLine_continued head _ _ _ space barred
    refine ⟨_, ?_, List.rel_append (@alike_of_words number _ _ _ words) alike⟩
    rw [List.zipIdx_cons, readLines, if_neg solid, continued]
    simp only [read]
    rfl

theorem Writes.inLine {previous : Option String} {pairs : List (String × String)} {lines : List String}
    (writes : Writes previous pairs lines) : ∀ line ∈ lines, '\n' ∉ line.toList := by
  induction writes with
  | done => simp
  | blank space _ ih => exact List.forall_mem_cons.mpr ⟨space.inLine, ih⟩
  | rule isHead padded barred _ ih =>
    have free : '\n' ∉ _ := fun member => isHead.solid '\n' member (by decide)
    exact List.forall_mem_cons.mpr ⟨by simp [padded.inLine free, barred.inLine], ih⟩
  | continued space barred _ ih =>
    exact List.forall_mem_cons.mpr ⟨by simp [space.inLine, barred.inLine], ih⟩

/-- A text makes the same grammar as the pairs that its lines write, or is refused for the same
reason. -/
theorem Writes.ofText {pairs : List (String × String)} {lines : List String}
    (writes : Writes none pairs lines) :
    unplaced (Grammar.ofText ("\n".intercalate lines)) = unplaced (Grammar.ofRules pairs none) := by
  cases lines with
  | nil =>
    cases writes
    rfl
  | cons line rest =>
    have cut : Text.lines ("\n".intercalate (line :: rest)) = line :: rest :=
      Text.lines_intercalate (List.cons_ne_nil _ _) writes.inLine
    obtain ⟨entries, read, alike⟩ := writes.read 1
    rw [← ofRules_unplaced alike, Grammar.ofText, cut, read]
    rfl

end Layout

section Layouts

variable {pairs : List (String × String)} {lines : List String} (writes : Layout.Writes none pairs lines)
include writes

/-- Layout does not matter: the text of the lines makes a grammar just when the pairs make that grammar,
and an error in one of them is the error in the other up to the line that it names. -/
theorem Grammar.ofText_layout :
    (∀ g, Grammar.ofText ("\n".intercalate lines) = .ok g ↔ Grammar.ofRules pairs none = .ok g) ∧
    ∀ error, Grammar.ofText ("\n".intercalate lines) = .error error →
      ∃ error', Grammar.ofRules pairs none = .error error' ∧ error.unplaced = error'.unplaced := by
  have same := writes.ofText
  constructor
  · intro g
    rw [← unplaced_eq_ok_iff, same, unplaced_eq_ok_iff]
  · intro error refused
    rw [refused] at same
    cases made : Grammar.ofRules pairs none with
    | ok g =>
      rw [made] at same
      cases same
    | error error' =>
      rw [made] at same
      exact ⟨error', rfl, Except.error.inj same⟩

end Layouts

/-- A row of dashes after `>x y` or after nothing. -/
def scattered : Grammar :=
  ⟨"S-'", #["S-", "A"], #[">x", "y", "-"], 1, [⟨1, [3, 4]⟩, ⟨1, []⟩, ⟨1, [1, 2]⟩, ⟨2, [5]⟩]⟩

/-- A head that ends in the first half of an arrow, an alternative that begins with the other half, an
empty one, a blank line and an ideographic space before a bar. -/
theorem Grammar.ofText_layout_scattered :
    Grammar.ofText "\nS-->>x y| \n\t\n\u3000| S- A\nA -> -" = .ok scattered ∧
    Grammar.ofRules [("S-", ">x y"), ("S-", ""), ("S-", "S- A"), ("A", "-")] none = .ok scattered := by
  have built : Grammar.ofRules [("S-", ">x y"), ("S-", ""), ("S-", "S- A"), ("A", "-")] none =
      .ok scattered := by cbv
  have last : Layout.Writes (some "S-") [("A", "-")] ["A " ++ "->" ++ " -"] :=
    .rule (by decide) ⟨"", " ", by decide, by decide, rfl⟩
      (.last (by decide) ⟨" ", "", by decide, by decide, rfl⟩) .done
  have continued : Layout.Writes (some "S-") [("S-", "S- A"), ("A", "-")]
      ["\u3000" ++ "|" ++ " S- A", "A " ++ "->" ++ " -"] :=
    .continued (by decide) (.last (by decide) ⟨" ", "", by decide, by decide, rfl⟩) last
  have alternatives : Layout.Barred [">x y", ""] (">x y" ++ "|" ++ " ") :=
    .bar (by decide) ⟨"", "", by decide, by decide, rfl⟩
      (.last (by decide) ⟨" ", "", by decide, by decide, rfl⟩)
  have writes : Layout.Writes none [("S-", ">x y"), ("S-", ""), ("S-", "S- A"), ("A", "-")]
      ["", "S-" ++ "->" ++ (">x y" ++ "|" ++ " "), "\t", "\u3000" ++ "|" ++ " S- A",
          "A " ++ "->" ++ " -"] :=
    .blank (by decide)
      (.rule (by decide) ⟨"", "", by decide, by decide, rfl⟩ alternatives (.blank (by decide) continued))
  exact ⟨((Grammar.ofText_layout writes).1 scattered).mpr built, built⟩

end ParseTables
