import ParseTables.Proofs.Grammar.Layout
import ParseTables.Proofs.Grammar.Numbered

namespace ParseTables

open Text (NoArrow)

/-- Nothing in the word ends a body. -/
structure Layout.IsWord (word : String) : Prop where
  run : Text.IsRun word.toList
  noBar : '|' ∉ word.toList
  noArrow : NoArrow word.toList
  visible : ¬ isEmptyWord word

/-- The names in the pairs can stand in a text. -/
structure Spelled (pairs : List (String × String)) : Prop where
  heads : ∀ pair ∈ pairs, Layout.IsHead (Text.trim pair.1)
  words : ∀ pair ∈ pairs, ∀ word ∈ bodyWords pair.2, Layout.IsWord word

/-- How a body is shown: the empty string as one word. -/
def shownBody (words : List String) : List String := if words = [] then [emptyWord] else words

namespace Text

theorem mem_words {text word : String} (member : word ∈ words text) :
    IsRun word.toList ∧ word.toList <:+: text.toList := by
  obtain ⟨chars, inside, rfl⟩ := List.mem_map.mp member
  rw [String.toList_ofList]
  exact isRun_of_mem_wordsOfChars inside

theorem isInfix_trimChars (text : List Char) : trimChars text <:+: text := by
  obtain ⟨before, after, -, -, whole⟩ := exists_gaps text
  exact ⟨before, after, whole.symm⟩

/-- Words with blanks between them are found again. -/
theorem words_intercalate {written : List String} (runs : ∀ word ∈ written, IsRun word.toList) :
    words (" ".intercalate written) = written := by
  induction written with
  | nil => rfl
  | cons word rest ih =>
    rw [List.forall_mem_cons] at runs
    have single : words word = [word] := by
      rw [words, wordsOfChars_run runs.1, List.map_singleton, String.ofList_toList]
    cases rest with
    | nil => rw [String.intercalate_singleton, single]
    | cons other rest =>
      have parts : (word ++ " " ++ " ".intercalate (other :: rest)).toList =
          word.toList ++ ' ' :: (" ".intercalate (other :: rest)).toList := by simp
      rw [String.intercalate_cons_cons, words, parts, wordsOfChars_append_cons (by decide),
        List.map_append]
      exact congr (congrArg _ single) (ih runs.2)

theorem mem_intercalate_blank {written : List String} {c : Char}
    (member : c ∈ (" ".intercalate written).toList) :
    c = ' ' ∨ ∃ word ∈ written, c ∈ word.toList := by
  refine intercalate_of_each
    (p := fun text => c ∈ text.toList → c = ' ' ∨ ∃ word ∈ written, c ∈ word.toList) (by simp)
    (fun before after left right member => ?_)
    (fun word listed inWord => Or.inr ⟨word, listed, inWord⟩) member
  rw [String.toList_append, String.toList_append, List.append_assoc, List.mem_append,
    show " ".toList = [' '] from rfl, List.singleton_append, List.mem_cons] at member
  rcases member with inBefore | blank | inAfter
  · exact left inBefore
  · exact Or.inl blank
  · exact right inAfter

theorem noArrow_intercalate_blank {written : List String}
    (free : ∀ word ∈ written, NoArrow word.toList) : NoArrow (" ".intercalate written).toList := by
  refine intercalate_of_each noArrow_nil (fun before after left right => ?_) free
  rw [String.toList_append, String.toList_append, List.append_assoc]
  exact left.append_cons right (by decide)

end Text

theorem Layout.IsHead.trim {head : String} (isHead : Layout.IsHead head) : Text.trim head = head :=
  Text.words_eq_of_trim isHead.words

section Shown

variable {words : List String} (areWords : ∀ word ∈ words, Layout.IsWord word)
include areWords

/-- A body that is shown is read as the same body. -/
theorem bodyWords_shownBody : bodyWords (" ".intercalate (shownBody words)) = words := by
  by_cases empty : words = []
  · rw [shownBody, if_pos empty, empty]
    decide
  · rw [shownBody, if_neg empty, bodyWords,
      Text.words_intercalate fun word member => (areWords word member).run,
      List.filter_eq_self]
    exact fun word member => by simpa using (areWords word member).visible

theorem isAlternative_shownBody : Layout.IsAlternative (" ".intercalate (shownBody words)) := by
  by_cases empty : words = []
  · rw [shownBody, if_pos empty]
    decide
  · rw [shownBody, if_neg empty]
    constructor
    · intro member
      rcases Text.mem_intercalate_blank member with blank | ⟨word, inBody, inWord⟩
      · cases blank
      · exact (areWords word inBody).run.2 _ inWord (by decide)
    · intro member
      rcases Text.mem_intercalate_blank member with blank | ⟨word, inBody, inWord⟩
      · cases blank
      · exact (areWords word inBody).noBar inWord
    · exact Text.noArrow_intercalate_blank fun word inBody => (areWords word inBody).noArrow

end Shown

theorem isInfix_of_leftSideWord {text head : String} (word : leftSideWord text = .ok head) :
    head.toList <:+: text.toList := by
  unfold leftSideWord at word
  split at word
  · cases word
  · rename_i only single
    obtain rfl := Except.ok.inj word
    exact (Text.mem_words (single ▸ List.mem_singleton_self only)).2
  · cases word

/-- Every name but that of the hidden start symbol is a word. -/
theorem Grammar.Reads.isRun {pairs : List (String × String)} {designated : Option String} {g : Grammar}
    (reads : g.Reads pairs designated) {name : String} (known : name ∈ g.names) :
    Text.IsRun name.toList := by
  rcases reads.mem_names.mp known with ⟨pair, -, head⟩ | ⟨pair, -, inBody⟩ | rfl
  · exact (Text.mem_words ((headName_eq_ok_iff.mp head).1 ▸ List.mem_singleton_self name)).1
  · exact (Text.mem_words (List.mem_filter.mp inBody).1).1
  · decide

/-- Between bars there is no bar, and no arrow unless there was one before. -/
theorem parts_of_splitOn {right : List Char} (free : NoArrow right) :
    ∀ body ∈ (right.splitOn '|').map String.ofList, '|' ∉ body.toList ∧ NoArrow body.toList := by
  intro body member
  obtain ⟨part, inRight, rfl⟩ := List.mem_map.mp member
  obtain ⟨isInfix, noBar⟩ := Text.mem_splitOnP inRight
  rw [String.toList_ofList]
  exact ⟨fun bar => noBar '|' bar (by decide), free.within isInfix⟩

/-- No arrow and no bar is left in what comes of a line. -/
theorem readLine_parts {previous : Option String} (known : ∀ head ∈ previous, NoArrow head.toList)
    {line : List Char} {head : String} {alternatives : List String}
    (read : readLine previous line = .ok (head, alternatives)) :
    NoArrow head.toList ∧ ∀ body ∈ alternatives, '|' ∉ body.toList ∧ NoArrow body.toList := by
  unfold readLine at read
  split at read
  · rename_i left right cut
    have free : ∀ part ∈ [left, right], NoArrow part := fun part member =>
      Text.noArrow_of_mem_splitArrows (cut ▸ member)
    cases word : leftSideWord (String.ofList left) with
    | error fault => simp [word, bind, Except.bind] at read
    | ok found =>
      simp only [word, bind, Except.bind, pure, Except.pure, Except.ok.injEq, Prod.mk.injEq] at read
      obtain ⟨rfl, rfl⟩ := read
      have inside := isInfix_of_leftSideWord word
      rw [String.toList_ofList] at inside
      exact ⟨(free left (by simp)).within inside, parts_of_splitOn (free right (by simp))⟩
  · rename_i whole cut
    have free : NoArrow whole := Text.noArrow_of_mem_splitArrows (cut ▸ List.mem_singleton_self whole)
    split at read
    · rename_i alternatives' head' trimmed
      simp only [Except.ok.injEq, Prod.mk.injEq] at read
      obtain ⟨rfl, rfl⟩ := read
      refine ⟨known _ rfl, parts_of_splitOn ((free.within (Text.isInfix_trimChars whole)).within ?_)⟩
      exact trimmed ▸ (List.suffix_cons '|' alternatives').isInfix
    · cases read
    · cases read
  · cases read

theorem readLines_parts {previous : Option String} (known : ∀ head ∈ previous, NoArrow head.toList)
    {lines : List (String × Nat)} {entries : List RuleEntry}
    (read : readLines previous lines = .ok entries) :
    ∀ entry ∈ entries, NoArrow entry.head.toList ∧ '|' ∉ entry.body.toList ∧
      NoArrow entry.body.toList := by
  induction lines generalizing previous entries with
  | nil =>
    cases read
    exact fun _ member => absurd member List.not_mem_nil
  | cons first rest ih =>
    obtain ⟨line, number⟩ := first
    rw [readLines] at read
    split at read
    · exact ih known read
    · split at read
      · cases read
      · rename_i head alternatives parts
        obtain ⟨headFree, bodies⟩ := readLine_parts known parts
        cases later : readLines (some head) rest with
        | error e => simp [later, bind, Except.bind] at read
        | ok others =>
          simp only [later, bind, Except.bind, pure, Except.pure, Except.ok.injEq] at read
          subst read
          intro entry member
          rcases List.mem_append.mp member with here | inRest
          · obtain ⟨body, listed, rfl⟩ := List.mem_map.mp here
            exact ⟨headFree, bodies body listed⟩
          · exact ih (fun _ same => Option.some.inj same ▸ headFree) later entry inRest

/-- Entries make the same grammar as their pairs. -/
theorem Grammar.ofRules_of_ofEntries {entries : List RuleEntry} {designated : Option String}
    {g : Grammar} (made : Grammar.ofEntries entries designated = .ok g) :
    Grammar.ofRules (entries.map fun entry => (entry.head, entry.body)) designated = .ok g := by
  have alike : List.Forall₂ (fun (entry : RuleEntry) pair => headName entry.head = headName pair.1 ∧
      bodyWords entry.body = bodyWords pair.2) entries
      (entries.map fun entry => (entry.head, entry.body)) :=
    List.forall₂_map_right_iff.mpr (List.forall₂_same.mpr fun _ _ => ⟨rfl, rfl⟩)
  rw [← unplaced_eq_ok_iff, ← ofRules_unplaced alike, unplaced_eq_ok_iff]
  exact made

/-- A text that makes a grammar is some pairs, and their names can stand in a text. -/
theorem Grammar.exists_pairs_of_ofText {text : String} {g : Grammar}
    (read : Grammar.ofText text = .ok g) :
    ∃ pairs, Grammar.ofRules pairs none = .ok g ∧ Spelled pairs := by
  unfold Grammar.ofText at read
  cases entered : readLines none ((Text.lines text).zipIdx 1) with
  | error e =>
    rw [entered] at read
    cases read
  | ok entries =>
    rw [entered] at read
    have built := Grammar.ofRules_of_ofEntries read
    have parts := readLines_parts (fun _ absent => absurd absent (Option.not_mem_none _)) entered
    refine ⟨_, built, fun pair member => ?_, fun pair member word inBody => ?_⟩
    · obtain ⟨name, named⟩ := (Grammar.exists_ofRules_iff.mp ⟨g, built⟩).2.1 pair member
      obtain ⟨entry, listed, rfl⟩ := List.mem_map.mp member
      obtain ⟨run, inside⟩ :=
        Text.mem_words ((headName_eq_ok_iff.mp named).1 ▸ List.mem_singleton_self name)
      rw [trim_of_headName named]
      exact ⟨by simpa using run.1, run.2, (parts entry listed).1.within inside⟩
    · obtain ⟨entry, listed, rfl⟩ := List.mem_map.mp member
      obtain ⟨inWords, visible⟩ := List.mem_filter.mp inBody
      obtain ⟨run, inside⟩ := Text.mem_words inWords
      obtain ⟨-, noBar, noArrow⟩ := parts entry listed
      exact ⟨run, fun bar => noBar (inside.subset bar), noArrow.within inside, by simpa using visible⟩

end ParseTables
