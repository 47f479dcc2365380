import Mathlib.Data.List.TakeWhile
import ParseTables.Text.Split

namespace ParseTables.Text

/-- Blanks only. -/
def IsGap (text : List Char) : Prop := ∀ c ∈ text, isBlank c

/-- A word: some characters, none of them a blank. -/
def IsRun (text : List Char) : Prop := text ≠ [] ∧ ∀ c ∈ text, ¬ isBlank c

instance (text : List Char) : Decidable (IsGap text) :=
  decidable_of_iff (text.all isBlank) List.all_eq_true

instance (text : List Char) : Decidable (IsRun text) :=
  decidable_of_iff (text ≠ [] ∧ text.any isBlank = false) (and_congr_right fun _ => List.any_eq_false)

/-- What the parts have and joining keeps, the whole has. -/
theorem intercalate_of_each {p : String → Prop} {separator : String} (empty : p "")
    (join : ∀ before after, p before → p after → p (before ++ separator ++ after)) {parts : List String}
    (each : ∀ part ∈ parts, p part) : p (separator.intercalate parts) := by
  induction parts with
  | nil => exact empty
  | cons part rest ih =>
    rw [List.forall_mem_cons] at each
    cases rest with
    | nil =>
      rw [String.intercalate_singleton]
      exact each.1
    | cons other rest =>
      rw [String.intercalate_cons_cons]
      exact join part _ each.1 (ih each.2)

/-- Two texts with a blank between them have the words of both. -/
theorem wordsOfChars_append_cons {c : Char} (blank : isBlank c) (before after : List Char) :
    wordsOfChars (before ++ c :: after) = wordsOfChars before ++ wordsOfChars after := by
  rw [wordsOfChars, List.splitOnP_append_cons before after blank, List.filter_append]
  rfl

theorem wordsOfChars_gap_append {gap : List Char} (blanks : IsGap gap) (text : List Char) :
    wordsOfChars (gap ++ text) = wordsOfChars text := by
  induction gap with
  | nil => rfl
  | cons c rest ih =>
    have first : isBlank c := blanks c List.mem_cons_self
    have others := ih fun d member => blanks d (List.mem_cons_of_mem _ member)
    rw [← others]
    exact wordsOfChars_append_cons first [] (rest ++ text)

theorem wordsOfChars_append_gap {gap : List Char} (blanks : IsGap gap) (text : List Char) :
    wordsOfChars (text ++ gap) = wordsOfChars text := by
  cases gap with
  | nil => rw [List.append_nil]
  | cons c rest =>
    have none : wordsOfChars (rest ++ []) = [] :=
      wordsOfChars_gap_append (fun d member => blanks d (List.mem_cons_of_mem _ member)) []
    rw [wordsOfChars_append_cons (blanks c List.mem_cons_self), ← List.append_nil rest, none,
      List.append_nil]

theorem wordsOfChars_run {run : List Char} (isRun : IsRun run) : wordsOfChars run = [run] := by
  rw [wordsOfChars, List.splitOnP_eq_singleton fun c member => Bool.eq_false_iff.mpr (isRun.2 c member)]
  simp [isRun.1]

/-- The parts between separators are parts of the text, and have no separators in them. -/
theorem mem_splitOnP {α : Type} {p : α → Bool} {text part : List α} (member : part ∈ text.splitOnP p) :
    part <:+: text ∧ ∀ c ∈ part, ¬ p c := by
  -- the first part is a prefix, which the induction needs to put a character before it
  suffices prefixed : ((text.splitOnP p).head (List.splitOnP_ne_nil p text) <+: text) ∧
      ∀ part ∈ text.splitOnP p, part <:+: text ∧ ∀ c ∈ part, ¬ p c from prefixed.2 part member
  clear member
  induction text with
  | nil => simp
  | cons c rest ih =>
    obtain ⟨leading, parts⟩ := ih
    obtain ⟨first, others, split⟩ := List.exists_cons_of_ne_nil (List.splitOnP_ne_nil p rest)
    simp only [split, List.head_cons] at leading
    rw [split] at parts
    by_cases separator : p c
    · have whole : (c :: rest).splitOnP p = [] :: first :: others := by
        rw [List.splitOnP_cons_eq_if_modifyHead, if_pos separator, split]
      simp only [whole, List.head_cons]
      refine ⟨List.nil_prefix, fun part member => ?_⟩
      rcases List.mem_cons.mp member with rfl | inRest
      · exact ⟨List.nil_infix, fun c inside => absurd inside List.not_mem_nil⟩
      · exact ⟨(parts part inRest).1.trans (List.suffix_cons c rest).isInfix, (parts part inRest).2⟩
    · have whole : (c :: rest).splitOnP p = (c :: first) :: others := by
        rw [List.splitOnP_cons_eq_if_modifyHead, if_neg separator, split, List.modifyHead_cons]
      simp only [whole, List.head_cons]
      have longer : c :: first <+: c :: rest := List.cons_prefix_cons.mpr ⟨rfl, leading⟩
      refine ⟨longer, fun part member => ?_⟩
      rcases List.mem_cons.mp member with rfl | inRest
      · refine ⟨longer.isInfix, fun d inside => ?_⟩
        rcases List.mem_cons.mp inside with rfl | inFirst
        · exact separator
        · exact (parts first List.mem_cons_self).2 d inFirst
      · have later := parts part (List.mem_cons_of_mem _ inRest)
        exact ⟨later.1.trans (List.suffix_cons c rest).isInfix, later.2⟩

theorem isRun_of_mem_wordsOfChars {text word : List Char} (member : word ∈ wordsOfChars text) :
    IsRun word ∧ word <:+: text := by
  obtain ⟨inside, nonempty⟩ := List.mem_filter.mp member
  obtain ⟨isInfix, solid⟩ := mem_splitOnP inside
  exact ⟨⟨by simpa using nonempty, solid⟩, isInfix⟩

theorem wordsOfChars_ne_nil {text : List Char} {c : Char} (member : c ∈ text) (solid : ¬ isBlank c) :
    wordsOfChars text ≠ [] := by
  induction text with
  | nil => cases member
  | cons d rest ih =>
    by_cases blank : isBlank d
    · have later : c ∈ rest := (List.mem_cons.mp member).resolve_left fun same => solid (same ▸ blank)
      rw [show wordsOfChars (d :: rest) = wordsOfChars rest from wordsOfChars_append_cons blank [] rest]
      exact ih later
    · obtain ⟨first, others, split⟩ := List.exists_cons_of_ne_nil (List.splitOnP_ne_nil isBlank rest)
      rw [wordsOfChars, List.splitOnP_cons_eq_if_modifyHead, if_neg blank, split]
      simp

/-- A trimmed text, put back between the blanks that were taken off. -/
theorem exists_gaps (text : List Char) : ∃ before after, IsGap before ∧ IsGap after ∧
    text = before ++ trimChars text ++ after := by
  refine ⟨text.takeWhile isBlank,
    ((text.dropWhile isBlank).reverse.takeWhile isBlank).reverse, ?_, ?_, ?_⟩
  · exact fun c member => List.mem_takeWhile_imp member
  · exact fun c member => List.mem_takeWhile_imp (List.mem_reverse.mp member)
  · rw [trimChars, List.append_assoc, ← List.reverse_append, List.takeWhile_append_dropWhile,
      List.reverse_reverse,
      List.takeWhile_append_dropWhile]

theorem wordsOfChars_trimChars (text : List Char) :
    wordsOfChars (trimChars text) = wordsOfChars text := by
  obtain ⟨before, after, blanks, blanks', whole⟩ := exists_gaps text
  have outer := wordsOfChars_append_gap blanks' (before ++ trimChars text)
  rw [← whole, wordsOfChars_gap_append blanks] at outer
  exact outer.symm

/-- What comes after the first character that is no blank loses the blanks at its end, and nothing
else. -/
theorem trimChars_append_cons {before : List Char} {c : Char} (blanks : IsGap before)
    (solid : ¬ isBlank c) (after : List Char) :
    ∃ kept gap, IsGap gap ∧ after = kept ++ gap ∧ trimChars (before ++ c :: after) = c :: kept := by
  have front : (before ++ c :: after).dropWhile isBlank = c :: after := by
    rw [List.dropWhile_append_of_pos blanks, List.dropWhile_cons_of_neg solid]
  have back : (after.reverse ++ [c]).dropWhile isBlank = after.reverse.dropWhile isBlank ++ [c] := by
    rw [List.dropWhile_append]
    split
    · rename_i none
      rw [List.isEmpty_iff.mp none, List.dropWhile_cons_of_neg solid, List.nil_append]
    · rfl
  refine ⟨(after.reverse.dropWhile isBlank).reverse,
    (after.reverse.takeWhile isBlank).reverse, ?_, ?_, ?_⟩
  · exact fun d member => List.mem_takeWhile_imp (List.mem_reverse.mp member)
  · rw [← List.reverse_append, List.takeWhile_append_dropWhile, List.reverse_reverse]
  · rw [trimChars, front, List.reverse_cons, back, List.reverse_append]
    rfl

/-- A trimmed text begins and ends with characters that are not blank. -/
theorem ends_of_trimChars {text : List Char} {c : Char}
    (member : c ∈ (trimChars text).head? ∨ c ∈ (trimChars text).getLast?) : ¬ isBlank c := by
  have leading : ∀ {text : List Char}, c ∈ (text.dropWhile isBlank).head? → ¬ isBlank c := by
    intro text member
    have := List.head?_dropWhile_not isBlank text
    rw [show (text.dropWhile isBlank).head? = some c from member] at this
    simpa using this
  rcases member with first | last
  · -- what is left of the front survives when blanks are taken off the back
    refine @leading text ?_
    rw [trimChars, List.head?_reverse] at first
    obtain ⟨front, whole⟩ := List.dropWhile_suffix (l := (text.dropWhile isBlank).reverse) isBlank
    have same := congrArg List.getLast? whole
    rw [List.getLast?_append, show List.getLast? _ = some c from first, List.getLast?_reverse] at same
    simpa using same.symm
  · rw [trimChars, List.getLast?_reverse] at last
    exact leading last

/-- A blank inside a trimmed text has words on both of its sides. -/
theorem two_le_length_wordsOfChars {text : List Char} {c : Char} (member : c ∈ trimChars text)
    (blank : isBlank c) : 2 ≤ (wordsOfChars text).length := by
  obtain ⟨before, after, split⟩ := List.append_of_mem member
  have ends := fun d => @ends_of_trimChars text d
  rw [split] at ends
  rw [← wordsOfChars_trimChars, split, wordsOfChars_append_cons blank, List.length_append]
  cases before with
  | nil => exact absurd blank (ends c (Or.inl rfl))
  | cons first rest =>
    rcases List.eq_nil_or_concat after with rfl | ⟨init, last, rfl⟩
    · exact absurd blank (ends c (Or.inr List.getLast?_concat))
    · have atEnd : (first :: rest ++ c :: init.concat last).getLast? = some last := by
        rw [List.concat_eq_append, ← List.cons_append, ← List.append_assoc]
        exact List.getLast?_concat
      have left := @wordsOfChars_ne_nil (first :: rest) _ List.mem_cons_self (ends first (Or.inl rfl))
      have right := @wordsOfChars_ne_nil (init.concat last) _ (by simp) (ends last (Or.inr atEnd))
      have := List.length_pos_iff.mpr left
      have := List.length_pos_iff.mpr right
      omega

/-- A text with a single word is that word between blanks. -/
theorem trimChars_of_words {text word : List Char} (single : wordsOfChars text = [word]) :
    trimChars text = word := by
  have solid : ∀ c ∈ trimChars text, ¬ isBlank c := by
    intro c member blank
    have two := two_le_length_wordsOfChars member blank
    rw [single, List.length_singleton] at two
    omega
  rw [← wordsOfChars_trimChars] at single
  by_cases empty : trimChars text = []
  · rw [empty] at single
    cases single
  · exact (List.cons.inj ((wordsOfChars_run ⟨empty, solid⟩).symm.trans single)).1

theorem words_eq_of_trim {text word : String} (single : words text = [word]) : trim text = word := by
  obtain ⟨chars, whole, rfl⟩ := List.map_eq_singleton_iff.mp single
  exact congrArg String.ofList (trimChars_of_words whole)

theorem words_eq_nil_iff {text : String} : words text = [] ↔ trim text = "" := by
  rw [words, List.map_eq_nil_iff, ← wordsOfChars_trimChars, trim, String.ofList_eq_empty_iff]
  constructor
  · intro none
    refine List.eq_nil_iff_forall_not_mem.mpr fun c member => ?_
    obtain ⟨first, rest, whole⟩ := List.exists_cons_of_ne_nil (List.ne_nil_of_mem member)
    have solid : ¬ isBlank first := ends_of_trimChars (Or.inl (by rw [whole]; rfl))
    exact wordsOfChars_ne_nil (whole ▸ List.mem_cons_self) solid none
  · intro empty
    rw [empty]
    rfl

/-- A text has a single word if it is one once it is trimmed. -/
theorem words_eq_singleton_iff {text word : String} :
    words text = [word] ↔ trim text = word ∧ IsRun (trim text).toList := by
  constructor
  · intro single
    obtain ⟨chars, whole, rfl⟩ := List.map_eq_singleton_iff.mp single
    refine ⟨words_eq_of_trim single, ?_⟩
    rw [words_eq_of_trim single, String.toList_ofList]
    exact (isRun_of_mem_wordsOfChars (whole ▸ List.mem_singleton_self chars)).1
  · rintro ⟨rfl, run⟩
    rw [trim, String.toList_ofList] at run
    rw [words, ← wordsOfChars_trimChars, wordsOfChars_run run]
    rfl

end ParseTables.Text
