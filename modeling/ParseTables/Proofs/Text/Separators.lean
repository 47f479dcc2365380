import ParseTables.Proofs.Text.Words

namespace ParseTables.Text

/-- The arrow between a head and its alternatives. -/
def arrow : List Char := ['-', '>']

/-- No arrow stands in the text. -/
def NoArrow (text : List Char) : Prop := ¬ arrow <:+: text

instance (text : List Char) : Decidable (NoArrow text) := inferInstanceAs (Decidable (¬ arrow <:+: text))

theorem NoArrow.within {text part : List Char} (free : NoArrow text) (isInfix : part <:+: text) :
    NoArrow part :=
  fun found => free (found.trans isInfix)

theorem noArrow_nil : NoArrow [] := fun found => by cases List.infix_nil.mp found

/-- An arrow is not torn apart by a character that is none of its own. -/
theorem NoArrow.append_cons {before after : List Char} {c : Char} (free : NoArrow before)
    (free' : NoArrow after) (other : c ∉ arrow) : NoArrow (before ++ c :: after) := by
  induction before with
  | nil =>
    intro found
    rcases List.infix_cons_iff.mp found with leading | later
    · exact other ((List.cons_prefix_cons.mp leading).1 ▸ List.mem_cons_self)
    · exact free' later
  | cons d rest ih =>
    intro found
    rcases List.infix_cons_iff.mp found with leading | later
    · obtain ⟨rfl, next⟩ := List.cons_prefix_cons.mp leading
      cases rest with
      | nil =>
        exact other ((List.cons_prefix_cons.mp next).1 ▸ List.mem_cons_of_mem _ List.mem_cons_self)
      | cons e rest =>
        obtain ⟨rfl, -⟩ := List.cons_prefix_cons.mp next
        exact free ⟨[], rest, rfl⟩
    · exact ih (free.within (List.suffix_cons d rest).isInfix) later

theorem not_mem_arrow_of_isBlank {c : Char} (blank : isBlank c) : c ∉ arrow := by
  intro member
  simp only [arrow, List.mem_cons, List.not_mem_nil, or_false] at member
  rcases member with rfl | rfl <;> cases blank

theorem NoArrow.gap_append {gap text : List Char} (blanks : IsGap gap) (free : NoArrow text) :
    NoArrow (gap ++ text) := by
  induction gap with
  | nil => exact free
  | cons c rest ih =>
    have others := ih fun d member => blanks d (List.mem_cons_of_mem _ member)
    exact NoArrow.append_cons noArrow_nil others (not_mem_arrow_of_isBlank (blanks c List.mem_cons_self))

theorem NoArrow.append_gap {gap text : List Char} (blanks : IsGap gap) (free : NoArrow text) :
    NoArrow (text ++ gap) := by
  cases gap with
  | nil => rwa [List.append_nil]
  | cons c rest =>
    have none : NoArrow (rest ++ []) :=
      NoArrow.gap_append (fun d member => blanks d (List.mem_cons_of_mem _ member)) noArrow_nil
    exact free.append_cons (List.append_nil rest ▸ none)
      (not_mem_arrow_of_isBlank (blanks c List.mem_cons_self))

theorem splitArrows_cons {c : Char} {rest : List Char} (free : ¬ arrow <+: c :: rest) :
    splitArrows (c :: rest) = (splitArrows rest).modifyHead (c :: ·) := by
  rw [splitArrows]
  rintro after rfl rfl
  exact free ⟨after, rfl⟩

theorem splitArrows_of_noArrow {text : List Char} (free : NoArrow text) : splitArrows text = [text] := by
  induction text with
  | nil => rfl
  | cons c rest ih =>
    rw [splitArrows_cons fun leading => free leading.isInfix,
      ih (free.within (List.suffix_cons c rest).isInfix), List.modifyHead_cons]

/-- The first arrow is the one that was put after a text without arrows. -/
theorem splitArrows_append {left : List Char} (free : NoArrow left) (right : List Char) :
    splitArrows (left ++ arrow ++ right) = left :: splitArrows right := by
  induction left with
  | nil => rfl
  | cons c rest ih =>
    have leading : ¬ arrow <+: c :: (rest ++ arrow ++ right) := by
      intro found
      obtain ⟨rfl, next⟩ := List.cons_prefix_cons.mp found
      cases rest with
      | nil => cases (List.cons_prefix_cons.mp next).1
      | cons d rest =>
        obtain ⟨rfl, -⟩ := List.cons_prefix_cons.mp next
        exact free ⟨[], rest, rfl⟩
    show splitArrows (c :: (rest ++ arrow ++ right)) = _
    rw [splitArrows_cons leading, ih (free.within (List.suffix_cons c rest).isInfix),
      List.modifyHead_cons]

/-- The parts between arrows have no arrows in them. -/
theorem noArrow_of_mem_splitArrows {text part : List Char} (member : part ∈ splitArrows text) :
    NoArrow part := by
  -- a character before the first part makes no arrow, because there would be one in the text
  suffices prefixed : (∃ first others, splitArrows text = first :: others ∧ first <+: text) ∧
      ∀ part ∈ splitArrows text, NoArrow part from prefixed.2 part member
  clear member part
  fun_induction splitArrows text with
  | case1 => exact ⟨⟨[], [], rfl, List.nil_prefix⟩,
      fun part member => List.mem_singleton.mp member ▸ noArrow_nil⟩
  | case2 rest ih =>
    refine ⟨⟨[], _, rfl, List.nil_prefix⟩, fun part member => ?_⟩
    rcases List.mem_cons.mp member with rfl | later
    · exact noArrow_nil
    · exact ih.2 part later
  | case3 c rest other ih =>
    obtain ⟨⟨first, others, split, leading⟩, free⟩ := ih
    rw [split] at free
    rw [split, List.modifyHead_cons]
    have longer : c :: first <+: c :: rest := List.cons_prefix_cons.mpr ⟨rfl, leading⟩
    refine ⟨⟨_, _, rfl, longer⟩, fun part member => ?_⟩
    rcases List.mem_cons.mp member with rfl | later
    · intro found
      rcases List.infix_cons_iff.mp found with atFront | inFirst
      · obtain ⟨after, whole⟩ := atFront.trans longer
        exact other after (List.cons.inj whole).1.symm (List.cons.inj whole).2.symm
      · exact free first List.mem_cons_self inFirst
    · exact free part (List.mem_cons_of_mem _ later)

theorem bar_not_mem_arrow : '|' ∉ arrow := by decide

theorem IsGap.not_mem {gap : List Char} (blanks : IsGap gap) {c : Char} (solid : ¬ isBlank c) :
    c ∉ gap :=
  fun member => solid (blanks c member)

/-- A text that does not end a line. -/
def Unbroken (text : String) : Prop := '\n' ∉ text.toList

instance (text : String) : Decidable (Unbroken text) := inferInstanceAs (Decidable (¬ _ ∈ text.toList))

theorem Unbroken.append {text after : String} (first : Unbroken text) (second : Unbroken after) :
    Unbroken (text ++ after) := by
  rw [Unbroken, String.toList_append, List.mem_append]
  exact not_or.mpr ⟨first, second⟩

theorem Unbroken.intercalate {separator : String} (between : Unbroken separator) {parts : List String}
    (each : ∀ part ∈ parts, Unbroken part) : Unbroken (separator.intercalate parts) :=
  intercalate_of_each (p := Unbroken) (by decide)
    (fun _ _ before after => (before.append between).append after) each

theorem unbroken_of_isRun {text : String} (run : IsRun text.toList) : Unbroken text :=
  fun member => run.2 _ member (by decide)

theorem intercalate_cons_intercalate {separator : String} {parts : List String} (nonempty : parts ≠ [])
    (others : List String) :
    separator.intercalate (separator.intercalate parts :: others) =
      separator.intercalate (parts ++ others) := by
  cases others with
  | nil => rw [List.append_nil, String.intercalate_singleton]
  | cons other rest =>
    rw [String.intercalate_cons_of_ne_nil (List.cons_ne_nil _ _),
      String.intercalate_append_of_ne_nil nonempty (List.cons_ne_nil _ _)]

/-- Lines are found again when they are put together, except that no line at all reads as a single empty
one. -/
theorem lines_intercalate {written : List String} (some : written ≠ [])
    (unbroken : ∀ line ∈ written, '\n' ∉ line.toList) :
    lines ("\n".intercalate written) = written := by
  have parts : ∀ part ∈ written.map String.toList, '\n' ∉ part := by
    simpa [List.forall_mem_map] using unbroken
  rw [lines, String.toList_intercalate, show "\n".toList = ['\n'] from rfl,
    List.splitOn_intercalate '\n' parts (by simpa using some), List.map_map]
  exact (List.map_congr_left fun line _ => String.ofList_toList).trans (List.map_id _)

/-- Blanks after the last bar are no words. -/
theorem map_words_splitOn_append_gap {gap : List Char} (blanks : IsGap gap) (text : List Char) :
    ((text ++ gap).splitOn '|').map wordsOfChars = (text.splitOn '|').map wordsOfChars := by
  have noBar : '|' ∉ gap := blanks.not_mem (by decide)
  have clean : ∀ part ∈ text.splitOn '|', '|' ∉ part := fun part member inPart =>
    (mem_splitOnP member).2 '|' inPart (by decide)
  have whole : ['|'].intercalate (text.splitOn '|') = text := List.intercalate_splitOn '|'
  have some := List.splitOn_ne_nil '|' text
  revert clean whole some
  generalize text.splitOn '|' = parts
  rintro clean rfl some
  induction parts with
  | nil => exact absurd rfl some
  | cons part rest ih =>
    rw [List.forall_mem_cons] at clean
    cases rest with
    | nil =>
      rw [List.intercalate_singleton, List.splitOn_eq_singleton (by simp [clean.1, noBar])]
      simp [wordsOfChars_append_gap blanks]
    | cons other rest =>
      have later := ih clean.2 (List.cons_ne_nil _ _)
      rw [List.intercalate_cons_cons, List.append_assoc, List.append_assoc, List.singleton_append,
        List.splitOn_append_cons_self_of_not_mem clean.1, List.map_cons, later]
      rfl

end ParseTables.Text
