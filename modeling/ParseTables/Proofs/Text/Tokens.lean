import ParseTables.Proofs.Text.Words
import ParseTables.Sentence

namespace ParseTables

namespace Text

/-- A text that consists of some words, none of which goes on where it ends, and of blanks around
them. -/
inductive Spread : List (List Char) → List Char → Prop
  | gap {gap : List Char} : IsGap gap → Spread [] gap
  | word {gap word after : List Char} {words : List (List Char)} : IsGap gap → IsRun word →
      (∀ c ∈ after.head?, isBlank c) → Spread words after → Spread (word :: words) (gap ++ word ++ after)

theorem Spread.wordsOfChars_eq {words : List (List Char)} {text : List Char}
    (spread : Spread words text) : wordsOfChars text = words := by
  induction spread with
  | gap blanks =>
    have none := wordsOfChars_append_gap blanks []
    rwa [List.nil_append] at none
  | @word gap word after words blanks run parted _ ih =>
    rw [List.append_assoc, wordsOfChars_gap_append blanks]
    cases after with
    | nil => rw [List.append_nil, wordsOfChars_run run, ← ih]; rfl
    | cons c rest =>
      have blank : isBlank c := parted c rfl
      have same : wordsOfChars (c :: rest) = wordsOfChars rest := wordsOfChars_append_cons blank [] rest
      rw [wordsOfChars_append_cons blank, wordsOfChars_run run, ← same, ih]
      rfl

theorem Spread.cons_blank {words : List (List Char)} {text : List Char} {c : Char} (blank : isBlank c)
    (spread : Spread words text) : Spread words (c :: text) := by
  cases spread with
  | gap blanks => exact .gap (List.forall_mem_cons.mpr ⟨blank, blanks⟩)
  | word blanks run parted later =>
    exact .word (List.forall_mem_cons.mpr ⟨blank, blanks⟩) run parted later

/-- Another character begins a word, or makes the word that it stands before one longer. -/
theorem Spread.exists_cons {words : List (List Char)} {text : List Char} {c : Char} (solid : ¬ isBlank c)
    (spread : Spread words text) : ∃ words', Spread words' (c :: text) := by
  have alone : IsRun [c] := ⟨List.cons_ne_nil c [], fun d member => List.mem_singleton.mp member ▸ solid⟩
  have nothing : IsGap [] := fun d member => absurd member List.not_mem_nil
  cases spread with
  | gap blanks =>
    exact ⟨[[c]], .word nothing alone (fun d first => blanks d (List.mem_of_head? first)) (.gap blanks)⟩
  | @word gap word after words blanks run parted later =>
    cases gap with
    | nil =>
      have longer : IsRun (c :: word) :=
        ⟨List.cons_ne_nil c word, List.forall_mem_cons.mpr ⟨solid, run.2⟩⟩
      exact ⟨(c :: word) :: words, .word nothing longer parted later⟩
    | cons d rest =>
      have leading : ∀ e ∈ (d :: rest ++ word ++ after).head?, isBlank e := fun e first =>
        Option.some.inj first ▸ blanks d List.mem_cons_self
      exact ⟨[c] :: word :: words, .word nothing alone leading (.word blanks run parted later)⟩

theorem exists_spread (text : List Char) : ∃ words, Spread words text := by
  induction text with
  | nil => exact ⟨[], .gap fun c member => absurd member List.not_mem_nil⟩
  | cons c rest ih =>
    obtain ⟨words, spread⟩ := ih
    by_cases blank : isBlank c
    · exact ⟨words, spread.cons_blank blank⟩
    · exact spread.exists_cons blank

/-- Every text consists of words with blanks between them in just one way. -/
theorem spread_iff {words : List (List Char)} {text : List Char} :
    Spread words text ↔ wordsOfChars text = words := by
  constructor
  · exact Spread.wordsOfChars_eq
  · rintro rfl
    obtain ⟨words, spread⟩ := exists_spread text
    rwa [spread.wordsOfChars_eq]

theorem spread_map_iff {tokens : List String} {text : String} :
    Spread (tokens.map String.toList) text.toList ↔ tokens = words text := by
  rw [spread_iff, words]
  constructor
  · intro same
    rw [same, List.map_map]
    exact ((List.map_congr_left fun token _ => String.ofList_toList).trans (List.map_id _)).symm
  · rintro rfl
    rw [List.map_map]
    exact ((List.map_congr_left fun word _ => String.toList_ofList).trans (List.map_id _)).symm

/-- Without blanks a text is a single word, or empty. -/
theorem wordsOfChars_solid {text : List Char} (solid : ∀ c ∈ text, ¬ isBlank c) :
    (wordsOfChars text).length ≤ 1 ∧ (wordsOfChars text).flatten = text := by
  by_cases empty : text = []
  · subst empty
    exact ⟨Nat.zero_le 1, rfl⟩
  · rw [wordsOfChars_run ⟨empty, solid⟩]
    exact ⟨Nat.le_refl 1, List.flatten_singleton⟩

end Text

open Text (Spread isBlank)

/-- The characters of a text, each a text of its own. -/
def characters (text : String) : List String := text.toList.map Char.toString

theorem characters_eq_singleton_iff {token : String} :
    characters token = [token] ↔ token.length = 1 := by
  constructor
  · intro single
    have := congrArg List.length single
    rwa [characters, List.length_map, String.length_toList] at this
  · intro one
    obtain ⟨c, whole⟩ := List.length_eq_one_iff.mp (String.length_toList.trans one)
    rw [characters, whole, List.map_singleton, ← String.ofList_toList (s := token), whole]
    rfl

theorem flatMap_characters (words : List (List Char)) :
    (words.map String.ofList).flatMap characters = words.flatten.map Char.toString := by
  rw [List.map_flatten, List.flatMap_def, List.map_map]
  exact congrArg List.flatten (List.map_congr_left fun word _ => congrArg _ String.toList_ofList)

/-- Blanks are looked for where the text has been trimmed, and are found there if there is more than one
word. -/
theorem splitInput_eq (text : String) : splitInput text =
    if 2 ≤ (Text.words text).length then Text.words text else (Text.words text).flatMap characters := by
  have inner : Text.words text = (Text.wordsOfChars (Text.trimChars text.toList)).map String.ofList := by
    rw [Text.wordsOfChars_trimChars, Text.words]
  by_cases blank : ∃ c ∈ Text.trimChars text.toList, isBlank c
  · obtain ⟨c, member, isBlank⟩ := blank
    have several : 2 ≤ (Text.words text).length := by
      rw [Text.words, List.length_map]
      exact Text.two_le_length_wordsOfChars member isBlank
    rw [if_pos several, splitInput, if_pos (List.any_eq_true.mpr ⟨c, member, isBlank⟩), inner]
  · have solid : ∀ c ∈ Text.trimChars text.toList, ¬ isBlank c :=
      fun c member isBlank => blank ⟨c, member, isBlank⟩
    obtain ⟨single, whole⟩ := Text.wordsOfChars_solid solid
    have few : ¬ 2 ≤ (Text.words text).length := by
      rw [inner, List.length_map]
      omega
    rw [splitInput, if_neg fun some => blank (List.any_eq_true.mp some), if_neg few, inner,
      flatMap_characters, whole]

/-- Tokens are kept, except for one of several characters that stands alone. -/
theorem kept_iff {tokens : List String} :
    (if 2 ≤ tokens.length then tokens else tokens.flatMap characters) = tokens ↔
    ¬ ∃ token, tokens = [token] ∧ token.length ≠ 1 := by
  match tokens with
  | [] => simp
  | [token] => simp [characters_eq_singleton_iff]
  | _ :: _ :: _ => simp

/-- A text has its words as tokens if there are two or more, and the characters of its words otherwise.
This is the cut at blanks, or into characters if there are none, unless all the blanks are around a
single word of several characters. So tokens that are written with blanks between them are found again,
unless such a word is the only one. -/
theorem splitInput_spread (text : String) : ∃ tokens : List String,
    (∀ others : List String, Spread (others.map String.toList) text.toList ↔ others = tokens) ∧
    splitInput text = (if 2 ≤ tokens.length then tokens else tokens.flatMap characters) ∧
    (splitInput text = (if text.toList.any isBlank then tokens else characters text) ↔
      ¬ (text.toList.any isBlank ∧ ∃ token, tokens = [token] ∧ token.length ≠ 1)) ∧
    (splitInput text = tokens ↔ ¬ ∃ token, tokens = [token] ∧ token.length ≠ 1) := by
  have cut := splitInput_eq text
  refine ⟨Text.words text, fun others => Text.spread_map_iff, cut, ?_, cut ▸ kept_iff⟩
  by_cases blank : text.toList.any isBlank
  · rw [if_pos blank, cut, kept_iff]
    exact not_congr (and_iff_right blank).symm
  · have solid : ∀ c ∈ text.toList, ¬ isBlank c := fun c member isBlank =>
      blank (List.any_eq_true.mpr ⟨c, member, isBlank⟩)
    obtain ⟨single, whole⟩ := Text.wordsOfChars_solid solid
    have few : ¬ 2 ≤ (Text.words text).length := by
      rw [Text.words, List.length_map]
      omega
    rw [if_neg blank, cut, if_neg few, Text.words, flatMap_characters, whole]
    exact iff_of_true rfl fun claimed => blank claimed.1

/-- Blanks around a single word do not keep it from being torn into its characters. -/
theorem single_word_torn : ¬ ∀ (text : String) (tokens : List String), text.toList.any isBlank →
    Spread (tokens.map String.toList) text.toList → splitInput text = tokens := by
  intro kept
  have torn := kept " abc" ["abc"] (by decide) (Text.spread_map_iff.mpr (by cbv))
  exact absurd torn (by decide +kernel)

end ParseTables
