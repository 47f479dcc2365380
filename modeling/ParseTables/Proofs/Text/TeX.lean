import Mathlib.Data.List.Infix
import ParseTables.Proofs.Text.Words
import ParseTables.Text.TeX

namespace ParseTables.Text

/-- A part is found in what is put together from it and others. -/
theorem isInfix_intercalate {separator part : String} {parts : List String} (member : part ∈ parts) :
    part.toList <:+: (separator.intercalate parts).toList := by
  induction parts with
  | nil => exact absurd member List.not_mem_nil
  | cons first rest ih =>
    rcases List.mem_cons.mp member with rfl | later
    · cases rest with
      | nil => exact String.intercalate_singleton (s := separator) ▸ List.infix_rfl
      | cons other rest =>
        rw [String.intercalate_cons_cons, String.toList_append, String.toList_append, List.append_assoc]
        exact (List.prefix_append _ _).isInfix
    · rw [String.intercalate_cons_of_ne_nil (List.ne_nil_of_mem later), String.toList_append]
      exact (ih later).trans (List.suffix_append _ _).isInfix

namespace TeX

/-- The visible characters of ASCII. -/
def IsVisible (c : Char) : Prop := 0x20 < c.toNat ∧ c.toNat < 0x7F

instance (c : Char) : Decidable (IsVisible c) := inferInstanceAs (Decidable (_ ∧ _))

theorem IsVisible.not_isBlank {c : Char} (visible : IsVisible c) : ¬ isBlank c := by
  obtain ⟨low, high⟩ := visible
  simp only [isBlank, Bool.or_eq_true, Bool.and_eq_true, decide_eq_true_eq, beq_iff_eq]
  omega

/-- No backslash has an `e` after it, nor gets one from a text that is put behind. -/
structure NoEpsilon (text : List Char) : Prop where
  free : ¬ ['\\', 'e'] <:+: text
  ends : text.getLast? ≠ some '\\'

instance (text : List Char) : Decidable (NoEpsilon text) :=
  decidable_of_iff (¬ ['\\', 'e'] <:+: text ∧ text.getLast? ≠ some '\\')
    ⟨fun ⟨free, ends⟩ => ⟨free, ends⟩,
    fun none => ⟨none.free, none.ends⟩⟩

theorem NoEpsilon.append {text after : List Char} (left : NoEpsilon text) (right : NoEpsilon after) :
    NoEpsilon (text ++ after) := by
  constructor
  · rintro ⟨before, behind, whole⟩
    rw [List.append_assoc] at whole
    rcases List.append_eq_append_iff.mp whole with ⟨middle, rfl, within⟩ | ⟨middle, rfl, within⟩
    · -- the backslash is the last of the one text or stands in the other
      match middle, within with
      | [], within => exact right.free ⟨[], behind, within⟩
      | [_], within => exact left.ends (by rw [← (List.cons.inj within).1, List.getLast?_concat])
      | c :: d :: inner, within =>
        injection within with first within
        injection within with second
        exact left.free ⟨before, inner, by simp [← first, ← second]⟩
    · exact right.free ⟨middle, behind, by rw [within, List.append_assoc]⟩
  · rw [List.getLast?_append]
    cases last : after.getLast? with
    | none => exact left.ends
    | some c =>
      rw [Option.some_or, ← last]
      exact right.ends

/-- What is written for a character that cannot stand as it is. -/
structure IsEscape (text : List Char) : Prop where
  several : 2 ≤ text.length
  visible : ∀ c ∈ text, IsVisible c
  noEpsilon : NoEpsilon text

instance (text : List Char) : Decidable (IsEscape text) :=
  decidable_of_iff (2 ≤ text.length ∧ text.all (fun c => IsVisible c) ∧ NoEpsilon text)
    ⟨fun ⟨several, visible, noEpsilon⟩ => ⟨several, by simpa using visible, noEpsilon⟩,
      fun escape => ⟨escape.several, by simpa using escape.visible, escape.noEpsilon⟩⟩

theorem escapeChar_cases (c : Char) :
    (escapeChar c).toList = [c] ∧ c ≠ '\\' ∨ IsVisible c ∧ IsEscape (escapeChar c).toList := by
  unfold escapeChar
  split
  all_goals first
    | exact Or.inr ⟨by decide, by decide +kernel⟩
    | exact Or.inl ⟨String.toList_singleton _, by assumption⟩

/-- What the first character of a text is written as. -/
def escapedHead (c : Char) (rest : List Char) : List Char :=
  (if c = '-' ∧ rest.head? = some '-' then "-\x7b\x7d" else escapeChar c).toList

theorem escapeChars_cons (c : Char) (rest : List Char) :
    escapeChars (c :: rest) = escapedHead c rest ++ escapeChars rest := rfl

theorem escapedHead_cases (c : Char) (rest : List Char) :
    escapedHead c rest = [c] ∧ c ≠ '\\' ∨ IsVisible c ∧ IsEscape (escapedHead c rest) := by
  unfold escapedHead
  split
  · rename_i hyphens
    rw [hyphens.1]
    exact Or.inr ⟨by decide, by decide +kernel⟩
  · exact escapeChar_cases c

theorem mem_escapeChars_iff {text : List Char} {c : Char} (foreign : ¬ IsVisible c) :
    c ∈ escapeChars text ↔ c ∈ text := by
  induction text with
  | nil => exact Iff.rfl
  | cons d rest ih =>
    have here : c ∈ escapedHead d rest ↔ c = d := by
      rcases escapedHead_cases d rest with ⟨same, -⟩ | ⟨visible, escape⟩
      · rw [same, List.mem_singleton]
      · exact iff_of_false (fun member => foreign (escape.visible c member)) fun same =>
          foreign (same ▸ visible)
    rw [escapeChars_cons, List.mem_append, here, ih, List.mem_cons]

/-- Only visible characters of ASCII come in or are written otherwise. -/
theorem mem_escapeText_iff {text : String} {c : Char} (foreign : ¬ IsVisible c) :
    c ∈ (escapeText text).toList ↔ c ∈ text.toList := by
  rw [escapeText, String.toList_ofList, mem_escapeChars_iff foreign]

theorem noEpsilon_escapeText (text : String) : NoEpsilon (escapeText text).toList := by
  rw [escapeText, String.toList_ofList]
  induction text.toList with
  | nil => decide
  | cons c rest ih =>
    rw [escapeChars_cons]
    refine NoEpsilon.append ?_ ih
    rcases escapedHead_cases c rest with ⟨same, other⟩ | ⟨-, escape⟩
    · rw [same]
      refine ⟨fun found => ?_, fun last => other (Option.some.inj last)⟩
      have := found.length_le
      simp at this
    · exact escape.noEpsilon

theorem noEpsilon_intercalate {separator : String} (between : NoEpsilon separator.toList)
    {parts : List String} (each : ∀ part ∈ parts, NoEpsilon part.toList) :
    NoEpsilon (separator.intercalate parts).toList := by
  refine intercalate_of_each ⟨by simp, by simp⟩ (fun before after left right => ?_) each
  rw [String.toList_append, String.toList_append]
  exact (left.append between).append right

theorem length_escapeChars (text : List Char) : text.length ≤ (escapeChars text).length := by
  induction text with
  | nil => exact Nat.le_refl 0
  | cons c rest ih =>
    rw [escapeChars_cons, List.length_append, List.length_cons]
    rcases escapedHead_cases c rest with ⟨same, -⟩ | ⟨-, escape⟩
    · rw [same, List.length_singleton]
      omega
    · have := escape.several
      omega

theorem isRun_escapeText {text : String} (run : IsRun text.toList) :
    IsRun (escapeText text).toList := by
  rw [escapeText, String.toList_ofList]
  refine ⟨fun none => ?_, fun c member blank => ?_⟩
  · have shorter := length_escapeChars text.toList
    rw [none, List.length_nil] at shorter
    exact run.1 (List.length_eq_zero_iff.mp (Nat.le_zero.mp shorter))
  · by_cases visible : IsVisible c
    · exact visible.not_isBlank blank
    · exact run.2 c ((mem_escapeChars_iff visible).mp member) blank

/-- Nothing else is written as a point. -/
theorem escapeText_eq_point_iff {text : String} : escapeText text = "." ↔ text = "." := by
  constructor
  · intro point
    have whole : escapeChars text.toList = ['.'] := by
      rw [← String.toList_ofList (l := escapeChars text.toList)]
      exact congrArg String.toList point
    have shorter := length_escapeChars text.toList
    rw [← String.toList_inj]
    cases chars : text.toList with
    | nil => rw [chars] at whole; cases whole
    | cons c rest =>
      rw [chars] at whole shorter
      rw [whole] at shorter
      obtain rfl : rest = [] := by simpa using shorter
      rw [escapeChars_cons] at whole
      rcases escapedHead_cases c [] with ⟨same, -⟩ | ⟨-, escape⟩
      · rw [same] at whole
        exact whole
      · have one := congrArg List.length whole
        have several := escape.several
        rw [List.length_append, List.length_singleton] at one
        omega
  · rintro rfl
    decide

/-- What is known of a way to escape. Words stay words, a point stays a point and nothing else
becomes one, and no command that begins with an `e` arises. The letter for the empty string stands
for itself, in a text just if it was there before. -/
class Lawful [TeX] : Prop where
  run : ∀ text : String, IsRun text.toList → IsRun (escape text).toList
  point : ∀ text, escape text = "." ↔ text = "."
  noEpsilon : ∀ text, NoEpsilon (escape text).toList
  letter : ∀ text : String, 'ε' ∈ (escape text).toList ↔ 'ε' ∈ text.toList
  alone : escape "ε" = "ε"

instance : Lawful where
  run _ := isRun_escapeText
  point _ := escapeText_eq_point_iff
  noEpsilon := noEpsilon_escapeText
  letter _ := mem_escapeText_iff (by decide)
  alone := by decide

end TeX
end ParseTables.Text
