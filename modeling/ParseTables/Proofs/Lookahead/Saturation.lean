import Mathlib.Data.List.Forall2
import Mathlib.Data.List.Perm.Basic
import ParseTables.Lookahead.ByNonTerminal
import ParseTables.Saturation
import ParseTables.SortedSet

namespace ParseTables

theorem saturate_last {α : Type} {missing : α → Nat} {step : α → α} {Kept : α → Prop}
    (keeps : ∀ value, Kept value → Kept (step value)) {value : α} (start : Kept value) :
    ∃ last, Kept last ∧ (saturate missing step value).1 = step last ∧
      missing last ≤ missing (step last) := by
  fun_induction saturate missing step value with
  | case1 value next less last steps found ih =>
    rw [found] at ih
    exact ih (keeps value start)
  | case2 value next rest => exact ⟨value, start, rfl, Nat.not_lt.mp rest⟩

section Rest

variable {α ι : Type} {le : α → α → Prop} {add : α → ι → α} {Kept : α → Prop}

theorem foldl_kept (keeps : ∀ value i, Kept value → Kept (add value i)) (items : List ι) {value : α}
    (start : Kept value) : Kept (items.foldl add value) := by
  induction items generalizing value with
  | nil => exact start
  | cons i rest ih => exact ih (keeps value i start)

theorem le_foldl (refl : ∀ a, le a a) (trans : ∀ a b c, le a b → le b c → le a c)
    (inflates : ∀ value i, le value (add value i)) (items : List ι) (value : α) :
    le value (items.foldl add value) := by
  induction items generalizing value with
  | nil => exact refl value
  | cons i rest ih => exact trans _ _ _ (inflates value i) (ih _)

theorem add_eq_of_foldl_eq (refl : ∀ a, le a a) (trans : ∀ a b c, le a b → le b c → le a c)
    (antisymm : ∀ a b, le a b → le b a → a = b) (inflates : ∀ value i, le value (add value i))
    {items : List ι} {value : α} (rest : items.foldl add value = value) {i : ι} (member : i ∈ items) :
    add value i = value := by
  induction items with
  | nil => exact absurd member List.not_mem_nil
  | cons first others ih =>
    have back : le (add value first) value := by
      have more := le_foldl refl trans inflates others (add value first)
      rwa [← List.foldl_cons, rest] at more
    have same : add value first = value := antisymm _ _ back (inflates value first)
    rw [List.foldl_cons, same] at rest
    rcases List.mem_cons.mp member with rfl | later
    · exact same
    · exact ih rest later

/-- A saturation ends with a value that has all that was kept on the way, lies above the first one, and
that no addition changes. -/
theorem saturate_at_rest (refl : ∀ a, le a a) (trans : ∀ a b c, le a b → le b c → le a c)
    (antisymm : ∀ a b, le a b → le b a → a = b) (inflates : ∀ value i, le value (add value i))
    (keeps : ∀ value i, Kept value → Kept (add value i)) {missing : α → Nat}
    (tight : ∀ a b, Kept b → le a b → missing a ≤ missing b → a = b)
    (items : List ι) {value : α} (start : Kept value) :
    Kept (saturate missing (items.foldl add) value).1 ∧
      le value (saturate missing (items.foldl add) value).1 ∧
      ∀ i ∈ items, add (saturate missing (items.foldl add) value).1 i =
        (saturate missing (items.foldl add) value).1 := by
  obtain ⟨last, ⟨kept, above⟩, result, full⟩ :=
    @saturate_last _ missing (items.foldl add) (fun v => Kept v ∧ le value v)
      (fun v before => ⟨foldl_kept keeps items before.1,
        trans _ _ _ before.2 (le_foldl refl trans inflates items v)⟩) value ⟨start, refl value⟩
  have more := le_foldl refl trans inflates items last
  have same : last = items.foldl add last := tight _ _ (foldl_kept keeps items kept) more full
  rw [result, ← same]
  exact ⟨kept, above, fun i member => add_eq_of_foldl_eq refl trans antisymm inflates same.symm member⟩

end Rest

namespace SortedSet

variable {α : Type} [Ord α] [Std.LawfulEqOrd α]

theorem size_le_length {s : SortedSet α} {l : List α} (included : ∀ a ∈ s, a ∈ l) :
    s.size ≤ l.length :=
  (List.subperm_of_subset s.nodup included).length_le

theorem eq_of_size_le [Std.TransOrd α] {s t : SortedSet α} (included : ∀ a ∈ s, a ∈ t)
    (size : t.size ≤ s.size) : s = t := by
  have same := (List.subperm_of_subset s.nodup included).perm_of_length_le size
  exact SortedSet.ext fun a => same.mem_iff

end SortedSet

namespace ByNonTerminal

variable {α : Type} {le : α → α → Prop}

/-- One table lies below another entry by entry. -/
def Below (le : α → α → Prop) (s t : ByNonTerminal α) : Prop :=
  List.Forall₂ le s.entries.toList t.entries.toList

theorem get?_succ {table : ByNonTerminal α} {i : Nat} :
    table.get? (i + 1) = table.entries.toList[i]? := (Array.getElem?_toList).symm

theorem Below.refl (le_refl : ∀ a, le a a) (table : ByNonTerminal α) : Below le table table :=
  List.forall₂_same.mpr fun a _ => le_refl a

theorem Below.trans (le_trans : ∀ a b c, le a b → le b c → le a c) (r s t : ByNonTerminal α)
    (first : Below le r s) (second : Below le s t) : Below le r t := by
  unfold Below at *
  generalize r.entries.toList = l₁, s.entries.toList = l₂, t.entries.toList = l₃ at *
  induction first generalizing l₃ with
  | nil => exact second
  | cons low _ ih =>
    cases second with
    | cons high rest => exact .cons (le_trans _ _ _ low high) (ih _ rest)

theorem Below.antisymm (le_antisymm : ∀ a b, le a b → le b a → a = b) (s t : ByNonTerminal α)
    (first : Below le s t) (second : Below le t s) : s = t := by
  have same : s.entries.toList = t.entries.toList := by
    unfold Below at *
    generalize s.entries.toList = l₁, t.entries.toList = l₂ at *
    induction first with
    | nil => rfl
    | cons low _ ih =>
      cases second with
      | cons high rest => rw [le_antisymm _ _ low high, ih rest]
  obtain ⟨entries⟩ := s
  obtain ⟨entries'⟩ := t
  exact congrArg mk (Array.toList_inj.mp same)

theorem Below.get? {s t : ByNonTerminal α} (below : Below le s t) {symbol : Nat} {a : α}
    (entry : s.get? symbol = some a) : ∃ b, t.get? symbol = some b ∧ le a b := by
  cases symbol with
  | zero => exact absurd entry (by simp [ByNonTerminal.get?])
  | succ i =>
    rw [get?_succ] at entry ⊢
    unfold Below at below
    generalize s.entries.toList = l₁, t.entries.toList = l₂ at *
    induction below generalizing i with
    | nil => simp at entry
    | cons low _ ih =>
      cases i with
      | zero => exact ⟨_, rfl, Option.some.inj entry ▸ low⟩
      | succ i => exact ih i entry

theorem below_update (le_refl : ∀ a, le a a) {change : α → α} (inflates : ∀ a, le a (change a))
    (table : ByNonTerminal α) (symbol : Nat) : Below le table (table.update change symbol) := by
  cases symbol with
  | zero => exact .refl le_refl table
  | succ i =>
    unfold Below update
    refine List.forall₂_iff_get.mpr ⟨by simp, fun j inside inside' => ?_⟩
    simp only [List.get_eq_getElem, Array.getElem_toList, Array.getElem_modify]
    split
    · exact inflates _
    · exact le_refl _

/-- A table stays below another if the changed entry does. -/
theorem Below.update {s t : ByNonTerminal α} (below : Below le s t) {change : α → α} {symbol : Nat}
    (changed : ∀ a b, s.get? symbol = some a → t.get? symbol = some b → le a b → le (change a) b) :
    Below le (s.update change symbol) t := by
  cases symbol with
  | zero => exact below
  | succ i =>
    obtain ⟨sizes, entries⟩ := List.forall₂_iff_get.mp below
    unfold Below ByNonTerminal.update
    refine List.forall₂_iff_get.mpr ⟨by simpa using sizes, fun j inside inside' => ?_⟩
    have inside'' : j < s.entries.toList.length := by simpa using inside
    have low := entries j inside'' inside'
    simp only [List.get_eq_getElem, Array.getElem_toList, Array.getElem_modify] at low ⊢
    split
    · rename_i place
      subst place
      refine changed _ _ ?_ ?_ low
      · exact Array.getElem?_eq_getElem _
      · exact Array.getElem?_eq_getElem _
    · exact low

/-- Of tables below one another, the upper one misses less unless they are the same. -/
theorem eq_of_total_le {measure : α → Nat} {s t : ByNonTerminal α} (below : Below le s t)
    (strict : ∀ a b, b ∈ t.entries.toList → le a b →
      measure b ≤ measure a ∧ (measure a ≤ measure b → a = b))
    (total : s.total measure ≤ t.total measure) : s = t := by
  unfold Below at below
  unfold ByNonTerminal.total at total
  have same : s.entries.toList = t.entries.toList := by
    generalize s.entries.toList = l₁, t.entries.toList = l₂ at *
    have lighter : ∀ l₁ l₂, List.Forall₂ le l₁ l₂ →
        (∀ a b, b ∈ l₂ → le a b → measure b ≤ measure a ∧ (measure a ≤ measure b → a = b)) →
        l₂.foldr (fun entry sum => measure entry + sum) 0 ≤
          l₁.foldr (fun entry sum => measure entry + sum) 0 := by
      intro l₁ l₂ below strict
      induction below with
      | nil => exact Nat.le_refl _
      | cons low _ ih =>
        have first := (strict _ _ List.mem_cons_self low).1
        have rest := ih fun a b member => strict a b (List.mem_cons_of_mem _ member)
        simp only [List.foldr_cons]
        omega
    induction below with
    | nil => rfl
    | cons low tail ih =>
      have strict' := fun a b member => strict a b (List.mem_cons_of_mem _ member)
      have first := strict _ _ List.mem_cons_self low
      have rest := lighter _ _ tail strict'
      simp only [List.foldr_cons] at total
      rw [first.2 (by omega), ih strict' (by omega)]
  obtain ⟨entries⟩ := s
  obtain ⟨entries'⟩ := t
  exact congrArg mk (Array.toList_inj.mp same)

/-- Tables with the same entries are the same. -/
theorem ext_get? {s t : ByNonTerminal α} (same : ∀ symbol, s.get? symbol = t.get? symbol) : s = t := by
  obtain ⟨entries⟩ := s
  obtain ⟨entries'⟩ := t
  exact congrArg mk (Array.ext_getElem? fun i => same (i + 1))

theorem mem_entries_iff {table : ByNonTerminal α} {a : α} :
    a ∈ table.entries.toList ↔ ∃ symbol, table.get? symbol = some a := by
  rw [List.mem_iff_getElem?]
  constructor
  · rintro ⟨i, entry⟩
    exact ⟨i + 1, get?_succ.trans entry⟩
  · rintro ⟨symbol, entry⟩
    cases symbol with
    | zero => simp [ByNonTerminal.get?] at entry
    | succ i => exact ⟨i, get?_succ.symm.trans entry⟩

theorem get?_replicate {count symbol : Nat} {entry : α} :
    (replicate count entry).get? symbol =
      if 0 < symbol ∧ symbol ≤ count then some entry else none := by
  cases symbol with
  | zero => simp [ByNonTerminal.get?]
  | succ i =>
    have bounds : (0 < i + 1 ∧ i + 1 ≤ count) ↔ i < count := by omega
    simp only [ByNonTerminal.get?, replicate, Array.getElem?_replicate, bounds]

theorem get?_isSome_of_below {s t : ByNonTerminal α} (below : Below le s t) {symbol : Nat} :
    (t.get? symbol).isSome = (s.get? symbol).isSome := by
  cases symbol with
  | zero => rfl
  | succ i =>
    have sizes : s.entries.size = t.entries.size := by simpa using List.Forall₂.length_eq below
    rw [Bool.eq_iff_iff]
    simp [ByNonTerminal.get?, sizes]

end ByNonTerminal

end ParseTables
