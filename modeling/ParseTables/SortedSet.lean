namespace ParseTables

/-- A finite set of elements of an ordered type, kept as a strictly ascending list. Each set has one
representation, so two sets are equal exactly when they have the same members (`SortedSet.ext`), however
they were built. -/
structure SortedSet (α : Type) [Ord α] where
  /-- The members in ascending order. -/
  toList : List α
  ascending : toList.Pairwise fun a b => compare a b = .lt

namespace SortedSet

section Merging

variable {α : Type} [Ord α]

/-- Merges two ascending lists. Of two equal elements one is left out. -/
def merge : List α → List α → List α
  | [], bs => bs
  | as, [] => as
  | a :: as, b :: bs =>
    match compare a b with
    | .lt => a :: merge as (b :: bs)
    | .eq => a :: merge as bs
    | .gt => b :: merge (a :: as) bs
termination_by as bs => as.length + bs.length

theorem mem_merge [Std.LawfulEqOrd α] {as bs : List α} {x : α} :
    x ∈ merge as bs ↔ x ∈ as ∨ x ∈ bs := by
  fun_induction merge as bs with
  | case1 => simp
  | case2 => simp
  | case3 a as b bs _ ih =>
    simp only [List.mem_cons, ih]
    exact or_assoc.symm
  | case4 a as b bs same ih =>
    have equal : a = b := Std.LawfulEqOrd.eq_of_compare same
    simp only [List.mem_cons, ih, equal]
    grind
  | case5 a as b bs _ ih =>
    simp only [List.mem_cons, ih]
    exact or_left_comm

theorem merge_ascending [Std.TransOrd α] [Std.LawfulEqOrd α] {as bs : List α}
    (left : as.Pairwise fun a b => compare a b = .lt)
    (right : bs.Pairwise fun a b => compare a b = .lt) :
    (merge as bs).Pairwise fun a b => compare a b = .lt := by
  fun_induction merge as bs with
  | case1 => exact right
  | case2 => exact left
  | case3 a as b bs below ih =>
    obtain ⟨leastLeft, tailLeft⟩ := List.pairwise_cons.mp left
    refine List.pairwise_cons.mpr ⟨fun x member => ?_, ih tailLeft right⟩
    rcases mem_merge.mp member with early | late
    · exact leastLeft x early
    · rcases List.mem_cons.mp late with rfl | later
      · exact below
      · exact Std.TransCmp.lt_trans below ((List.pairwise_cons.mp right).1 x later)
  | case4 a as b bs same ih =>
    obtain ⟨leastLeft, tailLeft⟩ := List.pairwise_cons.mp left
    obtain ⟨leastRight, tailRight⟩ := List.pairwise_cons.mp right
    refine List.pairwise_cons.mpr ⟨fun x member => ?_, ih tailLeft tailRight⟩
    rcases mem_merge.mp member with early | late
    · exact leastLeft x early
    · rw [Std.LawfulEqOrd.eq_of_compare same]
      exact leastRight x late
  | case5 a as b bs above ih =>
    obtain ⟨leastRight, tailRight⟩ := List.pairwise_cons.mp right
    have below : compare b a = .lt := Std.OrientedCmp.gt_iff_lt.mp above
    refine List.pairwise_cons.mpr ⟨fun x member => ?_, ih left tailRight⟩
    rcases mem_merge.mp member with early | late
    · rcases List.mem_cons.mp early with rfl | later
      · exact below
      · exact Std.TransCmp.lt_trans below ((List.pairwise_cons.mp left).1 x later)
    · exact leastRight x late

end Merging

variable {α : Type} [Ord α]

instance : Membership α (SortedSet α) := ⟨fun s a => a ∈ s.toList⟩

instance : EmptyCollection (SortedSet α) := ⟨⟨[], .nil⟩⟩

instance : Inhabited (SortedSet α) := ⟨∅⟩

theorem mem_toList {s : SortedSet α} {a : α} : a ∈ s.toList ↔ a ∈ s := Iff.rfl

@[simp]
theorem toList_empty : (∅ : SortedSet α).toList = [] := rfl

@[simp]
theorem not_mem_empty {a : α} : a ∉ (∅ : SortedSet α) := List.not_mem_nil

instance [DecidableEq α] (a : α) (s : SortedSet α) : Decidable (a ∈ s) :=
  inferInstanceAs (Decidable (a ∈ s.toList))

theorem eq_of_toList_eq {s t : SortedSet α} (same : s.toList = t.toList) : s = t := by
  cases s
  cases t
  simpa using same

instance [DecidableEq α] : DecidableEq (SortedSet α) := fun s t =>
  decidable_of_iff (s.toList = t.toList) ⟨eq_of_toList_eq, congrArg toList⟩

/-- The order of the lists, by their first difference. -/
instance : Ord (SortedSet α) := ⟨compareOn toList⟩

instance [Std.TransOrd α] : Std.TransOrd (SortedSet α) :=
  inferInstanceAs (Std.TransCmp (compareOn toList))

instance [Std.LawfulEqOrd α] : Std.LawfulEqOrd (SortedSet α) where
  compare_self := @fun s => Std.ReflOrd.compare_self (a := s.toList)
  eq_of_compare same := eq_of_toList_eq (Std.LawfulEqOrd.eq_of_compare (α := List α) same)

theorem nodup [Std.ReflOrd α] (s : SortedSet α) : s.toList.Nodup :=
  s.ascending.imp fun {a b} below same => by
    rw [same, Std.ReflOrd.compare_self] at below
    exact Ordering.noConfusion below

/-- Sets with the same members are the same set. -/
@[ext]
theorem ext [Std.ReflOrd α] [Std.OrientedOrd α] {s t : SortedSet α}
    (same : ∀ a, a ∈ s ↔ a ∈ t) : s = t :=
  eq_of_toList_eq <| List.Perm.eq_of_pairwise
    (fun a b _ _ below above => by
      have turned : compare a b = (compare b a).swap := Std.OrientedOrd.eq_swap
      rw [below, above] at turned
      exact Ordering.noConfusion turned)
    s.ascending t.ascending ((List.perm_ext_iff_of_nodup s.nodup t.nodup).mpr same)

def size (s : SortedSet α) : Nat := s.toList.length

def isEmpty (s : SortedSet α) : Bool := s.toList.isEmpty

theorem isEmpty_iff {s : SortedSet α} : s.isEmpty ↔ s = ∅ := by
  constructor
  · intro none
    exact eq_of_toList_eq (List.isEmpty_iff.mp none)
  · rintro rfl
    rfl

def filter (p : α → Bool) (s : SortedSet α) : SortedSet α :=
  ⟨s.toList.filter p, s.ascending.filter p⟩

@[simp]
theorem mem_filter {p : α → Bool} {s : SortedSet α} {a : α} :
    a ∈ s.filter p ↔ a ∈ s ∧ p a := List.mem_filter

def singleton (a : α) : SortedSet α := ⟨[a], List.pairwise_singleton _ a⟩

@[simp]
theorem mem_singleton {a x : α} : x ∈ singleton a ↔ x = a := List.mem_singleton

variable [Std.TransOrd α] [Std.LawfulEqOrd α]

instance : Union (SortedSet α) :=
  ⟨fun s t => ⟨merge s.toList t.toList, merge_ascending s.ascending t.ascending⟩⟩

@[simp]
theorem mem_union {s t : SortedSet α} {a : α} : a ∈ s ∪ t ↔ a ∈ s ∨ a ∈ t := mem_merge

def insert (a : α) (s : SortedSet α) : SortedSet α := singleton a ∪ s

@[simp]
theorem mem_insert {a x : α} {s : SortedSet α} : x ∈ s.insert a ↔ x = a ∨ x ∈ s := by
  simp [insert]

def ofList (l : List α) : SortedSet α := l.foldr insert ∅

@[simp]
theorem mem_ofList {l : List α} {a : α} : a ∈ ofList l ↔ a ∈ l := by
  induction l with
  | nil => exact Iff.rfl
  | cons b rest ih =>
    rw [List.mem_cons, ← ih]
    exact mem_insert

end SortedSet
end ParseTables
