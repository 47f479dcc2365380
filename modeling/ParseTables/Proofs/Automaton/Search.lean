import Mathlib.Data.Finset.Powerset
import ParseTables.Automaton
import ParseTables.Proofs.Item.Closure
import ParseTables.Proofs.Lookahead.Saturation

namespace ParseTables

namespace Numbering

variable {α : Type} [Ord α] [DecidableEq α]

theorem number?_eq_some {n : Numbering α} {a : α} {number : Nat} (found : n.number? a = some number) :
    n.toList[number]? = some a := by
  rw [number?_eq] at found
  obtain ⟨inside, same, -⟩ := List.idxOf?_eq_some_iff.mp found
  exact List.getElem?_eq_some_iff.mpr ⟨inside, same⟩

/-- In a list without repetition each element has one place. -/
theorem number?_eq_some_iff {n : Numbering α} (distinct : n.toList.Nodup) {a : α} {number : Nat} :
    n.number? a = some number ↔ n.toList[number]? = some a := by
  refine ⟨number?_eq_some, fun entry => ?_⟩
  obtain ⟨inside, rfl⟩ := List.getElem?_eq_some_iff.mp entry
  rw [number?_eq, List.idxOf?_eq_some_iff]
  exact ⟨inside, rfl, fun other before same => Nat.ne_of_lt before (distinct.getElem_inj_iff.mp same)⟩

theorem exists_number? {n : Numbering α} {a : α} (member : a ∈ n.toList) :
    ∃ number, n.number? a = some number := by
  refine Option.ne_none_iff_exists'.mp fun missing => ?_
  exact number?_eq_none_iff.mp missing member

theorem number?_of_prefix {n n' : Numbering α} (kept : n.toList <+: n'.toList) {a : α} {number : Nat}
    (found : n.number? a = some number) : n'.number? a = some number := by
  obtain ⟨more, whole⟩ := kept
  rw [number?_eq] at found ⊢
  rw [← whole, List.idxOf?, List.findIdx?_append, ← List.idxOf?, found, Option.some_or]

variable [Std.TransOrd α] [Std.LawfulEqOrd α]

theorem add_of_number? {n : Numbering α} {a : α} {number : Nat} (known : n.number? a = some number) :
    n.add a = n := dif_neg (by simp [known])

theorem toList_add_new {n : Numbering α} {a : α} (new : n.number? a = none) :
    (n.add a).toList = n.toList ++ [a] := by
  rw [toList_add, if_neg (number?_eq_none_iff.mp new)]

theorem number?_add_new {n : Numbering α} {a : α} (new : n.number? a = none) :
    (n.add a).number? a = some n.toList.length := by
  rw [number?_eq] at new ⊢
  rw [toList_add_new (number?_eq.trans new), List.idxOf?, List.findIdx?_append, ← List.idxOf?, new]
  simp

theorem prefix_add (n : Numbering α) (a : α) : n.toList <+: (n.add a).toList := by
  rw [toList_add]
  split
  · exact List.prefix_rfl
  · exact List.prefix_append _ _

theorem mem_add {n : Numbering α} {a x : α} : x ∈ (n.add a).toList ↔ x ∈ n.toList ∨ x = a := by
  rw [toList_add]
  split
  · rename_i known
    exact ⟨Or.inl, fun member => member.elim id fun same => same ▸ known⟩
  · rw [List.mem_append, List.mem_singleton]

theorem nodup_add {n : Numbering α} (distinct : n.toList.Nodup) (a : α) : (n.add a).toList.Nodup := by
  rw [toList_add]
  split
  · exact distinct
  · rename_i fresh
    refine List.nodup_append.mpr ⟨distinct, List.nodup_singleton a, fun x member y other => ?_⟩
    rintro rfl
    exact fresh (List.mem_singleton.mp other ▸ member)

end Numbering

/-- The rule of the item is there, and the dot stands in its body or at its end. -/
def Item.Fits (g : Grammar) (item : Item) : Prop :=
  ∃ rule, g.rule? item.rule = some rule ∧ item.position ≤ rule.body.length

namespace Grammar

variable {g : Grammar}

/-- All items of the rules. -/
def allItems (g : Grammar) : List Item :=
  g.rules.zipIdx.flatMap fun entry =>
    (List.range (entry.1.body.length + 1)).map fun position => ⟨entry.2, position⟩

theorem length_allItems : g.allItems.length = g.itemCount := by
  unfold allItems itemCount
  rw [List.length_flatMap]
  simp only [List.length_map, List.length_range]
  have sizes : g.rules.zipIdx.map (fun entry => entry.1.body.length + 1) =
      (g.rules.zipIdx.map Prod.fst).map fun rule => rule.body.length + 1 := by
    rw [List.map_map]
    rfl
  rw [sizes, List.zipIdx_map_fst, List.sum, List.foldr_map]

theorem mem_allItems {item : Item} (fits : item.Fits g) : item ∈ g.allItems := by
  obtain ⟨rule, found, inside⟩ := fits
  refine List.mem_flatMap.mpr ⟨(rule, item.rule), List.mem_zipIdx_iff_getElem?.mpr found, ?_⟩
  exact List.mem_map.mpr ⟨item.position, List.mem_range.mpr (by simp only; omega), rfl⟩

/-- There are no more different sets of items than subsets of all items. -/
theorem length_le_of_fits {kernels : List ItemSet} (distinct : kernels.Nodup)
    (fits : ∀ kernel ∈ kernels, ∀ item ∈ kernel, item.Fits g) : kernels.length ≤ 2 ^ g.itemCount := by
  have injective : Set.InjOn (fun kernel : ItemSet => kernel.toList.toFinset) kernels.toFinset := by
    intro kernel _ kernel' _ same
    refine SortedSet.ext fun item => ?_
    have members := Finset.ext_iff.mp same item
    rwa [List.mem_toFinset, List.mem_toFinset] at members
  have inside : ∀ kernel ∈ kernels.toFinset,
      kernel.toList.toFinset ∈ g.allItems.toFinset.powerset := by
    intro kernel member
    refine Finset.mem_powerset.mpr fun item inKernel => List.mem_toFinset.mpr (mem_allItems ?_)
    exact fits kernel (List.mem_toFinset.mp member) item (List.mem_toFinset.mp inKernel)
  calc kernels.length = kernels.toFinset.card := (List.toFinset_card_of_nodup distinct).symm
    _ ≤ g.allItems.toFinset.powerset.card := Finset.card_le_card_of_injOn _ inside injective
    _ = 2 ^ g.allItems.toFinset.card := Finset.card_powerset _
    _ ≤ 2 ^ g.itemCount :=
      Nat.pow_le_pow_right (by omega) (length_allItems (g := g) ▸ List.toFinset_card_le _)

theorem fits_closure {items : ItemSet} (fits : ∀ item ∈ items, item.Fits g) :
    ∀ item ∈ items.closure g, item.Fits g := fun _ member =>
  ItemSet.closure_induction fits (fun _ _ _ _ rule _ _ found => ⟨rule, found, Nat.zero_le _⟩) member

theorem fits_advanced {item : Item} {symbol : Nat} (next : item.next? g = some symbol) :
    item.advanced.Fits g := by
  obtain ⟨rule, found, symbol⟩ := ItemSet.next?_eq_some.mp next
  exact ⟨rule, found, (List.getElem?_eq_some_iff.mp symbol).1⟩

/-- What the search keeps: the kernels are different sets of items, and those before a place have all
their successors among the kernels. -/
structure Swept (g : Grammar) (place : Nat) (found : Numbering ItemSet) : Prop where
  distinct : found.toList.Nodup
  fits : ∀ kernel ∈ found.toList, ∀ item ∈ kernel, item.Fits g
  swept : ∀ i < place, ∀ kernel, found.toList[i]? = some kernel →
    ∀ successor ∈ (kernel.closure g).successors g, successor.2 ∈ found.toList

theorem foldl_add_spec (successors : List (Nat × ItemSet)) (found : Numbering ItemSet) :
    let last := successors.foldl (fun found successor => found.add successor.2) found
    found.toList <+: last.toList ∧ (found.toList.Nodup → last.toList.Nodup) ∧
      ∀ kernel, kernel ∈ last.toList ↔
          kernel ∈ found.toList ∨ ∃ symbol, (symbol, kernel) ∈ successors := by
  induction successors generalizing found with
  | nil => exact ⟨List.prefix_rfl, id, by simp⟩
  | cons successor rest ih =>
    obtain ⟨kept, distinct, members⟩ := ih (found.add successor.2)
    refine ⟨(found.prefix_add _).trans kept,
      fun before => distinct (Numbering.nodup_add before successor.2), fun kernel => ?_⟩
    rw [List.foldl_cons, members, Numbering.mem_add]
    obtain ⟨symbol, kernel'⟩ := successor
    simp only [List.mem_cons, Prod.mk.injEq, or_assoc]
    refine or_congr_right ⟨?_, ?_⟩
    · rintro (rfl | ⟨symbol', member⟩)
      · exact ⟨symbol, Or.inl ⟨rfl, rfl⟩⟩
      · exact ⟨symbol', Or.inr member⟩
    · rintro ⟨symbol', ⟨rfl, rfl⟩ | member⟩
      · exact Or.inl rfl
      · exact Or.inr ⟨symbol', member⟩

theorem mem_visitAll {found : Numbering ItemSet} {items kernel : ItemSet} :
    kernel ∈ (g.visitAll found items).toList ↔
      kernel ∈ found.toList ∨ ∃ symbol ∈ items.transitions g, kernel = items.passing g symbol := by
  refine ((foldl_add_spec (items.successors g) found).2.2 kernel).trans (or_congr_right ?_)
  simp only [ItemSet.mem_successors]

theorem Swept.visitAll {place : Nat} {found : Numbering ItemSet} (before : g.Swept place found)
    {kernel : ItemSet} (entry : found.toList[place]? = some kernel) :
    found.toList <+: (g.visitAll found (kernel.closure g)).toList ∧
      g.Swept (place + 1) (g.visitAll found (kernel.closure g)) := by
  obtain ⟨kept, distinct, -⟩ := foldl_add_spec ((kernel.closure g).successors g) found
  refine ⟨kept, distinct before.distinct, fun kernel' member item inside => ?_,
    fun i early kernel' entry' s successor => mem_visitAll.mpr ?_⟩
  · rcases mem_visitAll.mp member with old | ⟨symbol, -, rfl⟩
    · exact before.fits kernel' old item inside
    · obtain ⟨previous, -, next, rfl⟩ := ItemSet.mem_passing.mp inside
      exact fits_advanced next
  · have same : found.toList[i]? = some kernel' := by
      have bound := (List.getElem?_eq_some_iff.mp entry).1
      rw [← entry']
      exact (List.prefix_iff_getElem?.mp kept i (by omega) ▸ List.getElem?_eq_getElem _)
    rcases Nat.lt_succ_iff_lt_or_eq.mp early with earlier | rfl
    · exact Or.inl (before.swept i earlier kernel' same s successor)
    · cases Option.some.inj (entry.symm.trans same)
      exact Or.inr ⟨s.1, ItemSet.mem_successors.mp successor⟩

theorem Swept.search (limit : Nat) {place : Nat} {found : Numbering ItemSet}
    (before : g.Swept place found) (enough : 2 ^ g.itemCount ≤ limit + place) :
    found.toList <+: (g.search limit place found).toList ∧
      g.Swept (g.search limit place found).toList.length (g.search limit place found) := by
  fun_induction Grammar.search g limit place found with
  | case1 place found =>
    have few := length_le_of_fits before.distinct before.fits
    exact ⟨List.prefix_rfl, before.distinct, before.fits, fun i inside => before.swept i (by omega)⟩
  | case2 place found limit ended =>
    rw [Numbering.entry?_eq, List.getElem?_eq_none_iff] at ended
    exact ⟨List.prefix_rfl, before.distinct, before.fits, fun i inside => before.swept i (by omega)⟩
  | case3 place found limit kernel entry ih =>
    rw [Numbering.entry?_eq] at entry
    obtain ⟨kept, after⟩ := before.visitAll entry
    obtain ⟨kept', last⟩ := ih after (by omega)
    exact ⟨kept.trans kept', last⟩

theorem toList_startKernel : (Numbering.empty.add startKernel).toList = [startKernel] := by
  rw [Numbering.toList_add]
  rfl

theorem swept_start : g.Swept 0 (Numbering.empty.add startKernel) := by
  refine ⟨?_, ?_, fun i early => absurd early (Nat.not_lt_zero i)⟩
  · rw [toList_startKernel]
    exact List.nodup_singleton _
  · rw [toList_startKernel]
    intro kernel member item inside
    obtain rfl := List.mem_singleton.mp member
    obtain rfl := SortedSet.mem_singleton.mp inside
    exact ⟨⟨0, [g.start]⟩, rfl, Nat.zero_le _⟩

theorem kernels_spec :
    [startKernel] <+: g.kernels.toList ∧ g.Swept g.kernels.toList.length g.kernels := by
  have spec := swept_start.search (g := g) (1 <<< g.itemCount) (Nat.one_shiftLeft _).ge
  rwa [toList_startKernel] at spec

theorem kernels_zero : g.kernels.toList[0]? = some startKernel := by
  obtain ⟨others, whole⟩ := (kernels_spec (g := g)).1
  rw [← whole]
  rfl

theorem fits_of_kernel {kernel : ItemSet} (member : kernel ∈ g.kernels.toList) {item : Item}
    (inside : item ∈ kernel) : item.Fits g := kernels_spec.2.fits kernel member item inside

/-- The search takes up at most as many kernels as there are sets of items. As the kernels are different
sets of items, it never stops too early. -/
theorem kernels_closed {kernel : ItemSet} (member : kernel ∈ g.kernels.toList) {symbol : Nat}
    (moves : symbol ∈ (kernel.closure g).transitions g) :
    (kernel.closure g).passing g symbol ∈ g.kernels.toList := by
  obtain ⟨place, entry⟩ := List.mem_iff_getElem?.mp member
  exact kernels_spec.2.swept place (List.getElem?_eq_some_iff.mp entry).1 kernel entry
    (symbol, _) (ItemSet.mem_successors.mpr ⟨moves, rfl⟩)

end Grammar

end ParseTables
