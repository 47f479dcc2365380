import Std.Data.TreeMap

namespace ParseTables

/-- Elements of an ordered type, numbered from zero in the order in which they are entered, each once.
The number of an element is its place in the list of all (`number?_eq`), but it is found without walking
along the list. -/
structure Numbering (α : Type) [Ord α] [DecidableEq α] where
  entries : Array α
  numbers : Std.TreeMap α Nat
  agree : ∀ a, numbers[a]? = entries.toList.idxOf? a

namespace Numbering

variable {α : Type} [Ord α] [DecidableEq α]

def toList (n : Numbering α) : List α := n.entries.toList

def number? (n : Numbering α) (a : α) : Option Nat := n.numbers[a]?

def entry? (n : Numbering α) (number : Nat) : Option α := n.entries[number]?

theorem number?_eq {n : Numbering α} {a : α} : n.number? a = n.toList.idxOf? a := n.agree a

theorem entry?_eq {n : Numbering α} {number : Nat} : n.entry? number = n.toList[number]? :=
  Array.getElem?_toList.symm

theorem number?_eq_none_iff {n : Numbering α} {a : α} : n.number? a = none ↔ a ∉ n.toList := by
  rw [number?_eq, List.idxOf?_eq_none_iff]

variable [Std.TransOrd α] [Std.LawfulEqOrd α]

def empty : Numbering α := ⟨#[], ∅, fun _ => Std.TreeMap.getElem?_emptyc⟩

/-- The numbering with one more element, if it is new. -/
def add (n : Numbering α) (a : α) : Numbering α :=
  if fresh : n.number? a = none then
    ⟨n.entries.push a, n.numbers.insert a n.entries.size, fun x => by
      have absent : a ∉ n.entries.toList := number?_eq_none_iff.mp fresh
      rw [Std.TreeMap.getElem?_insert, n.agree, Array.toList_push, List.idxOf?, List.findIdx?_append]
      split
      · rename_i same
        have equal : a = x := Std.LawfulEqOrd.eq_of_compare same
        subst equal
        rw [← List.idxOf?, List.idxOf?_eq_none_iff.mpr absent]
        simp
      · rename_i different
        have unequal : a ≠ x := fun equal => different (equal ▸ Std.ReflOrd.compare_self)
        rw [← List.idxOf?]
        simp [unequal]⟩
  else n

theorem toList_add {n : Numbering α} {a : α} :
    (n.add a).toList = if a ∈ n.toList then n.toList else n.toList ++ [a] := by
  unfold add
  split
  · rename_i fresh
    rw [if_neg (number?_eq_none_iff.mp fresh)]
    exact Array.toList_push
  · rename_i known
    rw [if_pos (Decidable.not_not.mp fun absent => known (number?_eq_none_iff.mpr absent))]

end Numbering

end ParseTables
