namespace ParseTables

/-- One entry for each non-terminal other than the hidden start symbol, from symbol 1 on. -/
structure ByNonTerminal (α : Type) where
  entries : Array α
deriving DecidableEq

namespace ByNonTerminal

variable {α : Type}

/-- The entry of a non-terminal. The hidden start symbol and the terminals have none. -/
def get? (table : ByNonTerminal α) : Nat → Option α
  | 0 => none
  | i + 1 => table.entries[i]?

/-- Changes the entry of a non-terminal, if there is one. -/
def update (table : ByNonTerminal α) (change : α → α) : Nat → ByNonTerminal α
  | 0 => table
  | i + 1 => ⟨table.entries.modify i change⟩

/-- The same entry for each of the first non-terminals. -/
def replicate (count : Nat) (entry : α) : ByNonTerminal α := ⟨Array.replicate count entry⟩

def total (table : ByNonTerminal α) (measure : α → Nat) : Nat :=
  table.entries.toList.foldr (fun entry sum => measure entry + sum) 0

theorem get?_update {table : ByNonTerminal α} {change : α → α} {symbol other : Nat} :
    (table.update change symbol).get? other =
      if symbol = other then (table.get? other).map change else table.get? other := by
  cases symbol <;> cases other <;>
    simp [update, get?, Array.getElem?_modify]

end ByNonTerminal

end ParseTables
