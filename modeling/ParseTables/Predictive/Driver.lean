import ParseTables.Driver.Countdown
import ParseTables.Driver.Machine
import ParseTables.Predictive.Table
import ParseTables.Sentence

namespace ParseTables.Predictive

open Driver

inductive Action where
  | matched (terminal : Nat)
  | expand (rule : Nat)
  | accept
  | reject
deriving DecidableEq

/-- A recorded step: the stack before it, topmost symbol first, the number of terminals read before it,
and what was done. -/
structure Step where
  stack : List Nat
  position : Nat
  action : Action
deriving DecidableEq

/-- The whole stack from the bottom up, which is the end mark. -/
def Step.symbols (g : Grammar) (step : Step) : List Nat := g.endMark :: step.stack.reverse

/-- An expansion made since the last match: the non-terminal, and the height of the stack with it on
top. -/
structure Expansion where
  nonTerminal : Nat
  height : Nat
deriving DecidableEq

/-- A configuration of the parser: the stack, the number of terminals read, those that are left, and the
expansions kept in mind. The stack holds what the rest of the input still has to be derived from. Here
and in steps it leaves out the end mark at the bottom. -/
structure Config where
  stack : List Nat
  position : Nat
  rest : List Nat
  expansions : List Expansion

def Config.initial (g : Grammar) (input : List Nat) : Config := ⟨[g.start], 0, input, []⟩

/-- Remembers the expansion of the topmost symbol, and forgets those whose place is above the new
height. -/
def Config.remember (config : Config) (nonTerminal height : Nat) : List Expansion :=
  let made : Expansion := ⟨nonTerminal, config.stack.length⟩
  (config.expansions ++ [made]).filter (·.height ≤ height)

/-- A terminal on top of the stack is matched with the input, and a non-terminal is expanded by the rule
that the table has for it and the next terminal.

Until the next terminal is matched, the parser keeps in mind each expansion whose place on the stack has
not been used up. To expand the same non-terminal once more on top of such a place would repeat the
expansions in between for ever, so the input is rejected. -/
def advance (table : PredictiveTable) (g : Grammar) (config : Config) : Progress Config Step :=
  let record (action : Action) : Step := ⟨config.stack, config.position, action⟩
  let reject (reason : Rejection) : Progress Config Step :=
    .stop (some (record .reject)) (.rejected reason)
  match config.stack with
  | [] =>
    if config.rest.length = 1 then .stop (some (record .accept)) .accepted
    else reject (.leftoverInput config.rest)
  | top :: below =>
    match config.rest with
    | [] => reject (.inputExhausted top)
    | current :: later =>
      if g.isTerminal top then
        if top = current then .go (record (.matched top)) ⟨below, config.position + 1, later, []⟩
        else reject (.mismatch top current)
      else
        match table.rule? top current with
        | none => reject (.noEntry top current)
        | some number =>
          if config.expansions.any (·.nonTerminal = top) then reject (.expansionCycle top current)
          else
            match g.rule? number with
            | none => .stop none (.undefinedRule number)
            | some rule =>
              let stack := rule.body ++ below
              .go (record (.expand number))
                ⟨stack, config.position, config.rest, config.remember top stack.length⟩

/-- The number of filled cells whose non-terminal can still be expanded at a slot of the stack. -/
def freeCells (table : PredictiveTable) (expansions : List Expansion) (slot : Nat) : Nat :=
  (table.cells.keys.filter fun cell =>
    !expansions.any fun made => made.nonTerminal = cell.nonTerminal && made.height ≤ slot).length

def longestBody (g : Grammar) : Nat :=
  g.rules.foldr (fun rule longest => max rule.body.length longest) 0

/-- Bounds the number of steps from a configuration. -/
def bound (table : PredictiveTable) (g : Grammar) (config : Config) : Nat :=
  let base := longestBody g + 1
  budget (base.pow table.cells.keys.length) config.rest.length
    (slotSum base (freeCells table config.expansions) config.stack.length)

theorem body_length_le_longestBody {g : Grammar} {number : Nat} {rule : Rule}
    (found : g.rule? number = some rule) : rule.body.length ≤ longestBody g := by
  have member : rule ∈ g.rules := List.mem_of_getElem? found
  unfold longestBody
  generalize g.rules = rules at member
  induction rules with
  | nil => exact absurd member List.not_mem_nil
  | cons other rest ih =>
    simp only [List.foldr_cons]
    rcases List.mem_cons.mp member with rfl | later
    · exact Nat.le_max_left _ _
    · exact Nat.le_trans (ih later) (Nat.le_max_right _ _)

/-- Remembering an expansion does not change what is free below its place. -/
theorem freeCells_remember_below {table : PredictiveTable} {config : Config}
    {nonTerminal height slot : Nat} (low : slot < config.stack.length) (kept : slot ≤ height) :
    freeCells table (config.remember nonTerminal height) slot =
      freeCells table config.expansions slot := by
  unfold freeCells Config.remember
  congr 2
  funext cell
  congr 1
  rw [Bool.eq_iff_iff]
  simp only [List.any_eq_true, List.mem_filter, List.mem_append, List.mem_singleton,
    decide_eq_true_eq, Bool.and_eq_true]
  constructor
  · rintro ⟨made, ⟨old | rfl, _⟩, same, atMost⟩
    · exact ⟨made, old, same, atMost⟩
    · exact absurd (show config.stack.length ≤ slot from atMost) (by omega)
  · rintro ⟨made, old, same, atMost⟩
    exact ⟨made, ⟨Or.inl old, by omega⟩, same, atMost⟩

/-- After an expansion less is free at its place and above. -/
theorem freeCells_remember_lt {table : PredictiveTable} {config : Config}
    {nonTerminal terminal number height slot : Nat}
    (found : table.rule? nonTerminal terminal = some number)
    (fresh : ¬ config.expansions.any (·.nonTerminal = nonTerminal))
    (high : config.stack.length ≤ slot) (kept : slot ≤ height) :
    freeCells table (config.remember nonTerminal height) slot <
      freeCells table config.expansions config.stack.length := by
  have member : (⟨nonTerminal, terminal⟩ : PredictiveCell) ∈ table.cells.keys :=
    Std.TreeMap.mem_keys.mpr (Std.TreeMap.mem_iff_isSome_getElem?.mpr (by
      rw [show table.cells[(⟨nonTerminal, terminal⟩ : PredictiveCell)]? = some number from found]
      rfl))
  refine length_filter_lt ?_ member ?_ ?_
  · intro other
    simp only [Config.remember, Bool.not_eq_true', List.any_eq_false, List.mem_filter,
      List.mem_append, List.mem_singleton, decide_eq_true_eq, Bool.and_eq_true, not_and]
    intro none made old same atMost
    exact none made ⟨Or.inl old, by omega⟩ same (by omega)
  · simp only [Bool.not_eq_true', List.any_eq_false, decide_eq_true_eq, Bool.and_eq_true, not_and]
    intro made old same
    exact absurd (List.any_eq_true.mpr ⟨made, old, by simp [same]⟩) fresh
  · simp only [Config.remember, Bool.not_eq_true', List.any_eq_false, List.mem_filter,
      List.mem_append, List.mem_singleton, decide_eq_true_eq, Bool.and_eq_true]
    intro none
    exact none ⟨nonTerminal, config.stack.length⟩ ⟨Or.inr rfl, by simp only; omega⟩ ⟨rfl, high⟩

/-- Every step that goes on leaves fewer steps to come. -/
theorem bound_lt {table : PredictiveTable} {g : Grammar} {config next : Config} {recorded : Step}
    (advanced : advance table g config = .go recorded next) :
    bound table g next < bound table g config := by
  unfold advance at advanced
  split at advanced
  · split at advanced <;> simp at advanced
  · rename_i top below stacked
    split at advanced
    · simp at advanced
    · rename_i current later unread
      split at advanced
      · split at advanced
        · simp only [Progress.go.injEq] at advanced
          obtain ⟨-, rfl⟩ := advanced
          simp only [bound, stacked, unread, List.length_cons]
          refine budget_read_lt ?_
          have positive : 0 < longestBody g + 1 := by omega
          have heights : below.length + 1 ≤ slotSum (longestBody g + 1)
              (freeCells table config.expansions) (below.length + 1) := height_le_slotSum positive
          refine Nat.le_trans (slotSum_le positive fun _ => List.length_filter_le _ _) ?_
          exact Nat.mul_le_mul_right _ (by omega)
        · simp at advanced
      · split at advanced
        · simp at advanced
        · rename_i number found
          split at advanced
          · simp at advanced
          · rename_i fresh
            split at advanced
            · simp at advanced
            · rename_i rule defined
              simp only [Progress.go.injEq] at advanced
              obtain ⟨-, rfl⟩ := advanced
              have fits := body_length_le_longestBody defined
              refine budget_lt ?_
              have height : config.stack.length = below.length + 1 := by simp [stacked]
              rw [height, List.length_append, Nat.add_comm rule.body.length]
              refine slotSum_lt ?_ ?_ (by omega)
              · intro slot low
                exact freeCells_remember_below (by omega) (by omega)
              · intro slot high kept
                rw [← height]
                exact freeCells_remember_lt found fresh (by omega) kept

def machine (table : PredictiveTable) (g : Grammar) : Machine Config Step where
  advance := advance table g
  bound := bound table g
  bound_lt := bound_lt

def trace (table : PredictiveTable) (g : Grammar) (tokens : List String) : Trace Step :=
  match g.resolve tokens with
  | .error reason => .unresolved reason
  | .ok input =>
    let run := (machine table g).run (.initial g input)
    ⟨input, run.steps, run.verdict⟩

end ParseTables.Predictive
