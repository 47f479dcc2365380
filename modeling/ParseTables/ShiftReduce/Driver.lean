import ParseTables.Driver.Countdown
import ParseTables.Driver.Machine
import ParseTables.Sentence
import ParseTables.ShiftReduce.Table

namespace ParseTables.ShiftReduce

open Driver

/-- A recorded step: the states before it, topmost first, the number of terminals shifted before it, and
the action, if the cell held any. -/
structure Step where
  states : List Nat
  position : Nat
  action : Option LRAction
deriving DecidableEq

/-- A reduction since the last shift: the state it exposed, the height of the stack with that state on
top, and the head of the rule. -/
structure Reduction where
  exposed : Nat
  height : Nat
  head : Nat
deriving DecidableEq

/-- A configuration of the parser: the topmost state of the stack and the states below it, the number
of terminals shifted, those that are left, and the reductions kept in mind. -/
structure Config where
  state : Nat
  below : List Nat
  position : Nat
  rest : List Nat
  reductions : List Reduction

def Config.initial (input : List Nat) : Config := ⟨0, [], 0, input, []⟩

/-- The reductions whose exposed states are not removed when the stack shrinks to a height. -/
def Config.kept (config : Config) (height : Nat) : List Reduction :=
  config.reductions.filter (·.height ≤ height)

/-- A shift pushes the state of the table for the next terminal. A reduction removes as many states as
the body of its rule has symbols, and pushes the state to go to from the state thus exposed. Of several
actions in a cell the first is taken.

Until the next shift, the parser keeps in mind each exposed state that is still on the stack together
with the head that was reduced to on it. To reduce to the same head on the same state again, with
nothing removed below it, would repeat the reductions in between for ever, so the input is rejected. -/
def advance (table : ActionTable) (g : Grammar) (config : Config) : Progress Config Step :=
  match config.rest with
  | [] => .stop none (.rejected (.inputExhausted g.endMark))
  | current :: later =>
    let states := config.state :: config.below
    let action := (table.actions config.state current).head?
    let recorded : Step := ⟨states, config.position, action⟩
    let reject (reason : Rejection) : Progress Config Step := .stop (some recorded) (.rejected reason)
    match action with
    | none => reject (.noAction config.state current)
    | some (.shift target) => .go recorded ⟨target, states, config.position + 1, later, []⟩
    | some (.reduce number) =>
      match g.rule? number with
      | none => .stop (some recorded) (.undefinedRule number)
      | some rule =>
        match states.drop rule.body.length with
        | [] => reject (.stackUnderflow number)
        | exposed :: remaining =>
          let height := remaining.length + 1
          let kept := config.kept height
          if kept.any fun made => made.exposed = exposed && made.head = rule.head then
            reject (.reductionCycle config.state current)
          else
            match table.goto? exposed rule.head with
            | none => reject (.noGoto exposed rule.head)
            | some target =>
              .go recorded
                ⟨target, exposed :: remaining, config.position, config.rest,
                  kept ++ [⟨exposed, height, rule.head⟩]⟩
    | some .accept =>
      if later = [] then .stop (some recorded) .accepted else reject (.leftoverInput config.rest)

/-- The states and heads of the cells to go to. -/
def gotoCells (table : ActionTable) : List (Nat × Nat) :=
  (List.range table.goto.length).flatMap fun state => table.nonTerminals.map fun head => (state, head)

/-- The number of cells that can still be gone to from a slot of the stack. -/
def freeGotos (table : ActionTable) (reductions : List Reduction) (slot : Nat) : Nat :=
  ((gotoCells table).filter fun cell => !reductions.any fun made =>
    made.exposed = cell.1 && made.head = cell.2 && made.height ≤ slot).length

def bound (table : ActionTable) (config : Config) : Nat :=
  budget (Nat.pow 3 (gotoCells table).length) config.rest.length
    (slotSum 3 (freeGotos table config.reductions) (config.below.length + 1))

theorem mem_gotoCells {table : ActionTable} {state head target : Nat}
    (found : table.goto? state head = some target) : (state, head) ∈ gotoCells table := by
  obtain ⟨column, located, entry⟩ := Option.bind_eq_some_iff.mp found
  obtain ⟨row, rowAt, _⟩ := Option.bind_eq_some_iff.mp entry
  obtain ⟨inside, same, _⟩ := List.idxOf?_eq_some_iff.mp located
  exact List.mem_flatMap.mpr ⟨state, List.mem_range.mpr (List.getElem?_eq_some_iff.mp rowAt).1,
    List.mem_map.mpr ⟨head, same ▸ List.getElem_mem inside, rfl⟩⟩

/-- A reduction does not change what is free below the state that it exposes. -/
theorem freeGotos_below {table : ActionTable} {config : Config} {exposed height head slot : Nat}
    (low : slot < height) :
    freeGotos table (config.kept height ++ [⟨exposed, height, head⟩]) slot =
      freeGotos table config.reductions slot := by
  unfold freeGotos Config.kept
  congr 2
  funext cell
  congr 1
  rw [Bool.eq_iff_iff]
  simp only [List.any_eq_true, List.mem_filter, List.mem_append, List.mem_singleton,
    decide_eq_true_eq, Bool.and_eq_true]
  constructor
  · rintro ⟨made, ⟨old, _⟩ | rfl, same, atMost⟩
    · exact ⟨made, old, same, atMost⟩
    · exact absurd (show height ≤ slot from atMost) (by omega)
  · rintro ⟨made, old, same, atMost⟩
    exact ⟨made, Or.inl ⟨old, by omega⟩, same, atMost⟩

/-- After a reduction less is free at the exposed state and above. -/
theorem freeGotos_lt {table : ActionTable} {config : Config} {exposed height head target slot : Nat}
    (found : table.goto? exposed head = some target)
    (fresh : ¬ (config.kept height).any fun made => made.exposed = exposed && made.head = head)
    (high : height ≤ slot) :
    freeGotos table (config.kept height ++ [⟨exposed, height, head⟩]) slot <
      freeGotos table config.reductions height := by
  refine length_filter_lt (a := (exposed, head)) ?_ (mem_gotoCells found) ?_ ?_
  · rintro ⟨state, other⟩
    simp only [Config.kept, Bool.not_eq_true', List.any_eq_false, List.mem_filter, List.mem_append,
      List.mem_singleton, decide_eq_true_eq, Bool.and_eq_true, not_and]
    intro none made old same atMost
    exact none made (Or.inl ⟨old, atMost⟩) same (by omega)
  · simp only [Bool.not_eq_true', List.any_eq_false, decide_eq_true_eq, Bool.and_eq_true, not_and]
    intro made old same atMost
    refine fresh (List.any_eq_true.mpr ⟨made, ?_, by simp [same]⟩)
    exact List.mem_filter.mpr ⟨old, by simpa using atMost⟩
  · simp only [Bool.not_eq_true', List.any_eq_false, List.mem_append, List.mem_singleton,
      decide_eq_true_eq, Bool.and_eq_true]
    intro none
    exact none ⟨exposed, height, head⟩ (Or.inr rfl) ⟨⟨rfl, rfl⟩, high⟩

/-- Every step that goes on leaves fewer steps to come. -/
theorem bound_lt {table : ActionTable} {g : Grammar} {config next : Config} {recorded : Step}
    (advanced : advance table g config = .go recorded next) :
    bound table next < bound table config := by
  unfold advance at advanced
  split at advanced
  · simp at advanced
  · rename_i current later unread
    simp only at advanced
    split at advanced
    · simp at advanced
    · simp only [Progress.go.injEq] at advanced
      obtain ⟨-, rfl⟩ := advanced
      simp only [bound, unread, List.length_cons]
      refine budget_read_lt ?_
      have heights : config.below.length + 1 ≤
          slotSum 3 (freeGotos table config.reductions) (config.below.length + 1) :=
        height_le_slotSum (by omega)
      refine Nat.le_trans (slotSum_le (by omega) fun _ => List.length_filter_le _ _) ?_
      exact Nat.mul_le_mul_right _ (by omega)
    · rename_i number _
      split at advanced
      · simp at advanced
      · rename_i rule _
        split at advanced
        · simp at advanced
        · rename_i exposed remaining dropped
          split at advanced
          · simp at advanced
          · rename_i fresh
            split at advanced
            · simp at advanced
            · rename_i target found
              simp only [Progress.go.injEq] at advanced
              obtain ⟨-, rfl⟩ := advanced
              have lengths := congrArg List.length dropped
              simp only [List.length_drop, List.length_cons] at lengths
              refine budget_lt ?_
              have shrunk : remaining.length + 1 ≤ config.below.length + 1 := by omega
              refine Nat.lt_of_lt_of_le ?_ (slotSum_mono shrunk)
              refine slotSum_lt ?_ ?_ (show 2 < 3 by omega)
              · intro slot low
                exact freeGotos_below (by omega)
              · intro slot high _
                exact freeGotos_lt found fresh (by omega)
    · split at advanced <;> simp at advanced

def machine (table : ActionTable) (g : Grammar) : Machine Config Step where
  advance := advance table g
  bound := bound table
  bound_lt := bound_lt

def trace (table : ActionTable) (g : Grammar) (tokens : List String) : Trace Step :=
  match g.resolve tokens with
  | .error reason => .unresolved reason
  | .ok input =>
    let run := (machine table g).run (.initial input)
    ⟨input, run.steps, run.verdict⟩

end ParseTables.ShiftReduce
