import ParseTables.Proofs.Lookahead.First

namespace ParseTables

/-- A loop that repeats a pass as long as the pass says that it changed something. It ends with the value
after the last pass, which said no, and with the number of passes. -/
inductive Settles {α : Type} (pass : α → α × Bool) : α → α → Nat → Prop
  | still {value last} : pass value = (last, false) → Settles pass value last 1
  | again {value next last count} : pass value = (next, true) → Settles pass next last count →
      Settles pass value last (count + 1)

theorem Settles.unique {α : Type} {pass : α → α × Bool} {value last last' : α} {count count' : Nat}
    (settles : Settles pass value last count) (settles' : Settles pass value last' count') :
    last = last' ∧ count = count' := by
  induction settles generalizing last' count' with
  | still quiet =>
    cases settles' with
    | still quiet' => exact ⟨(Prod.mk.inj (quiet.symm.trans quiet')).1, rfl⟩
    | again raised => exact absurd (Prod.mk.inj (quiet.symm.trans raised)).2 Bool.false_ne_true
  | again raised _ ih =>
    cases settles' with
    | still quiet => exact absurd (Prod.mk.inj (quiet.symm.trans raised)).2 Bool.false_ne_true
    | again raised' rest =>
      have next := (Prod.mk.inj (raised.symm.trans raised')).1
      obtain ⟨same, length⟩ := ih (next ▸ rest)
      exact ⟨same, congrArg (· + 1) length⟩

/-- A pass whose flag tells whether less is missing after it leads to the saturation. -/
theorem settles_saturate {α : Type} {missing : α → Nat} {step : α → α} {pass : α → α × Bool}
    {Kept : α → Prop} (keeps : ∀ value, Kept value → Kept (step value))
    (result : ∀ value, (pass value).1 = step value)
    (flag : ∀ value, Kept value → ((pass value).2 ↔ missing (step value) < missing value)) {value : α}
    (start : Kept value) :
    Settles pass value (saturate missing step value).1 (saturate missing step value).2 := by
  fun_induction saturate missing step value with
  | case1 value next less last steps found ih =>
    have raised : pass value = (next, true) := Prod.ext (result value) ((flag value start).mpr less)
    rw [found] at ih
    exact .again raised (ih (keeps value start))
  | case2 value next rest =>
    have down : (pass value).2 = false :=
      Bool.eq_false_iff.mpr fun raised => rest ((flag value start).mp raised)
    exact .still (Prod.ext (result value) down)

/-- A pass made of additions, each of which raises the flag if it changes anything, has its flag up at
the end exactly if it changed anything as a whole, because nothing that is added is taken away again. -/
theorem foldl_flag {α ι : Type} {le : α → α → Prop} {add : α → ι → α} {mark : α × Bool → ι → α × Bool}
    (refl : ∀ a, le a a) (trans : ∀ a b c, le a b → le b c → le a c)
    (antisymm : ∀ a b, le a b → le b a → a = b) (inflates : ∀ value i, le value (add value i))
    (result : ∀ state i, (mark state i).1 = add state.1 i)
    (flag : ∀ state i, (mark state i).2 ↔ state.2 ∨ add state.1 i ≠ state.1) (items : List ι)
    (state : α × Bool) : (items.foldl mark state).1 = items.foldl add state.1 ∧
      ((items.foldl mark state).2 ↔ state.2 ∨ items.foldl add state.1 ≠ state.1) := by
  induction items generalizing state with
  | nil => exact ⟨rfl, by simp⟩
  | cons i rest ih =>
    obtain ⟨value, up⟩ := ih (mark state i)
    rw [result] at value up
    refine ⟨value, ?_⟩
    rw [List.foldl_cons, List.foldl_cons, up, flag, or_assoc]
    refine or_congr_right ?_
    have first : le state.1 (add state.1 i) := inflates state.1 i
    have more : le (add state.1 i) (rest.foldl add (add state.1 i)) :=
      le_foldl refl trans inflates rest _
    constructor
    · intro changed back
      rw [back] at more changed
      have same : add state.1 i = state.1 := antisymm _ _ more first
      exact changed.elim (fun added => added same) (fun later => later same.symm)
    · intro changed
      by_cases same : add state.1 i = state.1
      · rw [same] at changed ⊢
        exact Or.inr changed
      · exact Or.inl same

theorem ByNonTerminal.update_eq_self_iff {α : Type} {table : ByNonTerminal α} {change : α → α}
    {symbol : Nat} :
    table.update change symbol = table ↔
      ∀ entry, table.get? symbol = some entry → change entry = entry := by
  constructor
  · intro same entry found
    have changed := congrArg (fun table : ByNonTerminal α => table.get? symbol) same
    simpa [ByNonTerminal.get?_update, found] using changed
  · intro fixed
    refine ByNonTerminal.ext_get? fun other => ?_
    rw [ByNonTerminal.get?_update]
    split
    · rename_i place
      subst place
      cases found : table.get? symbol with
      | none => rfl
      | some entry => exact congrArg some (fixed entry found)
    · rfl

namespace FirstSet

/-- Whether merging another set adds anything, told by the number of terminals and by whether the empty
string is allowed, before and after. -/
def grows (s t : FirstSet) : Bool :=
  (s.terminals.size, s.nullable) != ((s.merge t).terminals.size, (s.merge t).nullable)

theorem grows_iff {s t : FirstSet} : s.grows t ↔ s.merge t ≠ s := by
  rw [grows, bne_iff_ne]
  refine not_congr ⟨fun same => ?_, fun same => by rw [same]⟩
  obtain ⟨size, nullable⟩ := Prod.mk.inj same
  have terminals : s.terminals = (s.merge t).terminals :=
    SortedSet.eq_of_size_le (s.le_merge t).1 (Nat.le_of_eq size.symm)
  exact Le.antisymm _ _ ⟨fun a member => terminals ▸ member, fun null => nullable ▸ null⟩ (s.le_merge t)

end FirstSet

namespace Grammar

variable {g : Grammar}

/-- One rule of a pass. The flag goes up if the rule adds to the set of its head. -/
def firstMark (g : Grammar) (state : FirstSets × Bool) (rule : Rule) : FirstSets × Bool :=
  let first := state.1.ofSequence g rule.body
  match state.1.get? rule.head with
  | none => state
  | some head => (state.1.update (·.merge first) rule.head, state.2 || head.grows first)

/-- A pass over all listed rules with the flag down at first. -/
def firstScan (g : Grammar) (sets : FirstSets) : FirstSets × Bool :=
  g.listed.foldl g.firstMark (sets, false)

theorem firstMark_spec (state : FirstSets × Bool) (rule : Rule) :
    (g.firstMark state rule).1 = g.firstStep state.1 rule ∧
      ((g.firstMark state rule).2 ↔ state.2 ∨ g.firstStep state.1 rule ≠ state.1) := by
  unfold firstMark firstStep
  cases entry : state.1.get? rule.head with
  | none =>
    have same : state.1.update (·.merge (state.1.ofSequence g rule.body)) rule.head = state.1 :=
      ByNonTerminal.update_eq_self_iff.mpr (by simp [entry])
    simp [same]
  | some head => simp [ByNonTerminal.update_eq_self_iff, entry, FirstSet.grows_iff]

theorem firstScan_spec (sets : FirstSets) :
    (g.firstScan sets).1 = g.firstPass sets ∧ ((g.firstScan sets).2 ↔ g.firstPass sets ≠ sets) := by
  have pass := foldl_flag (ByNonTerminal.Below.refl FirstSet.Le.refl)
    (ByNonTerminal.Below.trans FirstSet.Le.trans) (ByNonTerminal.Below.antisymm FirstSet.Le.antisymm)
    below_firstStep (fun state rule => (g.firstMark_spec state rule).1)
    (fun state rule => (g.firstMark_spec state rule).2) g.listed (sets, false)
  exact ⟨pass.1, pass.2.trans (or_iff_right Bool.false_ne_true)⟩

theorem FirstSound.firstPass {sets : FirstSets} (sound : g.FirstSound sets) :
    g.FirstSound (g.firstPass sets) := by
  rw [firstPass_eq]
  exact foldl_kept (fun _ rule kept => kept.firstStep rule.2) g.listed.attach sound

/-- The loop that watches for changes ends, with the sets and after the number of passes that the
saturation tells. -/
theorem settles_iff_firstPasses {sets : FirstSets} {count : Nat} :
    Settles g.firstScan (.replicate g.nonTerminalCount .nothing) sets count ↔
      g.firstPasses = (sets, count) := by
  have settles :
      Settles g.firstScan (.replicate g.nonTerminalCount .nothing) g.firstPasses.1 g.firstPasses.2 := by
    refine settles_saturate (fun _ sound => sound.firstPass) (fun sets => (g.firstScan_spec sets).1)
      (fun sets sound => ?_) firstSound_nothing
    rw [(g.firstScan_spec sets).2]
    have above : ByNonTerminal.Below FirstSet.Le sets (g.firstPass sets) :=
      le_foldl (ByNonTerminal.Below.refl FirstSet.Le.refl) (ByNonTerminal.Below.trans FirstSet.Le.trans)
        below_firstStep g.listed sets
    constructor
    · intro changed
      by_contra full
      exact changed (sound.firstPass.eq_of_missing_le above (Nat.not_lt.mp full)).symm
    · intro less same
      rw [same] at less
      exact Nat.lt_irrefl _ less
  constructor
  · intro ended
    obtain ⟨last, passes⟩ := settles.unique ended
    exact Prod.ext last passes
  · intro found
    rwa [found] at settles

/-- The loop over passes ends with the First sets. They are exact for every string of symbols, and the
set of a non-terminal is the one of the string that it makes alone. -/
theorem first_sets_exact {pairs : List (String × String)} {designated : Option String} {g : Grammar}
    (built : Grammar.ofRules pairs designated = .ok g) :
    (∀ sets count, Settles g.firstScan (.replicate g.nonTerminalCount .nothing) sets count ↔
      g.firstPasses = (sets, count)) ∧
    (∀ symbols terminal, terminal ∈ (g.firstSets.ofSequence g symbols).terminals ↔
      g.isTerminal terminal ∧ ∃ rest, g.Derives symbols (terminal :: rest)) ∧
    (∀ symbols, (g.firstSets.ofSequence g symbols).nullable ↔ g.Derives symbols []) ∧
    ∀ symbol ∈ g.nonTerminals, g.firstSets.get? symbol = some (g.firstSets.ofSequence g [symbol]) := by
  have wf := wellFormed_ofRules built
  refine ⟨fun _ _ => settles_iff_firstPasses, fun _ _ => mem_first_iff wf,
    fun _ => nullable_first_iff wf,
    fun symbol listed => ?_⟩
  obtain ⟨found, entry⟩ := exists_firstSet listed
  have alone : g.firstSets.ofSequence g [symbol] = found := first_cons_listed listed entry
  rw [entry, alone]

/-- Lists that begin with what may be missing: `S -> A B c`, `A -> a`, `A -> e`, `B -> B b` and `B ->
A`. -/
def optionalFront : Grammar :=
  ⟨"S'", #["S", "A", "B"], #["c", "a", "b"], 1,
    [⟨1, [2, 3, 4]⟩, ⟨2, [5]⟩, ⟨2, []⟩, ⟨3, [3, 6]⟩, ⟨3, [2]⟩]⟩

/-- `A` and `B` may vanish, so that `S` begins with `b` as well, which the third pass finds. -/
theorem first_sets_optionalFront :
    Grammar.ofRules [("S", "A B c"), ("A", "a"), ("A", "e"), ("B", "B b"), ("B", "A")] none =
        .ok optionalFront ∧
      Settles optionalFront.firstScan (.replicate 3 .nothing) optionalFront.firstSets 4 ∧
      (∃ rest, optionalFront.Derives [1] (6 :: rest)) ∧ optionalFront.Derives [2, 3] [] ∧
      ¬ optionalFront.Derives [1] [] ∧
      optionalFront.firstSets.get? 3 = some (optionalFront.firstSets.ofSequence optionalFront [3]) := by
  have built : Grammar.ofRules [("S", "A B c"), ("A", "a"), ("A", "e"), ("B", "B b"), ("B", "A")] none =
      .ok optionalFront := by cbv
  obtain ⟨settles, begins, vanishes, stored⟩ := first_sets_exact built
  refine ⟨built, (settles _ _).mpr ?_, ((begins [1] 6).mp ?_).2, (vanishes [2, 3]).mp ?_,
    fun empty => absurd ((vanishes [1]).mpr empty) ?_, stored 3 ?_⟩ <;> decide +kernel

end Grammar

end ParseTables
