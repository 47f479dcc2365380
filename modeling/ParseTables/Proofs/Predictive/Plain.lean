import ParseTables.Proofs.Driver.Guard
import ParseTables.Proofs.Predictive.Steps

namespace ParseTables.Predictive

open Driver

/-- A configuration of the plain loop. -/
structure Plain where
  stack : List Nat
  position : Nat
  rest : List Nat

/-- What is left of a configuration without the expansions kept in mind. -/
def Config.plain (config : Config) : Plain := ⟨config.stack, config.position, config.rest⟩

/-- One step of the plain loop. -/
def plainAdvance (table : PredictiveTable) (g : Grammar) (config : Plain) : Progress Plain Step :=
  let record (action : Action) : Step := ⟨config.stack, config.position, action⟩
  let reject (reason : Rejection) : Progress Plain Step :=
    .stop (some (record .reject)) (.rejected reason)
  match config.stack with
  | [] =>
    if config.rest.length = 1 then .stop (some (record .accept)) .accepted
    else reject (.leftoverInput config.rest)
  | top :: below =>
    match config.rest with
    | [] => reject (.inputExhausted top)
    | current :: later =>
      if g.isTerminal top then
        if top = current then .go (record (.matched top)) ⟨below, config.position + 1, later⟩
        else reject (.mismatch top current)
      else
        match table.rule? top current with
        | none => reject (.noEntry top current)
        | some number =>
          match g.rule? number with
          | none => .stop none (.undefinedRule number)
          | some rule =>
            .go (record (.expand number)) ⟨rule.body ++ below, config.position, config.rest⟩

/-- The stack after the non-terminal on top is expanded. -/
def expanded? (table : PredictiveTable) (g : Grammar) (current : Nat) : List Nat → Option (List Nat)
  | [] => none
  | top :: below =>
    if g.isTerminal top then none
    else
      ((table.rule? top current).bind g.rule?).map fun rule => rule.body ++ below

variable {table : PredictiveTable} {g : Grammar}

theorem plainAdvance_of_expanded {position current : Nat} {later stack stack' : List Nat}
    (expands : expanded? table g current stack = some stack') :
    Next (plainAdvance table g) ⟨stack, position, current :: later⟩
      ⟨stack', position, current :: later⟩ := by
  cases stack with
  | nil => simp [expanded?] at expands
  | cons top below =>
    rw [expanded?] at expands
    split at expands
    · simp at expands
    · rename_i nonTerminal
      obtain ⟨rule, found, rfl⟩ := Option.map_eq_some_iff.mp expands
      obtain ⟨number, cell, defined⟩ := Option.bind_eq_some_iff.mp found
      exact ⟨⟨top :: below, position, .expand number⟩,
        by simp [plainAdvance, nonTerminal, cell, defined]⟩

/-- What each expansion kept in mind means: its non-terminal has grown into the upper part of the stack,
and below that part lies what was below the non-terminal. -/
def Traced (table : PredictiveTable) (g : Grammar) (config : Config) : Prop :=
  ∀ made ∈ config.expansions, ∃ current later upper base,
    config.rest = current :: later ∧ config.stack = upper ++ base ∧ upper ≠ [] ∧
      base.length + 1 = made.height ∧
      Relation.TransGen (Lifts (expanded? table g current)) [made.nonTerminal] upper

theorem lifts_expanded {current top number : Nat} {rule : Rule} (nonTerminal : ¬ g.isTerminal top)
    (cell : table.rule? top current = some number) (defined : g.rule? number = some rule)
    (below : List Nat) : Lifts (expanded? table g current) (top :: below) (rule.body ++ below) := by
  intro base
  simp [expanded?, nonTerminal, cell, defined]

theorem Traced.expand {config : Config} {top current number : Nat} {below later : List Nat}
    {rule : Rule} (traced : Traced table g config) (stacked : config.stack = top :: below)
    (unread : config.rest = current :: later) (nonTerminal : ¬ g.isTerminal top)
    (cell : table.rule? top current = some number) (defined : g.rule? number = some rule) :
    Traced table g ⟨rule.body ++ below, config.position, config.rest,
      config.remember top (rule.body ++ below).length⟩ := by
  intro made member
  obtain ⟨inside, low⟩ := List.mem_filter.mp member
  have kept : made.height ≤ (rule.body ++ below).length := of_decide_eq_true low
  rcases List.mem_append.mp inside with old | new
  · obtain ⟨current', later', upper, base, unread', split, nonempty, height, path⟩ := traced made old
    rw [unread] at unread'
    obtain ⟨rfl, rfl⟩ := List.cons.inj unread'
    obtain ⟨top', tail, rfl⟩ := List.exists_cons_of_ne_nil nonempty
    rw [stacked, List.cons_append] at split
    obtain ⟨rfl, rfl⟩ := List.cons.inj split
    refine ⟨current, later, rule.body ++ tail, base, unread, (List.append_assoc ..).symm, ?_, height,
      path.tail (lifts_expanded nonTerminal cell defined tail)⟩
    intro empty
    simp only [List.length_append] at kept
    have := congrArg List.length empty
    simp only [List.length_append, List.length_nil] at this
    omega
  · obtain rfl := List.mem_singleton.mp new
    have lift := lifts_expanded nonTerminal cell defined []
    rw [List.append_nil] at lift
    refine ⟨current, later, rule.body, below, unread, rfl, ?_, ?_, .single lift⟩
    · rintro empty
      simp only [stacked, empty, List.nil_append, List.length_cons] at kept
      omega
    · simp [stacked]

theorem plain_of_go {config next : Config} {recorded : Step} (traced : Traced table g config)
    (moved : advance table g config = .go recorded next) :
    plainAdvance table g config.plain = .go recorded next.plain ∧ Traced table g next := by
  cases advance_eq_go.mp moved with
  | matched stacked unread isTerminal =>
    refine ⟨?_, fun made member => absurd member List.not_mem_nil⟩
    simp [plainAdvance, Config.plain, Config.record, stacked, unread, isTerminal]
  | expand stacked unread nonTerminal cell _ defined =>
    refine ⟨?_, traced.expand stacked unread nonTerminal cell defined⟩
    simp [plainAdvance, Config.plain, Config.record, stacked, unread, nonTerminal, cell, defined]

/-- The verdicts by which the parser stops a loop. -/
def Cyclic (verdict : Verdict) : Prop :=
  ∃ nonTerminal terminal, verdict = .rejected (.expansionCycle nonTerminal terminal)

/-- A non-terminal whose expansion repeats one kept in mind has grown into a stack with itself on top. -/
theorem Traced.grown {config : Config} {top current : Nat} {below later : List Nat}
    (traced : Traced table g config) (stacked : config.stack = top :: below)
    (unread : config.rest = current :: later) (again : config.Repeats top) :
    ∃ tail base, below = tail ++ base ∧
      Relation.TransGen (Lifts (expanded? table g current)) [top] (top :: tail) := by
  obtain ⟨made, member, rfl⟩ := again
  obtain ⟨current', later', upper, base, unread', split, nonempty, -, path⟩ := traced made member
  rw [unread] at unread'
  obtain ⟨rfl, rfl⟩ := List.cons.inj unread'
  obtain ⟨top', tail, rfl⟩ := List.exists_cons_of_ne_nil nonempty
  rw [stacked, List.cons_append] at split
  obtain ⟨rfl, rfl⟩ := List.cons.inj split
  exact ⟨tail, base, rfl, path⟩

/-- A non-terminal that has grown into a stack with itself on top does so for ever. -/
theorem Traced.endless {config : Config} {top current : Nat} {below later : List Nat}
    (traced : Traced table g config) (stacked : config.stack = top :: below)
    (unread : config.rest = current :: later) (again : config.Repeats top) :
    Endless (plainAdvance table g) config.plain := by
  obtain ⟨tail, base, rfl, path⟩ := traced.grown stacked unread again
  have endless : Endless (plainAdvance table g)
      ⟨[top] ++ (tail ++ base), config.position, current :: later⟩ :=
    endless_of_return (fun _ _ => plainAdvance_of_expanded) path (tail ++ base)
  simpa only [Config.plain, stacked, unread, List.cons_append, List.nil_append] using endless

theorem plain_of_stop {config : Config} {recorded : Option Step} {verdict : Verdict}
    (traced : Traced table g config) (stopped : advance table g config = .stop recorded verdict) :
    plainAdvance table g config.plain = .stop recorded verdict ∨
      Cyclic verdict ∧ Endless (plainAdvance table g) config.plain := by
  cases advance_eq_stop.mp stopped with
  | accept stacked one =>
    exact Or.inl (by simp [plainAdvance, Config.plain, Config.record, stacked, one])
  | leftover stacked more =>
    exact Or.inl (by simp [plainAdvance, Config.plain, Config.record, stacked, more])
  | exhausted stacked ended =>
    exact Or.inl (by simp [plainAdvance, Config.plain, Config.record, stacked, ended])
  | mismatch stacked unread isTerminal different =>
    exact Or.inl (by
      simp [plainAdvance, Config.plain, Config.record, stacked, unread, isTerminal, different])
  | noEntry stacked unread nonTerminal cell =>
    exact Or.inl
      (by simp [plainAdvance, Config.plain, Config.record, stacked, unread, nonTerminal, cell])
  | cycle stacked unread _ _ again => exact Or.inr ⟨⟨_, _, rfl⟩, traced.endless stacked unread again⟩
  | undefined stacked unread nonTerminal cell _ missing =>
    exact Or.inl (by simp [plainAdvance, Config.plain, stacked, unread, nonTerminal, cell, missing])

/-- The parser ends as the plain loop does, or it rejects a cycle and the plain loop never ends. -/
theorem plain_of_run (table : PredictiveTable) (g : Grammar) (input : List Nat) :
    let run := (machine table g).run (.initial g input)
    HaltsWith (plainAdvance table g) ⟨[g.start], 0, input⟩ run.steps run.verdict ∨
      Cyclic run.verdict ∧ Endless (plainAdvance table g) ⟨[g.start], 0, input⟩ :=
  ((machine table g).run_halts (.initial g input)).plain plain_of_go plain_of_stop
    (fun _ member => absurd member List.not_mem_nil)

/-- Where the plain loop ends, the parser does the same. -/
theorem run_of_plain {input : List Nat} {steps : List Step} {verdict : Verdict}
    (halts : HaltsWith (plainAdvance table g) ⟨[g.start], 0, input⟩ steps verdict) :
    (machine table g).run (.initial g input) = ⟨steps, verdict⟩ := by
  rcases plain_of_run table g input with same | ⟨-, endless⟩
  · obtain ⟨rfl, rfl⟩ := halts.unique same
    rfl
  · exact absurd endless halts.not_endless

end ParseTables.Predictive
