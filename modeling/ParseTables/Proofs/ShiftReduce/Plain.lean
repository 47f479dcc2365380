import ParseTables.Proofs.Driver.Guard
import ParseTables.Proofs.ShiftReduce.Steps

namespace ParseTables.ShiftReduce

open Driver

/-- A configuration of the plain loop. -/
structure Plain where
  state : Nat
  below : List Nat
  position : Nat
  rest : List Nat

/-- What is left of a configuration without the reductions kept in mind. -/
def Config.plain (config : Config) : Plain :=
  ⟨config.state, config.below, config.position, config.rest⟩

/-- One step of the plain loop. -/
def plainAdvance (table : ActionTable) (g : Grammar) (config : Plain) : Progress Plain Step :=
  match config.rest with
  | [] => .stop none (.rejected (.inputExhausted g.endMark))
  | current :: later =>
    let states := config.state :: config.below
    let action := (table.actions config.state current).head?
    let recorded : Step := ⟨states, config.position, action⟩
    let reject (reason : Rejection) : Progress Plain Step := .stop (some recorded) (.rejected reason)
    match action with
    | none => reject (.noAction config.state current)
    | some (.shift target) => .go recorded ⟨target, states, config.position + 1, later⟩
    | some (.reduce number) =>
      match g.rule? number with
      | none => .stop (some recorded) (.undefinedRule number)
      | some rule =>
        match states.drop rule.body.length with
        | [] => reject (.stackUnderflow number)
        | exposed :: remaining =>
          match table.goto? exposed rule.head with
          | none => reject (.noGoto exposed rule.head)
          | some target => .go recorded ⟨target, exposed :: remaining, config.position, config.rest⟩
    | some .accept =>
      if later = [] then .stop (some recorded) .accepted else reject (.leftoverInput config.rest)

/-- The stack after a reduction on a terminal. -/
def reduced? (table : ActionTable) (g : Grammar) (current : Nat) : List Nat → Option (List Nat)
  | [] => none
  | state :: below =>
    match (table.actions state current).head? with
    | some (.reduce number) =>
      (g.rule? number).bind fun rule =>
        match (state :: below).drop rule.body.length with
        | [] => none
        | exposed :: remaining =>
          (table.goto? exposed rule.head).map fun target => target :: exposed :: remaining
    | _ => none

/-- The configuration with a stack of states. There is always a topmost one. -/
def Plain.at (position : Nat) (rest states : List Nat) : Plain :=
  ⟨states.headD 0, states.tail, position, rest⟩

variable {table : ActionTable} {g : Grammar}

theorem reduced?_eq_some {current state : Nat} {below states' : List Nat} :
    reduced? table g current (state :: below) = some states' ↔
      ∃ number rule exposed remaining target,
        (table.actions state current).head? = some (.reduce number) ∧ g.rule? number = some rule ∧
          (state :: below).drop rule.body.length = exposed :: remaining ∧
          table.goto? exposed rule.head = some target ∧ states' = target :: exposed :: remaining := by
  rw [reduced?]
  constructor
  · intro reduces
    split at reduces
    · rename_i number action
      obtain ⟨rule, found, pushed⟩ := Option.bind_eq_some_iff.mp reduces
      split at pushed
      · simp at pushed
      · rename_i exposed remaining popped
        obtain ⟨target, edge, rfl⟩ := Option.map_eq_some_iff.mp pushed
        exact ⟨number, rule, exposed, remaining, target, action, found, popped, edge, rfl⟩
    · simp at reduces
  · rintro ⟨number, rule, exposed, remaining, target, action, found, popped, edge, rfl⟩
    simp only [action, found, Option.bind_some, popped, edge, Option.map_some]

theorem plainAdvance_of_reduced {position current : Nat} {later states states' : List Nat}
    (reduces : reduced? table g current states = some states') :
    Next (plainAdvance table g) (.at position (current :: later) states)
      (.at position (current :: later) states') := by
  cases states with
  | nil => simp [reduced?] at reduces
  | cons state below =>
    obtain ⟨number, rule, exposed, remaining, target, action, found, popped, edge, rfl⟩ :=
      reduced?_eq_some.mp reduces
    exact ⟨⟨state :: below, position, some (.reduce number)⟩, by
      simp [plainAdvance, Plain.at, action, found, popped, edge]⟩

theorem lifts_reduced {current state number exposed target : Nat} {below remaining : List Nat}
    {rule : Rule} (action : (table.actions state current).head? = some (.reduce number))
    (found : g.rule? number = some rule) (edge : table.goto? exposed rule.head = some target)
    (popped : (state :: below).drop rule.body.length = exposed :: remaining) :
    Lifts (reduced? table g current) (state :: below) (target :: exposed :: remaining) := by
  intro base
  have short : rule.body.length ≤ (state :: below).length := by
    have := congrArg List.length popped
    simp only [List.length_drop, List.length_cons] at this ⊢
    omega
  have popped' : (state :: (below ++ base)).drop rule.body.length = exposed :: (remaining ++ base) := by
    rw [← List.cons_append, List.drop_append_of_le_length short, popped, List.cons_append]
  exact reduced?_eq_some.mpr
    ⟨number, rule, exposed, remaining ++ base, target, action, found, popped', edge, rfl⟩

/-- What each reduction kept in mind means: on the state that it exposed, its head was pushed, and
reductions have led from there to what is on the exposed state now. -/
def Traced (table : ActionTable) (g : Grammar) (config : Config) : Prop :=
  ∀ made ∈ config.reductions, ∃ current later upper base target,
    config.rest = current :: later ∧ config.state :: config.below = upper ++ made.exposed :: base ∧
      upper ≠ [] ∧ base.length + 1 = made.height ∧ table.goto? made.exposed made.head = some target ∧
      Relation.ReflTransGen (Lifts (reduced? table g current)) [target, made.exposed]
        (upper ++ [made.exposed])

/-- Where removing states leaves a state, what is left begins in the part above that state. -/
theorem popped_above {upper base remaining : List Nat} {bottom exposed count : Nat}
    (popped : (upper ++ bottom :: base).drop count = exposed :: remaining)
    (kept : base.length ≤ remaining.length) :
    count ≤ upper.length ∧ exposed :: remaining = upper.drop count ++ bottom :: base := by
  have lengths := congrArg List.length popped
  simp only [List.length_drop, List.length_append, List.length_cons] at lengths
  have inside : count ≤ upper.length := by omega
  exact ⟨inside, by rw [← popped, List.drop_append_of_le_length inside]⟩

/-- A reduction leads on from what is on an exposed state that stays. -/
theorem lifts_above {current state number exposed target bottom : Nat}
    {below remaining upper base : List Nat} {rule : Rule}
    (stacked : state :: below = upper ++ bottom :: base) (nonempty : upper ≠ [])
    (action : (table.actions state current).head? = some (.reduce number))
    (found : g.rule? number = some rule) (edge : table.goto? exposed rule.head = some target)
    (popped : (state :: below).drop rule.body.length = exposed :: remaining)
    (kept : base.length ≤ remaining.length) :
    ∃ more, exposed :: remaining = more ++ bottom :: base ∧
      Lifts (reduced? table g current) (upper ++ [bottom]) (target :: (more ++ [bottom])) := by
  rw [stacked] at popped
  obtain ⟨inside, whole⟩ := popped_above popped kept
  refine ⟨upper.drop rule.body.length, whole, ?_⟩
  obtain ⟨top, tail, rfl⟩ := List.exists_cons_of_ne_nil nonempty
  obtain ⟨rfl, -⟩ := List.cons.inj stacked
  have above : ((state :: tail) ++ [bottom]).drop rule.body.length =
      (state :: tail).drop rule.body.length ++ [bottom] := List.drop_append_of_le_length inside
  obtain ⟨first, others, split⟩ := List.exists_cons_of_ne_nil
    (List.append_ne_nil_of_right_ne_nil ((state :: tail).drop rule.body.length)
      (List.cons_ne_nil bottom []))
  have same : exposed :: remaining = first :: (others ++ base) := by
    rw [whole, ← List.cons_append, ← split, List.append_assoc, List.singleton_append]
  obtain ⟨rfl, -⟩ := List.cons.inj same
  rw [split] at above ⊢
  exact lifts_reduced action found edge above

theorem Traced.reduce {config : Config} {current number exposed target : Nat}
    {later remaining : List Nat} {rule : Rule} (traced : Traced table g config)
    (unread : config.rest = current :: later)
    (action : (table.actions config.state current).head? = some (.reduce number))
    (found : g.rule? number = some rule)
    (popped : (config.state :: config.below).drop rule.body.length = exposed :: remaining)
    (edge : table.goto? exposed rule.head = some target) :
    Traced table g ⟨target, exposed :: remaining, config.position, config.rest,
      config.kept (remaining.length + 1) ++ [⟨exposed, remaining.length + 1, rule.head⟩]⟩ := by
  intro made member
  rcases List.mem_append.mp member with old | new
  · obtain ⟨inside, low⟩ := List.mem_filter.mp old
    have kept : made.height ≤ remaining.length + 1 := of_decide_eq_true low
    obtain ⟨current', later', upper, base, target', unread', stacked, nonempty, height, pushed, path⟩ :=
      traced made inside
    rw [unread] at unread'
    obtain ⟨rfl, rfl⟩ := List.cons.inj unread'
    obtain ⟨more, whole, lift⟩ :=
      lifts_above stacked nonempty action found edge popped (by omega)
    refine ⟨current, later, target :: more, base, target', unread, ?_,
      List.cons_ne_nil _ _, height, pushed,
      path.tail lift⟩
    show target :: exposed :: remaining = target :: more ++ made.exposed :: base
    rw [whole, List.cons_append]
  · obtain rfl := List.mem_singleton.mp new
    exact ⟨current, later, [target], remaining, target, unread, rfl, List.cons_ne_nil _ _,
      rfl, edge, .refl⟩

theorem plain_of_go {config next : Config} {recorded : Step} (traced : Traced table g config)
    (moved : advance table g config = .go recorded next) :
    plainAdvance table g config.plain = .go recorded next.plain ∧ Traced table g next := by
  cases advance_eq_go.mp moved with
  | shift unread action =>
    refine ⟨?_, fun made member => absurd member List.not_mem_nil⟩
    simp [plainAdvance, Config.plain, Config.record, unread, action]
  | reduce unread action found popped _ edge =>
    refine ⟨?_, traced.reduce unread action found popped edge⟩
    simp [plainAdvance, Config.plain, Config.record, unread, action, found, popped, edge]

/-- The verdicts by which the parser stops a loop. -/
def Cyclic (verdict : Verdict) : Prop :=
  ∃ state terminal, verdict = .rejected (.reductionCycle state terminal)

/-- A reduction to the head that was pushed on an exposed state before, on that state again, leads back
to where that push led. -/
theorem Traced.endless {config : Config} {current number exposed : Nat} {later remaining : List Nat}
    {rule : Rule} (traced : Traced table g config) (unread : config.rest = current :: later)
    (action : (table.actions config.state current).head? = some (.reduce number))
    (found : g.rule? number = some rule)
    (popped : (config.state :: config.below).drop rule.body.length = exposed :: remaining)
    {made : Reduction} (member : made ∈ config.kept (remaining.length + 1))
    (same : made.exposed = exposed) (same' : made.head = rule.head) :
    Endless (plainAdvance table g) config.plain := by
  obtain ⟨inside, low⟩ := List.mem_filter.mp member
  have kept : made.height ≤ remaining.length + 1 := of_decide_eq_true low
  obtain ⟨current', later', upper, base, target, unread', stacked, nonempty, height, edge, path⟩ :=
    traced made inside
  rw [unread] at unread'
  obtain ⟨rfl, rfl⟩ := List.cons.inj unread'
  rw [same, same'] at edge
  obtain ⟨more, whole, lift⟩ := lifts_above stacked nonempty action found edge popped (by omega)
  -- the part on the exposed state begins with that state again
  obtain ⟨others, begins⟩ : ∃ others, more ++ [made.exposed] = exposed :: others := by
    cases more with
    | nil => exact ⟨[], by rw [same]; rfl⟩
    | cons first others =>
      obtain ⟨rfl, -⟩ := List.cons.inj whole
      exact ⟨others ++ [made.exposed], rfl⟩
  have around : Relation.TransGen (Lifts (reduced? table g current)) [target, exposed]
      ([target, exposed] ++ others) := by
    rw [begins] at lift
    rw [same] at path lift
    exact Relation.TransGen.tail' path lift
  have rest : remaining = others ++ base := by
    have split : exposed :: remaining = (more ++ [made.exposed]) ++ base := by rw [whole]; simp
    rw [begins] at split
    exact (List.cons.inj split).2
  have endless : Endless (plainAdvance table g)
      (.at config.position (current :: later) ([target, exposed] ++ (others ++ base))) :=
    endless_of_return (fun _ _ => plainAdvance_of_reduced) around (others ++ base)
  rw [← rest, ← unread] at endless
  have moved : plainAdvance table g config.plain = .go ⟨config.state :: config.below, config.position,
      some (.reduce number)⟩ ⟨target, exposed :: remaining, config.position, config.rest⟩ := by
    simp [plainAdvance, Config.plain, unread, action, found, popped, edge]
  exact Endless.of_path (.single moved) endless

theorem plain_of_stop {config : Config} {recorded : Option Step} {verdict : Verdict}
    (traced : Traced table g config) (stopped : advance table g config = .stop recorded verdict) :
    plainAdvance table g config.plain = .stop recorded verdict ∨
      Cyclic verdict ∧ Endless (plainAdvance table g) config.plain := by
  cases advance_eq_stop.mp stopped with
  | exhausted ended => exact Or.inl (by simp [plainAdvance, Config.plain, ended])
  | noAction unread action =>
    exact Or.inl (by simp [plainAdvance, Config.plain, Config.record, unread, action])
  | undefined unread action missing =>
    exact Or.inl (by simp [plainAdvance, Config.plain, Config.record, unread, action, missing])
  | underflow unread action found popped =>
    exact Or.inl (by simp [plainAdvance, Config.plain, Config.record, unread, action, found, popped])
  | cycle unread action found popped again =>
    obtain ⟨made, member, sameState, sameHead⟩ := again
    exact Or.inr ⟨⟨_, _, rfl⟩, traced.endless unread action found popped member sameState sameHead⟩
  | noGoto unread action found popped _ missing =>
    exact Or.inl (by
      simp [plainAdvance, Config.plain, Config.record, unread, action, found, popped, missing])
  | accept unread action =>
    exact Or.inl (by simp [plainAdvance, Config.plain, Config.record, unread, action])
  | leftover unread more action =>
    exact Or.inl (by simp [plainAdvance, Config.plain, Config.record, unread, action, more])

/-- The parser ends as the plain loop does, or it rejects a cycle and the plain loop never ends. -/
theorem plain_of_run (table : ActionTable) (g : Grammar) (input : List Nat) :
    let run := (machine table g).run (.initial input)
    HaltsWith (plainAdvance table g) ⟨0, [], 0, input⟩ run.steps run.verdict ∨
      Cyclic run.verdict ∧ Endless (plainAdvance table g) ⟨0, [], 0, input⟩ :=
  ((machine table g).run_halts (.initial input)).plain plain_of_go plain_of_stop
    (fun _ member => absurd member List.not_mem_nil)

/-- Where the plain loop ends, the parser does the same. -/
theorem run_of_plain {input : List Nat} {steps : List Step} {verdict : Verdict}
    (halts : HaltsWith (plainAdvance table g) ⟨0, [], 0, input⟩ steps verdict) :
    (machine table g).run (.initial input) = ⟨steps, verdict⟩ := by
  rcases plain_of_run table g input with same | ⟨-, endless⟩
  · obtain ⟨rfl, rfl⟩ := halts.unique same
    rfl
  · exact absurd endless halts.not_endless

end ParseTables.ShiftReduce
