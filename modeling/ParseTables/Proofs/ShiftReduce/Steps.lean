import ParseTables.ShiftReduce.Driver

namespace ParseTables.ShiftReduce

open Driver

/-- With this state exposed at this height, a reduction to this head would repeat one kept in mind. -/
def Config.Repeats (config : Config) (exposed height head : Nat) : Prop :=
  ∃ made ∈ config.kept height, made.exposed = exposed ∧ made.head = head

/-- The step that is recorded when the table calls for an action. -/
def Config.record (config : Config) (action : Option LRAction) : Step :=
  ⟨config.state :: config.below, config.position, action⟩

/-- The rule by which a step reduces. -/
def Step.reducedRule? (step : Step) : Option Nat :=
  match step.action with
  | some (.reduce number) => some number
  | _ => none

/-- The rules of the reductions among some steps. -/
def reducedRules (steps : List Step) : List Nat := steps.filterMap Step.reducedRule?

variable {table : ActionTable} {g : Grammar} {config next : Config} {step : Step}
  {recorded : Option Step} {verdict : Verdict}

/-- How the parser goes on. -/
inductive Moves (table : ActionTable) (g : Grammar) (config : Config) : Step → Config → Prop
  | shift {current later target} : config.rest = current :: later →
      (table.actions config.state current).head? = some (.shift target) →
      Moves table g config (config.record (some (.shift target)))
        ⟨target, config.state :: config.below, config.position + 1, later, []⟩
  | reduce {current later number rule exposed remaining target} : config.rest = current :: later →
      (table.actions config.state current).head? = some (.reduce number) →
      g.rule? number = some rule →
      (config.state :: config.below).drop rule.body.length = exposed :: remaining →
      ¬ config.Repeats exposed (remaining.length + 1) rule.head →
      table.goto? exposed rule.head = some target →
      Moves table g config (config.record (some (.reduce number)))
        ⟨target, exposed :: remaining, config.position, config.rest,
          config.kept (remaining.length + 1) ++ [⟨exposed, remaining.length + 1, rule.head⟩]⟩

/-- How the parser stops. -/
inductive Stops (table : ActionTable) (g : Grammar) (config : Config) : Option Step → Verdict → Prop
  | exhausted : config.rest = [] → Stops table g config none (.rejected (.inputExhausted g.endMark))
  | noAction {current later} : config.rest = current :: later →
      (table.actions config.state current).head? = none →
      Stops table g config (config.record none) (.rejected (.noAction config.state current))
  | undefined {current later number} : config.rest = current :: later →
      (table.actions config.state current).head? = some (.reduce number) → g.rule? number = none →
      Stops table g config (config.record (some (.reduce number))) (.undefinedRule number)
  | underflow {current later number rule} : config.rest = current :: later →
      (table.actions config.state current).head? = some (.reduce number) →
      g.rule? number = some rule → (config.state :: config.below).drop rule.body.length = [] →
      Stops table g config (config.record (some (.reduce number))) (.rejected (.stackUnderflow number))
  | cycle {current later number rule exposed remaining} : config.rest = current :: later →
      (table.actions config.state current).head? = some (.reduce number) →
      g.rule? number = some rule →
      (config.state :: config.below).drop rule.body.length = exposed :: remaining →
      config.Repeats exposed (remaining.length + 1) rule.head →
      Stops table g config (config.record (some (.reduce number)))
        (.rejected (.reductionCycle config.state current))
  | noGoto {current later number rule exposed remaining} : config.rest = current :: later →
      (table.actions config.state current).head? = some (.reduce number) →
      g.rule? number = some rule →
      (config.state :: config.below).drop rule.body.length = exposed :: remaining →
      ¬ config.Repeats exposed (remaining.length + 1) rule.head →
      table.goto? exposed rule.head = none →
      Stops table g config (config.record (some (.reduce number)))
        (.rejected (.noGoto exposed rule.head))
  | accept {current} : config.rest = [current] →
      (table.actions config.state current).head? = some .accept →
      Stops table g config (config.record (some .accept)) .accepted
  | leftover {current later} : config.rest = current :: later → later ≠ [] →
      (table.actions config.state current).head? = some .accept →
      Stops table g config (config.record (some .accept)) (.rejected (.leftoverInput config.rest))

theorem repeats_iff {exposed height head : Nat} : config.Repeats exposed height head ↔
    (config.kept height).any (fun made => made.exposed = exposed && made.head = head) = true := by
  simp [Config.Repeats]

theorem Moves.advance_eq (moves : Moves table g config step next) :
    advance table g config = .go step next := by
  cases moves with
  | shift unread action => simp [advance, unread, action, Config.record]
  | reduce unread action found popped fresh edge =>
    rw [repeats_iff] at fresh
    simp [advance, unread, action, found, popped, fresh, edge, Config.record]

theorem Stops.advance_eq (stops : Stops table g config recorded verdict) :
    advance table g config = .stop recorded verdict := by
  cases stops with
  | exhausted ended => simp [advance, ended]
  | noAction unread action => simp [advance, unread, action, Config.record]
  | undefined unread action missing => simp [advance, unread, action, missing, Config.record]
  | underflow unread action found popped =>
    simp [advance, unread, action, found, popped, Config.record]
  | cycle unread action found popped again =>
    rw [repeats_iff] at again
    simp [advance, unread, action, found, popped, again, Config.record]
  | noGoto unread action found popped fresh missing =>
    rw [repeats_iff] at fresh
    simp [advance, unread, action, found, popped, fresh, missing, Config.record]
  | accept unread action => simp [advance, unread, action, Config.record]
  | leftover unread more action => simp [advance, unread, action, more, Config.record]

theorem moves_or_stops (table : ActionTable) (g : Grammar) (config : Config) :
    (∃ step next, Moves table g config step next) ∨
      ∃ recorded verdict, Stops table g config recorded verdict := by
  cases unread : config.rest with
  | nil => exact Or.inr ⟨_, _, .exhausted unread⟩
  | cons current later =>
    cases action : (table.actions config.state current).head? with
    | none => exact Or.inr ⟨_, _, .noAction unread action⟩
    | some action' =>
      cases action' with
      | shift target => exact Or.inl ⟨_, _, .shift unread action⟩
      | accept =>
        by_cases last : later = []
        · exact Or.inr ⟨_, _, .accept (last ▸ unread) action⟩
        · exact Or.inr ⟨_, _, .leftover unread last action⟩
      | reduce number =>
        cases found : g.rule? number with
        | none => exact Or.inr ⟨_, _, .undefined unread action found⟩
        | some rule =>
          cases popped : (config.state :: config.below).drop rule.body.length with
          | nil => exact Or.inr ⟨_, _, .underflow unread action found popped⟩
          | cons exposed remaining =>
            by_cases again : config.Repeats exposed (remaining.length + 1) rule.head
            · exact Or.inr ⟨_, _, .cycle unread action found popped again⟩
            · cases edge : table.goto? exposed rule.head with
              | none => exact Or.inr ⟨_, _, .noGoto unread action found popped again edge⟩
              | some target => exact Or.inl ⟨_, _, .reduce unread action found popped again edge⟩

theorem advance_eq_go : advance table g config = .go step next ↔ Moves table g config step next := by
  refine ⟨fun moved => ?_, Moves.advance_eq⟩
  rcases moves_or_stops table g config with ⟨step', next', moves⟩ | ⟨recorded, verdict, stops⟩
  · obtain ⟨rfl, rfl⟩ := Progress.go.inj (moved.symm.trans moves.advance_eq)
    exact moves
  · exact absurd (moved.symm.trans stops.advance_eq) (by simp)

theorem advance_eq_stop :
    advance table g config = .stop recorded verdict ↔ Stops table g config recorded verdict := by
  refine ⟨fun stopped => ?_, Stops.advance_eq⟩
  rcases moves_or_stops table g config with ⟨step', next', moves⟩ | ⟨recorded', verdict', stops⟩
  · exact absurd (stopped.symm.trans moves.advance_eq) (by simp)
  · obtain ⟨rfl, rfl⟩ := Progress.stop.inj (stopped.symm.trans stops.advance_eq)
    exact stops

/-- A step tells the stack and the position of the configuration in which it was made, and there was
something to read. -/
theorem records (made : (∃ next, advance table g config = .go step next) ∨
      ∃ verdict, advance table g config = .stop (some step) verdict) :
    step.states = config.state :: config.below ∧ step.position = config.position ∧ config.rest ≠ [] := by
  rcases made with ⟨next, moved⟩ | ⟨verdict, stopped⟩
  · cases advance_eq_go.mp moved with
    | shift unread | reduce unread => exact ⟨rfl, rfl, by simp [unread]⟩
  · generalize known : some step = recorded at stopped
    cases advance_eq_stop.mp stopped with
    | exhausted => simp at known
    | noAction unread | undefined unread | underflow unread | cycle unread | noGoto unread
    | accept unread | leftover unread =>
      obtain rfl := Option.some.inj known
      exact ⟨rfl, rfl, by simp [unread]⟩

theorem trace_of_error {tokens : List String} {reason : Rejection}
    (resolved : g.resolve tokens = .error reason) : trace table g tokens = .unresolved reason := by
  rw [trace, resolved]

theorem trace_of_ok {tokens : List String} {input : List Nat} (resolved : g.resolve tokens = .ok input) :
    trace table g tokens = ⟨input, ((machine table g).run (.initial input)).steps,
      ((machine table g).run (.initial input)).verdict⟩ := by
  rw [trace, resolved]

end ParseTables.ShiftReduce
