import ParseTables.Rejection

namespace ParseTables.Driver

/-- How a run ends. -/
inductive Verdict where
  | accepted
  | rejected (reason : Rejection)
  /-- The table calls for a rule that the grammar does not have. -/
  | undefinedRule (number : Nat)
deriving DecidableEq

/-- What a machine does in one configuration. -/
inductive Progress (Config Step : Type) where
  /-- It stops, mostly with a last step to record. -/
  | stop (recorded : Option Step) (verdict : Verdict)
  | go (recorded : Step) (next : Config)

/-- The steps of a run and how it ended. -/
structure Run (Step : Type) where
  steps : List Step
  verdict : Verdict

/-- A machine that always stops, as a number that falls with every advance belongs to it. -/
structure Machine (Config Step : Type) where
  advance : Config → Progress Config Step
  /-- Bounds the number of advances from a configuration. -/
  bound : Config → Nat
  bound_lt : ∀ {config recorded next},
    advance config = .go recorded next → bound next < bound config

def Machine.run {Config Step : Type} (machine : Machine Config Step) (config : Config) : Run Step :=
  match _ : machine.advance config with
  | .stop recorded verdict => ⟨recorded.toList, verdict⟩
  | .go recorded next =>
    let rest := machine.run next
    ⟨recorded :: rest.steps, rest.verdict⟩
termination_by machine.bound config
decreasing_by exact machine.bound_lt ‹_›

/-- A run on a string of tokens: the terminals it was resolved to, every step, and the verdict. -/
structure Trace (Step : Type) where
  input : List Nat
  steps : List Step
  verdict : Verdict

/-- The trace of a string that does not resolve. Nothing was read. -/
def Trace.unresolved {Step : Type} (reason : Rejection) : Trace Step := ⟨[], [], .rejected reason⟩

def Trace.accepted {Step : Type} (trace : Trace Step) : Bool := trace.verdict = .accepted

end ParseTables.Driver
