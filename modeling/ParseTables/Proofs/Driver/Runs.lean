import Mathlib.Logic.Relation
import ParseTables.Driver.Machine

namespace ParseTables.Driver

variable {Config Step : Type} {advance : Config → Progress Config Step}

/-- The steps recorded on the way from one configuration to another. -/
inductive Advances (advance : Config → Progress Config Step) : Config → List Step → Config → Prop
  | refl {config} : Advances advance config [] config
  | step {config recorded next steps last} :
      advance config = .go recorded next → Advances advance next steps last →
      Advances advance config (recorded :: steps) last

/-- One configuration comes right after another. -/
def Next (advance : Config → Progress Config Step) (config next : Config) : Prop :=
  ∃ recorded, advance config = .go recorded next

/-- One configuration comes after another, or is the same. -/
abbrev Reaches (advance : Config → Progress Config Step) : Config → Config → Prop :=
  Relation.ReflTransGen (Next advance)

/-- One configuration comes after another. -/
abbrev Proceeds (advance : Config → Progress Config Step) : Config → Config → Prop :=
  Relation.TransGen (Next advance)

/-- The path to a configuration in which nothing more is done. -/
def HaltsWith (advance : Config → Progress Config Step) (config : Config) (steps : List Step)
    (verdict : Verdict) : Prop :=
  ∃ before last recorded, Advances advance config before last ∧
    advance last = .stop recorded verdict ∧ steps = before ++ recorded.toList

/-- The machine stops some time. -/
def Halts (advance : Config → Progress Config Step) (config : Config) : Prop :=
  ∃ steps verdict, HaltsWith advance config steps verdict

/-- There is always one more step. -/
def Endless (advance : Config → Progress Config Step) (config : Config) : Prop :=
  ∀ count, ∃ steps last, Advances advance config steps last ∧ steps.length = count

theorem Advances.trans {first middle last : Config} {early late : List Step}
    (before : Advances advance first early middle) (after : Advances advance middle late last) :
    Advances advance first (early ++ late) last := by
  induction before with
  | refl => exact after
  | step moved _ ih => exact .step moved (ih after)

theorem Advances.single {config next : Config} {recorded : Step}
    (moved : advance config = .go recorded next) : Advances advance config [recorded] next :=
  .step moved .refl

theorem Advances.reaches {config last : Config} {steps : List Step}
    (path : Advances advance config steps last) : Reaches advance config last := by
  induction path with
  | refl => exact .refl
  | step moved _ ih => exact .head ⟨_, moved⟩ ih

theorem Reaches.advances {config last : Config} (path : Reaches advance config last) :
    ∃ steps, Advances advance config steps last := by
  induction path using Relation.ReflTransGen.head_induction_on with
  | refl => exact ⟨[], .refl⟩
  | head next _ ih =>
    obtain ⟨recorded, moved⟩ := next
    obtain ⟨steps, rest⟩ := ih
    exact ⟨recorded :: steps, .step moved rest⟩

theorem Proceeds.advances {config last : Config} (path : Proceeds advance config last) :
    ∃ steps, steps ≠ [] ∧ Advances advance config steps last := by
  obtain ⟨middle, ⟨recorded, moved⟩, rest⟩ := Relation.TransGen.head'_iff.mp path
  obtain ⟨steps, path'⟩ := Reaches.advances rest
  exact ⟨recorded :: steps, List.cons_ne_nil _ _, .step moved path'⟩

/-- Of two paths from one configuration, the one that ends where the machine stops is the longer one. -/
theorem Advances.prefix_of_stop {config middle last : Config} {steps early : List Step}
    {recorded : Option Step} {verdict : Verdict} (whole : Advances advance config steps last)
    (stopped : advance last = .stop recorded verdict) (part : Advances advance config early middle) :
    ∃ late, steps = early ++ late ∧ Advances advance middle late last := by
  induction part generalizing steps with
  | refl => exact ⟨steps, rfl, whole⟩
  | step moved _ ih =>
    cases whole with
    | refl => simp [stopped] at moved
    | step moved' rest =>
      obtain ⟨rfl, rfl⟩ := Progress.go.inj (moved'.symm.trans moved)
      obtain ⟨late, rfl, later⟩ := ih rest
      exact ⟨late, rfl, later⟩

theorem HaltsWith.exists_stop {config : Config} {steps : List Step} {verdict : Verdict}
    (halts : HaltsWith advance config steps verdict) :
    ∃ last recorded, advance last = .stop recorded verdict :=
  let ⟨_, last, recorded, _, stopped, _⟩ := halts
  ⟨last, recorded, stopped⟩

theorem HaltsWith.unique {config : Config} {steps steps' : List Step} {verdict verdict' : Verdict}
    (halts : HaltsWith advance config steps verdict)
    (halts' : HaltsWith advance config steps' verdict') : steps = steps' ∧ verdict = verdict' := by
  obtain ⟨before, last, recorded, path, stopped, rfl⟩ := halts
  obtain ⟨before', last', recorded', path', stopped', rfl⟩ := halts'
  obtain ⟨late, rfl, rest⟩ := path.prefix_of_stop stopped path'
  cases rest with
  | refl =>
    obtain ⟨rfl, rfl⟩ := Progress.stop.inj (stopped.symm.trans stopped')
    simp
  | step moved _ => simp [stopped'] at moved

theorem HaltsWith.before {config middle : Config} {late early : List Step} {verdict : Verdict}
    (halts : HaltsWith advance middle late verdict) (part : Advances advance config early middle) :
    HaltsWith advance config (early ++ late) verdict := by
  obtain ⟨steps, last, recorded, path, stopped, rfl⟩ := halts
  exact ⟨early ++ steps, last, recorded, part.trans path, stopped, (List.append_assoc ..).symm⟩

theorem Reaches.halts {config last : Config} {recorded : Option Step} {verdict : Verdict}
    (path : Reaches advance config last) (stopped : advance last = .stop recorded verdict) :
    ∃ steps, HaltsWith advance config steps verdict := by
  obtain ⟨steps, path⟩ := path.advances
  exact ⟨steps ++ recorded.toList, steps, last, recorded, path, stopped, rfl⟩

/-- Each step was recorded in the configuration to which the steps before it lead. -/
theorem HaltsWith.config_at {config : Config} {early late : List Step} {step : Step} {verdict : Verdict}
    (halts : HaltsWith advance config (early ++ step :: late) verdict) :
    ∃ middle, Advances advance config early middle ∧
      ((∃ next, advance middle = .go step next) ∨ advance middle = .stop (some step) verdict) := by
  obtain ⟨before, last, recorded, path, stopped, split⟩ := halts
  induction path generalizing early with
  | refl =>
    -- at most one step is recorded where the machine stops
    cases early with
    | nil =>
      have made : some step = recorded := by cases recorded <;> simp_all
      exact ⟨_, .refl, Or.inr (made ▸ stopped)⟩
    | cons first early => cases recorded <;> simp at split
  | @step config first next steps last moved _ ih =>
    cases early with
    | nil =>
      obtain ⟨rfl, -⟩ := List.cons.inj split
      exact ⟨config, .refl, Or.inl ⟨next, moved⟩⟩
    | cons first' early =>
      obtain ⟨rfl, split'⟩ := List.cons.inj split
      obtain ⟨middle, part, made⟩ := ih stopped split'
      exact ⟨middle, .step moved part, made⟩

/-- Each step was recorded in some configuration on the way. -/
theorem HaltsWith.exists_config {config : Config} {steps : List Step} {verdict : Verdict}
    (halts : HaltsWith advance config steps verdict) {step : Step} (member : step ∈ steps) :
    ∃ before middle, Advances advance config before middle ∧
      ((∃ next, advance middle = .go step next) ∨ advance middle = .stop (some step) verdict) := by
  obtain ⟨early, late, rfl⟩ := List.append_of_mem member
  exact ⟨early, halts.config_at⟩

theorem Halts.of_stop {config : Config} {recorded : Option Step} {verdict : Verdict}
    (stopped : advance config = .stop recorded verdict) : Halts advance config :=
  ⟨recorded.toList, verdict, [], config, recorded, .refl, stopped, rfl⟩

theorem Halts.of_reaches {config last : Config} (path : Reaches advance config last)
    (halts : Halts advance last) : Halts advance config := by
  obtain ⟨early, path⟩ := path.advances
  obtain ⟨late, verdict, halts⟩ := halts
  exact ⟨early ++ late, verdict, halts.before path⟩

theorem HaltsWith.not_endless {config : Config} {steps : List Step} {verdict : Verdict}
    (halts : HaltsWith advance config steps verdict) : ¬ Endless advance config := by
  intro endless
  obtain ⟨before, last, recorded, path, stopped, -⟩ := halts
  obtain ⟨more, beyond, longer, count⟩ := endless (before.length + 1)
  obtain ⟨late, rfl, -⟩ := path.prefix_of_stop stopped longer
  simp only [List.length_append] at count
  omega

theorem Advances.take {config last : Config} {steps : List Step}
    (path : Advances advance config steps last) (count : Nat) :
    ∃ middle, Advances advance config (steps.take count) middle := by
  induction path generalizing count with
  | refl => exact ⟨_, by simpa using .refl⟩
  | step moved _ ih =>
    cases count with
    | zero => exact ⟨_, .refl⟩
    | succ count =>
      obtain ⟨middle, before⟩ := ih count
      exact ⟨middle, .step moved before⟩

theorem Endless.of_path {config next : Config} {steps : List Step}
    (path : Advances advance config steps next) (endless : Endless advance next) :
    Endless advance config := by
  intro count
  obtain ⟨later, last, rest, length⟩ := endless count
  obtain ⟨middle, part⟩ := (path.trans rest).take count
  refine ⟨_, middle, part, ?_⟩
  simp only [List.length_take, List.length_append]
  omega

/-- A loop each round of which makes a step and leads to another round never stops. -/
theorem Endless.of_rounds {Round : Config → Prop}
    (next : ∀ {config}, Round config → ∃ last, Proceeds advance config last ∧ Round last)
    {config : Config} (start : Round config) : Endless advance config := by
  have rounds : ∀ count, ∃ steps last,
      Advances advance config steps last ∧ Round last ∧ count ≤ steps.length := by
    intro count
    induction count with
    | zero => exact ⟨[], config, .refl, start, Nat.le_refl _⟩
    | succ count ih =>
      obtain ⟨steps, middle, path, again, enough⟩ := ih
      obtain ⟨last, proceeds, round⟩ := next again
      obtain ⟨more, some, rest⟩ := proceeds.advances
      have := List.length_pos_iff.mpr some
      refine ⟨steps ++ more, last, path.trans rest, round, ?_⟩
      simp only [List.length_append]
      omega
  intro count
  obtain ⟨steps, last, path, -, enough⟩ := rounds count
  obtain ⟨middle, part⟩ := path.take count
  exact ⟨_, middle, part, by simp only [List.length_take]; omega⟩

theorem Machine.run_halts (machine : Machine Config Step) (config : Config) :
    HaltsWith machine.advance config (machine.run config).steps (machine.run config).verdict := by
  fun_induction Machine.run machine config with
  | case1 config recorded verdict stopped => exact ⟨[], config, recorded, .refl, stopped, rfl⟩
  | case2 config recorded next moved rest ih => exact ih.before (.single moved)

theorem Machine.run_eq {machine : Machine Config Step} {config : Config} {steps : List Step}
    {verdict : Verdict} (halts : HaltsWith machine.advance config steps verdict) :
    machine.run config = ⟨steps, verdict⟩ := by
  obtain ⟨rfl, rfl⟩ := halts.unique (machine.run_halts config)
  rfl

end ParseTables.Driver
