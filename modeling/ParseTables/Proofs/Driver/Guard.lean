import ParseTables.Proofs.Driver.Runs

namespace ParseTables.Driver

/-- A move that leads from one upper part of a stack to another, whatever lies below. -/
def Lifts (move : List Nat → Option (List Nat)) (upper upper' : List Nat) : Prop :=
  ∀ base, move (upper ++ base) = some (upper' ++ base)

section Return

variable {Config Step : Type} {advance : Config → Progress Config Step}
  {move : List Nat → Option (List Nat)} {place : List Nat → Config}

theorem proceeds_of_lifts
    (moves : ∀ stack stack', move stack = some stack' → Next advance (place stack) (place stack'))
    {upper upper' : List Nat} (path : Relation.TransGen (Lifts move) upper upper') (base : List Nat) :
    Proceeds advance (place (upper ++ base)) (place (upper' ++ base)) :=
  path.lift (fun upper => place (upper ++ base)) fun _ _ lift => moves _ _ (lift base)

/-- A stack whose upper part comes back on top of itself is never done. -/
theorem endless_of_return
    (moves : ∀ stack stack', move stack = some stack' → Next advance (place stack) (place stack'))
    {upper more : List Nat} (path : Relation.TransGen (Lifts move) upper (upper ++ more))
    (base : List Nat) : Endless advance (place (upper ++ base)) := by
  let Round (config : Config) : Prop := ∃ base, config = place (upper ++ base)
  refine @Endless.of_rounds _ _ advance Round ?_ _ ⟨base, rfl⟩
  rintro config ⟨base, rfl⟩
  refine ⟨_, proceeds_of_lifts moves path base, more ++ base, ?_⟩
  rw [List.append_assoc]

end Return

section Plain

variable {Config Plain Step : Type} {advance : Config → Progress Config Step}
  {plainAdvance : Plain → Progress Plain Step} {forget : Config → Plain} {Kept : Config → Prop}
  {Cyclic : Verdict → Prop}

theorem Advances.plain
    (goes : ∀ {config recorded next}, Kept config → advance config = .go recorded next →
      plainAdvance (forget config) = .go recorded (forget next) ∧ Kept next)
    {config last : Config} {steps : List Step} (kept : Kept config)
    (path : Advances advance config steps last) :
    Advances plainAdvance (forget config) steps (forget last) ∧ Kept last := by
  induction path with
  | refl => exact ⟨.refl, kept⟩
  | step moved _ ih =>
    obtain ⟨moved', kept'⟩ := goes kept moved
    obtain ⟨rest, kept''⟩ := ih kept'
    exact ⟨.step moved' rest, kept''⟩

/-- A machine that goes on only as the plain loop does, and stops by itself only where the plain loop
would never stop, ends as the plain loop does or else where that is endless. -/
theorem HaltsWith.plain
    (goes : ∀ {config recorded next}, Kept config → advance config = .go recorded next →
      plainAdvance (forget config) = .go recorded (forget next) ∧ Kept next)
    (stops : ∀ {config recorded verdict}, Kept config → advance config = .stop recorded verdict →
      plainAdvance (forget config) = .stop recorded verdict ∨
        Cyclic verdict ∧ Endless plainAdvance (forget config))
    {config : Config} {steps : List Step} {verdict : Verdict} (kept : Kept config)
    (halts : HaltsWith advance config steps verdict) :
    HaltsWith plainAdvance (forget config) steps verdict ∨
      Cyclic verdict ∧ Endless plainAdvance (forget config) := by
  obtain ⟨before, last, recorded, path, stopped, rfl⟩ := halts
  obtain ⟨path', kept'⟩ := path.plain goes kept
  rcases stops kept' stopped with same | ⟨cyclic, endless⟩
  · exact Or.inl ⟨before, _, recorded, path', same, rfl⟩
  · exact Or.inr ⟨cyclic, endless.of_path path'⟩

/-- The plain loop stops with no cycle where the machine with a fresh memory would not. -/
theorem not_cyclic_of_fresh
    (goes : ∀ {config recorded next}, Kept config → advance config = .go recorded next →
      plainAdvance (forget config) = .go recorded (forget next) ∧ Kept next)
    (stops : ∀ {config recorded verdict}, Kept config → advance config = .stop recorded verdict →
      plainAdvance (forget config) = .stop recorded verdict ∨
        Cyclic verdict ∧ Endless plainAdvance (forget config))
    {config : Config} (kept : Kept config)
    (fresh : ∀ {recorded verdict}, advance config = .stop recorded verdict → ¬ Cyclic verdict)
    {recorded : Option Step} {verdict : Verdict}
    (stopped : plainAdvance (forget config) = .stop recorded verdict) : ¬ Cyclic verdict := by
  cases found : advance config with
  | go recorded' next =>
    have moved := (goes kept found).1
    exact absurd (stopped.symm.trans moved) (by simp)
  | stop recorded' verdict' =>
    have acyclic := fresh found
    have same := (stops kept found).resolve_right fun cyclic => acyclic cyclic.1
    obtain ⟨-, rfl⟩ := Progress.stop.inj (stopped.symm.trans same)
    exact acyclic

/-- A trace is exact if the machine stops with it, for want of no rule, rejects a cycle just where the
plain loop never stops, and otherwise records the steps of the plain loop and ends like it. -/
structure Exact (advance : Config → Progress Config Step) (plainAdvance : Plain → Progress Plain Step)
    (Cyclic : Verdict → Prop) (start : Config) (plainStart : Plain) (trace : Trace Step) : Prop where
  halts : HaltsWith advance start trace.steps trace.verdict
  defined : ∀ number, trace.verdict ≠ .undefinedRule number
  cyclic_iff : Cyclic trace.verdict ↔ Endless plainAdvance plainStart
  plain : ¬ Cyclic trace.verdict → HaltsWith plainAdvance plainStart trace.steps trace.verdict

/-- It is enough that a run ends like the plain loop or is rejected where that is endless, because the
plain loop never rejects a cycle itself. -/
theorem Exact.of_ends {start : Config} {plainStart : Plain} {trace : Trace Step}
    (halts : HaltsWith advance start trace.steps trace.verdict)
    (defined : ∀ {last recorded number}, advance last ≠ .stop recorded (.undefinedRule number))
    (open_ended : ∀ {last recorded verdict}, plainAdvance last = .stop recorded verdict →
      ¬ Cyclic verdict)
    (ends : HaltsWith plainAdvance plainStart trace.steps trace.verdict ∨
      Cyclic trace.verdict ∧ Endless plainAdvance plainStart) :
    Exact advance plainAdvance Cyclic start plainStart trace where
  halts := halts
  defined := by
    intro number missing
    obtain ⟨last, recorded, stopped⟩ := halts.exists_stop
    exact defined (missing ▸ stopped)
  cyclic_iff := by
    rcases ends with same | ⟨cyclic, endless⟩
    · obtain ⟨last, recorded, stopped⟩ := same.exists_stop
      exact ⟨fun cyclic => absurd cyclic (open_ended stopped),
        fun endless => absurd endless same.not_endless⟩
    · exact ⟨fun _ => endless, fun _ => cyclic⟩
  plain := fun acyclic => ends.resolve_right fun cyclic => acyclic cyclic.1

end Plain

end ParseTables.Driver
