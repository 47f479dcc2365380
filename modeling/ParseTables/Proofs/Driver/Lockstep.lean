import ParseTables.Proofs.Driver.Runs

namespace ParseTables.Driver

/-- How a machine reads its input. Each step either leaves the input alone or takes one token from it,
and does so whatever comes after that token. -/
structure Reader {Config Step : Type} (advance : Config → Progress Config Step) where
  position : Config → Nat
  rest : Config → List Nat
  withRest : Config → List Nat → Config
  reads : ∀ {config recorded next current later}, advance config = .go recorded next →
    rest config = current :: later →
    (position next = position config ∧ rest next = current :: later ∧
      ∀ other, advance (withRest config (current :: other)) =
        .go recorded (withRest next (current :: other))) ∨
    (position next = position config + 1 ∧ rest next = later ∧
      ∀ other, advance (withRest config (current :: other)) = .go recorded (withRest next other))
  halts_at_end : ∀ {config recorded next}, advance config = .go recorded next → rest config ≠ []

namespace Reader

variable {Config Step : Type} {advance : Config → Progress Config Step} (reader : Reader advance)
include reader

theorem position_le {config last : Config} {steps : List Step}
    (path : Advances advance config steps last) : reader.position config ≤ reader.position last := by
  induction path with
  | refl => exact Nat.le_refl _
  | step moved _ ih =>
    obtain ⟨current, later, unread⟩ := List.exists_cons_of_ne_nil (reader.halts_at_end moved)
    rcases reader.reads moved unread with ⟨place, -⟩ | ⟨place, -⟩ <;> omega

/-- What is left at the end of a path, and the same path for another input that begins alike. -/
theorem lockstep {config last : Config} {steps : List Step} (path : Advances advance config steps last)
    {common late : List Nat} (unread : reader.rest config = common ++ late)
    (enough : reader.position last < reader.position config + common.length) (other : List Nat) :
    ∃ taken left, common = taken ++ left ∧ left ≠ [] ∧
      reader.position last = reader.position config + taken.length ∧
      reader.rest last = left ++ late ∧
      Advances advance (reader.withRest config (common ++ other)) steps
        (reader.withRest last (left ++ other)) := by
  induction path generalizing common with
  | refl =>
    refine ⟨[], common, rfl, ?_, rfl, unread, .refl⟩
    rintro rfl
    simp at enough
  | @step config recorded next steps last moved rest ih =>
    have before := reader.position_le (.step moved rest)
    cases common with
    | nil =>
      simp only [List.length_nil] at enough
      omega
    | cons current common =>
      rw [List.cons_append] at unread
      rcases reader.reads moved unread with ⟨place, unread', same⟩ | ⟨place, unread', same⟩
      · obtain ⟨taken, left, split, some, place', unread'', path⟩ :=
          @ih (current :: common) unread' (by omega)
        exact ⟨taken, left, split, some, by omega, unread'', .step (same _) path⟩
      · simp only [List.length_cons] at enough
        obtain ⟨taken, left, rfl, some, place', unread'', path⟩ := ih unread' (by omega)
        refine ⟨current :: taken, left, rfl, some, ?_, unread'', .step (same _) path⟩
        simp only [List.length_cons]
        omega

/-- A run on another input with the same tokens up to the next one comes to the same place. -/
theorem elsewhere {config last : Config} {steps : List Step} (path : Advances advance config steps last)
    (start : reader.position config = 0)
    (inside : reader.position last < (reader.rest config).length) {input : List Nat}
    (shared : (reader.rest config).take (reader.position last + 1) <+: input) :
    ∃ common current late other, reader.rest last = current :: late ∧
      reader.rest config = common ++ late ∧ input = common ++ other ∧
      Advances advance (reader.withRest config input) steps
        (reader.withRest last (current :: other)) := by
  obtain ⟨other, rfl⟩ := shared
  have whole := (List.take_append_drop (reader.position last + 1) (reader.rest config)).symm
  have count : ((reader.rest config).take (reader.position last + 1)).length =
      reader.position last + 1 := by
    rw [List.length_take]
    omega
  obtain ⟨taken, left, split, -, place, unread, path'⟩ :=
    reader.lockstep path whole (by omega) other
  have one : left.length = 1 := by
    rw [split, List.length_append] at count
    omega
  obtain ⟨current, rfl⟩ := List.length_eq_one_iff.mp one
  exact ⟨_, current, _, other, unread, whole, rfl, path'⟩

end Reader

end ParseTables.Driver
