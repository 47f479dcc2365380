namespace ParseTables.Driver

/-- The weight of the slots from 1 to `height` of a stack that may grow, given the exponent of each.

A slot weighs a power of a base, the exponent counting what can still be opened at or below that slot.
Opening something at a slot replaces it by slots of smaller exponents, of which there are fewer than the
base, so the sum falls (`slotSum_lt`). -/
def slotSum (base : Nat) (free : Nat → Nat) : Nat → Nat
  | 0 => 0
  | height + 1 => slotSum base free height + base.pow (free (height + 1))

/-- Bounds the number of steps to come, given how many tokens are left to read and the weight of the
stack. After a token the stack weighs at most `cap` times one more than before. -/
def budget (cap : Nat) : Nat → Nat → Nat
  | 0, weight => weight
  | left + 1, weight => weight + 1 + budget cap left ((weight + 1) * cap)

theorem slotSum_congr {base height : Nat} {free free' : Nat → Nat}
    (same : ∀ j ≤ height, free' j = free j) : slotSum base free' height = slotSum base free height := by
  induction height with
  | zero => rfl
  | succ height ih =>
    simp only [slotSum]
    rw [ih fun j bound => same j (by omega), same (height + 1) (Nat.le_refl _)]

theorem slotSum_mono {base low high : Nat} {free : Nat → Nat} (ordered : low ≤ high) :
    slotSum base free low ≤ slotSum base free high := by
  induction ordered with
  | refl => exact Nat.le_refl _
  | step _ ih => exact Nat.le_trans ih (Nat.le_add_right _ _)

theorem height_le_slotSum {base height : Nat} {free : Nat → Nat} (positive : 0 < base) :
    height ≤ slotSum base free height := by
  induction height with
  | zero => exact Nat.le_refl _
  | succ height ih =>
    have : 0 < base.pow (free (height + 1)) := Nat.pow_pos positive
    simp only [slotSum]
    omega

theorem slotSum_le {base height bound : Nat} {free : Nat → Nat} (positive : 0 < base)
    (bounded : ∀ j, free j ≤ bound) : slotSum base free height ≤ height * base.pow bound := by
  induction height with
  | zero => exact Nat.zero_le _
  | succ height ih =>
    have : base.pow (free (height + 1)) ≤ base.pow bound := Nat.pow_le_pow_right positive (bounded _)
    simp only [slotSum, Nat.succ_mul]
    omega

/-- Replacing the topmost slot by slots of smaller exponents makes the stack lighter as long as these
are fewer than the base. -/
theorem slotSum_lt {base height count : Nat} {free free' : Nat → Nat}
    (below : ∀ j ≤ height, free' j = free j)
    (above : ∀ j, height < j → j ≤ height + count → free' j < free (height + 1))
    (fits : count < base) :
    slotSum base free' (height + count) < slotSum base free (height + 1) := by
  have positive : 0 < base := by omega
  have partialSum : ∀ k ≤ count, slotSum base free' (height + k) ≤
      slotSum base free height + k * base.pow (free (height + 1) - 1) := by
    intro k bound
    induction k with
    | zero => simp [slotSum_congr below]
    | succ k ih =>
      have smaller := above (height + (k + 1)) (by omega) (by omega)
      have slot : base.pow (free' (height + (k + 1))) ≤ base.pow (free (height + 1) - 1) :=
        Nat.pow_le_pow_right positive (by omega)
      have earlier := ih (by omega)
      rw [Nat.succ_mul, ← Nat.add_assoc height k 1]
      rw [← Nat.add_assoc height k 1] at slot
      simp only [slotSum]
      omega
  have whole := partialSum count (Nat.le_refl _)
  rcases Nat.eq_zero_or_pos count with rfl | some
  · have : 0 < base.pow (free (height + 1)) := Nat.pow_pos positive
    simp only [slotSum]
    simp only [Nat.zero_mul, Nat.add_zero] at whole
    simp only [Nat.add_zero]
    omega
  · have := above (height + count) (by omega) (Nat.le_refl _)
    obtain ⟨rest, exponent⟩ : ∃ rest, free (height + 1) = rest + 1 :=
      ⟨free (height + 1) - 1, by omega⟩
    have lighter : count * base.pow rest < base.pow (rest + 1) := by
      rw [Nat.pow_eq, Nat.pow_eq, Nat.pow_succ, Nat.mul_comm _ base]
      exact Nat.mul_lt_mul_of_pos_right fits (Nat.pow_pos positive)
    rw [exponent, Nat.add_sub_cancel] at whole
    simp only [slotSum]
    rw [exponent]
    omega

theorem budget_lt {cap left low high : Nat} (lighter : low < high) :
    budget cap left low < budget cap left high := by
  induction left generalizing low high with
  | zero => exact lighter
  | succ left ih =>
    simp only [budget]
    rcases Nat.eq_zero_or_pos cap with rfl | positive
    · simp only [Nat.mul_zero]
      omega
    · have : budget cap left ((low + 1) * cap) < budget cap left ((high + 1) * cap) :=
        ih (Nat.mul_lt_mul_of_pos_right (by omega) positive)
      omega

theorem budget_read_lt {cap left low high : Nat} (bounded : low ≤ (high + 1) * cap) :
    budget cap left low < budget cap (left + 1) high := by
  simp only [budget]
  rcases Nat.eq_or_lt_of_le bounded with same | lighter
  · rw [same]
    omega
  · have : budget cap left low < budget cap left ((high + 1) * cap) := budget_lt lighter
    omega

/-- A stricter test that drops a member leaves fewer of them. -/
theorem length_filter_lt {α : Type} {p q : α → Bool} {l : List α} {a : α}
    (stricter : ∀ x, q x → p x) (member : a ∈ l) (kept : p a) (dropped : ¬ q a) :
    (l.filter q).length < (l.filter p).length := by
  obtain ⟨before, after, rfl⟩ := List.append_of_mem member
  have fewerBefore := List.countP_mono_left (l := before) fun x _ => stricter x
  have fewerAfter := List.countP_mono_left (l := after) fun x _ => stricter x
  simp only [← List.countP_eq_length_filter, List.countP_append, List.countP_cons_of_pos kept,
    List.countP_cons_of_neg dropped]
  omega

end ParseTables.Driver
