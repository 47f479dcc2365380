namespace ParseTables

/-- Repeats a step until it no longer lessens what is missing. Returns the last value together with
the number of steps made, the last one included. -/
def saturate {α : Type} (missing : α → Nat) (step : α → α) (value : α) : α × Nat :=
  let next := step value
  if missing next < missing value then
    let (last, steps) := saturate missing step next
    (last, steps + 1)
  else (next, 1)
termination_by missing value

end ParseTables
