import DartLowering.Source.Failure

/-!
Computations over a state that later ones find as they left it. A run ends in a value or a failure,
and the state is kept either way. A run that uses a missing node, an item that a list lacks or a
quotient by zero is broken off: it has no outcome and leaves no state.
-/
namespace DartLowering

/-- The outcome and the state after it, `none` for a run that is broken off. -/
def Run (σ α : Type) : Type := σ → Option (Result α × σ)

namespace Run

variable {σ α β : Type}

instance : Monad (Run σ) where
  pure a := fun s => some (.ok a, s)
  bind m f := fun s =>
    match m s with
    | none => none
    | some (.error failure, s) => some (.error failure, s)
    | some (.ok a, s) => f a s

def brokenOff : Run σ α := fun _ => none

def fail (failure : Failure) : Run σ α := fun s => some (.error failure, s)

/-- An outcome that does not depend on the state. -/
def ofResult (r : Result α) : Run σ α := fun s => some (r, s)

/-- The value, where there has to be one. -/
def require : Option α → Run σ α
  | some a => pure a
  | none => brokenOff

/-- The outcome of a run as its value. -/
def attempt (m : Run σ α) : Run σ (Result α) := fun s =>
  (m s).map fun (r, s) => (.ok r, s)

/-- Failures of the run that have no place get `position`. -/
def locate (position : Position) (m : Run σ α) : Run σ α := fun s =>
  (m s).map fun (r, s) => (Result.locate position r, s)

variable {m : Run σ α} {k : α → Run σ β} {s s' : σ}

theorem bind_of_ok {a : α} (h : m s = some (.ok a, s')) : (m >>= k) s = k a s' := by
  simp only [bind, h]

theorem bind_of_error {failure : Failure} (h : m s = some (.error failure, s')) :
    (m >>= k) s = some (.error failure, s') := by
  simp only [bind, h]

/-- A run in two steps goes on after the first, or ends with its failure. -/
theorem bind_cases {r : Result β} (h : (m >>= k) s = some (r, s')) :
    (∃ a s₁, m s = some (.ok a, s₁) ∧ k a s₁ = some (r, s')) ∨
      ∃ failure, m s = some (.error failure, s') ∧ r = .error failure := by
  cases hm : m s with
  | none =>
    simp only [bind, hm] at h
    cases h
  | some outcome =>
    obtain ⟨a?, s₁⟩ := outcome
    cases a? with
    | ok a =>
      rw [bind_of_ok hm] at h
      exact .inl ⟨a, s₁, rfl, h⟩
    | error failure =>
      rw [bind_of_error hm] at h
      cases h
      exact .inr ⟨failure, rfl, rfl⟩

theorem bind_eq_ok {b : β} (h : (m >>= k) s = some (.ok b, s')) :
    ∃ a s₁, m s = some (.ok a, s₁) ∧ k a s₁ = some (.ok b, s') := by
  rcases bind_cases h with hok | ⟨failure, -, hfailed⟩
  · exact hok
  · cases hfailed

theorem attempt_of {r : Result α} (h : m s = some (r, s')) : m.attempt s = some (.ok r, s') := by
  rw [attempt, h]
  rfl

theorem locate_of {position : Position} {r : Result α} (h : m s = some (r, s')) :
    m.locate position s = some (Result.locate position r, s') := by
  rw [locate, h]
  rfl

end DartLowering.Run
