/-!
# Results

How computations with a state end. A result carries the state at its end, whether it is a value or
an error, and what is set up around a computation is taken down again in both cases.
-/

namespace Lox

section

variable {ε σ τ α β : Type}

/-- The state in which a computation ends, whether it fails or not. -/
def endState : EStateM.Result ε σ α → σ
  | .ok _ s | .error _ s => s

/-- A result with something else made of the state at its end. -/
def mapEnd (f : σ → τ) : EStateM.Result ε σ α → EStateM.Result ε τ α
  | .ok x s => .ok x (f s)
  | .error e s => .error e (f s)

/-- Something else is made of the state only. -/
@[simp] theorem endState_mapEnd (f : σ → τ) (res : EStateM.Result ε σ α) :
    endState (mapEnd f res) = f (endState res) := by
  cases res <;> rfl

/-- Runs `act` between two steps. The second one is taken however `act` ends. -/
def bracket (enter leave : EStateM ε σ Unit) (act : EStateM ε σ α) : EStateM ε σ α := fun s =>
  match (do enter; act : EStateM ε σ α) s with
  | .ok a s => (do leave; pure a : EStateM ε σ α) s
  | .error e s => (do leave; throw e : EStateM ε σ α) s

variable {act : EStateM ε σ α} {s s' : σ}

/-- After a step that has a result comes the next one. -/
theorem bind_of_ok {a : α} (h : act s = .ok a s') (next : α → EStateM ε σ β) :
    (act >>= next) s = next a s' := by
  simp only [bind, EStateM.bind, h]

/-- After a step that fails there is none. -/
theorem bind_of_error {e : ε} (h : act s = .error e s') (next : α → EStateM ε σ β) :
    (act >>= next) s = .error e s' := by
  simp only [bind, EStateM.bind, h]

end

end Lox
