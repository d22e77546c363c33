/-!
# Calls

A call ends with an answer or with a fault. In both cases it leaves a state behind, and nothing
but the order of its steps says what a call that fails has changed by then.
-/

namespace SoundLaw
set_option autoImplicit false

abbrev Call (ε σ α : Type) := EStateM ε σ α

namespace Call
variable {ε σ α β : Type}

/-- What can be read from the state, or the fault in its place. -/
def reading (f : σ → Except ε α) : Call ε σ α := do
  match f (← get) with
  | .ok a => return a
  | .error e => throw e

/-- The state behind a call, whether or not it fails. -/
def left (call : Call ε σ α) (s : σ) : σ :=
  match call.run s with
  | .ok _ s' | .error _ s' => s'

def outcome (call : Call ε σ α) (s : σ) : Except ε σ :=
  match call.run s with
  | .ok _ s' => .ok s'
  | .error e _ => .error e

variable {f : σ → Except ε α} {s s' : σ} {e : ε} {a : α}

theorem run_reading_bind_of_ok (h : f s = .ok a) (next : α → Call ε σ β) :
    (reading f >>= next).run s = (next a).run s := by
  simp only [reading, bind_assoc, EStateM.run_bind, EStateM.run_get, h]
  rfl

theorem run_reading_bind_of_error (h : f s = .error e) (next : α → Call ε σ β) :
    (reading f >>= next).run s = .error e s := by
  simp only [reading, bind_assoc, EStateM.run_bind, EStateM.run_get, h]
  rfl

theorem outcome_of_ok {call : Call ε σ α} (h : call.run s = .ok a s') :
    call.outcome s = .ok s' := by
  rw [outcome, h]

end Call

end SoundLaw
