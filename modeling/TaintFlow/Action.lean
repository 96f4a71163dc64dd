/-!
# Actions

An action changes a state and may fail. A failure does not undo anything: the state reached so far
is kept, which is what a caller observes after half of an instruction has been propagated.
-/

namespace TaintFlow

/-- An action on a state of type `σ` that returns an `α` or fails with an `ε`. -/
abbrev Action (σ ε α : Type) := EStateM ε σ α

namespace Action

variable {σ τ ε ε' α : Type}

/-- The result of an action and the state it leaves, whether it failed or not. -/
def outcome (act : Action σ ε α) (s : σ) : Except ε α × σ :=
  match act s with
  | .ok a s => (.ok a, s)
  | .error e s => (.error e, s)

/-- Run an action on one part of a larger state, renaming its failures. -/
def focus (part : τ → σ) (update : σ → τ → τ) (wrap : ε → ε') (act : Action σ ε α) :
    Action τ ε' α :=
  fun t =>
    match act (part t) with
    | .ok a s => .ok a (update s t)
    | .error e s => .error (wrap e) (update s t)

/-- Return a computed result, or fail as it failed. -/
def lift (wrap : ε → ε') : Except ε α → Action σ ε' α
  | .ok a => pure a
  | .error e => throw (wrap e)

/-- Run `act`, then `closing` whether `act` failed or not. A failure of `act` is the one that is
reported. -/
def closedBy (act closing : Action σ ε Unit) : Action σ ε Unit :=
  fun s =>
    match act s with
    | .ok _ s => closing s
    | .error e s =>
      match closing s with
      | .ok _ s => .error e s
      | .error _ s => .error e s

/-- Run `act`; if it fails, run `undo` before failing. A failure of `undo` is the one reported. -/
def undoneBy (act : Action σ ε α) (undo : Action σ ε Unit) : Action σ ε α :=
  fun s =>
    match act s with
    | .ok a s => .ok a s
    | .error e s =>
      match undo s with
      | .ok _ s => .error e s
      | .error e s => .error e s

end Action
end TaintFlow
