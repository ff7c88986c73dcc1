import TernaryBelief.SharedEngine

/-!
# Runs of a shared engine

Calls to a shared engine as data. Each call is made by one of the clients, and each is a step of its
own, so the calls of all clients form one list in the order in which they get hold of the engine.

## Main definitions

* `SharedOp`, `SharedAnswer`: calls and what they are answered;
* `SharedEngine.step`, `SharedEngine.run`: one call, and a list of them.
-/

namespace TernaryBelief

/-- A call to a shared engine. A visit has results of type `ρ`. -/
inductive SharedOp (α ρ : Type) where
  | update (ids : IdSource) (name : String) (value : Trit) (confidence : Float)
  | resolve
  | updateAndResolve (ids : IdSource) (name : String) (value : Trit) (confidence : Float)
  | snapshot
  | coherence
  | visit (procedure : Engine α → Option ρ × Engine α)

/-- What a call to a shared engine is answered. -/
inductive SharedAnswer (α ρ : Type) where
  /-- The number of contradictions that an assertion caused. -/
  | found (count : Nat)
  | report (r : Report α)
  /-- The number of contradictions that an assertion caused, and the report of the pass after it. -/
  | foundAndReport (count : Nat) (r : Report α)
  | snapshot (s : Snapshot)
  | coherence (c : α)
  /-- The result of a visit; there is none if the procedure died. -/
  | visited (result : Option ρ)
  | failed (reason : Failure)

namespace SharedEngine

variable {α ρ σ : Type}

/-- The answer to a call that may fail, and the state after it: a failure keeps the state. -/
def attempt (s : SharedEngine α) (accepted : σ → SharedAnswer α ρ) :
    Except Failure (σ × SharedEngine α) → SharedAnswer α ρ × SharedEngine α
  | .ok (r, s') => (accepted r, s')
  | .error reason => (.failed reason, s)

variable [Scalar α]

def step (s : SharedEngine α) : SharedOp α ρ → SharedAnswer α ρ × SharedEngine α
  | .update ids name value confidence => s.attempt .found (s.update ids name value confidence)
  | .resolve => s.attempt .report s.resolve
  | .updateAndResolve ids name value confidence =>
    s.attempt (fun r => .foundAndReport r.1 r.2) (s.updateAndResolve ids name value confidence)
  | .snapshot => s.attempt .snapshot (s.snapshot.map fun r => (r, s))
  | .coherence => s.attempt .coherence (s.coherence.map fun r => (r, s))
  | .visit procedure => s.attempt .visited (s.visit procedure)

def run (s : SharedEngine α) : List (SharedOp α ρ) → List (SharedAnswer α ρ) × SharedEngine α
  | [] => ([], s)
  | op :: ops =>
    let r := s.step op
    let rest := r.2.run ops
    (r.1 :: rest.1, rest.2)

end SharedEngine

end TernaryBelief
