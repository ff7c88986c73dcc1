import TernaryBelief.Engine.Run

/-!
# An engine shared by several clients

All clients of a shared engine reach the same engine, and each call has it for itself from beginning
to end. A visit hands the engine to a client's own procedure. If that procedure dies while it holds
the engine, the engine is poisoned: every later call of any client fails and reaches nothing.

## Main definitions

* `SharedEngine`, with `SharedEngine.enter`: the engine, if it may still be reached;
* the calls `update`, `resolve`, `updateAndResolve`, `snapshot`, `coherence` and `visit`.
-/

namespace TernaryBelief

/-- The engine behind the lock, and whether a client died while it held the lock. -/
structure SharedEngine (α : Type) where
  engine : Engine α := {}
  poisoned : Bool := false

namespace SharedEngine

variable {α ρ : Type}

instance : Inhabited (SharedEngine α) := ⟨{}⟩

/-- The failure of every call after a client died. -/
def lockFailure : Failure := .poisoned "resolution engine"

/-- The engine, unless it is poisoned. -/
def enter (s : SharedEngine α) : Except Failure (Engine α) :=
  if s.poisoned then .error lockFailure else .ok s.engine

/-- Hands the engine to a procedure, which returns the engine as it leaves it and its result; no
result means that it died. -/
def visit (s : SharedEngine α) (procedure : Engine α → Option ρ × Engine α) :
    Except Failure (Option ρ × SharedEngine α) := do
  let (result, e) := procedure (← s.enter)
  return (result, { engine := e, poisoned := result.isNone })

def update (s : SharedEngine α) (ids : IdSource) (name : String) (value : Trit)
    (confidence : Float) : Except Failure (Nat × SharedEngine α) := do
  let e ← s.enter
  let (found, e') ← (e.update ids name value confidence).mapError .rejected
  return (found, { s with engine := e' })

def snapshot (s : SharedEngine α) : Except Failure Snapshot := do
  return (← s.enter).snapshot

variable [Scalar α]

def resolve (s : SharedEngine α) : Except Failure (Report α × SharedEngine α) := do
  let (report, e') := (← s.enter).resolve
  return (report, { s with engine := e' })

/-- Asserts a value and settles all that is active, with no other call in between. If the
assertion is refused, nothing is settled. -/
def updateAndResolve (s : SharedEngine α) (ids : IdSource) (name : String) (value : Trit)
    (confidence : Float) : Except Failure ((Nat × Report α) × SharedEngine α) := do
  let e ← s.enter
  let (found, e') ← (e.update ids name value confidence).mapError .rejected
  let (report, e'') := e'.resolve
  return ((found, report), { s with engine := e'' })

def coherence (s : SharedEngine α) : Except Failure α := do
  return (← s.enter).snapshot.coherence

end SharedEngine

end TernaryBelief
