import TernaryBelief.Config
import TernaryBelief.Evaluator
import TernaryBelief.Ledger
import TernaryBelief.Network
import TernaryBelief.Snapshot

/-!
# The engine

An engine holds a network of beliefs, the ledger of the contradictions among them, and an evaluator
for chains of reasoning. An accepted assertion is compared with every belief of another name before
it is written, and each conflict found is filed. A resolution pass settles what is active; it
proposes values but does not touch the beliefs.

An operation that can be refused returns the new engine only if it is accepted, so a refusal changes
nothing. Identifiers for new records come from a source that the caller supplies.

## Main definitions

* `Engine`, with `Engine.ofConfig` and `Engine.ofEvaluator`;
* `Engine.update`, `Engine.updateCode`, `Engine.assert`, `Engine.record`, `Engine.resolve`;
* the views `Engine.belief?`, `Engine.snapshot`, `Engine.distribution`, `Engine.substrate`.
-/

namespace TernaryBelief

/-- Where identifiers come from: the `i`-th record that an operation creates gets the `i`-th one. -/
abbrev IdSource := Nat → Uuid

/-- Beliefs, contradictions and chains of reasoning. -/
structure Engine (α : Type) where
  config : Config := {}
  evaluator : Evaluator α := {}
  network : Network := {}
  ledger : Ledger := {}

namespace Engine

variable {α : Type}

instance : Inhabited (Engine α) := ⟨{}⟩

/-! ## Construction -/

/-- An empty engine with a configuration, which must be valid. -/
def ofConfig (c : Config) : Except Rejection (Engine α) := do
  return { config := ← c.validate }

/-- An engine around an evaluator, with the default configuration. -/
def ofEvaluator (v : Evaluator α) : Engine α := { evaluator := v }

/-! ## Views -/

def belief? (e : Engine α) (name : String) : Option Belief := e.network.find? name

def value? (e : Engine α) (name : String) : Option Trit := (e.belief? name).map Belief.value

def confidence? (e : Engine α) (name : String) : Option Float :=
  (e.belief? name).map Belief.confidence

/-- The counts that scores are computed from. -/
def snapshot (e : Engine α) : Snapshot :=
  Snapshot.ofValues (e.network.beliefs.toList.map Belief.value) e.ledger.active.length
    e.ledger.resolved.length

def distribution (e : Engine α) : Distribution :=
  Distribution.ofList (e.ledger.active.map fun c => c.severity)

def substrate (e : Engine α) : Substrate := Substrate.route e.distribution

/-! ## Assertions -/

/-- The records, not yet filed, of the conflicts that an observation would cause. -/
def findings (e : Engine α) (ids : IdSource) (incoming : Observation) : List Contradiction :=
  (e.network.conflicts e.config.policy incoming).mapIdx fun i c => .ofConflict (ids i) c

/-- Asserts a value for a name. The confidence must be admitted; the answer is the number of
contradictions that the assertion causes. -/
def update (e : Engine α) (ids : IdSource) (name : String) (value : Trit) (confidence : Float) :
    Except Rejection (Nat × Engine α) := do
  let confidence ← e.config.accept confidence
  let found := e.findings ids ⟨name, value⟩
  return (found.length,
    { e with
      ledger := e.ledger.fileAll found
      network := e.network.insert name value confidence })

/-- Asserts a value that is given by an integer code. The code is read before the confidence. -/
def updateCode (e : Engine α) (ids : IdSource) (name : String) (code : Int)
    (confidence : Float) : Except Rejection (Nat × Engine α) := do
  e.update ids name (← Trit.ofInt code) confidence

def assert (e : Engine α) (ids : IdSource) (name : String) (value : Trit) :
    Except Rejection (Nat × Engine α) :=
  e.update ids name value e.config.defaultConfidence

/-! ## Contradictions -/

/-- Files a record that comes from elsewhere; it keeps its identifier. -/
def record (e : Engine α) (c : Contradiction) : Uuid × Engine α :=
  (c.id, { e with ledger := e.ledger.file c })

variable [Scalar α]

/-- A resolution pass over all active contradictions. -/
def resolve (e : Engine α) : Report α × Engine α :=
  let outcomes : List (Outcome α) := e.ledger.pending.map Outcome.ofContradiction
  let after := { e with ledger := e.ledger.settle }
  ({ resolved := outcomes.length
     cost := Outcome.totalCost outcomes
     delta := after.evaluator.phi - e.evaluator.phi
     preserved := after.snapshot.preserved
     outcomes := outcomes },
    after)

end Engine

end TernaryBelief
