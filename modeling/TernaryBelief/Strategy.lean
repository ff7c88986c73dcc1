import TernaryBelief.Conflict

/-!
# Strategies for settling a conflict

Each severity has one strategy. A strategy proposes a value and charges a cost; it changes nothing.

## Main definitions

* `Strategy`, with `Strategy.forSeverity`, `Strategy.cost` and `Strategy.propose`;
* `Resolution` and `Strategy.apply`;
* `Contradiction.totalCost`: what a batch will cost.
-/

namespace TernaryBelief

/-- A way to settle a conflict. -/
inductive Strategy where
  /-- Leave the matter open, at no cost. -/
  | preserveUncertainty
  /-- Adopt the side that is certain. -/
  | commitToCertain
  /-- Give up both sides of an opposition. -/
  | retreatToUnknown
  /-- Give up both sides at the full price. -/
  | protectIntegrity
deriving DecidableEq, Repr

/-- What a strategy makes of a conflict. -/
structure Resolution (α : Type) where
  value : Trit
  /-- The certainty given up for the value. -/
  cost : α
deriving DecidableEq, Repr

namespace Strategy

def all : List Strategy :=
  [preserveUncertainty, commitToCertain, retreatToUnknown, protectIntegrity]

/-- The strategy for a severity. -/
def forSeverity : Severity → Strategy
  | .soft => preserveUncertainty
  | .medium => commitToCertain
  | .hard => retreatToUnknown
  | .critical => protectIntegrity

def name : Strategy → String
  | preserveUncertainty => "preserve_uncertainty"
  | commitToCertain => "commit_to_certain"
  | retreatToUnknown => "retreat_to_unknown"
  | protectIntegrity => "protect_integrity"

variable {α : Type} [Scalar α]

/-- The certainty that a strategy gives up. -/
def cost : Strategy → α
  | preserveUncertainty => 0.0
  | commitToCertain => 0.3
  | retreatToUnknown => 0.5
  | protectIntegrity => 1.0

/-- The value that a strategy proposes. Only a commitment can propose a certain one. -/
def propose : Strategy → Conflict → Trit
  | commitToCertain, c => c.certainValue.getD .unknown
  | _, _ => .unknown

def apply (s : Strategy) (c : Conflict) : Resolution α := ⟨s.propose c, s.cost⟩

end Strategy

/-- What it will cost to settle a batch, summed in the order of the batch. -/
def Contradiction.totalCost {α : Type} [Scalar α] (batch : List Contradiction) : α :=
  Scalar.total (batch.map fun c => (Strategy.forSeverity c.severity).cost)

end TernaryBelief
