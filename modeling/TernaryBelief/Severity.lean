import TernaryBelief.Trit

/-!
# Severities of a disagreement

Severities are ranked; the more severe a disagreement, the earlier it is settled. A policy says how
severe each kind of disagreement is.

## Main definitions

* `Severity`, ordered by `Severity.rank`;
* `SeverityPolicy`, with `SeverityPolicy.classify`.
-/

namespace TernaryBelief

/-- How severe a disagreement is. -/
inductive Severity where
  | soft
  | medium
  | hard
  | critical
deriving DecidableEq, Repr

namespace Severity

def all : List Severity := [soft, medium, hard, critical]

/-- The rank, counted from one. -/
def rank : Severity → Nat
  | soft => 1
  | medium => 2
  | hard => 3
  | critical => 4

def name : Severity → String
  | soft => "soft"
  | medium => "medium"
  | hard => "hard"
  | critical => "critical"

instance : LE Severity := ⟨fun a b => a.rank ≤ b.rank⟩
instance : LT Severity := ⟨fun a b => a.rank < b.rank⟩
instance : DecidableLE Severity := fun a b => inferInstanceAs (Decidable (a.rank ≤ b.rank))
instance : DecidableLT Severity := fun a b => inferInstanceAs (Decidable (a.rank < b.rank))
instance : Max Severity := maxOfLe
instance : Min Severity := minOfLe
instance : Ord Severity := ⟨fun a b => compare a.rank b.rank⟩

theorem rank_inj {a b : Severity} : a.rank = b.rank ↔ a = b := by
  cases a <;> cases b <;> decide

end Severity

/-- How severe each kind of disagreement is. -/
structure SeverityPolicy where
  bothUnknown : Severity := .soft
  oneUnknown : Severity := .medium
  /-- One side affirms what the other denies. -/
  opposed : Severity := .hard
deriving DecidableEq, Repr

namespace SeverityPolicy

instance : Inhabited SeverityPolicy := ⟨{}⟩

/-- The severity of a pair of values. Equal certain values do not disagree; they are classed with
the pairs of which one side is unknown. -/
def classify (p : SeverityPolicy) (a b : Trit) : Severity :=
  if a.isUnknown && b.isUnknown then p.bothUnknown
  else if a.isUnknown || b.isUnknown then p.oneUnknown
  else if a = -b then p.opposed
  else p.oneUnknown

end SeverityPolicy

end TernaryBelief
