/-!
# Numbers that a measure is read in

Scores, costs and uncertainties are computed by formulas that only need the four operations, decimal
constants, counts and an order. `Scalar` collects these, so that one formula serves two readings:

* `Float` is the reading that runs: binary64, rounded after every operation, in the order written;
* `Rat` is the exact reading of the same formula.

## Main definitions

* `Scalar`: what a formula may use;
* `Scalar.total`: the sum of a list, from left to right;
* `Scalar.clampUnit`: a number cut to the interval from 0 to 1.
-/

namespace TernaryBelief

/-- A type of numbers in which measures can be computed. -/
class Scalar (α : Type) extends Add α, Sub α, Mul α, Div α, Neg α, OfScientific α, LT α where
  /-- The number that stands for a count; where it must be rounded, the nearest one. -/
  ofCount : Nat → α
  decLt : DecidableLT α

instance Scalar.decidableLT (α : Type) [Scalar α] : DecidableLT α := Scalar.decLt

instance : Scalar Float where
  ofCount := Float.ofNat
  decLt := inferInstance

instance : Scalar Rat where
  ofCount n := n
  decLt := inferInstance

namespace Scalar

variable {α : Type} [Scalar α]

/-- The sum of a list, from left to right. It starts from negative zero, the one number that leaves
every other unchanged when it is added; so the empty sum is negative zero where that is a number of
its own. -/
def total (xs : List α) : α := xs.foldl (· + ·) (-(0.0 : α))

/-- A number cut to the interval from 0 to 1. What is not comparable stays as it is. -/
def clampUnit (x : α) : α :=
  if x < 0.0 then 0.0 else if (1.0 : α) < x then 1.0 else x

end Scalar

end TernaryBelief
