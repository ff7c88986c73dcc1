import TernaryBelief.Binary64

/-!
# The shortest decimal that reads back

Of the decimals that are nearest to one binary64 number and to no other, the shortest are those with
the fewest digits. `Decimal.shortest` takes the nearest of the shortest. Grids of powers of ten are
tried from coarse to fine; on each grid only the two neighbours of the number can read back to it.

## Main definitions

* `Decimal`: `digits * 10 ^ exponent`, with its exact value `Decimal.value`;
* `Decimal.code`: the binary64 number that a decimal reads as;
* `Decimal.shortest`: the decimal that is written for a number.
-/

namespace TernaryBelief

/-- The number `digits * 10 ^ exponent`. -/
structure Decimal where
  digits : Nat
  exponent : Int
deriving DecidableEq, Repr

/-- Which of two equally near candidates is taken. -/
inductive Tie where
  | up
  | even
deriving DecidableEq, Repr

namespace Decimal

/-- The exact value of a decimal. -/
def value (d : Decimal) : Rat :=
  mkRat (d.digits * Nat.pow 10 d.exponent.toNat : Nat) (Nat.pow 10 (-d.exponent).toNat)

/-- The code of the binary64 magnitude nearest to the decimal; from the code of infinity on, the
decimal is too large. Exponents that decide the result alone are not multiplied out. -/
def code (d : Decimal) : Nat :=
  if d.digits = 0 then 0
  else if 309 < d.exponent then Binary64.infinity
  else if d.digits.log2 + 1 + d.exponent < -330 then 0
  else Binary64.nearest d.value

/-- The value measured in units of `10 ^ e`, as a numerator and a denominator. -/
def inUnits (v : Rat) (e : Int) : Nat × Nat :=
  (v.num.toNat * Nat.pow 10 (-e).toNat, v.den * Nat.pow 10 e.toNat)

/-- The neighbour of the magnitude with code `b` on the grid `10 ^ e` that reads back to it; of two,
the nearer. -/
def onGrid? (tie : Tie) (b : Nat) (e : Int) : Option Decimal :=
  let r := inUnits (Binary64.value b) e
  let below : Decimal := ⟨r.1 / r.2, e⟩
  let above : Decimal := ⟨r.1 / r.2 + 1, e⟩
  match decide (below.code = b), decide (above.code = b) with
  | false, false => none
  | true, false => some below
  | false, true => some above
  | true, true =>
    match compare (2 * (r.1 % r.2)) r.2 with
    | .lt => some below
    | .gt => some above
    | .eq =>
      match tie with
      | .up => some above
      | .even => some (if below.digits % 2 = 0 then below else above)

/-- The exponents of the grids to try for `m * 2 ^ q`, from one that is not below it down to one
that is fine enough for seventeen digits. The logarithm of two to base ten is just below 0.30103. -/
def gridExponents (m : Nat) (q : Int) : List Int :=
  let top := (((m.log2 : Int) + 1 + q) * 30103).fdiv 100000 + 1
  (List.range 20).map fun (i : Nat) => top - i

/-- The exact decimal for `m * 2 ^ q`. -/
def exact (m : Nat) (q : Int) : Decimal :=
  if 0 ≤ q then ⟨m * Nat.pow 2 q.toNat, 0⟩ else ⟨m * Nat.pow 5 (-q).toNat, q⟩

/-- The decimal with the fewest digits that reads back to the magnitude with code `b`, and of those
the nearest. Were no grid fine enough, it would be the exact value. -/
def shortest (tie : Tie) (b : Nat) : Decimal :=
  if b = 0 then ⟨0, 0⟩
  else
    let p := Binary64.unpack b
    ((gridExponents p.1 p.2).findSome? (onGrid? tie b)).getD (exact p.1 p.2)

example : shortest .even (Binary64.code 0.3) = ⟨3, -1⟩ := by decide +kernel
example : shortest .even 1 = ⟨5, -324⟩ := by decide +kernel
example : shortest .even (Binary64.code 1e23) = ⟨1, 23⟩ := by decide +kernel
example : shortest .even (Binary64.infinity - 1) = ⟨17976931348623157, 292⟩ := by decide +kernel

end Decimal

end TernaryBelief
