import TernaryBelief.Decimal.Numeral
import TernaryBelief.Decimal.Shortest

/-!
# Numerals as numbers

There are two ways to read a numeral. The exact one takes the number that is nearest to its value.
The one that runs is quicker: the digits go into a significand of 64 bits for as long as they fit,
the significand is rounded to a number, and this is multiplied or divided by a power of ten, which
is itself a rounded number. Every step rounds, so the outcome may be a neighbour of the nearest
number: 0.9999999999999999 is a number of its own, and it is read as one.

## Main definitions

* `Numeral.nearest?`: the exact reading;
* `Numeral.fill`, `Numeral.kept`: the digits that fit into a significand;
* `Numeral.scaled?`: a number times a power of ten;
* `Numeral.toFloat?`, `Numeral.toInt?`: the numbers that a numeral is read as.
-/

namespace TernaryBelief.Numeral

/-! ## Exact reading -/

/-- The number nearest to the numeral, unless that is infinite. The sign is kept also for zero. -/
def nearest? (n : Numeral) : Option Float :=
  let code := Decimal.code ⟨n.significand, n.scale⟩
  if code < Binary64.infinity then some (Binary64.ofCode n.negative code) else none

/-- The integer that the numeral stands for, if it has neither a point nor an exponent. A zero
with a minus sign is no integer. -/
def toInt? (n : Numeral) : Option Int :=
  if n.isWhole then
    if !n.negative then some n.significand
    else if n.significand = 0 then none
    else some (-n.significand)
  else none

@[simp] theorem toInt?_ofInt (k : Int) : (ofInt k).toInt? = some k := by
  cases k with
  | ofNat n =>
    have nonneg : ¬ Int.ofNat n < 0 := Int.not_lt.mpr (Int.natCast_nonneg n)
    simp only [toInt?, ofInt, nonneg, decide_false]
    rfl
  | negSucc n =>
    have neg : Int.negSucc n < 0 := Int.negSucc_lt_zero n
    simp only [toInt?, ofInt, neg, decide_true]
    rfl

/-! ## Digits that fit -/

/-- Digits are put at the end of a significand up to the first that does not fit into 64 bits. That
one and all after it are left. -/
def fill (significand : Nat) : List Char → Nat × List Char
  | [] => (significand, [])
  | c :: cs =>
    let next := 10 * significand + (c.toNat - '0'.toNat)
    if next < Nat.pow 2 64 then fill next cs else (significand, c :: cs)

/-- The digits that are kept, as a significand and a power of ten. A digit before the point that is
left counts for the power; one after the point is lost. -/
def kept (n : Numeral) : Nat × Int :=
  let before := fill 0 (whole n.significand n.places)
  let after := fill before.1 (fraction n.significand n.places)
  (after.1, (before.2.length : Int) - ((n.places : Int) - after.2.length))

/-! ## Powers of ten -/

/-- The number nearest to a power of ten. It is finite up to an exponent of 308. -/
def tenTo (k : Nat) : Float := Binary64.ofCode false (Decimal.code ⟨1, k⟩)

/-- The number times a power of ten, unless that is infinite. Where the exponent is too low for one
division, it is made up for in steps, until nothing is left of the number. -/
def scaled? (x : Float) (e : Int) : Option Float :=
  if e.natAbs ≤ 308 then
    if 0 ≤ e then
      let y := x * tenTo e.natAbs
      if y.isInf then none else some y
    else some (x / tenTo e.natAbs)
  else if x == 0.0 then some x
  else if 0 ≤ e then none
  else scaled? (x / tenTo 308) (e + 308)
termination_by e.natAbs
decreasing_by omega

/-! ## Reading -/

/-- An exponent as it is kept in 32 bits: the nearest one that fits. -/
def saturated (e : Int) : Int := max (-Nat.pow 2 31) (min e (Nat.pow 2 31 - 1))

/-- The number that the digits and the exponent are read as. A written exponent that does not fit
into 32 bits decides alone, unless all digits are zeros. -/
def magnitude? (n : Numeral) : Option Float :=
  let (significand, scale) := n.kept
  let e := n.exponent.getD 0
  if e.natAbs < Nat.pow 2 31 then scaled? (Float.ofNat significand) (saturated (scale + e))
  else if significand ≠ 0 ∧ 0 < e then none
  else some 0.0

/-- The number that the numeral is read as, unless it is too large.
The sign is kept also for zero. -/
def toFloat? (n : Numeral) : Option Float :=
  n.magnitude?.map fun x => if n.negative then -x else x

example : toFloat? ⟨false, 9999999999999999, 16, none⟩ = some 1.0 := by decide +kernel
example : nearest? ⟨false, 9999999999999999, 16, none⟩ = some 0.9999999999999999 := by
  decide +kernel
example : toFloat? ⟨true, 35, 1, some (-Nat.pow 2 31 + 1)⟩ = some (-0.0) := by decide +kernel
example : toFloat? ⟨false, 1, 0, some 309⟩ = none := by decide +kernel

end TernaryBelief.Numeral
