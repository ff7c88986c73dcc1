import TernaryBelief.Decimal.Numeral
import TernaryBelief.Decimal.Shortest

/-!
# Layouts of numbers

How the digits of a number are set out: up to which magnitude they are written in full, whether a
whole number ends in a point and a zero, and which of two equally near candidates is taken.

## Main definitions

* `Layout`, with `Layout.numeral`: the numeral that is written for a number;
* `Layout.plain`, `Layout.scientific`: the layouts of messages and of documents.
-/

namespace TernaryBelief

/-- The decisions of a format. -/
structure Layout where
  /-- Which of two equally near candidates is taken. -/
  tie : Tie
  /-- Whether a number `0.d₁d₂… * 10 ^ e` is written without an exponent. -/
  positional : Int → Bool
  /-- How many zeros follow the point of a whole number. -/
  wholePlaces : Nat

namespace Layout

/-- Running text never shows an exponent, and whole numbers have no point. -/
def plain : Layout := ⟨.up, fun _ => true, 0⟩

/-- Documents write numbers from 0.00001 up to sixteen digits before the point in full, a whole
number with one zero after the point, and all others with an exponent. -/
def scientific : Layout := ⟨.even, fun e => -5 < e && e ≤ 16, 1⟩

/-- The numeral of a sign and a decimal. -/
def set (l : Layout) (negative : Bool) (d : Decimal) : Numeral :=
  let count := (Nat.toDigits 10 d.digits).length
  let point := count + d.exponent
  if l.positional point then
    if 0 ≤ d.exponent then
      ⟨negative, d.digits * Nat.pow 10 (d.exponent.toNat + l.wholePlaces), l.wholePlaces, none⟩
    else ⟨negative, d.digits, (-d.exponent).toNat, none⟩
  else ⟨negative, d.digits, count - 1, some (point - 1)⟩

/-- The numeral of a finite number. -/
def numeral (l : Layout) (x : Float) : Numeral :=
  l.set (Binary64.sign x) (Decimal.shortest l.tie (Binary64.code x))

/-- A number within running text. -/
def message (x : Float) : String :=
  if x.isNaN then "NaN"
  else if x.isInf then (if Binary64.sign x then "-inf" else "inf")
  else String.ofList (plain.numeral x).text

example : message (-0.0) = "-0" := by decide +kernel
example : message 1e21 = "1000000000000000000000" := by decide +kernel
example : message 1e-7 = "0.0000001" := by decide +kernel
example : String.ofList (scientific.numeral 1e16).text = "1e+16" := by decide +kernel
example : String.ofList (scientific.numeral 123456.75).text = "123456.75" := by decide +kernel
example : String.ofList (scientific.numeral 0.0).text = "0.0" := by decide +kernel

end Layout

end TernaryBelief
