/-!
# Numerals

A numeral is a decimal number as it is written: a sign, digits, perhaps a point among them, and
perhaps an exponent of ten. Every such text without superfluous leading zeros is one `Numeral`, up
to the way in which its exponent is spelled.

## Main definitions

* `Numeral`, with its text `Numeral.text`;
* `Numeral.whole`, `Numeral.fraction`: its digits before and after the point;
* `Numeral.isWhole`: no point and no exponent;
* `Numeral.scale`: the power of ten that its digits are multiplied by.
-/

namespace TernaryBelief

/-- A written decimal number. -/
structure Numeral where
  /-- It is preceded by a minus sign. -/
  negative : Bool
  /-- The digits, read without the point. -/
  significand : Nat
  /-- How many digits stand after the point; there is no point if it is zero. -/
  places : Nat
  /-- The exponent of ten, if one is written. -/
  exponent : Option Int
deriving DecidableEq, Repr

namespace Numeral

def ofInt (n : Int) : Numeral := ⟨decide (n < 0), n.natAbs, 0, none⟩

/-- The numeral has neither a point nor an exponent. -/
def isWhole (n : Numeral) : Bool := n.places == 0 && n.exponent.isNone

/-- The numeral stands for its significand times ten to this power, with its sign. -/
def scale (n : Numeral) : Int := n.exponent.getD 0 - n.places

/-- The digits of a significand, with so many zeros in front that one
digit stands before the point. -/
def padded (significand places : Nat) : List Char :=
  List.replicate (places + 1 - (Nat.toDigits 10 significand).length) '0' ++
    Nat.toDigits 10 significand

/-- The digits before the point. -/
def whole (significand places : Nat) : List Char :=
  (padded significand places).take ((padded significand places).length - places)

/-- The digits after the point. -/
def fraction (significand places : Nat) : List Char :=
  (padded significand places).drop ((padded significand places).length - places)

/-- The digits with the point in its place. -/
def digits (significand places : Nat) : List Char :=
  if places = 0 then padded significand places
  else whole significand places ++ '.' :: fraction significand places

/-- The exponent with its mark and its sign. -/
def exponentText : Option Int → List Char
  | none => []
  | some (.ofNat n) => 'e' :: '+' :: Nat.toDigits 10 n
  | some (.negSucc n) => 'e' :: '-' :: Nat.toDigits 10 (n + 1)

def text (n : Numeral) : List Char :=
  (if n.negative then ['-'] else []) ++ digits n.significand n.places ++ exponentText n.exponent

example : String.ofList (text ⟨true, 5, 2, none⟩) = "-0.05" := by decide +kernel
example : String.ofList (text ⟨false, 15, 1, some 300⟩) = "1.5e+300" := by decide +kernel
example : String.ofList (text ⟨false, 1, 0, some (-7)⟩) = "1e-7" := by decide +kernel

end Numeral

end TernaryBelief
