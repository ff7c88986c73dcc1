/-!
# Binary64 numbers as exact values

A finite binary64 number is a sign and a magnitude. The magnitude is coded by the lower 63 bits of
the number, and the codes are ordered as the magnitudes are: code `b` is followed by `b + 1`, up to
the code of infinity. This file gives each code its exact value, and finds the code that is nearest
to a fraction, by arithmetic on natural numbers.

## Main definitions

* `Binary64.unpack`, `Binary64.pack`: a code and its mantissa and exponent;
* `Binary64.value`: the exact value of a code;
* `Binary64.nearest`: the code nearest to a fraction, a tie going to the even code;
* `Binary64.sign`, `Binary64.code`, `Binary64.ofCode`: a `Float` and its two parts.

`Binary64.pack_unpack` says that decoding loses nothing.
-/

namespace TernaryBelief.Binary64

/-! ## Codes -/

/-- The code of infinity. The codes below it are those of the finite magnitudes. -/
def infinity : Nat := 2047 * Nat.pow 2 52

/-- The mantissa `m` and the exponent `q` of a finite code: it stands for `m * 2 ^ q`. -/
def unpack (b : Nat) : Nat × Int :=
  if b < Nat.pow 2 52 then (b, -1074)
  else (b % Nat.pow 2 52 + Nat.pow 2 52, (b / Nat.pow 2 52 : Nat) - 1075)

/-- The code of `m * 2 ^ q`, for a mantissa of 53 bits, or of fewer if the exponent is the least
one. A mantissa that rounding has carried to `2 ^ 53` gives the code of the next power of two. -/
def pack (m : Nat) (q : Int) : Nat := (q + 1074).toNat * Nat.pow 2 52 + m

/-- Decoding loses nothing. -/
theorem pack_unpack (b : Nat) : pack (unpack b).1 (unpack b).2 = b := by
  simp only [unpack, pack, Nat.pow_eq]
  split
  · simp only [Int.reduceAdd, Int.toNat_zero, Nat.zero_mul, Nat.zero_add]
  · have := Nat.div_add_mod b (2 ^ 52)
    simp only
    omega

theorem unpack_of_lt {b : Nat} (hb : b < Nat.pow 2 52) : unpack b = (b, -1074) := if_pos hb

theorem unpack_of_le {b : Nat} (hb : Nat.pow 2 52 ≤ b) :
    unpack b = (b % Nat.pow 2 52 + Nat.pow 2 52, ((b / Nat.pow 2 52 : Nat) : Int) - 1075) :=
  if_neg (Nat.not_lt.mpr hb)

theorem unpack_mantissa_pos {b : Nat} (hb : b ≠ 0) : 0 < (unpack b).1 := by
  unfold unpack
  split
  · exact Nat.pos_of_ne_zero hb
  · exact Nat.add_pos_right _ (Nat.pow_pos (by decide))

/-- A mantissa has 53 bits, or fewer if the exponent is the least one. -/
theorem unpack_bounds (b : Nat) :
    (unpack b).1 < Nat.pow 2 53 ∧ -1074 ≤ (unpack b).2 ∧
      (-1074 < (unpack b).2 → Nat.pow 2 52 ≤ (unpack b).1) := by
  unfold unpack
  split <;> simp only [Nat.pow_eq] at * <;> omega

/-- The exact value `m * 2 ^ q`. -/
def scaled (m : Nat) (q : Int) : Rat :=
  mkRat (m * Nat.pow 2 q.toNat : Nat) (Nat.pow 2 (-q).toNat)

/-- The exact value of a finite code. -/
def value (b : Nat) : Rat := scaled (unpack b).1 (unpack b).2

/-! ## Rounding -/

/-- The quotient rounded to the nearest natural number, a half going to the even neighbour. -/
def roundHalfEven (num den : Nat) : Nat :=
  let q := num / den
  let r := num % den
  if 2 * r < den ∨ (2 * r = den ∧ q % 2 = 0) then q else q + 1

/-- The value measured in units of `2 ^ q`, as a numerator and a denominator. -/
def inUnits (v : Rat) (q : Int) : Nat × Nat :=
  (v.num.toNat * Nat.pow 2 (-q).toNat, v.den * Nat.pow 2 q.toNat)

/-- The least exponent, not below that of the smallest numbers, for which the value has at most 53
bits before the point. -/
def gridExponent (v : Rat) : Int :=
  let q : Int := max (-1074) ((v.num.toNat.log2 : Int) - v.den.log2 - 53)
  let r := inUnits v q
  if r.1 / r.2 < Nat.pow 2 53 then q else q + 1

/-- The code nearest to a value that is not negative. Values beyond the largest finite number, after
rounding, get the code of infinity or a greater number. -/
def nearest (v : Rat) : Nat :=
  if v.num = 0 then 0
  else
    let q := gridExponent v
    let r := inUnits v q
    pack (roundHalfEven r.1 r.2) q

/-! ## Parts of a number -/

/-- The sign bit: set for the negative numbers and negative zero. -/
def sign (x : Float) : Bool := decide (Nat.pow 2 63 ≤ x.toBits.toNat)

/-- The code of the magnitude. -/
def code (x : Float) : Nat := x.toBits.toNat % Nat.pow 2 63

/-- The number with a given sign and a given code of its magnitude. -/
def ofCode (negative : Bool) (b : Nat) : Float :=
  Float.ofBits (UInt64.ofNat ((if negative then Nat.pow 2 63 else 0) + b))

end TernaryBelief.Binary64
