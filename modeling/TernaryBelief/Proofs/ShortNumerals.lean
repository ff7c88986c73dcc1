import TernaryBelief.Proofs.DecimalReading
import TernaryBelief.Proofs.MachineCounts
import TernaryBelief.Proofs.NumeralText

/-!
# Numerals that are read exactly

The quick reading of a numeral rounds up to three times: its digits, the power of ten, and their
product or quotient. Digits up to `2 ^ 53` and powers of ten up to `10 ^ 22` are numbers of their
own, so for a numeral with no more than these only the last rounding is left, and what it is read as
is the nearest number (`Numeral.Short.toFloat?_eq_nearest?`). In particular a finite number with a
short numeral is read back (`Layout.toFloat?_numeral`).

## Main definitions

* `Numeral.Fits`: the numerals of which no digit is lost;
* `Numeral.Short`: the numerals with few digits and a small power of ten.
-/

namespace TernaryBelief

open Binary64 (infinity nearest bits)

/-! ## Numbers and their bits -/

namespace Binary64

variable {x : Float} {c : Nat}

theorem bits_ofCode (hc : c < infinity) : bits (ofCode false c) = c := by
  rw [bits, ofCode_eq_pack false hc, toNat_toBits_pack false hc, word, if_neg Bool.false_ne_true,
    Nat.zero_add]

theorem eq_ofCode_of_bits (hc : c < infinity) (h : bits x = c) : x = ofCode false c := by
  apply eq_of_toBits_eq
  exact h.trans (bits_ofCode hc).symm

theorem isInf_of_bits (hx : bits x < infinity) : x.isInf = false := by
  show x.toModel.unpack.isInf = false
  rw [unpack_of_bits hx, parts]
  split <;> rfl

/-- To negate a number is to change its sign. -/
theorem neg_ofCode (hc : c < infinity) : -ofCode false c = ofCode true c := by
  have hneg : (ofCode false c).toModel.unpack.neg = parts true c := by
    rw [unpack_ofCode false hc]
    unfold parts
    split <;> rfl
  rw [ofCode_eq_pack true hc, ← hneg]
  rfl

end Binary64

namespace Numeral

/-! ## Digits that all fit -/

theorem le_ofDigitChars (s : Nat) (cs : List Char) : s ≤ Nat.ofDigitChars 10 cs s := by
  induction cs generalizing s with
  | nil => exact Nat.le_refl s
  | cons c cs ih =>
    rw [Nat.ofDigitChars_cons]
    exact (by omega : s ≤ 10 * s + (c.toNat - '0'.toNat)).trans (ih _)

theorem fill_of_lt {s : Nat} {cs : List Char} (h : Nat.ofDigitChars 10 cs s < Nat.pow 2 64) :
    fill s cs = (Nat.ofDigitChars 10 cs s, []) := by
  induction cs generalizing s with
  | nil => rfl
  | cons c cs ih =>
    rw [Nat.ofDigitChars_cons] at h ⊢
    have hfits := (le_ofDigitChars (10 * s + (c.toNat - '0'.toNat)) cs).trans_lt h
    rw [fill, if_pos hfits, ih h]

/-- Of a significand that fits into 64 bits all digits are kept. -/
theorem kept_of_lt {n : Numeral} (h : n.significand < Nat.pow 2 64) :
    n.kept = (n.significand, -(n.places : Int)) := by
  have hall := ofDigitChars_whole_append_fraction n.significand n.places
  rw [Nat.ofDigitChars_append] at hall
  have hafter : fill (Nat.ofDigitChars 10 (whole n.significand n.places) 0)
      (fraction n.significand n.places) = (n.significand, []) := by
    rw [fill_of_lt (by rwa [hall]), hall]
  have hbefore : fill 0 (whole n.significand n.places) =
      (Nat.ofDigitChars 10 (whole n.significand n.places) 0, []) :=
    fill_of_lt ((le_ofDigitChars _ _).trans_lt (by rwa [hall]))
  simp only [kept, hbefore, hafter, List.length_nil, Nat.cast_zero, sub_zero, zero_sub]

/-- The digits fit into 64 bits, and the powers of ten into 32 bits. -/
structure Fits (n : Numeral) : Prop where
  significand : n.significand < Nat.pow 2 64
  exponent : (n.exponent.getD 0).natAbs < Nat.pow 2 31
  scale : n.scale.natAbs < Nat.pow 2 31

/-- A numeral that fits is read as its digits times its power of ten. -/
theorem Fits.magnitude?_eq {n : Numeral} (h : n.Fits) :
    n.magnitude? = scaled? (Float.ofNat n.significand) n.scale := by
  have hsaturated : saturated (-(n.places : Int) + n.exponent.getD 0) = n.scale := by
    have hscale := h.scale
    simp only [saturated, Numeral.scale, Nat.pow_eq] at hscale ⊢
    omega
  simp only [magnitude?, kept_of_lt h.significand]
  rw [if_pos h.exponent, hsaturated]

/-! ## Powers of ten -/

/-- Powers of ten are finite up to an exponent of 308. -/
theorem nearest_ten_lt {k : Nat} (hk : k ≤ 308) : nearest (10 ^ k) < infinity := by
  have hlimit : nearest (10 ^ 308) < infinity := by decide +kernel
  have hle : (10 : Rat) ^ k ≤ 10 ^ 308 := pow_le_pow_right₀ (by norm_num) hk
  exact (Binary64.nearest_mono (pow_nonneg (by norm_num) k) hle).trans_lt hlimit

theorem bits_tenTo {k : Nat} (hk : k ≤ 308) : bits (tenTo k) = nearest (10 ^ k) := by
  have hmin := Decimal.min_code ⟨1, k⟩
  have hvalue : Decimal.value ⟨1, k⟩ = 10 ^ k := by
    rw [Decimal.value_eq, Nat.cast_one, one_mul, zpow_natCast]
  have hlt := nearest_ten_lt hk
  rw [hvalue] at hmin
  have hcode : Decimal.code ⟨1, k⟩ = nearest (10 ^ k) := by omega
  rw [tenTo, hcode, Binary64.bits_ofCode hlt]

theorem bits_tenTo_lt {k : Nat} (hk : k ≤ 308) : bits (tenTo k) < infinity := by
  rw [bits_tenTo hk]
  exact nearest_ten_lt hk

theorem one_le_bits_tenTo {k : Nat} (hk : k ≤ 308) : Binary64.one ≤ bits (tenTo k) := by
  have hle : nearest 1 ≤ nearest (10 ^ k) :=
    Binary64.nearest_mono zero_le_one (one_le_pow₀ (by norm_num))
  rw [bits_tenTo hk]
  rwa [← Binary64.value_one, Binary64.nearest_value] at hle

/-- Up to `10 ^ 22`, powers of ten are numbers of their own. -/
theorem value_bits_tenTo {k : Nat} (hk : k ≤ 22) : Binary64.value (bits (tenTo k)) = 10 ^ k := by
  have hall : ∀ k : Fin 23, Binary64.value (nearest (10 ^ (k : Nat))) = 10 ^ (k : Nat) := by
    decide +kernel
  rw [bits_tenTo (by omega)]
  exact hall ⟨k, Nat.lt_succ_of_le hk⟩

/-! ## Digits times powers of ten -/

/-- A decimal of a few digits at a small power of ten is far below infinity. -/
theorem code_lt {s : Nat} {e : Int} (hs : s ≤ 2 ^ 53) (he : e ≤ 22) :
    Decimal.code ⟨s, e⟩ < infinity := by
  have hlimit : nearest (2 ^ 53 * 10 ^ (22 : Int)) < infinity := by decide +kernel
  have hvalue : Decimal.value ⟨s, e⟩ ≤ 2 ^ 53 * 10 ^ (22 : Int) := by
    rw [Decimal.value_eq]
    exact mul_le_mul (by exact_mod_cast hs) (zpow_le_zpow_right₀ (by norm_num) he)
      (Decimal.ten_zpow_pos e).le (by norm_num)
  have hnearest := Binary64.nearest_mono (Decimal.value_nonneg _) hvalue
  have hmin := Decimal.min_code ⟨s, e⟩
  omega

/-- A product that does not overflow is taken as it is. -/
theorem scaled?_of_product {x : Float} {e : Int} (hsmall : e.natAbs ≤ 308) (he : 0 ≤ e)
    (h : bits (x * tenTo e.natAbs) < infinity) : scaled? x e = some (x * tenTo e.natAbs) := by
  rw [scaled?, if_pos hsmall, if_pos he]
  simp only [Binary64.isInf_of_bits h, Bool.false_eq_true, if_false]

/-- Digits and a power of ten that are numbers of their own are rounded once. -/
theorem scaled?_ofNat {s : Nat} {e : Int} (hs : s ≤ 2 ^ 53) (he : e.natAbs ≤ 22) :
    scaled? (Float.ofNat s) e = some (Binary64.ofCode false (Decimal.code ⟨s, e⟩)) := by
  have hcode := code_lt hs (by omega : e ≤ 22)
  have hmin := Decimal.min_code ⟨s, e⟩
  have hsmall : e.natAbs ≤ 308 := by omega
  have hpower := value_bits_tenTo he
  have hdigits : Binary64.value (bits (Float.ofNat s)) = s := by
    rw [Binary64.bits_ofNat_of_small hs, Binary64.value_nearest_natCast hs]
  have hfinite : bits (Float.ofNat s) < infinity := by
    rw [Binary64.bits_ofNat_of_small hs]
    exact (Binary64.nearest_natCast_le hs).trans_lt (by decide)
  rcases le_or_gt 0 e with hnonneg | hneg
  · have hexact : Decimal.value ⟨s, e⟩ = s * 10 ^ e.natAbs := by
      rw [Decimal.value_eq, ← zpow_natCast, Int.natAbs_of_nonneg hnonneg]
    have hproduct : bits (Float.ofNat s * tenTo e.natAbs) = Decimal.code ⟨s, e⟩ := by
      rw [Binary64.bits_mul hfinite (bits_tenTo_lt hsmall), hdigits, hpower, ← hexact]
      omega
    rw [scaled?_of_product hsmall hnonneg (by rwa [hproduct]),
      Binary64.eq_ofCode_of_bits hcode hproduct]
  · have hexact : Decimal.value ⟨s, e⟩ = s / 10 ^ e.natAbs := by
      rw [Decimal.value_eq, ← zpow_natCast, Int.ofNat_natAbs_of_nonpos hneg.le, zpow_neg,
        div_inv_eq_mul]
    have hpos : 0 < bits (tenTo e.natAbs) :=
      Nat.lt_of_lt_of_le (by decide) (one_le_bits_tenTo hsmall)
    have hquotient : bits (Float.ofNat s / tenTo e.natAbs) = Decimal.code ⟨s, e⟩ := by
      rw [Binary64.bits_div hfinite (bits_tenTo_lt hsmall) hpos, hdigits, hpower, ← hexact]
      omega
    rw [scaled?, if_pos hsmall, if_neg (not_le.mpr hneg),
      Binary64.eq_ofCode_of_bits hcode hquotient]

/-! ## Short numerals -/

/-- The digits are a number of their own, and so is the power of ten. -/
structure Short (n : Numeral) : Prop where
  significand : n.significand ≤ 2 ^ 53
  scale : n.scale.natAbs ≤ 22

variable {n : Numeral}

theorem Short.fits (h : n.Short) (he : (n.exponent.getD 0).natAbs < Nat.pow 2 31) : n.Fits where
  significand := h.significand.trans_lt (by decide)
  exponent := he
  scale := h.scale.trans_lt (by decide)

/-- **A short numeral is read as the nearest number.** -/
theorem Short.toFloat?_eq_nearest? (h : n.Short) (he : (n.exponent.getD 0).natAbs < Nat.pow 2 31) :
    n.toFloat? = n.nearest? := by
  have hscale := h.scale
  have hcode := code_lt h.significand (by omega : n.scale ≤ 22)
  rw [toFloat?, (h.fits he).magnitude?_eq, scaled?_ofNat h.significand h.scale, Option.map_some,
    nearest?, if_pos hcode]
  split
  · next hnegative => rw [hnegative, Binary64.neg_ofCode hcode]
  · next hpositive => rw [Bool.eq_false_iff.mpr hpositive]

end Numeral

namespace Layout

/-- The exponent of a numeral that is written is small if the numeral is short. -/
theorem natAbs_exponent_lt {l : Layout} {x : Float} (h : (l.numeral x).Short) :
    ((l.numeral x).exponent.getD 0).natAbs < Nat.pow 2 31 := by
  obtain ⟨hsignificand, hscale⟩ := h
  revert hsignificand hscale
  simp only [numeral, set]
  split
  · split <;> exact fun _ _ => Nat.two_pow_pos 31
  · intro hsignificand hscale
    have hcount : (Nat.toDigits 10 (Decimal.shortest l.tie (Binary64.code x)).digits).length ≤ 16 :=
      (Nat.length_toDigits_le_iff (by decide) (by decide)).mpr
        (hsignificand.trans_lt (by decide))
    simp only [Numeral.scale, Option.getD_some, Nat.pow_eq] at hscale ⊢
    omega

/-- **A finite number with a short numeral is read back.** -/
theorem toFloat?_numeral {l : Layout} {x : Float} (hx : x.isFinite = true)
    (h : (l.numeral x).Short) : (l.numeral x).toFloat? = some x := by
  rw [h.toFloat?_eq_nearest? (natAbs_exponent_lt h), nearest?_numeral l hx]

end Layout

end TernaryBelief
