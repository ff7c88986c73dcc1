import TernaryBelief.Proofs.Refusal
import TernaryBelief.Proofs.ShortNumerals
import TernaryBelief.Proofs.WrittenDigits

/-!
# Numbers read back by the quick reading

The quick reading may take a neighbour for the number that was written, but it always takes a finite
number, and for a number between zero and one again such a number
(`Layout.exists_toFloat?_numeral`). No digit of the numeral is lost, so digits are multiplied or
divided by a power of ten. A quotient does not overflow; and where a number is below one, its digits
are fewer than its power of ten, which rounding does not change. A product could overflow only near
the largest numbers: two roundings make a value larger by two units of 53 bits at most, and the
three numbers that are nearer to the largest one are read one by one.
-/

namespace TernaryBelief

open Binary64 (infinity nearest bits value one sign code ofCode)

/-! ## Numerals that fit -/

namespace Layout

/-- The numeral that a document has for a number fits. -/
theorem fits_numeral {x : Float} (hx : x.isFinite = true) : (scientific.numeral x).Fits := by
  have hlt := Binary64.isFinite_iff.mp hx
  obtain ⟨hdigits, hexponent⟩ := Decimal.shortest_fits scientific.tie hlt
  rw [numeral]
  generalize Decimal.shortest scientific.tie (code x) = d at *
  have hcount : (Nat.toDigits 10 d.digits).length ≤ 20 :=
    (Nat.length_toDigits_le_iff (by decide) (by decide)).mpr (hdigits.trans (by decide))
  have hpos : 0 < (Nat.toDigits 10 d.digits).length := Nat.length_toDigits_pos
  simp only [set]
  split
  · next hpositional =>
    split
    · next he =>
      -- there are at most sixteen digits before the point, and one zero after it
      have hpoint : (Nat.toDigits 10 d.digits).length + d.exponent.toNat ≤ 16 := by
        simp only [scientific, Bool.and_eq_true, decide_eq_true_eq] at hpositional
        omega
      have hbound : d.digits < 10 ^ (Nat.toDigits 10 d.digits).length :=
        (Nat.length_toDigits_le_iff (by decide) hpos).mp le_rfl
      refine ⟨?_, Nat.two_pow_pos 31, (by decide : 1 < Nat.pow 2 31)⟩
      calc
        d.digits * 10 ^ (d.exponent.toNat + 1)
            < 10 ^ (Nat.toDigits 10 d.digits).length * 10 ^ (d.exponent.toNat + 1) :=
          Nat.mul_lt_mul_of_pos_right hbound (Nat.pow_pos (by decide))
        _ = 10 ^ ((Nat.toDigits 10 d.digits).length + d.exponent.toNat + 1) := by
          rw [← Nat.pow_add, Nat.add_assoc]
        _ ≤ 10 ^ 17 := Nat.pow_le_pow_right (by decide) (by omega)
        _ < 2 ^ 64 := by decide
    · refine ⟨hdigits, Nat.two_pow_pos 31, ?_⟩
      simp only [Numeral.scale, Option.getD_none, Nat.pow_eq]
      omega
  · refine ⟨hdigits, ?_, ?_⟩
    · simp only [Option.getD_some, Nat.pow_eq]
      omega
    · simp only [Numeral.scale, Option.getD_some, Nat.pow_eq]
      omega

end Layout

/-! ## Scaling -/

namespace Binary64

variable {x y : Float}

/-- A number divided by one that is not smaller comes to one at most. -/
theorem bits_div_le_one (hy : bits y < infinity) (hpos : 0 < bits y) (h : bits x ≤ bits y) :
    bits (x / y) ≤ one := by
  rw [bits_div (h.trans_lt hy) hy hpos]
  have hle : value (bits x) / value (bits y) ≤ value one := by
    rw [value_one]
    exact (div_le_one (value_pos hpos)).mpr (value_mono h)
  have hquot := nearest_mono (div_nonneg (value_nonneg _) (value_nonneg _)) hle
  rw [nearest_value] at hquot
  exact (Nat.min_le_left _ _).trans hquot

/-- Two factors that are rounded have a finite product, unless the exact one is among the three
largest numbers. -/
theorem nearest_mul_nearest_lt {u v : Rat} (hu : 1 ≤ u) (hv : 1 ≤ v)
    (h : u * v < value (infinity - 3)) :
    nearest (value (nearest u) * value (nearest v)) < infinity := by
  have hlimit : value (infinity - 3) * (1 + 2 ^ (-53 : Int)) * (1 + 2 ^ (-53 : Int)) ≤
      value (infinity - 1) := by decide +kernel
  have hnormal : value (Nat.pow 2 52) ≤ 1 := by decide +kernel
  have hu' := zero_le_one.trans hu
  have hproduct : value (nearest u) * value (nearest v) ≤ value (infinity - 1) := by
    calc
      value (nearest u) * value (nearest v)
          ≤ u * (1 + 2 ^ (-53 : Int)) * (v * (1 + 2 ^ (-53 : Int))) :=
        mul_le_mul (value_nearest_le (hnormal.trans hu)) (value_nearest_le (hnormal.trans hv))
          (value_nonneg _) (by positivity)
      _ = u * v * (1 + 2 ^ (-53 : Int)) * (1 + 2 ^ (-53 : Int)) := by ring
      _ ≤ value (infinity - 3) * (1 + 2 ^ (-53 : Int)) * (1 + 2 ^ (-53 : Int)) := by gcongr
      _ ≤ value (infinity - 1) := hlimit
  have hle := nearest_mono (mul_nonneg (value_nonneg _) (value_nonneg _)) hproduct
  rw [nearest_value] at hle
  exact hle.trans_lt (by decide)

end Binary64

namespace Numeral

variable {x : Float} {e : Int} {s k : Nat}

/-- A number of digits is at most a power of ten, also after rounding. -/
theorem bits_ofNat_le_bits_tenTo (hk : k ≤ 308) (h : s ≤ 10 ^ k) :
    bits (Float.ofNat s) ≤ bits (tenTo k) := by
  rw [Binary64.bits_ofNat, bits_tenTo hk]
  refine (Nat.min_le_left _ _).trans (Binary64.nearest_mono (Nat.cast_nonneg s) ?_)
  exact_mod_cast h

theorem bits_eq_zero_of_beq (hx : bits x < infinity) (h : (x == 0.0) = true) : bits x = 0 := by
  have hmodel : x.toModel.unpack.beq (.zero .positive) = true := h
  rw [Binary64.unpack_of_bits hx, Binary64.parts] at hmodel
  split at hmodel
  · next hzero => exact hzero
  · cases hmodel

/-- A division by powers of ten always succeeds, and it does not make a number larger. It comes to
one at most if the power of ten is not smaller than the number, even where only 308 powers are
counted. -/
theorem exists_scaled?_of_neg (hx : bits x < infinity) (he : e < 0) :
    ∃ y, scaled? x e = some y ∧ bits y ≤ bits x ∧
      (bits x ≤ bits (tenTo (min e.natAbs 308)) → bits y ≤ one) := by
  -- the induction follows the divisions; the other branches are for larger exponents
  induction x, e using scaled?.induct with
  | case1 x e hsmall hnonneg => omega
  | case2 x e hsmall hnonneg => omega
  | case3 x e hsmall hneg =>
    have hpower := bits_tenTo_lt hsmall
    have hone := one_le_bits_tenTo hsmall
    rw [scaled?, if_pos hsmall, if_neg hneg, Nat.min_eq_left hsmall]
    exact ⟨_, rfl, Binary64.bits_div_le hx hpower hone,
      Binary64.bits_div_le_one hpower (Nat.lt_of_lt_of_le (by decide) hone)⟩
  | case4 x e hlarge hzero =>
    rw [scaled?, if_neg hlarge, if_pos hzero]
    refine ⟨x, rfl, le_rfl, fun _ => ?_⟩
    rw [bits_eq_zero_of_beq hx hzero]
    exact Nat.zero_le _
  | case5 x e hlarge hzero hnonneg => omega
  | case6 x e hlarge hzero hneg ih =>
    have hpower := bits_tenTo_lt (le_refl 308)
    have hone := one_le_bits_tenTo (le_refl 308)
    have hle := Binary64.bits_div_le hx hpower hone
    obtain ⟨y, hy, hyx, -⟩ := ih (hle.trans_lt hx) (by omega)
    rw [scaled?, if_neg hlarge, if_neg hzero, if_neg hneg, Nat.min_eq_right (by omega)]
    exact ⟨y, hy, hyx.trans hle, fun h =>
      hyx.trans (Binary64.bits_div_le_one hpower (Nat.lt_of_lt_of_le (by decide) hone) h)⟩

/-- A product with a power of ten that is not among the three largest numbers does not overflow. -/
theorem exists_scaled?_of_nonneg (hs : 0 < s) (he : 0 ≤ e)
    (h : Decimal.value ⟨s, e⟩ < value (infinity - 3)) :
    ∃ y, scaled? (Float.ofNat s) e = some y ∧ bits y < infinity := by
  obtain ⟨k, rfl⟩ := Int.eq_ofNat_of_zero_le he
  rw [Decimal.value_eq, zpow_natCast] at h
  have hs' : (1 : Rat) ≤ s := by exact_mod_cast hs
  have hpower : (1 : Rat) ≤ 10 ^ k := one_le_pow₀ (by norm_num)
  have hk : k ≤ 308 := by
    have hbound : value (infinity - 3) ≤ 10 ^ 309 := by decide +kernel
    have hlt : (10 : Rat) ^ k < 10 ^ 309 :=
      (le_mul_of_one_le_left (zero_le_one.trans hpower) hs').trans_lt (h.trans_le hbound)
    exact Nat.lt_succ_iff.mp ((pow_lt_pow_iff_right₀ (by norm_num)).mp hlt)
  have hdigits : nearest s ≤ infinity - 3 := by
    have hle := Binary64.nearest_mono (Nat.cast_nonneg s)
      ((le_mul_of_one_le_right (Nat.cast_nonneg s) hpower).trans h.le)
    rwa [Binary64.nearest_value] at hle
  have hbits : bits (Float.ofNat s) = nearest s := by
    rw [Binary64.bits_ofNat]
    omega
  have hfinite : bits (Float.ofNat s * tenTo k) < infinity := by
    have hproduct := Binary64.nearest_mul_nearest_lt hs' hpower h
    rw [Binary64.bits_mul (by omega) (bits_tenTo_lt hk), hbits, bits_tenTo hk]
    omega
  exact ⟨_, scaled?_of_product hk he hfinite, hfinite⟩

theorem bits_ofNat_lt (hs : s < Nat.pow 2 64) : bits (Float.ofNat s) < infinity := by
  have hlimit : nearest ((2 ^ 64 : Nat) : Rat) < infinity := by decide +kernel
  have hle : nearest s ≤ nearest ((2 ^ 64 : Nat) : Rat) :=
    Binary64.nearest_mono (Nat.cast_nonneg s) (by exact_mod_cast hs.le)
  rw [Binary64.bits_ofNat]
  omega

/-- What is below one has fewer digits than its power of ten, of which 308 are enough. -/
theorem le_ten_pow_of_value_lt_one (hs : s < Nat.pow 2 64) (he : e < 0)
    (h : Decimal.value ⟨s, e⟩ < 1) : s ≤ 10 ^ min e.natAbs 308 := by
  rcases Nat.le_total e.natAbs 308 with hsmall | hlarge
  · obtain ⟨k, rfl⟩ := Int.exists_eq_neg_ofNat he.le
    rw [Decimal.value_eq, zpow_neg, zpow_natCast, ← div_eq_mul_inv, div_lt_one (by positivity)] at h
    rw [Int.natAbs_neg, Int.natAbs_natCast] at hsmall ⊢
    rw [Nat.min_eq_left hsmall]
    exact_mod_cast h.le
  · rw [Nat.min_eq_right hlarge]
    exact hs.le.trans (by decide +kernel)

/-- Digits and a power of ten come to a finite number, and to one at most if they do so exactly. -/
theorem exists_scaled?_ofNat (hpos : 0 < s) (hs : s < Nat.pow 2 64)
    (h : Decimal.value ⟨s, e⟩ < value (infinity - 3)) :
    ∃ y, scaled? (Float.ofNat s) e = some y ∧ bits y < infinity ∧
      (Decimal.value ⟨s, e⟩ < 1 → bits y ≤ one) := by
  rcases lt_or_ge e 0 with he | he
  · obtain ⟨y, hy, hle, hone⟩ := exists_scaled?_of_neg (bits_ofNat_lt hs) he
    exact ⟨y, hy, hle.trans_lt (bits_ofNat_lt hs), fun hlt => hone
      (bits_ofNat_le_bits_tenTo (Nat.min_le_right _ _) (le_ten_pow_of_value_lt_one hs he hlt))⟩
  · obtain ⟨y, hy, hfinite⟩ := exists_scaled?_of_nonneg hpos he h
    -- a whole number is not below one
    have hwhole : (1 : Rat) ≤ Decimal.value ⟨s, e⟩ := by
      rw [Decimal.value_eq]
      exact one_le_mul_of_one_le_of_one_le (by exact_mod_cast hpos)
        (one_le_zpow₀ (by norm_num) he)
    exact ⟨y, hy, hfinite, fun hlt => absurd hlt (not_lt.mpr hwhole)⟩

end Numeral

/-! ## Numbers between zero and one -/

theorem inUnit_ofCode {c : Nat} (hc : c < infinity) :
    inUnit (ofCode false c) = true ↔ c ≤ one := by
  have hzero : bits 0.0 < infinity := by decide +kernel
  have hone : bits 1.0 = one := by decide +kernel
  have hbits := Binary64.bits_ofCode hc
  rw [inUnit_eq_true_iff, Binary64.le_iff_bits hzero (by rwa [hbits]),
    Binary64.le_iff_bits (by rwa [hbits]) (by rw [hone]; decide), Binary64.bits_zero, hone, hbits]
  exact and_iff_right (Nat.zero_le c)

theorem inUnit_ofCode_true {c : Nat} (hpos : 0 < c) (hc : c < infinity) :
    inUnit (ofCode true c) = false := by
  have hzero : (0.0 : Float).toModel.unpack = .zero .positive := rfl
  rw [inUnit, Bool.and_eq_false_iff, decide_eq_false_iff_not, float_le_iff,
    Binary64.unpack_ofCode true hc, hzero, Binary64.parts, dif_neg hpos.ne']
  exact .inl Bool.false_ne_true

/-! ## Reading back -/

namespace Layout

variable {x : Float}

theorem value_numeral_lt {c : Nat} (hx : x.isFinite = true) (h : code x < c) :
    Decimal.value ⟨(scientific.numeral x).significand, (scientific.numeral x).scale⟩ < value c := by
  by_contra hge
  have hle := Binary64.nearest_mono (Binary64.value_nonneg c) (not_lt.mp hge)
  rw [Binary64.nearest_value, nearest_value_numeral scientific hx] at hle
  omega

/-- The sign does not matter for the magnitude that is read. -/
theorem magnitude?_set (negative : Bool) (d : Decimal) :
    (scientific.set negative d).magnitude? = (scientific.set false d).magnitude? := by
  simp only [set]
  split
  · split <;> rfl
  · rfl

/-- The three largest numbers are read as finite numbers. -/
theorem exists_magnitude?_of_ge (hx : x.isFinite = true) (hge : infinity - 3 ≤ code x) :
    ∃ y, (scientific.numeral x).magnitude? = some y ∧ bits y < infinity := by
  have hlt := Binary64.isFinite_iff.mp hx
  have hlargest : ∀ i : Fin 3, ((scientific.set false (Decimal.shortest .even
      (infinity - 3 + i))).magnitude?).any (fun y => decide (bits y < infinity)) = true := by
    decide +kernel
  have hread := hlargest ⟨code x - (infinity - 3), by omega⟩
  rw [Nat.add_sub_cancel' hge, ← magnitude?_set (sign x), Option.any_eq_true] at hread
  obtain ⟨y, hy, hfinite⟩ := hread
  exact ⟨y, hy, of_decide_eq_true hfinite⟩

/-- A number that is not zero is read as a finite number, and as one at most if it is below one. -/
theorem exists_magnitude? (hx : x.isFinite = true) (hpos : 0 < code x) :
    ∃ y, (scientific.numeral x).magnitude? = some y ∧ bits y < infinity ∧
      (code x < one → bits y ≤ one) := by
  rcases Nat.lt_or_ge (code x) (infinity - 3) with hlt | hge
  · have hfits := fits_numeral hx
    have hsignificand : 0 < (scientific.numeral x).significand := by
      refine Nat.pos_of_ne_zero fun hzero => ?_
      have hnearest := nearest_value_numeral scientific hx
      rw [hzero, Decimal.value_eq, Nat.cast_zero, zero_mul, Binary64.nearest_zero] at hnearest
      omega
    obtain ⟨y, hy, hfinite, hunit⟩ :=
      Numeral.exists_scaled?_ofNat hsignificand hfits.significand (value_numeral_lt hx hlt)
    rw [hfits.magnitude?_eq]
    exact ⟨y, hy, hfinite, fun h => hunit (Binary64.value_one ▸ value_numeral_lt hx h)⟩
  · obtain ⟨y, hy, hfinite⟩ := exists_magnitude?_of_ge hx hge
    have hbound : one < infinity - 3 := by decide
    exact ⟨y, hy, hfinite, fun h => by omega⟩

/-- **A finite number is read back as a finite number**, which need not be the same one, and a
number between zero and one as such a number. -/
theorem exists_toFloat?_numeral (hx : x.isFinite = true) :
    ∃ y, (scientific.numeral x).toFloat? = some y ∧ y.isFinite = true ∧
      (inUnit x = true → inUnit y = true) := by
  have hlt := Binary64.isFinite_iff.mp hx
  have hshort : ∀ negative, ∀ c ∈ [0, one],
      (scientific.numeral (ofCode negative c)).significand ≤ 2 ^ 53 ∧
        (scientific.numeral (ofCode negative c)).scale.natAbs ≤ 22 := by decide +kernel
  have hcode := Binary64.ofCode_code hx
  -- zero and one are read exactly, and all other numbers are on one side of them
  by_cases hmem : code x ∈ [0, one]
  · obtain ⟨hsignificand, hscale⟩ := hshort (sign x) (code x) hmem
    rw [hcode] at hsignificand hscale
    exact ⟨x, toFloat?_numeral hx ⟨hsignificand, hscale⟩, hx, id⟩
  simp only [List.mem_cons, List.not_mem_nil, or_false, not_or] at hmem
  have hpos := Nat.pos_of_ne_zero hmem.1
  obtain ⟨y, hy, hfinite, hunit⟩ := exists_magnitude? hx hpos
  have hnegative : (scientific.numeral x).negative = sign x := negative_set _ _ _
  have hself : y = ofCode false (bits y) := Binary64.eq_ofCode_of_bits hfinite rfl
  rw [Numeral.toFloat?, hy, Option.map_some, hnegative]
  refine ⟨_, rfl, ?_⟩
  cases hsign : sign x with
  | true =>
    rw [hsign] at hcode
    rw [if_pos rfl, hself, Binary64.neg_ofCode hfinite, ← hcode, inUnit_ofCode_true hpos hlt]
    exact ⟨Binary64.isFinite_ofCode true hfinite, fun h => absurd h Bool.false_ne_true⟩
  | false =>
    rw [hsign] at hcode
    rw [if_neg Bool.false_ne_true, hself, ← hcode, inUnit_ofCode hlt, inUnit_ofCode hfinite]
    exact ⟨Binary64.isFinite_ofCode false hfinite, fun h => hunit (by omega)⟩

end Layout

end TernaryBelief
