import TernaryBelief.Proofs.MachineNumbers
import TernaryBelief.Proofs.Rounding

/-!
# Machine arithmetic rounds exact results

The machine forms a sum or a quotient from shifted mantissas, keeps two more bits of what it shifts
out, and rounds by these. What comes out is the number nearest to the exact result
(`Binary64.toNat_pack_round`). So sums, products and quotients of numbers that are not negative, and
counts, have the codes that exact arithmetic says (`Binary64.bits_add`, `Binary64.bits_mul`,
`Binary64.bits_div`, `Binary64.bits_ofNat`), and numbers follow the order of their codes
(`Binary64.le_of_bits`).
-/

namespace TernaryBelief.Binary64

open Float.Model (UnpackedFloat Format totalExponent)
open Float.Model.UnpackedFloat (Sign ExtendedMantissa Accuracy accuracyOfFraction roundWithAccuracy
  shiftToTargetExponent shiftToExponent decreaseExponent)

/-! ## Extended mantissas -/

/-- The whole part of a quotient, and two bits that say how the rest compares with one half. -/
def quotient (num den : Nat) : ExtendedMantissa :=
  .ofMantissaAndAccuracy (num / den) (accuracyOfFraction (num % den) den)

theorem quotient_eq (num : Nat) {den : Nat} (hden : 0 < den) :
    quotient num den = ⟨num / den, decide (den ≤ 2 * (num % den)),
      decide (num % den ≠ 0 ∧ 2 * (num % den) ≠ den)⟩ := by
  unfold quotient accuracyOfFraction
  by_cases hzero : num % den = 0
  · rw [if_pos hzero, hzero]
    simp [ExtendedMantissa.ofMantissaAndAccuracy, hden.ne']
  · rw [if_neg hzero]
    rcases Nat.lt_trichotomy (2 * (num % den)) den with hlt | heq | hgt
    · rw [Nat.compare_eq_lt.mpr hlt]
      simp [ExtendedMantissa.ofMantissaAndAccuracy, hzero, hlt, hlt.ne]
    · rw [Nat.compare_eq_eq.mpr heq]
      simp [ExtendedMantissa.ofMantissaAndAccuracy, heq]
    · rw [Nat.compare_eq_gt.mpr hgt]
      simp [ExtendedMantissa.ofMantissaAndAccuracy, hzero, hgt.le, hgt.ne']

/-- To shift a quotient by one place is to double its denominator. -/
theorem shiftRightOne_quotient (num : Nat) {den : Nat} (hden : 0 < den) :
    (quotient num den).shiftRightOne = quotient num (2 * den) := by
  have hquot : num / den / 2 = num / (2 * den) := by
    rw [Nat.div_div_eq_div_mul, Nat.mul_comm]
  have hrem : num % (2 * den) = num % den + den * (num / den % 2) := by
    rw [Nat.mul_comm 2 den, Nat.mod_mul]
  have hlt : num % den < den := Nat.mod_lt num hden
  rw [quotient_eq num hden, quotient_eq num (Nat.mul_pos two_pos hden)]
  simp only [ExtendedMantissa.shiftRightOne, hquot, hrem, ExtendedMantissa.mk.injEq, true_and]
  -- the last bit of the whole part becomes the next half
  rcases Nat.mod_two_eq_zero_or_one (num / den) with hbit | hbit
  · rw [hbit, Nat.mul_zero, Nat.add_zero]
    constructor
    · simp
      omega
    · rw [← Bool.decide_or, decide_eq_decide]
      omega
  · rw [hbit, Nat.mul_one]
    constructor
    · simp
    · rw [← Bool.decide_or, decide_eq_decide]
      omega

theorem shiftRight_quotient (num : Nat) {den : Nat} (hden : 0 < den) (k : Nat) :
    quotient num den >>> k = quotient num (2 ^ k * den) := by
  induction k with
  | zero =>
    rw [Nat.pow_zero, Nat.one_mul]
    rfl
  | succ k ih =>
    show (quotient num den >>> k).shiftRightOne = _
    rw [ih, shiftRightOne_quotient num (Nat.mul_pos (Nat.two_pow_pos k) hden), Nat.pow_succ,
      ← Nat.mul_assoc, Nat.mul_comm 2]

/-- The two bits are enough to round a quotient. -/
theorem roundedMantissa_quotient (num : Nat) {den : Nat} (hden : 0 < den) :
    (quotient num den).roundedMantissa = roundHalfEven num den := by
  rw [quotient_eq num hden]
  simp only [roundHalfEven]
  rcases Nat.lt_trichotomy (2 * (num % den)) den with hlt | heq | hgt
  · rw [if_pos (Or.inl hlt), decide_eq_false (Nat.not_le.mpr hlt)]
    cases decide (num % den ≠ 0 ∧ 2 * (num % den) ≠ den) <;> rfl
  · rw [decide_eq_true heq.ge, decide_eq_false (fun h => h.2 heq)]
    show num / den + num / den % 2 = _
    rcases Nat.mod_two_eq_zero_or_one (num / den) with hbit | hbit
    · rw [if_pos (Or.inr ⟨heq, hbit⟩), hbit, Nat.add_zero]
    · rw [if_neg (by omega), hbit]
  · rw [decide_eq_true hgt.le, decide_eq_true ⟨by omega, hgt.ne'⟩, if_neg (by omega)]
    rfl

/-! ## Rounding -/

variable {v : Rat} {num den : Nat} {e : Int}

theorem targetExponent_eq (m : Nat) (e : Int) :
    Format.binary64.targetExponent (totalExponent m e) = max ((m.log2 : Int) + e - 52) (-1074) := by
  show max ((m.log2 : Int) + 1 + e - 53) (3 - 2 ^ 10 - 53) = _
  omega

/-- The exponent that is meant for a mantissa is that of the grid on which its values lie. -/
theorem onGrid_target {m : Nat} (hm : 0 < m) (hlo : (m : Rat) * 2 ^ e ≤ v)
    (hhi : v < (m + 1 : Rat) * 2 ^ e) :
    OnGrid v (Format.binary64.targetExponent (totalExponent m e)) := by
  have hpow : (2 : Rat) ^ (m.log2 : Int) ≤ m := by
    exact_mod_cast Nat.log2_self_le hm.ne'
  have hpow' : (m + 1 : Rat) ≤ 2 ^ ((m.log2 : Int) + 1) := by
    exact_mod_cast Nat.lt_log2_self (n := m)
  rw [targetExponent_eq]
  refine ⟨le_max_right _ _, ?_, fun hlt => ?_⟩
  · calc
      v < (m + 1 : Rat) * 2 ^ e := hhi
      _ ≤ 2 ^ ((m.log2 : Int) + 1) * 2 ^ e :=
        mul_le_mul_of_nonneg_right hpow' (two_zpow_pos e).le
      _ ≤ 2 ^ (53 : Int) * 2 ^ max ((m.log2 : Int) + e - 52) (-1074) := by
        rw [← two_zpow_add, ← two_zpow_add]
        exact two_zpow_le (by omega)
  · calc
      (2 : Rat) ^ (52 : Int) * 2 ^ max ((m.log2 : Int) + e - 52) (-1074)
          ≤ 2 ^ (m.log2 : Int) * 2 ^ e := by
        rw [← two_zpow_add, ← two_zpow_add]
        exact two_zpow_le (by omega)
      _ ≤ m * 2 ^ e := mul_le_mul_of_nonneg_right hpow (two_zpow_pos e).le
      _ ≤ v := hlo

/-- The exponent that the machine shifts to is that of the grid of the exact value, if it does
not start from a coarser one. -/
theorem add_toNat_targetExponent (hden : 0 < den) (hv : 0 < v)
    (hnum : (num : Rat) = v / 2 ^ e * den) (he : e ≤ gridExponent v) :
    e + ((Format.binary64.targetExponent (totalExponent (num / den) e) - e).toNat : Int) =
      gridExponent v := by
  have hgrid := onGrid_gridExponent hv
  have hleast := hgrid.least
  have hdenpos : (0 : Rat) < den := by exact_mod_cast hden
  have hlo : ((num / den : Nat) : Rat) * 2 ^ e ≤ v := by
    have hle : ((num / den : Nat) : Rat) * den ≤ v / 2 ^ e * den := by
      rw [← hnum]
      exact_mod_cast Nat.div_mul_le_self num den
    exact (le_div_iff₀ (two_zpow_pos e)).mp (le_of_mul_le_mul_right hle hdenpos)
  have hhi : v < ((num / den : Nat) + 1 : Rat) * 2 ^ e := by
    have hlt : v / 2 ^ e * den < ((num / den : Nat) + 1 : Rat) * den := by
      rw [← hnum, mul_comm]
      exact_mod_cast Nat.lt_mul_div_succ num hden
    exact (div_lt_iff₀ (two_zpow_pos e)).mp (lt_of_mul_lt_mul_right hlt hdenpos.le)
  rcases Nat.eq_zero_or_pos (num / den) with hzero | hpos
  · -- less than one unit is left, so the grid is the finest one
    rw [hzero, Nat.cast_zero, zero_add, one_mul] at hhi
    rw [targetExponent_eq, hzero, Nat.log2_zero]
    have hfinest : ¬ -1074 < gridExponent v := by
      intro hlt
      have hle := hgrid.le hlt
      rw [← two_zpow_add] at hle
      exact absurd (hle.trans_lt hhi) (not_lt.mpr (two_zpow_le (by omega)))
    omega
  · have heq := (onGrid_target hpos hlo hhi).unique hgrid
    omega

/-- A mantissa that rounding has carried to 54 bits is shifted once more. -/
theorem shiftToTargetExponent_exact {m : Nat} (hm : m ≤ 2 ^ 53) (he : -1074 ≤ e) :
    shiftToTargetExponent Format.binary64 m e .exact =
      if m = 2 ^ 53 then (quotient (2 ^ 53) 2, e + 1) else (quotient m 1, e) := by
  have hexact (m : Nat) : ExtendedMantissa.ofMantissaAndAccuracy m .exact = quotient m 1 := by
    rw [quotient_eq m Nat.one_pos, Nat.div_one, Nat.mod_one]
    rfl
  simp only [shiftToTargetExponent, shiftToExponent, targetExponent_eq, hexact,
    shiftRight_quotient _ Nat.one_pos, Nat.mul_one]
  by_cases hcarry : m = 2 ^ 53
  · have hshift : (max (((2 ^ 53 : Nat).log2 : Int) + e - 52) (-1074) - e).toNat = 1 := by
      rw [Nat.log2_two_pow]
      omega
    rw [if_pos hcarry, hcarry, hshift]
    rfl
  · have hlog : m.log2 ≤ 52 := by
      rcases Nat.eq_zero_or_pos m with rfl | hpos
      · rw [Nat.log2_zero]
        omega
      · have := (Nat.log2_lt hpos.ne').mpr (lt_of_le_of_ne hm hcarry)
        omega
    have hshift : (max ((m.log2 : Int) + e - 52) (-1074) - e).toNat = 0 := by omega
    rw [if_neg hcarry, hshift, Nat.pow_zero, Nat.cast_zero, Int.add_zero]

/-- The number that rounding ends with: zero, if nothing is left of the mantissa. -/
def finish (s : Sign) (m : Nat) (e : Int) : UnpackedFloat :=
  if h : m = 0 then .zero s else .finite s m e (Nat.pos_of_ne_zero h)

theorem toNat_pack_finish (s : Sign) {m : Nat} {e : Int} (hm : m < 2 ^ 53) (he : -1074 ≤ e)
    (hnormal : -1074 < e → 2 ^ 52 ≤ m) :
    (UnpackedFloat.pack Format.binary64 (finish s m e)).toNat =
      s.toBitVec.toNat * 2 ^ 63 + min (pack m e) infinity := by
  unfold finish
  split
  · next hzero =>
    have hleast : e = -1074 := by omega
    have hpack : pack 0 (-1074) = 0 := rfl
    rw [UnpackedFloat.pack, UnpackedFloat.packedZero, toNat_packComponents, hzero, hleast, hpack,
      Nat.zero_min]
    simp
  · exact toNat_pack_finite s _ hm he hnormal

/-- Rounding shifts to the target exponent, and once more if rounding
has made the mantissa longer. -/
theorem roundWithAccuracy_eq (s : Sign) (m : Nat) (e : Int) (a : Accuracy) :
    roundWithAccuracy Format.binary64 s m e a =
      let shifted := shiftToTargetExponent Format.binary64 m e a
      let carried :=
        shiftToTargetExponent Format.binary64 shifted.1.roundedMantissa shifted.2 .exact
      finish s carried.1.mantissa carried.2 := rfl

/-- A rounded mantissa is packed with its carry. -/
theorem toNat_pack_carried (s : Sign) {m : Nat} (hm : m ≤ 2 ^ 53) (he : -1074 ≤ e)
    (hnormal : -1074 < e → 2 ^ 52 ≤ m) :
    (UnpackedFloat.pack Format.binary64
        (finish s (shiftToTargetExponent Format.binary64 m e .exact).1.mantissa
          (shiftToTargetExponent Format.binary64 m e .exact).2)).toNat =
      s.toBitVec.toNat * 2 ^ 63 + min (pack m e) infinity := by
  rw [shiftToTargetExponent_exact hm he]
  split
  · next hcarry =>
    -- the mantissa that was carried is halved, and the exponent makes up for it
    have hmantissa : (quotient (2 ^ 53) 2).mantissa = 2 ^ 52 := by
      rw [quotient_eq _ two_pos]
      norm_num
    have hpack : pack (2 ^ 52) (e + 1) = pack (2 ^ 53) e := by
      simp only [pack, Nat.pow_eq]
      omega
    rw [hmantissa, toNat_pack_finish s (by omega) (by omega) (fun _ => Nat.le_refl _), hcarry,
      hpack]
  · next hfits =>
    have hmantissa : (quotient m 1).mantissa = m := by
      rw [quotient_eq _ Nat.one_pos, Nat.div_one]
    rw [hmantissa, toNat_pack_finish s (lt_of_le_of_ne hm hfits) he hnormal]

/-- **The machine rounds to the nearest number.** -/
theorem toNat_pack_round (s : Sign) (hden : 0 < den) (hv : 0 < v)
    (hnum : (num : Rat) = v / 2 ^ e * den) (he : e ≤ gridExponent v) :
    (UnpackedFloat.pack Format.binary64 (roundWithAccuracy Format.binary64 s (num / den) e
        (accuracyOfFraction (num % den) den))).toNat =
      s.toBitVec.toNat * 2 ^ 63 + min (nearest v) infinity := by
  have hgrid := onGrid_gridExponent hv
  have hleast := hgrid.least
  have htarget := add_toNat_targetExponent hden hv hnum he
  generalize hk : (Format.binary64.targetExponent (totalExponent (num / den) e) - e).toNat = k
    at htarget
  have hshifted : shiftToTargetExponent Format.binary64 (num / den) e
      (accuracyOfFraction (num % den) den) = (quotient num (2 ^ k * den), gridExponent v) := by
    simp only [shiftToTargetExponent, shiftToExponent, hk, htarget, Prod.mk.injEq, and_true]
    exact shiftRight_quotient num hden k
  have hden' : 0 < 2 ^ k * den := Nat.mul_pos (Nat.two_pow_pos k) hden
  have hnum' : (num : Rat) = v / 2 ^ gridExponent v * (2 ^ k * den : Nat) := by
    rw [hnum, ← htarget, two_zpow_add]
    push_cast
    rw [zpow_natCast]
    field_simp
  have hle := hgrid.roundHalfEven_le hden' hnum'
  have hge := fun hlt => hgrid.le_roundHalfEven hlt hden' hnum'
  rw [hgrid.nearest_eq hv hden' hnum', roundWithAccuracy_eq, hshifted]
  simp only [roundedMantissa_quotient num hden']
  exact toNat_pack_carried s hle hleast hge

/-- An exact mantissa whose exponent is low enough is rounded to the nearest number. -/
theorem toNat_pack_round_exact (s : Sign) {m : Nat} (hm : 0 < m)
    (he : e ≤ gridExponent (m * 2 ^ e)) :
    (UnpackedFloat.pack Format.binary64
        (roundWithAccuracy Format.binary64 s m e .exact)).toNat =
      s.toBitVec.toNat * 2 ^ 63 + min (nearest (m * 2 ^ e)) infinity := by
  have hcast : (0 : Rat) < m := by exact_mod_cast hm
  have hv : 0 < (m * 2 ^ e : Rat) := mul_pos hcast (two_zpow_pos e)
  have hnum : (m : Rat) = m * 2 ^ e / 2 ^ e * (1 : Nat) := by
    have := (two_zpow_pos e).ne'
    field_simp
    simp
  have hround := toNat_pack_round s Nat.one_pos hv hnum he
  rwa [Nat.div_one, Nat.mod_one] at hround

/-- A mantissa that is shifted to a lower exponent has the same value. -/
theorem shiftLeft_zpow (m : Nat) {p q : Int} (h : q ≤ p) :
    ((m <<< (p - q).toNat : Nat) : Rat) * 2 ^ q = m * 2 ^ p := by
  have hexp : p = ((p - q).toNat : Int) + q := by omega
  rw [Nat.shiftLeft_eq]
  conv_rhs => rw [hexp, two_zpow_add]
  push_cast
  rw [zpow_natCast]
  ring

theorem shiftLeft_pos {m : Nat} (hm : 0 < m) (k : Nat) : 0 < m <<< k := by
  rw [Nat.shiftLeft_eq]
  exact Nat.mul_pos hm (Nat.two_pow_pos k)

/-- A mantissa is first given all its bits, then rounded to the nearest number. -/
theorem toNat_pack_normalize {m : Nat} (hm : 0 < m) (e : Int) (s : Sign) :
    (UnpackedFloat.pack Format.binary64 (UnpackedFloat.normalize Format.binary64 m e s)).toNat =
      min (nearest (m * 2 ^ e)) infinity := by
  have hgt : compare (m : Int) 0 = .gt := compare_gt_iff_gt.mpr (by omega)
  have hcast : (0 : Rat) < m := by exact_mod_cast hm
  have htarget := (onGrid_target hm le_rfl
    (mul_lt_mul_of_pos_right (lt_add_one (m : Rat)) (two_zpow_pos e))).unique
    (onGrid_gridExponent (mul_pos hcast (two_zpow_pos e)))
  simp only [UnpackedFloat.normalize, hgt, Int.toNat_natCast, UnpackedFloat.round, decreaseExponent,
    htarget]
  generalize hk : (e - gridExponent (m * 2 ^ e)).toNat = k
  have hshift := shiftLeft_zpow m (p := e) (q := e - k) (by omega)
  have hamount : (e - (e - (k : Int))).toNat = k := by omega
  rw [hamount] at hshift
  rw [toNat_pack_round_exact _ (shiftLeft_pos hm k) (by rw [hshift]; omega), hshift]
  simp [Sign.toBitVec]

/-! ## Sums -/

/-- A zero of either sign is lost in a sum. -/
theorem zero_add_parts (s : Sign) (c : Nat) :
    UnpackedFloat.add Format.binary64 (.zero s) (parts false c) = parts false c := by
  unfold parts
  split <;> cases s <;> rfl

theorem parts_add_zero (c : Nat) :
    UnpackedFloat.add Format.binary64 (parts false c) (.zero .positive) = parts false c := by
  unfold parts
  split <;> rfl

theorem toNat_pack_parts_eq_nearest {c : Nat} (hc : c < infinity) :
    (UnpackedFloat.pack Format.binary64 (parts false c)).toNat =
      min (nearest (value c)) infinity := by
  rw [toNat_pack_parts false hc, nearest_value, Nat.min_eq_left hc.le]
  simp

theorem toNat_pack_add {a b : Nat} (ha : a < infinity) (hb : b < infinity) :
    (UnpackedFloat.pack Format.binary64
        (UnpackedFloat.add Format.binary64 (parts false a) (parts false b))).toNat =
      min (nearest (value a + value b)) infinity := by
  have hzero : parts false 0 = .zero .positive := rfl
  rcases Nat.eq_zero_or_pos a with rfl | hapos
  · rw [hzero, zero_add_parts, value_zero, zero_add, toNat_pack_parts_eq_nearest hb]
  rcases Nat.eq_zero_or_pos b with rfl | hbpos
  · rw [hzero, parts_add_zero, value_zero, add_zero, toNat_pack_parts_eq_nearest ha]
  -- both mantissas are shifted to the lower exponent, where their sum is exact
  unfold parts
  rw [dif_neg hapos.ne', dif_neg hbpos.ne']
  simp only [UnpackedFloat.add, decreaseExponent, signOf, Bool.false_eq_true, if_false, Sign.apply]
  generalize hq : min (unpack a).2 (unpack b).2 = q
  have hvalue : value a + value b =
      (((unpack a).1 <<< ((unpack a).2 - q).toNat +
        (unpack b).1 <<< ((unpack b).2 - q).toNat : Nat) : Rat) * 2 ^ q := by
    rw [value, value, scaled_eq, scaled_eq, Nat.cast_add, add_mul, shiftLeft_zpow _ (by omega),
      shiftLeft_zpow _ (by omega)]
  have hpos := Nat.add_pos_left (shiftLeft_pos (unpack_mantissa_pos hapos.ne')
    ((unpack a).2 - q).toNat) ((unpack b).1 <<< ((unpack b).2 - q).toNat)
  rw [← Int.natCast_add, toNat_pack_normalize hpos, hvalue]

/-! ## Products -/

theorem value_mul_value (a b : Nat) :
    value a * value b =
      ((unpack a).1 * (unpack b).1 : Nat) * 2 ^ ((unpack a).2 + (unpack b).2) := by
  rw [value, value, scaled_eq, scaled_eq, two_zpow_add, Nat.cast_mul]
  ring

/-- A product of mantissas has all bits that the grid of the exact product asks for. -/
theorem add_le_gridExponent_mul {a b : Nat} (ha : 0 < a) (hb : 0 < b) :
    (unpack a).2 + (unpack b).2 ≤ gridExponent (value a * value b) := by
  have hgrid := onGrid_gridExponent (mul_pos (value_pos ha) (value_pos hb))
  have hleast := hgrid.least
  obtain ⟨-, hexpa, hnormala⟩ := unpack_bounds a
  obtain ⟨-, hexpb, hnormalb⟩ := unpack_bounds b
  by_cases hfinest : (unpack a).2 = -1074 ∧ (unpack b).2 = -1074
  · omega
  · -- one of the two mantissas has all its bits
    have hbits : 2 ^ 52 ≤ (unpack a).1 * (unpack b).1 := by
      rcases (by omega : -1074 < (unpack a).2 ∨ -1074 < (unpack b).2) with hlt | hlt
      · exact (hnormala hlt).trans (Nat.le_mul_of_pos_right _ (unpack_mantissa_pos hb.ne'))
      · exact (hnormalb hlt).trans (Nat.le_mul_of_pos_left _ (unpack_mantissa_pos ha.ne'))
    have hcast : (2 : Rat) ^ (52 : Int) ≤ ((unpack a).1 * (unpack b).1 : Nat) := by
      exact_mod_cast hbits
    have hlt : (2 : Rat) ^ (52 : Int) * 2 ^ ((unpack a).2 + (unpack b).2) <
        2 ^ (53 : Int) * 2 ^ gridExponent (value a * value b) := by
      calc
        (2 : Rat) ^ (52 : Int) * 2 ^ ((unpack a).2 + (unpack b).2)
            ≤ ((unpack a).1 * (unpack b).1 : Nat) * 2 ^ ((unpack a).2 + (unpack b).2) :=
          mul_le_mul_of_nonneg_right hcast (two_zpow_pos _).le
        _ = value a * value b := (value_mul_value a b).symm
        _ < 2 ^ (53 : Int) * 2 ^ gridExponent (value a * value b) := hgrid.lt
    rw [← two_zpow_add, ← two_zpow_add, zpow_lt_zpow_iff_right₀ one_lt_two] at hlt
    omega

theorem mul_parts_zero {a b : Nat} (h : a = 0 ∨ b = 0) :
    UnpackedFloat.mul Format.binary64 (parts false a) (parts false b) = parts false 0 := by
  have hzero : parts false 0 = .zero .positive := rfl
  rcases h with rfl | rfl
  · rw [hzero]
    unfold parts
    split <;> rfl
  · rw [hzero]
    unfold parts
    split <;> rfl

theorem toNat_pack_mul (a b : Nat) :
    (UnpackedFloat.pack Format.binary64
        (UnpackedFloat.mul Format.binary64 (parts false a) (parts false b))).toNat =
      min (nearest (value a * value b)) infinity := by
  by_cases hzero : a = 0 ∨ b = 0
  · have hvalue : value a * value b = value 0 := by
      rw [value_zero, mul_eq_zero]
      exact hzero.imp (fun ha => by rw [ha, value_zero]) fun hb => by rw [hb, value_zero]
    rw [mul_parts_zero hzero, toNat_pack_parts_eq_nearest (by decide), hvalue]
  · rw [not_or] at hzero
    have hgrid := add_le_gridExponent_mul (Nat.pos_of_ne_zero hzero.1) (Nat.pos_of_ne_zero hzero.2)
    have hpos := Nat.mul_pos (unpack_mantissa_pos hzero.1) (unpack_mantissa_pos hzero.2)
    have hsign : (signOf false * signOf false).toBitVec.toNat = 0 := rfl
    rw [value_mul_value] at hgrid ⊢
    unfold parts
    rw [dif_neg hzero.1, dif_neg hzero.2]
    show (UnpackedFloat.pack Format.binary64 (roundWithAccuracy Format.binary64
      (signOf false * signOf false) ((unpack a).1 * (unpack b).1)
      ((unpack a).2 + (unpack b).2) .exact)).toNat = _
    rw [toNat_pack_round_exact _ hpos hgrid, hsign, Nat.zero_mul, Nat.zero_add]

/-! ## Quotients -/

/-- The first digit of a quotient, from those of the two mantissas. -/
theorem two_zpow_le_div {a b : Nat} (ha : 0 < a) (hb : 0 < b) :
    (2 : Rat) ^ (((unpack a).1.log2 : Int) + (unpack a).2 - (unpack b).1.log2 - (unpack b).2 - 1) ≤
      value a / value b := by
  have hlo : (2 : Rat) ^ ((unpack a).1.log2 : Int) ≤ (unpack a).1 := by
    exact_mod_cast Nat.log2_self_le (unpack_mantissa_pos ha.ne').ne'
  have hhi : ((unpack b).1 : Rat) ≤ 2 ^ (((unpack b).1.log2 : Int) + 1) := by
    exact_mod_cast (Nat.lt_log2_self (n := (unpack b).1)).le
  rw [le_div_iff₀ (value_pos hb), value, value, scaled_eq, scaled_eq]
  calc
    (2 : Rat) ^ (((unpack a).1.log2 : Int) + (unpack a).2 - (unpack b).1.log2 - (unpack b).2 - 1) *
          ((unpack b).1 * 2 ^ (unpack b).2)
        ≤ 2 ^ (((unpack a).1.log2 : Int) + (unpack a).2 - (unpack b).1.log2 - (unpack b).2 - 1) *
          (2 ^ (((unpack b).1.log2 : Int) + 1) * 2 ^ (unpack b).2) := by
      gcongr
    _ = 2 ^ ((unpack a).1.log2 : Int) * 2 ^ (unpack a).2 := by
      rw [← two_zpow_add, ← two_zpow_add, ← two_zpow_add]
      congr 1
      ring
    _ ≤ (unpack a).1 * 2 ^ (unpack a).2 := by gcongr

/-- The exponent that is aimed at, told from the first digits, is not
above that of the exact quotient. -/
theorem targetExponent_div_le {a b : Nat} (ha : 0 < a) (hb : 0 < b) :
    Format.binary64.targetExponent (totalExponent (unpack a).1 (unpack a).2 -
      totalExponent (unpack b).1 (unpack b).2) ≤ gridExponent (value a / value b) := by
  have hgrid := onGrid_gridExponent (div_pos (value_pos ha) (value_pos hb))
  have hleast := hgrid.least
  have hfirst := (two_zpow_le_div ha hb).trans_lt hgrid.lt
  rw [← two_zpow_add, zpow_lt_zpow_iff_right₀ one_lt_two] at hfirst
  show max ((((unpack a).1.log2 : Int) + 1 + (unpack a).2) -
    (((unpack b).1.log2 : Int) + 1 + (unpack b).2) - 53) (3 - 2 ^ 10 - 53) ≤ _
  omega

/-- The mantissa at the left, shifted, is so many units of the quotient by that at the right. -/
theorem shiftLeft_eq_div {a b : Nat} {e : Int} (hb : 0 < b)
    (he : e ≤ (unpack a).2 - (unpack b).2) :
    (((unpack a).1 <<< ((unpack a).2 - (unpack b).2 - e).toNat : Nat) : Rat) =
      value a / value b / 2 ^ e * (unpack b).1 := by
  have hbne : (((unpack b).1 : Nat) : Rat) ≠ 0 := by
    exact_mod_cast (unpack_mantissa_pos hb.ne').ne'
  have hshift := shiftLeft_zpow (unpack a).1 he
  rw [zpow_sub₀ two_ne_zero] at hshift
  have hpowne := (two_zpow_pos (unpack b).2).ne'
  have hene := (two_zpow_pos e).ne'
  rw [value, value, scaled_eq, scaled_eq, ← mul_div_cancel_right₀ ((_ : Nat) : Rat) hene, hshift]
  field_simp

theorem zero_div_parts {b : Nat} (hb : 0 < b) :
    UnpackedFloat.div Format.binary64 (parts false 0) (parts false b) = parts false 0 := by
  unfold parts
  rw [dif_neg hb.ne']
  rfl

theorem toNat_pack_div {a b : Nat} (hb : 0 < b) :
    (UnpackedFloat.pack Format.binary64
        (UnpackedFloat.div Format.binary64 (parts false a) (parts false b))).toNat =
      min (nearest (value a / value b)) infinity := by
  rcases Nat.eq_zero_or_pos a with rfl | ha
  · rw [zero_div_parts hb, toNat_pack_parts_eq_nearest (by decide), value_zero, zero_div]
  have hv : 0 < value a / value b := div_pos (value_pos ha) (value_pos hb)
  have htarget := targetExponent_div_le ha hb
  unfold parts
  rw [dif_neg ha.ne', dif_neg hb.ne']
  simp only [UnpackedFloat.div, UnpackedFloat.divCore]
  -- the mantissa at the left is shifted to where the quotient has all its bits
  generalize he : min ((unpack a).2 - (unpack b).2) (Format.binary64.targetExponent
    (totalExponent (unpack a).1 (unpack a).2 - totalExponent (unpack b).1 (unpack b).2)) = e
  have hnum := shiftLeft_eq_div (a := a) (e := e) hb (by omega)
  have hsign : (signOf false / signOf false).toBitVec.toNat = 0 := rfl
  rw [toNat_pack_round _ (unpack_mantissa_pos hb.ne') hv hnum (by omega), hsign, Nat.zero_mul,
    Nat.zero_add]

/-! ## Numbers that are not negative -/

/-- The bits of a number as a natural number. For a number that is
not negative, that is its code. -/
def bits (x : Float) : Nat := x.toBits.toNat

variable {x y : Float}

theorem unpack_of_bits (hx : bits x < infinity) : x.toModel.unpack = parts false (bits x) := by
  have hcode : code x = bits x := by
    simp only [bits, infinity, Nat.pow_eq] at hx
    simp only [code, bits, Nat.pow_eq]
    omega
  have hsign : sign x = false := by
    simp only [bits, infinity, Nat.pow_eq] at hx
    simp only [sign, Nat.pow_eq, decide_eq_false_iff_not]
    omega
  rw [unpack_eq (by rw [hcode]; exact hx), hcode, hsign]

theorem bits_add (hx : bits x < infinity) (hy : bits y < infinity) :
    bits (x + y) = min (nearest (value (bits x) + value (bits y))) infinity := by
  show (UnpackedFloat.pack Format.binary64
    (UnpackedFloat.add Format.binary64 x.toModel.unpack y.toModel.unpack)).toNat = _
  rw [unpack_of_bits hx, unpack_of_bits hy, toNat_pack_add hx hy]

theorem bits_mul (hx : bits x < infinity) (hy : bits y < infinity) :
    bits (x * y) = min (nearest (value (bits x) * value (bits y))) infinity := by
  show (UnpackedFloat.pack Format.binary64
    (UnpackedFloat.mul Format.binary64 x.toModel.unpack y.toModel.unpack)).toNat = _
  rw [unpack_of_bits hx, unpack_of_bits hy, toNat_pack_mul]

theorem bits_div (hx : bits x < infinity) (hy : bits y < infinity) (hpos : 0 < bits y) :
    bits (x / y) = min (nearest (value (bits x) / value (bits y))) infinity := by
  show (UnpackedFloat.pack Format.binary64
    (UnpackedFloat.div Format.binary64 x.toModel.unpack y.toModel.unpack)).toNat = _
  rw [unpack_of_bits hx, unpack_of_bits hy, toNat_pack_div hpos]

/-- Negative zero is lost in a sum. -/
theorem neg_zero_add (hx : bits x < infinity) : bits (-(0.0 : Float) + x) = bits x := by
  have hsign : sign (-(0.0 : Float)) = true := by decide +kernel
  have hcode : code (-(0.0 : Float)) = 0 := by decide +kernel
  have hzero : (-(0.0 : Float)).toModel.unpack = .zero .negative := by
    rw [unpack_eq (by rw [hcode]; decide), hsign, hcode]
    rfl
  show (UnpackedFloat.pack Format.binary64
    (UnpackedFloat.add Format.binary64 (-(0.0 : Float)).toModel.unpack x.toModel.unpack)).toNat = _
  rw [unpack_of_bits hx, hzero, zero_add_parts, toNat_pack_parts false hx]
  simp

/-- A finite number divided by infinity is zero. -/
theorem bits_div_infinity (hx : bits x < infinity) (hy : bits y = infinity) : bits (x / y) = 0 := by
  have hinf : y = Float.ofBits (UInt64.ofNat infinity) := by
    apply eq_of_toBits_eq
    rw [show (Float.ofBits (UInt64.ofNat infinity)).toBits.toNat = infinity by decide +kernel]
    exact hy
  have hunpack : y.toModel.unpack = .infinity .positive := by
    rw [hinf]
    rfl
  show (UnpackedFloat.pack Format.binary64
    (UnpackedFloat.div Format.binary64 x.toModel.unpack y.toModel.unpack)).toNat = _
  rw [unpack_of_bits hx, hunpack]
  unfold parts
  split <;> rfl

/-- A finite number less itself is zero. -/
theorem sub_self_of_bits (hx : bits x < infinity) : x - x = 0.0 := by
  have hsub : UnpackedFloat.sub Format.binary64 (parts false (bits x)) (parts false (bits x)) =
      .zero .positive := by
    unfold parts
    split
    · rfl
    · simp only [UnpackedFloat.sub, Int.sub_self]
      rfl
  apply eq_of_toBits_eq
  show (UnpackedFloat.pack Format.binary64
    (UnpackedFloat.sub Format.binary64 x.toModel.unpack x.toModel.unpack)).toNat = _
  rw [unpack_of_bits hx, hsub]
  decide +kernel

/-! ## Counts -/

/-- Multiplication by one, here given by its bits, leaves a number as it is. -/
theorem bits_mul_one (hx : bits x < infinity) :
    bits (x * Float.ofBits 4607182418800017408) = bits x := by
  have hfinite : bits (Float.ofBits 4607182418800017408) < infinity := by decide +kernel
  have hone : value (bits (Float.ofBits 4607182418800017408)) = 1 := by decide +kernel
  rw [bits_mul hx hfinite, hone, mul_one, nearest_value, Nat.min_eq_left hx.le]

/-- A literal without a fraction is given 53 more bits, and rounded. -/
theorem ofScientific_zero {n : Nat} (hn : 0 < n) :
    UnpackedFloat.ofScientific Format.binary64 n 0 =
      roundWithAccuracy Format.binary64 .positive (n <<< 53) (-53) .exact := by
  have hexp : ¬ (0 : Int) < -(2 ^ Format.binary64.exponentBits + n.log2) := by
    show ¬ (0 : Int) < -(2 ^ 11 + n.log2)
    omega
  rw [UnpackedFloat.ofScientific, dif_neg hn.ne', if_neg (by decide), if_neg hexp,
    if_pos (Int.le_refl 0)]
  simp only [UnpackedFloat.mul, Int.toNat_zero, Nat.pow_zero, Nat.mul_one, Int.add_zero]
  rfl

theorem shiftLeft_neg (n : Nat) : ((n <<< 53 : Nat) : Rat) * 2 ^ (-53 : Int) = n := by
  rw [Nat.shiftLeft_eq]
  norm_num
  ring

theorem neg_le_gridExponent {n : Nat} (hn : 2 ^ 53 ≤ n) : -53 ≤ gridExponent (n : Rat) := by
  have hle : (2 : Rat) ^ (53 : Int) ≤ n := by exact_mod_cast hn
  have hexps := hle.trans_lt (onGrid_gridExponent ((two_zpow_pos 53).trans_le hle)).lt
  rw [← two_zpow_add, zpow_lt_zpow_iff_right₀ one_lt_two] at hexps
  omega

/-- A short count is taken as a word, and multiplied by one. -/
theorem ofNat_of_lt {n : Nat} (hn : n < 2 ^ 53) :
    Float.ofNat n = n.toUInt64.toFloat * Float.ofBits 4607182418800017408 := by
  show Float.ofScientific n false 0 = _
  rw [Float.ofScientific, dif_pos ⟨hn, by decide⟩]
  rfl

theorem bits_toFloat {n : Nat} (hpos : 0 < n) (hn : n < 2 ^ 53) :
    bits n.toUInt64.toFloat = min (nearest n) infinity := by
  have hword : n.toUInt64.toNat = n := by
    show n % 2 ^ 64 = n
    omega
  show (UnpackedFloat.pack Format.binary64 (UnpackedFloat.normalize Format.binary64
    (n.toUInt64.toNat : Int) 0 .positive)).toNat = _
  rw [hword, toNat_pack_normalize hpos, zpow_zero, mul_one]

/-- A long count is taken as a literal. -/
theorem bits_ofNat_of_le {n : Nat} (hn : 2 ^ 53 ≤ n) :
    bits (Float.ofNat n) = min (nearest n) infinity := by
  have hpos : 0 < n := (Nat.two_pow_pos 53).trans_le hn
  have hfloat : bits (Float.ofNat n) = (UnpackedFloat.pack Format.binary64
      (UnpackedFloat.ofScientific Format.binary64 n 0)).toNat := by
    show bits (Float.ofScientific n false 0) = _
    rw [Float.ofScientific, dif_neg (fun h => absurd h.1 (Nat.not_lt.mpr hn))]
    rfl
  rw [hfloat, ofScientific_zero hpos, toNat_pack_round_exact _ (shiftLeft_pos hpos 53)
    (by rw [shiftLeft_neg]; exact neg_le_gridExponent hn), shiftLeft_neg]
  simp [Sign.toBitVec]

/-- **A count is rounded to the nearest number.** -/
theorem bits_ofNat (n : Nat) : bits (Float.ofNat n) = min (nearest n) infinity := by
  rcases Nat.eq_zero_or_pos n with rfl | hpos
  · decide +kernel
  rcases Nat.lt_or_ge n (2 ^ 53) with hsmall | hlarge
  · have hfinite : min (nearest n) infinity < infinity := by
      have hle : nearest n ≤ nearest ((2 ^ 53 : Nat) : Rat) :=
        nearest_mono (Nat.cast_nonneg n) (by exact_mod_cast hsmall.le)
      have hlt : nearest ((2 ^ 53 : Nat) : Rat) < infinity := by decide +kernel
      omega
    have hbits := bits_toFloat hpos hsmall
    rw [ofNat_of_lt hsmall, bits_mul_one (by rw [hbits]; exact hfinite), hbits]
  · exact bits_ofNat_of_le hlarge

/-! ## Order -/

/-- Numbers that are not negative are ordered as their codes are. -/
theorem le_iff_bits (hx : bits x < infinity) (hy : bits y < infinity) :
    x ≤ y ↔ bits x ≤ bits y := by
  have hmodel : x ≤ y ↔ UnpackedFloat.le (parts false (bits x)) (parts false (bits y)) = true := by
    show decide (UnpackedFloat.le x.toModel.unpack y.toModel.unpack = true) = true ↔ _
    rw [unpack_of_bits hx, unpack_of_bits hy, decide_eq_true_eq]
  rw [hmodel]
  unfold parts
  by_cases hzero : bits x = 0
  · rw [dif_pos hzero, hzero]
    exact iff_of_true (by split <;> rfl) (Nat.zero_le _)
  by_cases hzero' : bits y = 0
  · rw [dif_neg hzero, dif_pos hzero', hzero']
    exact iff_of_false (fun h => nomatch h) (by omega)
  rw [dif_neg hzero, dif_neg hzero']
  show ((compare (unpack (bits x)).2 (unpack (bits y)).2).then
    (compare (unpack (bits x)).1 (unpack (bits y)).1)).isLE = true ↔ _
  have hpackx := pack_unpack (bits x)
  have hpacky := pack_unpack (bits y)
  have hgridx := onGrid_value (bits x)
  have hgridy := onGrid_value (bits y)
  have hle : bits x ≤ bits y → (unpack (bits x)).2 ≤ (unpack (bits y)).2 :=
    fun h => hgridx.mono hgridy (value_mono h)
  have hge : bits y ≤ bits x → (unpack (bits y)).2 ≤ (unpack (bits x)).2 :=
    fun h => hgridy.mono hgridx (value_mono h)
  -- exponents decide, and mantissas where these are equal
  rcases lt_trichotomy (unpack (bits x)).2 (unpack (bits y)).2 with hlt | heq | hgt
  · rw [compare_lt_iff_lt.mpr hlt]
    exact iff_of_true rfl (by omega)
  · rw [compare_eq_iff_eq.mpr heq]
    rw [← heq] at hpacky
    simp only [pack] at hpackx hpacky
    show (compare (unpack (bits x)).1 (unpack (bits y)).1).isLE = true ↔ _
    rw [Nat.isLE_compare]
    omega
  · rw [compare_gt_iff_gt.mpr hgt]
    exact iff_of_false Bool.false_ne_true (by omega)

theorem le_of_bits (hy : bits y < infinity) (h : bits x ≤ bits y) : x ≤ y :=
  (le_iff_bits (h.trans_lt hy) hy).mpr h

end TernaryBelief.Binary64
