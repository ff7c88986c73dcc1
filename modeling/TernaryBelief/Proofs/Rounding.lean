import Mathlib.Algebra.Order.Field.Power
import Mathlib.Data.Rat.Cast.Order
import Mathlib.Tactic.FieldSimp
import Mathlib.Tactic.Linarith
import Mathlib.Tactic.NormNum
import Mathlib.Tactic.Ring
import TernaryBelief.Binary64

/-!
# Rounding to binary64

The numbers of one exponent lie on a grid, and a value is rounded on the grid that leaves it 53
bits, or on the finest grid if it is small (`Binary64.OnGrid`). As both the grid and the rounding on
it follow the order of the values, so does the code of the nearest number (`Binary64.nearest_mono`),
and a value that has a code is rounded to that code (`Binary64.nearest_value`).
-/

namespace TernaryBelief.Binary64

/-! ## Exact values -/

theorem two_zpow_pos (q : Int) : (0 : Rat) < 2 ^ q := zpow_pos (by norm_num) q

theorem two_zpow_le {p q : Int} (h : p ≤ q) : (2 : Rat) ^ p ≤ 2 ^ q :=
  zpow_le_zpow_right₀ (by norm_num) h

theorem two_zpow_add (p q : Int) : (2 : Rat) ^ (p + q) = 2 ^ p * 2 ^ q :=
  zpow_add₀ (by norm_num) p q

/-- A power as it is written with two natural exponents, of which one is zero. -/
theorem pow_toNat_eq (k : Nat) [NeZero k] (q : Int) :
    ((Nat.pow k q.toNat : Nat) : Rat) = (Nat.pow k (-q).toNat : Nat) * (k : Rat) ^ q := by
  cases q with
  | ofNat n => simp
  | negSucc n =>
    have hneg : (-(Int.negSucc n)).toNat = n + 1 := rfl
    have hpos : (Int.negSucc n).toNat = 0 := rfl
    have hne : (k : Rat) ^ (n + 1) ≠ 0 := pow_ne_zero _ (NeZero.ne _)
    rw [hneg, hpos, zpow_negSucc]
    simp [hne]

theorem scaled_eq (m : Nat) (q : Int) : scaled m q = m * (2 : Rat) ^ q := by
  have hne : ((Nat.pow 2 (-q).toNat : Nat) : Rat) ≠ 0 := by
    exact_mod_cast (Nat.pow_pos (by decide)).ne'
  rw [scaled, Rat.mkRat_eq_div, Int.cast_natCast, Nat.cast_mul, pow_toNat_eq 2 q, Nat.cast_ofNat]
  field_simp

theorem scaled_nonneg (m : Nat) (q : Int) : 0 ≤ scaled m q := by
  rw [scaled_eq]
  exact mul_nonneg (Nat.cast_nonneg m) (two_zpow_pos q).le

theorem value_nonneg (b : Nat) : 0 ≤ value b := scaled_nonneg _ _

theorem value_zero : value 0 = 0 := by decide +kernel

/-! ## Rounding of a quotient -/

theorem roundHalfEven_bounds (num den : Nat) :
    num / den ≤ roundHalfEven num den ∧ roundHalfEven num den ≤ num / den + 1 := by
  simp only [roundHalfEven]
  split <;> omega

theorem roundHalfEven_mul (m : Nat) {den : Nat} (hden : 0 < den) :
    roundHalfEven (m * den) den = m := by
  simp only [roundHalfEven, Nat.mul_div_cancel m hden, Nat.mul_mod_left, Nat.mul_zero, hden,
    true_or, if_true]

/-- A quotient that exceeds a natural number by less than one half is rounded to it. -/
theorem roundHalfEven_of_lt {num den m : Nat} (hlo : m * den ≤ num)
    (hhi : 2 * num < (2 * m + 1) * den) : roundHalfEven num den = m := by
  have hquot : num / den = m :=
    Nat.div_eq_of_lt_le hlo (by nlinarith)
  have hrem : 2 * (num % den) < den := by
    have hnum := Nat.div_add_mod num den
    rw [hquot] at hnum
    nlinarith
  simp only [roundHalfEven, hquot, hrem, true_or, if_true]

/-- Rounding a quotient follows the order of the quotients. -/
theorem roundHalfEven_mono {a b c d : Nat} (hb : 0 < b) (hd : 0 < d) (h : a * d ≤ c * b) :
    roundHalfEven a b ≤ roundHalfEven c d := by
  have hab : b * (a / b) + a % b = a := Nat.div_add_mod a b
  have hcd : d * (c / d) + c % d = c := Nat.div_add_mod c d
  have hquot : a / b ≤ c / d := by
    rw [Nat.le_div_iff_mul_le hd]
    have hle : a / b * d * b ≤ c * b := by
      calc
        a / b * d * b = a / b * b * d := by ring
        _ ≤ a * d := Nat.mul_le_mul_right d (Nat.div_mul_le_self a b)
        _ ≤ c * b := h
    exact Nat.le_of_mul_le_mul_right hle hb
  rcases Nat.lt_or_eq_of_le hquot with hlt | heq
  · exact ((roundHalfEven_bounds a b).2.trans hlt).trans (roundHalfEven_bounds c d).1
  · -- on one whole number the remainders decide, and they are ordered as the quotients are
    have hrem : a % b * d ≤ c % d * b := by
      have hexpand : (b * (a / b) + a % b) * d ≤ (d * (a / b) + c % d) * b := by
        rw [hab, heq, hcd]
        exact h
      nlinarith [hexpand]
    simp only [roundHalfEven, ← heq]
    split
    · split <;> omega
    · next hup =>
      rw [not_or, not_and, Nat.not_lt] at hup
      have hhalf : d ≤ 2 * (c % d) := by
        have hmul : b * d ≤ 2 * (c % d) * b := by nlinarith [hup.1]
        exact Nat.le_of_mul_le_mul_right (by rwa [Nat.mul_comm d b]) hb
      split
      · next hdown =>
        rcases hdown with hdown | ⟨htie, heven⟩
        · omega
        · -- a tie on the right is one on the left, and it goes up there
          have hmul : 2 * (a % b) * d ≤ b * d := by nlinarith [hrem, htie]
          have hle : 2 * (a % b) ≤ b := Nat.le_of_mul_le_mul_right hmul hd
          exact absurd heven (hup.2 (Nat.le_antisymm hle hup.1))
      · exact le_rfl

/-- Rounding sees the quotient, not how it is written. -/
theorem roundHalfEven_congr {a b c d : Nat} (hb : 0 < b) (hd : 0 < d) (h : a * d = c * b) :
    roundHalfEven a b = roundHalfEven c d :=
  Nat.le_antisymm (roundHalfEven_mono hb hd h.le) (roundHalfEven_mono hd hb h.ge)

/-! ## Grids -/

/-- Measured in units of `2 ^ q`, the value has 53 bits before the point, or
fewer if there is no finer unit. -/
structure OnGrid (v : Rat) (q : Int) : Prop where
  least : -1074 ≤ q
  lt : v < 2 ^ (53 : Int) * 2 ^ q
  le : -1074 < q → 2 ^ (52 : Int) * 2 ^ q ≤ v

variable {u v : Rat} {p q : Int}

/-- Smaller values lie on finer grids. -/
theorem OnGrid.mono (hu : OnGrid u p) (hv : OnGrid v q) (h : u ≤ v) : p ≤ q := by
  by_contra hlt
  have hle := hu.le (by have := hv.least; omega)
  have hstep : (2 : Rat) ^ (53 : Int) * 2 ^ q ≤ 2 ^ (52 : Int) * 2 ^ p := by
    rw [← two_zpow_add, ← two_zpow_add]
    exact two_zpow_le (by omega)
  exact absurd (hle.trans h) (not_le.mpr (hv.lt.trans_le hstep))

theorem OnGrid.unique (hp : OnGrid v p) (hq : OnGrid v q) : p = q :=
  le_antisymm (hp.mono hq le_rfl) (hq.mono hp le_rfl)

theorem inUnits_pos (v : Rat) (q : Int) : 0 < (inUnits v q).2 :=
  Nat.mul_pos v.den_pos (Nat.pow_pos (by decide))

theorem cast_num_toNat (hv : 0 ≤ v) : ((v.num.toNat : Nat) : Rat) = v * v.den := by
  rw [Rat.mul_den_eq_num]
  exact_mod_cast congrArg (Int.cast (R := Rat)) (Int.toNat_of_nonneg (Rat.num_nonneg.mpr hv))

theorem inUnits_eq (hv : 0 ≤ v) (q : Int) :
    ((inUnits v q).1 : Rat) = v / 2 ^ q * (inUnits v q).2 := by
  have hne : (2 : Rat) ^ q ≠ 0 := (two_zpow_pos q).ne'
  simp only [inUnits, Nat.cast_mul]
  rw [cast_num_toNat hv, pow_toNat_eq 2 q, Nat.cast_ofNat]
  field_simp

/-- The logarithms of numerator and denominator enclose a value within a factor of four. -/
theorem two_zpow_log2_le (hv : 0 < v) :
    (2 : Rat) ^ ((v.num.toNat.log2 : Int) - v.den.log2 - 1) ≤ v := by
  have hnum : v.num.toNat ≠ 0 := by
    have := Rat.num_pos.mpr hv
    omega
  have hlo : (2 : Rat) ^ (v.num.toNat.log2 : Int) ≤ v.num.toNat := by
    exact_mod_cast Nat.log2_self_le hnum
  have hhi : (v.den : Rat) < 2 ^ ((v.den.log2 : Int) + 1) := by
    exact_mod_cast Nat.lt_log2_self (n := v.den)
  have hden : (0 : Rat) < v.den := by exact_mod_cast v.den_pos
  refine le_of_mul_le_mul_right ?_ hden
  calc
    (2 : Rat) ^ ((v.num.toNat.log2 : Int) - v.den.log2 - 1) * v.den
        ≤ 2 ^ ((v.num.toNat.log2 : Int) - v.den.log2 - 1) * 2 ^ ((v.den.log2 : Int) + 1) :=
      mul_le_mul_of_nonneg_left hhi.le (two_zpow_pos _).le
    _ = 2 ^ (v.num.toNat.log2 : Int) := by
      rw [← two_zpow_add]
      congr 1
      omega
    _ ≤ v * v.den := cast_num_toNat hv.le ▸ hlo

theorem lt_two_zpow_log2 (hv : 0 < v) :
    v < (2 : Rat) ^ ((v.num.toNat.log2 : Int) - v.den.log2 + 1) := by
  have hhi : (v.num.toNat : Rat) < 2 ^ ((v.num.toNat.log2 : Int) + 1) := by
    exact_mod_cast Nat.lt_log2_self (n := v.num.toNat)
  have hlo : (2 : Rat) ^ (v.den.log2 : Int) ≤ v.den := by
    exact_mod_cast Nat.log2_self_le v.den_nz
  have hden : (0 : Rat) < v.den := by exact_mod_cast v.den_pos
  refine lt_of_mul_lt_mul_right ?_ hden.le
  calc
    v * v.den < 2 ^ ((v.num.toNat.log2 : Int) + 1) := cast_num_toNat hv.le ▸ hhi
    _ = 2 ^ ((v.num.toNat.log2 : Int) - v.den.log2 + 1) * 2 ^ (v.den.log2 : Int) := by
      rw [← two_zpow_add]
      congr 1
      omega
    _ ≤ 2 ^ ((v.num.toNat.log2 : Int) - v.den.log2 + 1) * v.den :=
      mul_le_mul_of_nonneg_left hlo (two_zpow_pos _).le

/-- The exponent that is chosen for a value is that of its grid. -/
theorem onGrid_gridExponent (hv : 0 < v) : OnGrid v (gridExponent v) := by
  have hlo := two_zpow_log2_le hv
  have hhi := lt_two_zpow_log2 hv
  simp only [gridExponent]
  generalize hq : max (-1074) ((v.num.toNat.log2 : Int) - v.den.log2 - 53) = q
  have hunits : (inUnits v q).1 / (inUnits v q).2 < Nat.pow 2 53 ↔ v < 2 ^ (53 : Int) * 2 ^ q := by
    have hpos : (0 : Rat) < (inUnits v q).2 := by exact_mod_cast inUnits_pos v q
    rw [Nat.div_lt_iff_lt_mul (inUnits_pos v q), ← Nat.cast_lt (α := Rat), Nat.cast_mul,
      inUnits_eq hv.le, mul_lt_mul_iff_left₀ hpos, div_lt_iff₀ (two_zpow_pos q)]
    norm_num
  by_cases hsmall : v < 2 ^ (53 : Int) * 2 ^ q
  · rw [if_pos (hunits.mpr hsmall)]
    refine ⟨by omega, hsmall, fun hleast => ?_⟩
    rw [← two_zpow_add]
    exact (two_zpow_le (by omega)).trans hlo
  · -- the guess was one too low
    rw [if_neg (fun h => hsmall (hunits.mp h))]
    rw [not_lt, ← two_zpow_add] at hsmall
    refine ⟨by omega, ?_, fun _ => ?_⟩
    · rw [← two_zpow_add]
      exact hhi.trans_le (two_zpow_le (by omega))
    · rw [← two_zpow_add]
      exact (two_zpow_le (by omega)).trans hsmall

/-! ## The nearest code -/

/-- The nearest code, from any fraction for the value in units of its grid. -/
theorem OnGrid.nearest_eq (hq : OnGrid v q) (hv : 0 < v) {num den : Nat} (hden : 0 < den)
    (h : (num : Rat) = v / 2 ^ q * den) : nearest v = pack (roundHalfEven num den) q := by
  have hnum : v.num ≠ 0 := (Rat.num_pos.mpr hv).ne'
  have hround : roundHalfEven (inUnits v q).1 (inUnits v q).2 = roundHalfEven num den := by
    apply roundHalfEven_congr (inUnits_pos v q) hden
    rw [← Nat.cast_inj (R := Rat), Nat.cast_mul, Nat.cast_mul, inUnits_eq hv.le, h]
    ring
  rw [nearest, if_neg hnum]
  simp only [(onGrid_gridExponent hv).unique hq, hround]

theorem nearest_zero : nearest 0 = 0 := by decide +kernel

/-- A mantissa never needs more than one carry. -/
theorem OnGrid.roundHalfEven_le (hq : OnGrid v q) {num den : Nat} (hden : 0 < den)
    (h : (num : Rat) = v / 2 ^ q * den) : roundHalfEven num den ≤ Nat.pow 2 53 := by
  have hlt : num / den < Nat.pow 2 53 := by
    have hpos : (0 : Rat) < den := by exact_mod_cast hden
    rw [Nat.div_lt_iff_lt_mul hden, ← Nat.cast_lt (α := Rat), Nat.cast_mul, h,
      mul_lt_mul_iff_left₀ hpos, div_lt_iff₀ (two_zpow_pos q)]
    have hlt := hq.lt
    norm_num at hlt ⊢
    exact hlt
  exact (roundHalfEven_bounds num den).2.trans hlt

theorem OnGrid.le_roundHalfEven (hq : OnGrid v q) (hleast : -1074 < q) {num den : Nat}
    (hden : 0 < den) (h : (num : Rat) = v / 2 ^ q * den) :
    Nat.pow 2 52 ≤ roundHalfEven num den := by
  refine le_trans ?_ (roundHalfEven_bounds num den).1
  have hpos : (0 : Rat) < den := by exact_mod_cast hden
  rw [Nat.le_div_iff_mul_le hden, ← Nat.cast_le (α := Rat), Nat.cast_mul, h,
    mul_le_mul_iff_left₀ hpos, le_div_iff₀ (two_zpow_pos q)]
  have hle := hq.le hleast
  norm_num at hle ⊢
  exact hle

/-- **Rounding follows the order of the values.** -/
theorem nearest_mono (hu : 0 ≤ u) (h : u ≤ v) : nearest u ≤ nearest v := by
  rcases hu.eq_or_lt with rfl | hu
  · rw [nearest_zero]
    exact Nat.zero_le _
  · have hv : 0 < v := hu.trans_le h
    have hgu := onGrid_gridExponent hu
    have hgv := onGrid_gridExponent hv
    rw [hgu.nearest_eq hu (inUnits_pos u _) (inUnits_eq hu.le _),
      hgv.nearest_eq hv (inUnits_pos v _) (inUnits_eq hv.le _)]
    rcases (hgu.mono hgv h).eq_or_lt with heq | hlt
    · rw [heq]
      refine Nat.add_le_add_left (roundHalfEven_mono (inUnits_pos u _) (inUnits_pos v _) ?_) _
      rw [← Nat.cast_le (α := Rat), Nat.cast_mul, Nat.cast_mul, inUnits_eq hu.le, inUnits_eq hv.le]
      have hdiv : u / 2 ^ gridExponent v ≤ v / 2 ^ gridExponent v :=
        div_le_div_of_nonneg_right h (two_zpow_pos _).le
      calc
        u / 2 ^ gridExponent v * ((inUnits u (gridExponent v)).2 : Rat) *
              (inUnits v (gridExponent v)).2
            ≤ v / 2 ^ gridExponent v * (inUnits u (gridExponent v)).2 *
              (inUnits v (gridExponent v)).2 := by gcongr
        _ = v / 2 ^ gridExponent v * (inUnits v (gridExponent v)).2 *
              (inUnits u (gridExponent v)).2 := by ring
    · -- the greatest mantissa of the finer grid is the least one of the next
      have hleast := hgu.least
      have hle := hgu.roundHalfEven_le (inUnits_pos u _) (inUnits_eq hu.le _)
      have hge := hgv.le_roundHalfEven (by omega) (inUnits_pos v _) (inUnits_eq hv.le _)
      simp only [pack, Nat.pow_eq] at hle hge ⊢
      omega

/-- A code stands for a value on the grid of its exponent. -/
theorem onGrid_value (b : Nat) : OnGrid (value b) (unpack b).2 := by
  obtain ⟨hlt, hleast, hle⟩ := unpack_bounds b
  rw [value, scaled_eq]
  refine ⟨hleast, ?_, fun h => ?_⟩
  · have hcast : ((unpack b).1 : Rat) < 2 ^ (53 : Int) := by exact_mod_cast hlt
    exact mul_lt_mul_of_pos_right hcast (two_zpow_pos _)
  · have hcast : (2 : Rat) ^ (52 : Int) ≤ (unpack b).1 := by exact_mod_cast hle h
    exact mul_le_mul_of_nonneg_right hcast (two_zpow_pos _).le

theorem value_pos {b : Nat} (hb : 0 < b) : 0 < value b := by
  have hpos : (0 : Rat) < (unpack b).1 := by exact_mod_cast unpack_mantissa_pos hb.ne'
  rw [value, scaled_eq]
  exact mul_pos hpos (two_zpow_pos _)

/-- **A value that has a code is rounded to that code.** -/
theorem nearest_value (b : Nat) : nearest (value b) = b := by
  rcases Nat.eq_zero_or_pos b with rfl | hb
  · rw [value_zero, nearest_zero]
  · have hunits : (((unpack b).1 * 1 : Nat) : Rat) =
        value b / 2 ^ (unpack b).2 * (1 : Nat) := by
      rw [value, scaled_eq, Nat.mul_one, Nat.cast_one]
      field_simp
    rw [(onGrid_value b).nearest_eq (value_pos hb) Nat.one_pos hunits,
      roundHalfEven_mul _ Nat.one_pos, pack_unpack]

/-- The values of codes are ordered as the codes are. -/
theorem value_mono {b c : Nat} (h : b ≤ c) : value b ≤ value c := by
  by_contra hlt
  have hle := nearest_mono (value_nonneg c) (not_le.mp hlt).le
  rw [nearest_value, nearest_value] at hle
  exact hlt (le_of_eq (congrArg value (Nat.le_antisymm h hle)))

/-- What exceeds a number by less than half a unit is rounded to it. -/
theorem nearest_eq_of_lt {b : Nat} {w : Rat} (hb : 0 < b) (hlo : value b ≤ w)
    (hhi : w < value b + 2 ^ (unpack b).2 / 2) : nearest w = b := by
  have hw : 0 < w := (value_pos hb).trans_le hlo
  have hgrid := onGrid_value b
  have hmantissa := (unpack_bounds b).1
  have hpack := pack_unpack b
  have hunit := two_zpow_pos (unpack b).2
  rw [value, scaled_eq] at hlo hhi
  generalize hm : (unpack b).1 = m at *
  generalize hq : (unpack b).2 = q at *
  have hlt : (m : Rat) + 1 ≤ 2 ^ (53 : Int) := by exact_mod_cast hmantissa
  have honGrid : OnGrid w q := by
    refine ⟨hgrid.least, ?_, fun hleast => ?_⟩
    · nlinarith
    · have hle := hgrid.le hleast
      rw [value, scaled_eq, hm, hq] at hle
      exact hle.trans hlo
  have hunits := inUnits_eq hw.le q
  have hden : (0 : Rat) < (inUnits w q).2 := by exact_mod_cast inUnits_pos w q
  rw [honGrid.nearest_eq hw (inUnits_pos w q) hunits, ← hpack]
  congr 1
  apply roundHalfEven_of_lt
  · rw [← Nat.cast_le (α := Rat), Nat.cast_mul, hunits]
    exact mul_le_mul_of_nonneg_right ((le_div_iff₀ hunit).mpr hlo) hden.le
  · have hquot : w / 2 ^ q < m + 1 / 2 := (div_lt_iff₀ hunit).mpr (by linarith)
    rw [← Nat.cast_lt (α := Rat), Nat.cast_mul, Nat.cast_mul, hunits]
    push_cast
    nlinarith

/-- The next code has the next mantissa, which may be carried to the next exponent. -/
theorem unpack_succ (b : Nat) : unpack (b + 1) = ((unpack b).1 + 1, (unpack b).2) ∨
    (unpack b).1 + 1 = 2 ^ 53 ∧ unpack (b + 1) = (2 ^ 52, (unpack b).2 + 1) := by
  simp only [unpack, Nat.pow_eq]
  split
  · rw [if_pos (by omega)]
    exact .inl rfl
  · split <;> simp only [Prod.mk.injEq] <;> omega

/-- From a code to the next, a number grows by one unit. -/
theorem value_succ (b : Nat) : value (b + 1) = value b + 2 ^ (unpack b).2 := by
  have hunit : (((unpack b).1 + 1 : Nat) : Rat) * 2 ^ (unpack b).2 =
      value b + 2 ^ (unpack b).2 := by
    rw [value, scaled_eq]
    push_cast
    ring
  rw [← hunit, value, scaled_eq]
  rcases unpack_succ b with hnext | ⟨hcarry, hnext⟩
  · rw [hnext]
  · rw [hnext, hcarry, zpow_add_one₀ two_ne_zero]
    push_cast
    ring

/-- Above the numbers with few bits, rounding adds half a unit of 53 bits at most. -/
theorem value_nearest_le {v : Rat} (hv : value (Nat.pow 2 52) ≤ v) :
    value (nearest v) ≤ v * (1 + 2 ^ (-53 : Int)) := by
  have hlarge : Nat.pow 2 52 ≤ nearest v := by
    have hle := nearest_mono (value_nonneg _) hv
    rwa [nearest_value] at hle
  have hpos := (value_pos (Nat.pow_pos (by decide))).trans_le hv
  rcases hlarge.eq_or_lt with heq | hlt
  · rw [← heq]
    refine hv.trans (le_mul_of_one_le_right hpos.le ?_)
    norm_num
  · obtain ⟨b, hb⟩ := Nat.exists_eq_add_one_of_ne_zero (Nat.ne_zero_of_lt hlt)
    have hnormal : Nat.pow 2 52 ≤ b := by omega
    -- what is nearer to the code before would be rounded to that one
    have hbelow : value b + 2 ^ (unpack b).2 / 2 ≤ v := by
      by_contra hlow
      rcases le_total v (value b) with hle | hge
      · have hmono := nearest_mono hpos.le hle
        rw [nearest_value] at hmono
        omega
      · have hnear := nearest_eq_of_lt ((Nat.pow_pos (by decide)).trans_le hnormal) hge
          (not_le.mp hlow)
        omega
    have hunit : (2 : Rat) ^ (unpack b).2 / 2 ≤ value b * 2 ^ (-53 : Int) := by
      have hmantissa : ((2 ^ 52 : Nat) : Rat) ≤ (unpack b).1 := by
        rw [unpack_of_le hnormal]
        exact_mod_cast Nat.le_add_left _ _
      have hle := mul_le_mul_of_nonneg_right hmantissa (two_zpow_pos (unpack b).2).le
      rw [value, scaled_eq]
      norm_num at hle ⊢
      linarith
    have hhalf : (0 : Rat) ≤ 2 ^ (unpack b).2 / 2 := div_nonneg (two_zpow_pos _).le two_pos.le
    have hle : value b ≤ v := (le_add_of_nonneg_right hhalf).trans hbelow
    rw [hb, value_succ]
    calc
      value b + 2 ^ (unpack b).2 = value b + 2 ^ (unpack b).2 / 2 + 2 ^ (unpack b).2 / 2 := by ring
      _ ≤ v + value b * 2 ^ (-53 : Int) := add_le_add hbelow hunit
      _ ≤ v + v * 2 ^ (-53 : Int) := by gcongr
      _ = v * (1 + 2 ^ (-53 : Int)) := by ring

end TernaryBelief.Binary64
