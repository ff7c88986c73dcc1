import TernaryBelief.Decimal.Layout
import TernaryBelief.Decimal.Reading
import TernaryBelief.Proofs.MachineNumbers
import TernaryBelief.Proofs.Rounding

/-!
# Numbers read back from decimals

A decimal has the code of the number nearest to its value, also where its exponent alone decides
(`Decimal.min_code`), so the code is the same however the digits are set out (`Layout.value_set`).
The decimal that is written for a number has the code of that number: on a grid this is checked, and
if no grid were fine enough, the exact value would be written (`Decimal.code_shortest`). So a finite
number is the one that is nearest to its numeral (`Layout.nearest?_numeral`).
-/

namespace TernaryBelief

open Binary64 (infinity nearest)

/-! ## Values of decimals -/

namespace Decimal

theorem ten_zpow_pos (e : Int) : (0 : Rat) < 10 ^ e := zpow_pos (by norm_num) e

theorem value_eq (d : Decimal) : d.value = d.digits * (10 : Rat) ^ d.exponent := by
  have hne : ((Nat.pow 10 (-d.exponent).toNat : Nat) : Rat) ≠ 0 := by
    exact_mod_cast (Nat.pow_pos (by decide)).ne'
  rw [value, Rat.mkRat_eq_div, Int.cast_natCast, Nat.cast_mul, Binary64.pow_toNat_eq 10,
    Nat.cast_ofNat]
  field_simp

theorem value_nonneg (d : Decimal) : 0 ≤ d.value := by
  rw [value_eq]
  exact mul_nonneg (Nat.cast_nonneg _) (ten_zpow_pos _).le

/-- A large exponent makes a decimal too large. -/
theorem infinity_le_nearest {d : Decimal} (hd : d.digits ≠ 0) (he : 309 < d.exponent) :
    infinity ≤ nearest d.value := by
  have hlimit : infinity ≤ nearest (10 ^ (310 : Int)) := by decide +kernel
  have hdigits : (1 : Rat) ≤ d.digits := by exact_mod_cast Nat.pos_of_ne_zero hd
  refine hlimit.trans (Binary64.nearest_mono (ten_zpow_pos _).le ?_)
  rw [value_eq]
  calc
    (10 : Rat) ^ (310 : Int) ≤ 10 ^ d.exponent := zpow_le_zpow_right₀ (by norm_num) (by omega)
    _ ≤ d.digits * 10 ^ d.exponent := le_mul_of_one_le_left (ten_zpow_pos _).le hdigits

/-- A decimal far below the least number is read as zero. -/
theorem nearest_eq_zero {d : Decimal} (he : (d.digits.log2 : Int) + 1 + d.exponent < -330) :
    nearest d.value = 0 := by
  have hlimit : nearest (10 ^ (-331 : Int)) = 0 := by decide +kernel
  have hdigits : (d.digits : Rat) ≤ 10 ^ ((d.digits.log2 : Int) + 1) := by
    have hpow : d.digits ≤ 10 ^ (d.digits.log2 + 1) :=
      Nat.lt_log2_self.le.trans (Nat.pow_le_pow_left (by decide) _)
    exact_mod_cast hpow
  have hle : d.value ≤ 10 ^ (-331 : Int) := by
    rw [value_eq]
    calc
      (d.digits : Rat) * 10 ^ d.exponent
          ≤ 10 ^ ((d.digits.log2 : Int) + 1) * 10 ^ d.exponent := by
        exact mul_le_mul_of_nonneg_right hdigits (ten_zpow_pos _).le
      _ = 10 ^ ((d.digits.log2 : Int) + 1 + d.exponent) := (zpow_add₀ (by norm_num) _ _).symm
      _ ≤ 10 ^ (-331 : Int) := zpow_le_zpow_right₀ (by norm_num) (by omega)
  exact Nat.le_zero.mp (hlimit ▸ Binary64.nearest_mono (value_nonneg d) hle)

/-- A decimal is read as the nearest number, or is too large. -/
theorem min_code (d : Decimal) : min d.code infinity = min (nearest d.value) infinity := by
  unfold code
  split
  · next hzero =>
    have hvalue : d.value = 0 := by rw [value_eq, hzero, Nat.cast_zero, zero_mul]
    rw [hvalue, Binary64.nearest_zero]
  · next hdigits =>
    split
    · next he => rw [Nat.min_self, Nat.min_eq_right (infinity_le_nearest hdigits he)]
    · split
      · next he => rw [nearest_eq_zero he]
      · rfl

/-! ## The decimal that is written -/

/-- What is taken on a grid reads back, and it is one of the two neighbours. -/
theorem of_onGrid? {tie : Tie} {b : Nat} {e : Int} {d : Decimal} (h : onGrid? tie b e = some d) :
    d.code = b ∧ d.exponent = e ∧
      d.digits ≤ (inUnits (Binary64.value b) e).1 / (inUnits (Binary64.value b) e).2 + 1 := by
  simp only [onGrid?] at h
  generalize (inUnits (Binary64.value b) e).1 / (inUnits (Binary64.value b) e).2 = n at *
  -- in every case the candidate that is taken has been read
  split at h
  · cases h
  · next hbelow _ =>
    cases h
    exact ⟨of_decide_eq_true hbelow, rfl, Nat.le_succ n⟩
  · next habove =>
    cases h
    exact ⟨of_decide_eq_true habove, rfl, Nat.le_refl _⟩
  · next hbelow habove =>
    have hread := of_decide_eq_true hbelow
    have hread' := of_decide_eq_true habove
    split at h
    · cases h
      exact ⟨hread, rfl, Nat.le_succ n⟩
    · cases h
      exact ⟨hread', rfl, Nat.le_refl _⟩
    · split at h
      · cases h
        exact ⟨hread', rfl, Nat.le_refl _⟩
      · cases h
        split
        · exact ⟨hread, rfl, Nat.le_succ n⟩
        · exact ⟨hread', rfl, Nat.le_refl _⟩

theorem value_exact (m : Nat) (q : Int) : (exact m q).value = m * (2 : Rat) ^ q := by
  rw [value_eq]
  unfold exact
  split
  · next hq =>
    obtain ⟨n, rfl⟩ := Int.eq_ofNat_of_zero_le hq
    simp
  · next hq =>
    obtain ⟨n, rfl⟩ := Int.exists_eq_neg_ofNat (by omega : q ≤ 0)
    simp only [neg_neg, Int.toNat_natCast, Nat.pow_eq, zpow_neg, zpow_natCast]
    push_cast
    rw [show (10 : Rat) = 2 * 5 by norm_num, mul_pow]
    field_simp

/-- The exact decimal is neither large nor small enough to be read from its exponent alone. -/
theorem code_exact {m : Nat} (hm : 0 < m) (q : Int) :
    (exact m q).code = nearest (m * 2 ^ q) := by
  have hexact := value_exact m q
  have hdigits : (exact m q).digits ≠ 0 := by
    unfold exact
    split
    · exact (Nat.mul_pos hm (Nat.pow_pos (by decide))).ne'
    · exact (Nat.mul_pos hm (Nat.pow_pos (by decide))).ne'
  have hlarge : ¬ 309 < (exact m q).exponent := by
    unfold exact
    split <;> simp only <;> omega
  have hsmall : ¬ ((exact m q).digits.log2 : Int) + 1 + (exact m q).exponent < -330 := by
    unfold exact
    split
    · simp only
      omega
    · next hq =>
      have hpow : 2 ^ (-q).toNat ≤ m * 5 ^ (-q).toNat :=
        (Nat.pow_le_pow_left (by decide) _).trans (Nat.le_mul_of_pos_left _ hm)
      have hlog := (Nat.le_log2 (Nat.mul_pos hm (Nat.pow_pos (by decide))).ne').mpr hpow
      simp only [Nat.pow_eq]
      omega
  rw [code, if_neg hdigits, if_neg hlarge, if_neg hsmall, hexact]

/-- **The decimal that is written for a number is read as that number.** -/
theorem code_shortest (tie : Tie) (b : Nat) : (shortest tie b).code = b := by
  unfold shortest
  split
  · next hzero =>
    rw [hzero]
    rfl
  · next hb =>
    simp only
    cases h : (gridExponents (Binary64.unpack b).1 (Binary64.unpack b).2).findSome?
        (onGrid? tie b) with
    | some d =>
      obtain ⟨e, -, he⟩ := List.exists_of_findSome?_eq_some h
      exact (of_onGrid? he).1
    | none =>
      -- no grid was fine enough, so the exact value is written
      show (exact _ _).code = b
      rw [code_exact (Binary64.unpack_mantissa_pos hb), ← Binary64.scaled_eq]
      exact Binary64.nearest_value b

end Decimal

/-! ## Layouts -/

namespace Layout

/-- The layout of a decimal does not change its value. -/
theorem value_set (l : Layout) (negative : Bool) (d : Decimal) :
    Decimal.value ⟨(l.set negative d).significand, (l.set negative d).scale⟩ = d.value := by
  have hcount : 0 < (Nat.toDigits 10 d.digits).length := Nat.length_toDigits_pos
  rw [Decimal.value_eq, Decimal.value_eq]
  simp only [set]
  split
  · split
    · next he =>
      obtain ⟨n, hn⟩ := Int.eq_ofNat_of_zero_le he
      simp only [Numeral.scale, Option.getD_none, hn, Int.toNat_natCast, Nat.pow_eq]
      push_cast
      rw [zero_sub, zpow_neg, zpow_natCast, zpow_natCast, pow_add]
      field_simp
    · next he =>
      have hscale : Numeral.scale ⟨negative, d.digits, (-d.exponent).toNat, none⟩ = d.exponent := by
        simp only [Numeral.scale, Option.getD_none]
        omega
      rw [hscale]
  · have hscale : Numeral.scale ⟨negative, d.digits, (Nat.toDigits 10 d.digits).length - 1,
        some (((Nat.toDigits 10 d.digits).length : Int) + d.exponent - 1)⟩ = d.exponent := by
      simp only [Numeral.scale, Option.getD_some]
      omega
    rw [hscale]

theorem negative_set (l : Layout) (negative : Bool) (d : Decimal) :
    (l.set negative d).negative = negative := by
  simp only [set]
  split
  · split <;> rfl
  · rfl

/-- The value of the numeral of a finite number is rounded to that number. -/
theorem nearest_value_numeral (l : Layout) {x : Float} (hx : x.isFinite = true) :
    nearest (Decimal.value ⟨(l.numeral x).significand, (l.numeral x).scale⟩) =
      Binary64.code x := by
  have hlt := Binary64.isFinite_iff.mp hx
  have hwritten := Decimal.min_code (Decimal.shortest l.tie (Binary64.code x))
  rw [Decimal.code_shortest] at hwritten
  rw [numeral, value_set]
  omega

/-- **A finite number is the one nearest to its numeral.** -/
theorem nearest?_numeral (l : Layout) {x : Float} (hx : x.isFinite = true) :
    (l.numeral x).nearest? = some x := by
  have hlt := Binary64.isFinite_iff.mp hx
  have hread := Decimal.min_code ⟨(l.numeral x).significand, (l.numeral x).scale⟩
  rw [nearest_value_numeral l hx] at hread
  -- both readings are cut at infinity, below which the code of a finite number lies
  have hcode : Decimal.code ⟨(l.numeral x).significand, (l.numeral x).scale⟩ = Binary64.code x := by
    omega
  have hsign : (l.numeral x).negative = Binary64.sign x := negative_set _ _ _
  rw [Numeral.nearest?, hcode, hsign, if_pos hlt, Binary64.ofCode_code hx]

end Layout

theorem Numeral.isFinite_of_nearest? {n : Numeral} {x : Float} (h : n.nearest? = some x) :
    x.isFinite = true := by
  simp only [nearest?] at h
  split at h
  · next hlt =>
    cases h
    exact Binary64.isFinite_ofCode _ hlt
  · cases h

end TernaryBelief
