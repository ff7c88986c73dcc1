import TernaryBelief.Proofs.DecimalReading

/-!
# The digits that are written

Grids of powers of ten are tried from coarse to fine, so a number is written on the first grid with
a neighbour that reads back. A grid that is finer than half a unit of the number always has such a
neighbour, and one of these is among those that are tried (`Decimal.fineExponent`). Hence the exact
value is never written, and the digits that are written fit into 64 bits (`Decimal.shortest_fits`).

## Main definitions

* `Decimal.fineExponent`: the exponent of a grid that is fine enough.
-/

namespace TernaryBelief

open Binary64 (infinity nearest unpack)

namespace Decimal

variable {tie : Tie} {b : Nat} {e : Int} {d : Decimal} {v : Rat}

/-! ## Neighbours on a grid -/

theorem inUnits_pos (v : Rat) (e : Int) : 0 < (inUnits v e).2 :=
  Nat.mul_pos v.den_pos (Nat.pow_pos (by decide))

theorem inUnits_eq (hv : 0 ≤ v) (e : Int) :
    ((inUnits v e).1 : Rat) = v / 10 ^ e * (inUnits v e).2 := by
  have hne : (10 : Rat) ^ e ≠ 0 := (ten_zpow_pos e).ne'
  simp only [inUnits, Nat.cast_mul]
  rw [Binary64.cast_num_toNat hv, Binary64.pow_toNat_eq 10 e, Nat.cast_ofNat]
  field_simp

/-- The two neighbours of a value on the grid `10 ^ e`. -/
theorem floor_bounds (hv : 0 ≤ v) (e : Int) :
    value ⟨(inUnits v e).1 / (inUnits v e).2, e⟩ ≤ v ∧
      v < value ⟨(inUnits v e).1 / (inUnits v e).2 + 1, e⟩ := by
  have hpos : (0 : Rat) < (inUnits v e).2 := by exact_mod_cast inUnits_pos v e
  have hquot : v / 10 ^ e = ((inUnits v e).1 : Rat) / (inUnits v e).2 := by
    rw [inUnits_eq hv, mul_div_cancel_right₀ _ hpos.ne']
  rw [value_eq, value_eq]
  constructor
  · rw [← le_div_iff₀ (ten_zpow_pos e), hquot, le_div_iff₀ hpos]
    exact_mod_cast Nat.div_mul_le_self _ _
  · rw [← div_lt_iff₀ (ten_zpow_pos e), hquot, div_lt_iff₀ hpos]
    exact_mod_cast Nat.lt_mul_of_div_lt (Nat.lt_succ_self _) (inUnits_pos v e)

theorem code_eq_of_nearest (hb : b < infinity) (h : nearest d.value = b) : d.code = b := by
  have hmin := min_code d
  omega

/-- On a grid that is finer than half a unit there is a neighbour that reads back. -/
theorem isSome_onGrid? (tie : Tie) (hb : 0 < b) (hfinite : b < infinity)
    (he : (10 : Rat) ^ e < 2 ^ (unpack b).2 / 2) : (onGrid? tie b e).isSome = true := by
  obtain ⟨hbelow, habove⟩ := floor_bounds (Binary64.value_nonneg b) e
  have hread : code ⟨(inUnits (Binary64.value b) e).1 / (inUnits (Binary64.value b) e).2 + 1, e⟩ =
      b := by
    refine code_eq_of_nearest hfinite (Binary64.nearest_eq_of_lt hb habove.le ?_)
    rw [value_eq] at hbelow ⊢
    push_cast
    linarith
  simp only [onGrid?, hread, decide_true]
  split
  · next hnone => cases hnone
  · next hnone => cases hnone
  · rfl
  · split
    · rfl
    · rfl
    · split <;> rfl

/-! ## Powers of two and of ten -/

/-- Powers of two bases compare as their exponents do, measured in powers of the bases. -/
theorem zpow_lt_zpow_of_pow_le {x y : Rat} (hx : 1 < x) (hy : 0 < y) {m n : Nat}
    (h : x ^ m ≤ y ^ n) {i j : Int} (hj : 0 ≤ j) (hij : n * i < m * j) : x ^ i < y ^ j := by
  have hx' : 0 < x := zero_lt_one.trans hx
  refine lt_of_pow_lt_pow_left₀ n (zpow_pos hy j).le ?_
  calc
    (x ^ i) ^ n = x ^ (n * i) := by rw [← zpow_natCast, ← zpow_mul, mul_comm]
    _ < x ^ (m * j) := zpow_lt_zpow_right₀ hx hij
    _ = (x ^ m) ^ j := by rw [zpow_mul, zpow_natCast]
    _ ≤ (y ^ n) ^ j := zpow_le_zpow_left₀ hj (pow_pos hx' m).le h
    _ = (y ^ j) ^ n := by rw [← zpow_natCast, ← zpow_mul, mul_comm, zpow_mul, zpow_natCast]

theorem zpow_neg_lt_zpow_neg {x y : Rat} (hx : 0 < x) (hy : 0 < y) {i j : Int} :
    x ^ (-i) < y ^ (-j) ↔ y ^ j < x ^ i := by
  rw [zpow_neg, zpow_neg]
  exact inv_lt_inv₀ (zpow_pos hx i) (zpow_pos hy j)

/-- As `10 ^ 59 ≤ 2 ^ 196` and `2 ^ 93 ≤ 10 ^ 28`, the logarithm of two
to base ten lies between 59 / 196 and 28 / 93. -/
theorem ten_zpow_lt_two_zpow {e k : Int} (hpos : 0 ≤ k → 196 * e < 59 * k)
    (hneg : k ≤ 0 → 93 * e < 28 * k) : (10 : Rat) ^ e < 2 ^ k := by
  rcases Int.le_total 0 k with hk | hk
  · have hbases : (10 : Rat) ^ 59 ≤ 2 ^ 196 := by norm_num
    exact zpow_lt_zpow_of_pow_le (by norm_num) two_pos hbases hk (hpos hk)
  · rw [← zpow_neg_lt_zpow_neg two_pos (by norm_num)]
    have hbases : (2 : Rat) ^ 93 ≤ 10 ^ 28 := by norm_num
    have hlt := hneg hk
    exact zpow_lt_zpow_of_pow_le one_lt_two (by norm_num) hbases (by omega) (by omega)

theorem two_zpow_lt_ten_zpow {e k : Int} (hpos : 0 ≤ k → 28 * k < 93 * e)
    (hneg : k ≤ 0 → 59 * k < 196 * e) : (2 : Rat) ^ k < 10 ^ e := by
  rw [← zpow_neg_lt_zpow_neg (by norm_num) two_pos]
  refine ten_zpow_lt_two_zpow (fun h => ?_) fun h => ?_
  · have hlt := hneg (by omega)
    omega
  · have hlt := hpos (by omega)
    omega

/-! ## A grid that is fine enough -/

/-- The exponent of a grid that is finer than half a unit, for units of `2 ^ q`. The factor is close
to the logarithm of two; half a power of ten less makes up for what is between them. -/
def fineExponent (q : Int) : Int := ((q - 1) * 30103 - 50000) / 100000

theorem fineExponent_bounds {q : Int} (hlo : -1074 ≤ q) (hhi : q ≤ 971) :
    (10 : Rat) ^ fineExponent q < 2 ^ (q - 1) ∧
      (2 : Rat) ^ (q - 1) < 10 ^ (fineExponent q + 2) := by
  unfold fineExponent
  exact ⟨ten_zpow_lt_two_zpow (fun _ => by omega) fun _ => by omega,
    two_zpow_lt_ten_zpow (fun _ => by omega) fun _ => by omega⟩

theorem unpack_exponent_le (hb : b < infinity) : (unpack b).2 ≤ 971 := by
  unfold Binary64.unpack
  simp only [infinity, Nat.pow_eq] at hb ⊢
  split <;> simp only <;> omega

/-- Twenty grids are tried. -/
theorem mem_gridExponents {m : Nat} {q : Int} : e ∈ gridExponents m q ↔
    ((m.log2 : Int) + 1 + q) * 30103 / 100000 - 19 < e ∧
      e ≤ ((m.log2 : Int) + 1 + q) * 30103 / 100000 + 1 := by
  simp only [gridExponents, List.mem_map, List.mem_range,
    Int.fdiv_eq_ediv_of_nonneg _ (show (0 : Int) ≤ 100000 by decide)]
  constructor
  · rintro ⟨i, hi, rfl⟩
    omega
  · intro h
    exact ⟨(((m.log2 : Int) + 1 + q) * 30103 / 100000 + 1 - e).toNat, by omega, by omega⟩

theorem log2_mantissa (hb : 0 < b) :
    (unpack b).1.log2 < 53 ∧ (-1074 < (unpack b).2 → 52 ≤ (unpack b).1.log2) := by
  obtain ⟨hlt, -, hle⟩ := Binary64.unpack_bounds b
  have hne : (unpack b).1 ≠ 0 := (Binary64.unpack_mantissa_pos hb.ne').ne'
  exact ⟨(Nat.log2_lt hne).mpr hlt, fun h => (Nat.le_log2 hne).mpr (hle h)⟩

/-- The grid is among those that are tried. -/
theorem fineExponent_mem (hb : 0 < b) (hfinite : b < infinity) :
    fineExponent (unpack b).2 ∈ gridExponents (unpack b).1 (unpack b).2 := by
  have hleast := (Binary64.unpack_bounds b).2.1
  have hmax := unpack_exponent_le hfinite
  -- a mantissa has 53 bits, or the exponent is the least one, so the first grid is near enough
  obtain ⟨hlog, hlog'⟩ := log2_mantissa hb
  rw [mem_gridExponents, fineExponent]
  omega

/-! ## The decimal that is written -/

theorem pairwise_gridExponents (m : Nat) (q : Int) : (gridExponents m q).Pairwise (· > ·) := by
  simp only [gridExponents]
  rw [List.pairwise_map]
  exact List.pairwise_lt_range.imp fun h => by omega

/-- The decimal that is written for a number lies on a grid that is not finer than need be. -/
theorem shortest_mem_grid (tie : Tie) (hb : 0 < b) (hfinite : b < infinity) :
    ∃ e ∈ gridExponents (unpack b).1 (unpack b).2, fineExponent (unpack b).2 ≤ e ∧
      onGrid? tie b e = some (shortest tie b) := by
  have hleast := (Binary64.unpack_bounds b).2.1
  have hfine := (fineExponent_bounds hleast (unpack_exponent_le hfinite)).1
  have hsome : (onGrid? tie b (fineExponent (unpack b).2)).isSome = true := by
    refine isSome_onGrid? tie hb hfinite ?_
    rwa [zpow_sub_one₀ two_ne_zero, ← div_eq_mul_inv] at hfine
  have hmem := fineExponent_mem hb hfinite
  have hsorted := pairwise_gridExponents (unpack b).1 (unpack b).2
  rw [shortest, if_neg hb.ne']
  simp only
  cases h : (gridExponents (unpack b).1 (unpack b).2).findSome? (onGrid? tie b) with
  | none =>
    have hnone := List.findSome?_eq_none_iff.mp h _ hmem
    rw [hnone] at hsome
    cases hsome
  | some d =>
    obtain ⟨before, e, after, hsplit, he, hbefore⟩ := List.findSome?_eq_some_iff.mp h
    rw [hsplit] at hmem hsorted ⊢
    refine ⟨e, by simp, ?_, he⟩
    -- nothing is found on the grids that are tried before
    rcases List.mem_append.mp hmem with hin | hin
    · rw [hbefore _ hin] at hsome
      cases hsome
    · rcases List.mem_cons.mp hin with heq | hin
      · exact heq.le
      · have hafter := (List.pairwise_append.mp hsorted).2.1
        exact (List.rel_of_pairwise_cons hafter hin).le

/-- Exponents of grids are small. -/
theorem natAbs_le_of_mem_gridExponents (hb : 0 < b) (hfinite : b < infinity)
    (h : e ∈ gridExponents (unpack b).1 (unpack b).2) : e.natAbs ≤ 400 := by
  have hleast := (Binary64.unpack_bounds b).2.1
  have hmax := unpack_exponent_le hfinite
  have hlog := (log2_mantissa hb).1
  rw [mem_gridExponents] at h
  omega

/-- On a grid that is not finer than need be, numbers have few digits. -/
theorem digits_lt_of_fineExponent_le (hfinite : b < infinity)
    (he : fineExponent (unpack b).2 ≤ e) :
    (inUnits (Binary64.value b) e).1 / (inUnits (Binary64.value b) e).2 + 1 < 2 ^ 64 := by
  obtain ⟨hmantissa, hleast, -⟩ := Binary64.unpack_bounds b
  have hunit := (fineExponent_bounds hleast (unpack_exponent_le hfinite)).2
  have hbelow := (floor_bounds (Binary64.value_nonneg b) e).1
  have hpos := ten_zpow_pos e
  generalize (inUnits (Binary64.value b) e).1 / (inUnits (Binary64.value b) e).2 = n at *
  -- a number has less than `2 ^ 53` units, and a unit less than two hundred powers of ten
  have hvalue : Binary64.value b < 2 ^ 53 * (200 * 10 ^ e) := by
    have hmul : ((unpack b).1 : Rat) ≤ 2 ^ 53 := by exact_mod_cast hmantissa.le
    calc
      Binary64.value b = (unpack b).1 * 2 ^ (unpack b).2 := Binary64.scaled_eq _ _
      _ ≤ 2 ^ 53 * 2 ^ (unpack b).2 :=
        mul_le_mul_of_nonneg_right hmul (Binary64.two_zpow_pos _).le
      _ = 2 ^ 53 * (2 * 2 ^ ((unpack b).2 - 1)) := by
        rw [zpow_sub_one₀ two_ne_zero]
        ring
      _ < 2 ^ 53 * (2 * 10 ^ (fineExponent (unpack b).2 + 2)) := by gcongr
      _ ≤ 2 ^ 53 * (2 * 10 ^ (e + 2)) := by
        gcongr
        · norm_num
      _ = 2 ^ 53 * (200 * 10 ^ e) := by
        rw [zpow_add₀ (by norm_num)]
        ring
  rw [value_eq] at hbelow
  have hlt : (n : Rat) < 2 ^ 53 * 200 := by
    refine lt_of_mul_lt_mul_right ?_ hpos.le
    calc
      (n : Rat) * 10 ^ e ≤ Binary64.value b := hbelow
      _ < 2 ^ 53 * 200 * 10 ^ e := by rwa [mul_assoc]
  have hlt' : n < 2 ^ 53 * 200 := by exact_mod_cast hlt
  omega

/-- **The digits that are written for a number fit into 64 bits**, and the exponent is small. -/
theorem shortest_fits (tie : Tie) (hfinite : b < infinity) :
    (shortest tie b).digits < 2 ^ 64 ∧ (shortest tie b).exponent.natAbs ≤ 400 := by
  rcases Nat.eq_zero_or_pos b with rfl | hb
  · exact ⟨Nat.two_pow_pos 64, Nat.zero_le 400⟩
  obtain ⟨e, hmem, hfine, he⟩ := shortest_mem_grid tie hb hfinite
  obtain ⟨-, hexponent, hdigits⟩ := of_onGrid? he
  refine ⟨hdigits.trans_lt (digits_lt_of_fineExponent_le hfinite hfine), ?_⟩
  rw [hexponent]
  exact natAbs_le_of_mem_gridExponents hb hfinite hmem

end Decimal

end TernaryBelief
