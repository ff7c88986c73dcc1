import TernaryBelief.Proofs.History
import TernaryBelief.Proofs.MachineArithmetic

/-!
# Uncertainties as machine numbers

The uncertainty of a chain is counted up one by one, and a machine number stops growing when one
more no longer counts. So uncertainties stay below a bound (`Chain.bits_conclude_le`), sums of them
below another, and the mean uncertainty of an evaluator is a finite number
(`Evaluator.bits_phi_le`), however many chains it has run and however long they were. Up to `2 ^ 53`
nothing is lost: the machine counts as natural numbers count (`Scalar.counts_float`).
-/

namespace TernaryBelief

namespace Binary64

variable {x y x' y' : Float}

/-! ## Sums in order -/

/-- Sums follow the order of their terms. -/
theorem bits_add_mono (hx : bits x ≤ bits x') (hy : bits y ≤ bits y') (hx' : bits x' < infinity)
    (hy' : bits y' < infinity) : bits (x + y) ≤ bits (x' + y') := by
  rw [bits_add (hx.trans_lt hx') (hy.trans_lt hy'), bits_add hx' hy']
  have hle := nearest_mono (add_nonneg (value_nonneg (bits x)) (value_nonneg (bits y)))
    (add_le_add (value_mono hx) (value_mono hy))
  omega

/-- Where a bound absorbs what is added, a sum stays below the bound. -/
theorem bits_add_le {a b : Nat} (ha : a < infinity) (hb : b < infinity)
    (habsorbs : nearest (value a + value b) = a) (hx : bits x ≤ a) (hy : bits y ≤ b) :
    bits (x + y) ≤ a := by
  rw [bits_add (hx.trans_lt ha) (hy.trans_lt hb)]
  have hle := nearest_mono (add_nonneg (value_nonneg (bits x)) (value_nonneg (bits y)))
    (add_le_add (value_mono hx) (value_mono hy))
  omega

/-! ## Bounds -/

/-- The code of one. -/
def one : Nat := 1023 * Nat.pow 2 52

/-- The code of `2 ^ 53`, from where on the addition of one is lost. -/
def countBound : Nat := 1076 * Nat.pow 2 52

/-- The code of `2 ^ 107`, from where on the addition of a count is lost. -/
def totalBound : Nat := 1130 * Nat.pow 2 52

theorem nearest_countBound : nearest (value countBound + value one) = countBound := by
  decide +kernel

theorem nearest_totalBound : nearest (value totalBound + value countBound) = totalBound := by
  decide +kernel

theorem value_one : value one = 1 := by decide +kernel

theorem bits_zero : bits 0.0 = 0 := by decide +kernel

theorem bits_uncertainty (t : Trit) :
    bits (t.uncertainty : Float) = if t.isUnknown then one else 0 := by
  cases t <;> decide +kernel

theorem bits_uncertainty_le (t : Trit) : bits (t.uncertainty : Float) ≤ one := by
  rw [bits_uncertainty]
  split
  · exact Nat.le_refl one
  · exact Nat.zero_le one

/-- A sum of counts stays below the bound. -/
theorem bits_total_le {xs : List Float} (hne : xs ≠ []) (hxs : ∀ x ∈ xs, bits x ≤ countBound) :
    bits (Scalar.total xs) ≤ totalBound := by
  have hfold (start : Float) (hstart : bits start ≤ totalBound) (xs : List Float)
      (hxs : ∀ x ∈ xs, bits x ≤ countBound) : bits (xs.foldl (· + ·) start) ≤ totalBound := by
    induction xs generalizing start with
    | nil => exact hstart
    | cons x xs ih =>
      have hadd : bits (start + x) ≤ totalBound :=
        bits_add_le (by decide) (by decide) nearest_totalBound hstart (hxs x List.mem_cons_self)
      exact ih _ hadd fun y hy => hxs y (List.mem_cons_of_mem x hy)
  -- a sum starts from negative zero, which the first summand replaces
  cases xs with
  | nil => exact absurd rfl hne
  | cons x xs =>
    have hx := hxs x List.mem_cons_self
    refine hfold _ ?_ xs fun y hy => hxs y (List.mem_cons_of_mem x hy)
    show bits (-(0.0 : Float) + x) ≤ totalBound
    rw [neg_zero_add (hx.trans_lt (by decide))]
    exact hx.trans (by decide)

/-- To divide by one or more does not make a number larger. -/
theorem bits_div_le (hx : bits x < infinity) (hy : bits y < infinity) (hone : one ≤ bits y) :
    bits (x / y) ≤ bits x := by
  have hvalue : 1 ≤ value (bits y) := value_one ▸ value_mono hone
  rw [bits_div hx hy (Nat.lt_of_lt_of_le (by decide) hone)]
  have hle : value (bits x) / value (bits y) ≤ value (bits x) :=
    (div_le_iff₀ (zero_lt_one.trans_le hvalue)).mpr
      (le_mul_of_one_le_right (value_nonneg (bits x)) hvalue)
  have hquot := nearest_mono (div_nonneg (value_nonneg (bits x)) (zero_le_one.trans hvalue)) hle
  rw [nearest_value] at hquot
  exact (Nat.min_le_left _ _).trans hquot

/-- To divide by a count that is not zero does not make a number larger. -/
theorem bits_div_ofNat_le (hx : bits x < infinity) (n : Nat) :
    bits (x / Float.ofNat (n + 1)) ≤ bits x := by
  have hcount := bits_ofNat (n + 1)
  have hone : nearest (((n + 1 : Nat) : Rat)) ≥ one := by
    have hle : nearest 1 ≤ nearest (((n + 1 : Nat) : Rat)) :=
      nearest_mono zero_le_one (by exact_mod_cast Nat.le_add_left 1 n)
    rwa [← value_one, nearest_value] at hle
  rcases Nat.lt_or_ge (bits (Float.ofNat (n + 1))) infinity with hlt | hge
  · refine bits_div_le hx hlt ?_
    rw [hcount]
    exact Nat.le_min.mpr ⟨hone, by decide⟩
  · -- a count beyond all finite numbers is infinite, and the quotient is zero
    have heq : bits (Float.ofNat (n + 1)) = infinity := by omega
    rw [bits_div_infinity hx heq]
    exact Nat.zero_le _

/-! ## Exact counts -/

theorem unpack_pack {m : Nat} {q : Int} (hlo : Nat.pow 2 52 ≤ m) (hhi : m < Nat.pow 2 53)
    (hq : -1074 ≤ q) : unpack (pack m q) = (m, q) := by
  simp only [Nat.pow_eq] at hlo hhi
  have hle : Nat.pow 2 52 ≤ pack m q := by
    simp only [pack, Nat.pow_eq]
    omega
  rw [unpack_of_le hle]
  simp only [pack, Nat.pow_eq, Prod.mk.injEq]
  omega

/-- Up to `2 ^ 53`, every count has a code. -/
theorem exists_value_eq_natCast {n : Nat} (hn : n ≤ 2 ^ 53) : ∃ b, value b = (n : Rat) := by
  rcases Nat.eq_zero_or_pos n with rfl | hpos
  · exact ⟨0, value_zero⟩
  rcases hn.lt_or_eq with hlt | rfl
  · -- the count is shifted until it fills a mantissa
    have hlog : n.log2 < 53 := (Nat.log2_lt hpos.ne').mpr hlt
    have hlo : 2 ^ 52 ≤ n * 2 ^ (52 - n.log2) := by
      calc
        2 ^ 52 = 2 ^ n.log2 * 2 ^ (52 - n.log2) := by rw [← pow_add]; congr 1; omega
        _ ≤ n * 2 ^ (52 - n.log2) := Nat.mul_le_mul_right _ (Nat.log2_self_le hpos.ne')
    have hhi : n * 2 ^ (52 - n.log2) < 2 ^ 53 := by
      calc
        n * 2 ^ (52 - n.log2) < 2 ^ (n.log2 + 1) * 2 ^ (52 - n.log2) :=
          Nat.mul_lt_mul_of_pos_right Nat.lt_log2_self (Nat.two_pow_pos _)
        _ = 2 ^ 53 := by rw [← pow_add]; congr 1; omega
    refine ⟨pack (n * 2 ^ (52 - n.log2)) (-((52 - n.log2 : Nat) : Int)), ?_⟩
    rw [value, unpack_pack hlo hhi (by omega), scaled_eq, zpow_neg, zpow_natCast, Nat.cast_mul]
    have hne : ((2 ^ (52 - n.log2) : Nat) : Rat) ≠ 0 := by positivity
    push_cast at hne ⊢
    field_simp
  · exact ⟨countBound, by decide +kernel⟩

theorem value_nearest_natCast {n : Nat} (hn : n ≤ 2 ^ 53) : value (nearest (n : Rat)) = n := by
  obtain ⟨b, hb⟩ := exists_value_eq_natCast hn
  rw [← hb, nearest_value]

theorem nearest_natCast_le {n : Nat} (hn : n ≤ 2 ^ 53) : nearest (n : Rat) ≤ countBound := by
  have hbound : nearest ((2 ^ 53 : Nat) : Rat) = countBound := by decide +kernel
  rw [← hbound]
  exact nearest_mono (Nat.cast_nonneg n) (by exact_mod_cast hn)

theorem bits_ofNat_of_small {n : Nat} (hn : n ≤ 2 ^ 53) :
    bits (Float.ofNat n) = nearest (n : Rat) := by
  have hbound : countBound < infinity := by decide
  have hle := nearest_natCast_le hn
  rw [bits_ofNat]
  omega

/-- Up to `2 ^ 53`, the machine adds counts exactly. -/
theorem ofNat_add_ofNat {m n : Nat} (h : m + n ≤ 2 ^ 53) :
    Float.ofNat m + Float.ofNat n = Float.ofNat (m + n) := by
  have hfinite {k : Nat} (hk : k ≤ 2 ^ 53) : bits (Float.ofNat k) < infinity := by
    rw [bits_ofNat_of_small hk]
    exact (nearest_natCast_le hk).trans_lt (by decide)
  have hm : m ≤ 2 ^ 53 := by omega
  have hn : n ≤ 2 ^ 53 := by omega
  apply eq_of_toBits_eq
  show bits (Float.ofNat m + Float.ofNat n) = bits (Float.ofNat (m + n))
  rw [bits_add (hfinite hm) (hfinite hn), bits_ofNat_of_small hm, bits_ofNat_of_small hn,
    value_nearest_natCast hm, value_nearest_natCast hn, bits_ofNat, Nat.cast_add]

end Binary64

namespace Scalar

/-- Up to a bound, counts are added as natural numbers are. -/
structure Counts (α : Type) [Scalar α] (bound : Nat) : Prop where
  zero : (0.0 : α) = ofCount 0
  one : (1.0 : α) = ofCount 1
  add {m n : Nat} : m + n ≤ bound → (ofCount m : α) + ofCount n = ofCount (m + n)

theorem counts_rat (bound : Nat) : Counts Rat bound where
  zero := by decide +kernel
  one := by decide +kernel
  add _ := (Nat.cast_add _ _).symm

theorem counts_float : Counts Float (2 ^ 53) where
  zero := by decide +kernel
  one := by decide +kernel
  add h := Binary64.ofNat_add_ofNat h

end Scalar

open Binary64

/-! ## Chains and their mean -/

/-- However long a chain is, its uncertainty stays below the bound. -/
theorem Chain.bits_conclude_le (first : Trit) (links : List (Connective × Trit)) :
    bits (Chain.conclude (α := Float) first links).uncertainty ≤ countBound := by
  have hfold (c : Conclusion Float) (hc : bits c.uncertainty ≤ countBound) :
      bits (links.foldl Chain.advance c).uncertainty ≤ countBound := by
    induction links generalizing c with
    | nil => exact hc
    | cons link links ih =>
      exact ih _ (bits_add_le (by decide) (by decide) nearest_countBound hc (bits_uncertainty_le _))
  exact hfold ⟨first, 0.0⟩ (bits_zero.trans_le (Nat.zero_le countBound))

theorem Step.Sound.bits_uncertainty_le {s : Step Float} (hs : s.Sound) :
    bits s.uncertainty ≤ countBound := by
  obtain ⟨first, rest, -, hconclude⟩ := hs.exists_conclude
  have hle := Chain.bits_conclude_le first (s.operations.zip rest)
  rwa [hconclude] at hle

namespace Evaluator

/-- **The mean uncertainty is finite.** -/
theorem bits_phi_le {v : Evaluator Float} (hv : ∀ s ∈ v.history, s.Sound) :
    bits v.phi ≤ totalBound := by
  unfold phi
  split
  · exact bits_zero.trans_le (Nat.zero_le totalBound)
  · next hne =>
    have htotal : bits (Scalar.total (v.history.map Step.uncertainty)) ≤ totalBound := by
      refine bits_total_le (fun h => hne ?_) fun x hx => ?_
      · rw [List.map_eq_nil_iff.mp h]
        rfl
      · obtain ⟨s, hs, rfl⟩ := List.mem_map.mp hx
        exact (hv s hs).bits_uncertainty_le
    exact (bits_div_ofNat_le (htotal.trans_lt (by decide)) v.history.length).trans htotal

theorem phi_sub_phi {v : Evaluator Float} (hv : ∀ s ∈ v.history, s.Sound) : v.phi - v.phi = 0.0 :=
  sub_self_of_bits ((bits_phi_le hv).trans_lt (by decide))

end Evaluator

end TernaryBelief
