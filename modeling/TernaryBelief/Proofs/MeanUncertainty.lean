import Mathlib.Algebra.Order.BigOperators.Group.List
import TernaryBelief.Proofs.Composition

/-!
# The mean uncertainty over a run

The mean uncertainty of an evaluator is damped: the sum of the uncertainties is divided by one more
than there are chains. An uncertainty is the number of unknown running values of a chain
(`Step.unknowns`), so the mean is a quotient of two counts that can be taken from the history, and
an evaluator without chains is no exception to it (`Evaluator.phi_eq`). What leaves nothing in the
history does not change the mean, and the order of the chains does not matter, as no chain starts
from what another one has come to.

That is so for machine numbers too, as long as they count exactly. In exact arithmetic, the mean
moreover tells how it changes with the next chain, and it stays below the greatest uncertainty
(`Evaluator.run_mean`).
-/

namespace TernaryBelief

open Chain (applied running)

variable {α : Type}

/-! ## Uncertainties as counts -/

/-- How many running values of the chain were unknown. -/
def Step.unknowns (s : Step α) : Nat := (running s.premises s.operations).countP Trit.isUnknown

/-- How many running values were unknown in all chains together. -/
def Evaluator.unknowns (v : Evaluator α) : Nat := (v.history.map Step.unknowns).sum

namespace Scalar

variable [Scalar α] {bound : Nat}

theorem Counts.foldl_ofCount (h : Counts α bound) {m : Nat} {ns : List Nat}
    (hb : m + ns.sum ≤ bound) :
    (ns.map ofCount).foldl (· + ·) (ofCount m : α) = ofCount (m + ns.sum) := by
  induction ns generalizing m with
  | nil => rfl
  | cons n ns ih =>
    rw [List.sum_cons, ← Nat.add_assoc] at hb ⊢
    rw [List.map_cons, List.foldl_cons, h.add (Nat.le_of_add_right_le hb), ih hb]

/-- Up to a bound, counts are summed up as natural numbers are, and
the mean of no counts is zero. -/
structure Averages (α : Type) [Scalar α] (bound : Nat) : Prop extends Counts α bound where
  /-- The sign of the zero that a sum starts from is lost. -/
  start {n : Nat} : n ≤ bound → -(0.0 : α) + ofCount n = ofCount n
  /-- No counts at all, shared out over the one chain more than there are. -/
  empty : (0.0 : α) = ofCount 0 / ofCount 1

theorem Averages.total_ofCount (h : Averages α bound) {ns : List Nat} (hne : ns ≠ [])
    (hb : ns.sum ≤ bound) : total (ns.map ofCount) = (ofCount ns.sum : α) := by
  cases ns with
  | nil => exact absurd rfl hne
  | cons n ns =>
    rw [List.sum_cons] at hb ⊢
    rw [total, List.map_cons, List.foldl_cons, h.start (Nat.le_of_add_right_le hb),
      h.foldl_ofCount hb]

theorem averages_rat (bound : Nat) : Averages Rat bound where
  toCounts := counts_rat bound
  start _ := by
    have hzero : -(0.0 : Rat) = 0 := by decide +kernel
    rw [hzero, zero_add]
  empty := by decide +kernel

theorem averages_float : Averages Float (2 ^ 53) where
  toCounts := counts_float
  start {n} hn := by
    apply Binary64.eq_of_toBits_eq
    have hbits : Binary64.bits (Float.ofNat n) < Binary64.infinity := by
      rw [Binary64.bits_ofNat_of_small hn]
      exact (Binary64.nearest_natCast_le hn).trans_lt (by decide)
    exact Binary64.neg_zero_add hbits
  empty := by decide +kernel

end Scalar

open Scalar (Averages)

/-- The uncertainty that is kept with a chain is the number of its unknown running values. -/
theorem Step.Sound.uncertainty_eq [Scalar α] {bound : Nat} (h : Scalar.Counts α bound) {s : Step α}
    (hs : s.Sound) (hb : applied s.premises s.operations ≤ bound) :
    s.uncertainty = Scalar.ofCount s.unknowns := by
  obtain ⟨first, rest, hpremises, hconclude⟩ := hs.exists_conclude
  rw [hpremises] at hb
  have hlinks : (s.operations.zip rest).length ≤ bound := by rwa [List.length_zip]
  rw [Chain.conclude_eq h first hlinks] at hconclude
  rw [Step.unknowns, hpremises]
  exact (congrArg Conclusion.uncertainty hconclude).symm

namespace Evaluator

variable [Scalar α] {bound : Nat}

/-- In none of its chains the evaluator has counted beyond the bound,
and not in all of them together. -/
structure Within (v : Evaluator α) (bound : Nat) : Prop where
  applied : ∀ s ∈ v.history, applied s.premises s.operations ≤ bound
  unknowns : v.unknowns ≤ bound

/-! ## The mean as a quotient of counts -/

/-- **The mean uncertainty is a quotient of counts.** -/
theorem phi_eq (h : Averages α bound) {v : Evaluator α} (hv : ∀ s ∈ v.history, s.Sound)
    (hbound : v.Within bound) :
    v.phi = Scalar.ofCount v.unknowns / Scalar.ofCount (v.history.length + 1) := by
  have huncertainties : v.history.map Step.uncertainty =
      (v.history.map Step.unknowns).map Scalar.ofCount := by
    rw [List.map_map]
    exact List.map_congr_left fun s hs =>
      (hv s hs).uncertainty_eq h.toCounts (hbound.applied s hs)
  unfold phi
  split
  · next hempty =>
    have hnil : v.history = [] := List.isEmpty_iff.mp hempty
    rw [unknowns, hnil]
    exact h.empty
  · next hne =>
    have hcounts : v.history.map Step.unknowns ≠ [] := by
      intro hnil
      rw [List.map_eq_nil_iff.mp hnil] at hne
      exact hne rfl
    rw [huncertainties, h.total_ofCount hcounts hbound.unknowns]
    rfl

/-! ## The calls of a run -/

/-- The history is left by the calls that succeeded, each by itself. -/
theorem history_run_eq (ops : List EvaluatorOp) :
    (({} : Evaluator α).run ops).2.history =
      ((({} : Evaluator α).successes ops).map Prod.fst).filterMap EvaluatorOp.step? := by
  rw [run_history, successes_eq, List.map_filterMap, List.filterMap_filterMap]
  refine List.filterMap_congr fun op _ => ?_
  cases h : op.step? (α := α) with
  | none => rfl
  | some s => exact h.symm

/-- The same calls in another order leave the same steps in another order. -/
theorem history_run_perm {ops ops' : List EvaluatorOp}
    (h : ((({} : Evaluator α).successes ops').map Prod.fst).Perm
      ((({} : Evaluator α).successes ops).map Prod.fst)) :
    (({} : Evaluator α).run ops').2.history.Perm (({} : Evaluator α).run ops).2.history := by
  rw [history_run_eq, history_run_eq]
  exact h.filterMap _

omit [Scalar α] in
theorem unknowns_perm {v w : Evaluator α} (h : w.history.Perm v.history) :
    w.unknowns = v.unknowns := (h.map _).sum_eq

omit [Scalar α] in
theorem Within.perm {v w : Evaluator α} (hv : v.Within bound) (h : w.history.Perm v.history) :
    w.Within bound where
  applied s hs := hv.applied s (h.mem_iff.mp hs)
  unknowns := (unknowns_perm h).trans_le hv.unknowns

/-- What leaves nothing in the history does not change the mean. -/
theorem phi_step_of_not_concluded {v : Evaluator α} {op : EvaluatorOp}
    (h : (v.step op).1.conclusion? = none) : (v.step op).2.phi = v.phi := by
  have hanswers := v.answers_step op
  rw [hanswers.conclusion, Option.map_eq_none_iff] at h
  rw [phi, hanswers.history, h, Option.toList_none, List.append_nil]
  rfl

/-! ## Runs -/

/-- The evaluator that these requests have left a new one in takes the mean of counts. -/
structure Mean (ops : List EvaluatorOp) (v : Evaluator α) : Prop where
  /-- The unknown running values of all chains are shared out over the chains and one more. -/
  quotient : v.phi = Scalar.ofCount v.unknowns / Scalar.ofCount (v.history.length + 1)
  failed (op : EvaluatorOp) (reason : Rejection) : (v.step op).1 = .refused reason →
    (v.step op).2.phi = v.phi
  compared (a b : Trit) : (v.step (.contradicts a b)).2.phi = v.phi
  /-- The calls that succeeded may come in any order, and others may fail among them. -/
  reordered (ops' : List EvaluatorOp) :
    ((({} : Evaluator α).successes ops').map Prod.fst).Perm
      ((({} : Evaluator α).successes ops).map Prod.fst) →
    (({} : Evaluator α).run ops').2.phi = v.phi

theorem mean_run (h : Averages α bound) {ops : List EvaluatorOp}
    (hbound : (({} : Evaluator α).run ops).2.Within bound) :
    Mean ops (({} : Evaluator α).run ops).2 := by
  have hquotient := phi_eq h (sound_run_new ops) hbound
  refine ⟨hquotient, ?failed, ?compared, ?reordered⟩
  case failed =>
    intro op reason hrefused
    exact phi_step_of_not_concluded (by rw [hrefused]; rfl)
  case compared =>
    intro a b
    exact phi_step_of_not_concluded rfl
  case reordered =>
    intro ops' hperm
    have hhistory := history_run_perm hperm
    rw [phi_eq h (sound_run_new ops') (hbound.perm hhistory), hquotient, unknowns_perm hhistory,
      hhistory.length_eq]

/-! ## Exact arithmetic -/

/-- What moreover holds of the mean if it is not rounded. -/
structure ExactMean (ops : List EvaluatorOp) (v : Evaluator Rat) : Prop extends Mean ops v where
  balance : v.phi * (v.history.length + 1) = v.unknowns
  /-- Without chains there is nothing to take the mean of, and the balance is zero on both sides. -/
  empty : v.history = [] → v.phi = 0 ∧ v.unknowns = 0
  /-- A call that succeeds is counted in, whatever its form. -/
  recorded (op : EvaluatorOp) (c : Conclusion Rat) : (v.step op).1 = .concluded c →
    (v.step op).2.history.length = v.history.length + 1 ∧
    (v.step op).2.phi =
      (v.phi * (v.history.length + 1) + c.uncertainty) / (v.history.length + 2)
  /-- The mean stays below the greatest uncertainty, unless no running value was unknown. -/
  below (s : Step Rat) : s ∈ v.history → (∀ t ∈ v.history, t.uncertainty ≤ s.uncertainty) →
    0 < s.uncertainty → v.phi < s.uncertainty

omit [Scalar α] in
/-- A history is finite, so there is a bound that it stays within. -/
theorem exists_within (v : Evaluator α) : ∃ bound, v.Within bound := by
  refine ⟨(v.history.map fun s => applied s.premises s.operations).sum + v.unknowns, ?_, ?_⟩
  · intro s hs
    have hle := List.le_sum_of_mem
      (List.mem_map_of_mem (f := fun s => applied s.premises s.operations) hs)
    exact hle.trans (Nat.le_add_right _ _)
  · exact Nat.le_add_left _ _

theorem phi_mul {v : Evaluator Rat} (hv : ∀ s ∈ v.history, s.Sound) :
    v.phi * (v.history.length + 1) = v.unknowns := by
  obtain ⟨bound, hbound⟩ := v.exists_within
  have hquotient : v.phi = (v.unknowns : Rat) / ((v.history.length + 1 : Nat) : Rat) :=
    phi_eq (Scalar.averages_rat bound) hv hbound
  rw [hquotient, Nat.cast_add_one]
  exact div_mul_cancel₀ _ (Nat.cast_add_one_ne_zero _)

theorem exists_step_of_concluded {v : Evaluator α} {op : EvaluatorOp} {c : Conclusion α}
    (h : (v.step op).1 = .concluded c) : ∃ s, op.step? = some s ∧ s.conclusion = c ∧
      (v.step op).2.history = v.history ++ [s] := by
  have hanswers := v.answers_step op
  have hconclusion := hanswers.conclusion
  rw [h] at hconclusion
  obtain ⟨s, hs, hc⟩ := Option.map_eq_some_iff.mp hconclusion.symm
  exact ⟨s, hs, hc, by rw [hanswers.history, hs, Option.toList_some]⟩

/-- The chain that is recorded last adds its uncertainty to the sum,
and the divisor grows by one. -/
theorem phi_step_of_concluded {v : Evaluator Rat} (hv : ∀ s ∈ v.history, s.Sound)
    {op : EvaluatorOp} {c : Conclusion Rat} (h : (v.step op).1 = .concluded c) :
    (v.step op).2.phi =
      (v.phi * (v.history.length + 1) + c.uncertainty) / (v.history.length + 2) := by
  obtain ⟨s, hs, rfl, hhistory⟩ := exists_step_of_concluded h
  have hsound := (EvaluatorOp.given_of_step? hs).2
  have hafter : ∀ t ∈ (v.step op).2.history, t.Sound := by
    intro t ht
    rw [hhistory, List.mem_append, List.mem_singleton] at ht
    rcases ht with ht | rfl
    · exact hv t ht
    · exact hsound
  have hunknowns : (v.step op).2.unknowns = v.unknowns + s.unknowns := by
    rw [unknowns, hhistory, List.map_append, List.sum_append]
    rfl
  have huncertainty : s.conclusion.uncertainty = (s.unknowns : Rat) :=
    hsound.uncertainty_eq (Scalar.counts_rat _) (Nat.le_refl _)
  -- both means are multiplied out, so that counts are left on both sides
  have hmul := phi_mul hafter
  rw [hunknowns, hhistory, List.length_append, List.length_singleton] at hmul
  have hne : (v.history.length : Rat) + 2 ≠ 0 := by positivity
  rw [eq_div_iff hne, phi_mul hv, huncertainty, ← Nat.cast_add, ← hmul]
  push_cast
  ring

theorem phi_lt {v : Evaluator Rat} (hv : ∀ s ∈ v.history, s.Sound) {m : Rat}
    (hm : ∀ s ∈ v.history, s.uncertainty ≤ m) (hpos : 0 < m) : v.phi < m := by
  have huncertainties : (v.unknowns : Rat) = (v.history.map Step.uncertainty).sum := by
    rw [unknowns, Nat.cast_list_sum, List.map_map]
    refine congrArg List.sum (List.map_congr_left fun s hs => ?_)
    exact ((hv s hs).uncertainty_eq (Scalar.counts_rat _) (Nat.le_refl _)).symm
  have hsum : (v.unknowns : Rat) ≤ v.history.length * m := by
    have hle := List.sum_le_card_nsmul (v.history.map Step.uncertainty) m fun x hx => by
      obtain ⟨s, hs, rfl⟩ := List.mem_map.mp hx
      exact hm s hs
    rwa [List.length_map, nsmul_eq_mul, ← huncertainties] at hle
  -- there is one more in the divisor than there are summands
  have hdivisor : (0 : Rat) < v.history.length + 1 := by positivity
  refine lt_of_mul_lt_mul_right ?_ hdivisor.le
  calc
    v.phi * (v.history.length + 1) = v.unknowns := phi_mul hv
    _ ≤ v.history.length * m := hsum
    _ < m * (v.history.length + 1) := by linarith

theorem exactMean_run (ops : List EvaluatorOp) :
    ExactMean ops (({} : Evaluator Rat).run ops).2 := by
  have hv := sound_run_new (α := Rat) ops
  obtain ⟨bound, hbound⟩ := (({} : Evaluator Rat).run ops).2.exists_within
  refine ⟨mean_run (Scalar.averages_rat bound) hbound, phi_mul hv, ?empty, ?recorded, ?below⟩
  case empty =>
    intro hnil
    rw [phi, unknowns, hnil]
    exact ⟨by decide +kernel, rfl⟩
  case recorded =>
    intro op c hconcluded
    obtain ⟨s, -, -, hhistory⟩ := exists_step_of_concluded hconcluded
    exact ⟨by rw [hhistory, List.length_append, List.length_singleton],
      phi_step_of_concluded hv hconcluded⟩
  case below =>
    intro s _ hgreatest hpos
    exact phi_lt hv hgreatest hpos

/-- **The mean uncertainty over a run.** -/
theorem run_mean (ops : List EvaluatorOp) :
    ExactMean ops (({} : Evaluator Rat).run ops).2 ∧
      ((({} : Evaluator Float).run ops).2.Within (2 ^ 53) →
        Mean ops (({} : Evaluator Float).run ops).2) :=
  ⟨exactMean_run ops, mean_run Scalar.averages_float⟩

/-- Three chains with four unknown running values, and a call that fails among them. -/
example : (({} : Evaluator Rat).run
    [.chain [.yes, .unknown] [.and], .chain [] [.and],
      .chain [.yes, .unknown, .unknown] [.or, .and], .contradicts .yes .no,
      .chain [.unknown, .unknown, .unknown] [.and, .or]]).2.phi = 1 := by
  decide +kernel

end Evaluator

end TernaryBelief
