import TernaryBelief.Proofs.AssertionOrder
import TernaryBelief.Proofs.Procedure
import TernaryBelief.Proofs.Schedule

/-!
# What a pass charges

A pass adds up the costs of what it processes, one after the other, and machine numbers are not
added the same in every order. But a pass has an order of its own, by severity, and the cost of a
record is told by its severity. So what it charges can be computed from the four counts of the
active records (`Severity.charge`), whatever the order of filing.

A batch is also summed by `Contradiction.totalCost`, which starts from negative zero where a pass
starts from zero. As soon as there is a cost to add, the two starting points make no difference, so
a pass charges what the batch would cost that it appends to the resolved records. In exact
arithmetic the order does not matter, and that is the cost of the active records as they were filed
(`Engine.resolve_charges`).
-/

namespace TernaryBelief

variable {α : Type}

/-! ## Sums of costs -/

namespace Severity

variable [Scalar α]

/-- The costs for these severities, added up in their order. -/
def sumFrom (start : α) (ss : List Severity) : α :=
  ss.foldl (fun sum s => sum + (Strategy.forSeverity s).cost) start

/-- What a pass charges that meets so many records of each severity. -/
def charge (counts : Severity → Nat) : α := sumFrom 0.0 (ranked counts)

/-- In exact arithmetic, the charge is the sum of the prices for each severity. -/
theorem charge_rat (counts : Severity → Nat) :
    (charge counts : Rat) =
      0.3 * counts .medium + 0.5 * counts .hard + 1.0 * counts .critical := by
  have hzero : (0.0 : Rat) = 0 := by decide +kernel
  have hcharge : (charge counts : Rat) =
      ((ranked counts).map fun s => (Strategy.forSeverity s).cost).sum := by
    rw [List.sum_eq_foldl, List.foldl_map, charge, sumFrom, hzero]
  rw [hcharge, ranked]
  simp only [all, List.reverse_cons, List.reverse_nil, List.nil_append, List.cons_append,
    List.flatMap_cons, List.flatMap_nil, List.map_append, List.map_replicate, List.sum_append,
    List.sum_replicate, List.append_nil, Strategy.forSeverity, Strategy.cost, nsmul_eq_mul]
  -- the prices are not computed with
  generalize (0.3 : Rat) = medium, (0.5 : Rat) = hard, (1.0 : Rat) = critical
  rw [hzero]
  ring

/-- The machine comes to another sum if the most severe one is added last. -/
example : (charge ([medium, medium, medium, critical].count ·) : Float) ≠
    sumFrom 0.0 [medium, medium, medium, critical] := by decide +kernel

theorem zero_add_cost (s : Severity) :
    (0.0 : Float) + (Strategy.forSeverity s).cost =
      -(0.0 : Float) + (Strategy.forSeverity s).cost := by
  cases s <;> decide +kernel

/-- The sign of the zero that a sum starts from is lost with the first cost. -/
theorem sumFrom_zero {ss : List Severity} (h : ss ≠ []) :
    sumFrom (0.0 : Float) ss = sumFrom (-(0.0 : Float)) ss := by
  cases ss with
  | nil => exact absurd rfl h
  | cons s ss =>
    show sumFrom ((0.0 : Float) + (Strategy.forSeverity s).cost) ss = _
    rw [zero_add_cost]
    rfl

end Severity

open Severity (charge ranked sumFrom)

namespace Contradiction

theorem totalCost_eq_sumFrom [Scalar α] (batch : List Contradiction) :
    (totalCost batch : α) = sumFrom (-(0.0 : α)) (batch.map fun c => c.severity) := by
  rw [totalCost, Scalar.total, sumFrom, List.foldl_map, List.foldl_map]

end Contradiction

namespace Engine

open Contradiction (tally totalCost attempted)

variable [Scalar α]

/-! ## A pass -/

/-- The records that a pass appends to the resolved ones. -/
def moved (e : Engine α) : List Contradiction :=
  e.resolve.2.ledger.resolved.drop e.ledger.resolved.length

theorem moved_eq (e : Engine α) : e.moved = e.ledger.pending.map attempted :=
  List.drop_left

/-- A pass keeps the severities, so it charges as for the active
records in the order of processing. -/
theorem map_severity_moved (e : Engine α) :
    (e.moved.map fun c => c.severity) = ranked (tally e.ledger.active) := by
  rw [moved_eq, List.map_map]
  exact Contradiction.map_severity_bySeverity e.ledger.active

theorem cost_resolve_eq_charge (e : Engine α) :
    e.resolve.1.cost = charge (tally e.ledger.active) := by
  rw [cost_resolve_eq_foldl, Ledger.pending, Contradiction.map_severity_bySeverity]
  rfl

/-- A pass charges by the counts of the severities, and by nothing else. -/
structure ChargesByCounts (e : Engine α) : Prop where
  cost : e.resolve.1.cost = charge (tally e.ledger.active)
  /-- The counts can be looked up before the pass. -/
  counts (s : Severity) : e.distribution.count s = tally e.ledger.active s
  alike (e' : Engine α) : (∀ s, tally e'.ledger.active s = tally e.ledger.active s) →
    e'.resolve.1.cost = e.resolve.1.cost
  reordered (e' : Engine α) : e'.ledger.active.Perm e.ledger.active →
    e'.resolve.1.cost = e.resolve.1.cost
  /-- The records are appended by the pass, which sums up while it moves them one by one. -/
  appended : e.resolve.2.ledger.resolved = e.ledger.resolved ++ e.moved
  inPlace : Steps.resolve.runFrom e = (.ok e.resolve.1, e.resolve.2)

theorem chargesByCounts (e : Engine α) : e.ChargesByCounts := by
  have halike (e' : Engine α) (h : ∀ s, tally e'.ledger.active s = tally e.ledger.active s) :
      e'.resolve.1.cost = e.resolve.1.cost := by
    rw [cost_resolve_eq_charge, cost_resolve_eq_charge, funext h]
  refine ⟨e.cost_resolve_eq_charge, e.count_distribution, halike, ?reordered, ?appended,
    Steps.resolve_implements e⟩
  case reordered =>
    intro e' hperm
    exact halike e' fun s => hperm.countP_eq _
  case appended =>
    rw [moved_eq]
    rfl

/-- With machine numbers, a pass charges what the records cost that it appends. -/
theorem cost_resolve_eq_totalCost_moved (e : Engine Float) (h : e.ledger.active ≠ []) :
    e.resolve.1.cost = totalCost e.moved := by
  have hpending : (e.ledger.pending.map fun c => c.severity) ≠ [] := by
    intro hnil
    rw [List.map_eq_nil_iff, Ledger.pending] at hnil
    exact h ((Contradiction.bySeverity_perm e.ledger.active).symm.trans (.of_eq hnil)).eq_nil
  rw [Ledger.pending, Contradiction.map_severity_bySeverity] at hpending
  rw [cost_resolve_eq_charge, Contradiction.totalCost_eq_sumFrom, map_severity_moved, charge,
    Severity.sumFrom_zero hpending]

/-- In exact arithmetic, it charges what the active records cost as they were filed. -/
theorem cost_resolve_eq_totalCost_active (e : Engine Rat) :
    e.resolve.1.cost = totalCost e.ledger.active := by
  rw [cost_resolve, Contradiction.totalCost_eq_sum, Contradiction.totalCost_eq_sum]
  exact ((Contradiction.bySeverity_perm e.ledger.active).map _).sum_eq

/-- **What a pass charges is told beforehand**, and not by the order of filing. -/
theorem resolve_charges :
    (∀ (α : Type) [Scalar α] (e : Engine α), e.ChargesByCounts) ∧
    (∀ e : Engine Float,
      (e.ledger.active ≠ [] → e.resolve.1.cost = totalCost e.moved) ∧
      (e.ledger.active = [] → e.resolve.1.cost = 0.0 ∧ totalCost e.moved = -(0.0 : Float))) ∧
    ∀ e : Engine Rat,
      e.resolve.1.cost = totalCost e.ledger.active ∧
      totalCost e.ledger.active = 0.3 * (tally e.ledger.active .medium : Rat) +
        0.5 * (tally e.ledger.active .hard : Rat) +
        1.0 * (tally e.ledger.active .critical : Rat) := by
  refine ⟨fun α _ e => e.chargesByCounts, fun e => ⟨e.cost_resolve_eq_totalCost_moved, ?idle⟩,
    fun e => ⟨e.cost_resolve_eq_totalCost_active, ?prices⟩⟩
  case idle =>
    intro hnil
    rw [cost_resolve_eq_charge, Contradiction.totalCost_eq_sumFrom, map_severity_moved, hnil]
    exact ⟨rfl, rfl⟩
  case prices =>
    rw [← cost_resolve_eq_totalCost_active, cost_resolve_eq_charge, Severity.charge_rat]

end Engine

end TernaryBelief
