import TernaryBelief.Proofs.Charge
import TernaryBelief.Proofs.Policies

/-!
# What a report says of the records that its pass moved

A report is made up while the records are moved, one by one: a count, a sum and a list of outcomes
grow along with the resolved list. Whoever reads it reads the parts on their own. Whether there was
anything to do is read off the count, and the greatest severity off the outcomes. That the two
agree, and that each outcome belongs to the record in the same place, holds because of how a report
comes about, and not because of its type.

`Report.Describes` says what a report has to do with a list of records, without the pass. The report
of every pass describes the records that the pass appends to the resolved ones, and the reports of a
run describe, one after the other, all that the run resolves (`Engine.reports_describe`).

## Main definitions

* `Contradiction.proposal`: the value that is proposed for a record;
* `Outcome.Tells`, `Report.Describes`: what an outcome and a report say of records.
-/

namespace TernaryBelief

variable {α : Type}

/-! ## Severities in descending order -/

/-- In descending order, the greatest severity comes first. -/
theorem Severity.max?_of_descending {ss : List Severity} (h : ss.Pairwise fun s t => t ≤ s) :
    ss.max? = ss.head? := by
  cases ss with
  | nil => rfl
  | cons s ss =>
    rw [List.head?_cons, List.max?_eq_some_iff]
    refine ⟨List.mem_cons_self, List.forall_mem_cons.mpr ⟨Nat.le_refl _, ?_⟩⟩
    exact (List.pairwise_cons.mp h).1

/-! ## Outcomes -/

/-- The value that is proposed for a record: for medium severity that of the standing side if it is
certain, else that of the incoming one if it is certain. In all other cases nothing is known. -/
def Contradiction.proposal (c : Contradiction) : Trit :=
  if c.severity = .medium then
    if c.standing.value.isCertain then c.standing.value
    else if c.incoming.value.isCertain then c.incoming.value
    else .unknown
  else .unknown

variable [Scalar α]

/-- The outcome tells what came of the record. -/
structure Outcome.Tells (o : Outcome α) (c : Contradiction) : Prop where
  id : o.id = c.id
  severity : o.severity = c.severity
  strategy : o.strategy = Strategy.forSeverity c.severity
  cost : o.cost = (Strategy.forSeverity c.severity).cost
  proposed : o.proposed = c.proposal

omit [Scalar α] in
theorem Strategy.propose_forSeverity (c : Contradiction) :
    (Strategy.forSeverity c.severity).propose c.toConflict = c.proposal := by
  unfold Contradiction.proposal
  cases hs : c.severity with
  | medium =>
    simp only [Strategy.forSeverity, Strategy.propose, Conflict.certainValue, if_true]
    split
    · rfl
    · split <;> rfl
  | _ => rfl

/-- The outcome is drawn up before the attempt is counted, which makes no difference to it. -/
theorem Outcome.tells_ofContradiction (c : Contradiction) :
    (Outcome.ofContradiction c : Outcome α).Tells c.attempted where
  id := rfl
  severity := rfl
  strategy := rfl
  cost := rfl
  proposed := Strategy.propose_forSeverity c

/-! ## Reports -/

/-- The report describes the records, in their order. -/
structure Report.Describes (r : Report α) (moved : List Contradiction) : Prop where
  outcomes : List.Forall₂ Outcome.Tells r.outcomes moved
  resolved : r.resolved = r.outcomes.length ∧ r.resolved = moved.length
  /-- The costs are added up from left to right. -/
  cost : r.cost = (r.outcomes.map Outcome.cost).foldl (· + ·) 0.0
  descending : (r.outcomes.map Outcome.severity).Pairwise fun s t => t ≤ s
  /-- The report counts as empty exactly if it has no outcome, and so no greatest severity. -/
  isEmpty : r.isEmpty = true ↔ r.outcomes = []
  maxSeverity_none : r.maxSeverity = none ↔ r.outcomes = []
  maxSeverity : r.maxSeverity = r.outcomes.head?.map Outcome.severity

namespace Engine

theorem outcomes_resolve (e : Engine α) :
    e.resolve.1.outcomes = e.ledger.pending.map Outcome.ofContradiction := rfl

/-- **A report describes the records that its pass moves.** -/
theorem describes_resolve (e : Engine α) : e.resolve.1.Describes e.moved := by
  have hdescending : (e.resolve.1.outcomes.map Outcome.severity).Pairwise fun s t => t ≤ s := by
    rw [outcomes_resolve, List.map_map, List.pairwise_map]
    exact Contradiction.bySeverity_pairwise e.ledger.active
  have hlength : e.resolve.1.outcomes.length = e.moved.length := by
    rw [outcomes_resolve, moved_eq, List.length_map, List.length_map]
  have hresolved : e.resolve.1.resolved = e.resolve.1.outcomes.length := rfl
  have hmax : e.resolve.1.maxSeverity = e.resolve.1.outcomes.head?.map Outcome.severity := by
    rw [Report.maxSeverity, Severity.max?_of_descending hdescending, List.head?_map]
  refine ⟨?outcomes, ⟨hresolved, hresolved.trans hlength⟩, ?cost, hdescending, ?isEmpty, ?none,
    hmax⟩
  case outcomes =>
    rw [outcomes_resolve, moved_eq, List.forall₂_map_left_iff, List.forall₂_map_right_iff,
      List.forall₂_same]
    exact fun c _ => Outcome.tells_ofContradiction c
  case cost => exact List.foldl_map.symm
  case isEmpty =>
    rw [Report.isEmpty, hresolved, beq_iff_eq, List.length_eq_zero_iff]
  case none =>
    rw [hmax, Option.map_eq_none_iff, List.head?_eq_none_iff]

/-- **Every report describes the records that its pass moved**, whatever records an engine was
handed. A pass appends to the resolved records what its report describes, and the report is made
up while they are moved one by one. The reports of a run describe, one after the other, all that
the run appends. -/
theorem reports_describe (e : Engine α) (ops : List Op) :
    (e.resolve.2.ledger.resolved = e.ledger.resolved ++ e.moved ∧ e.resolve.1.Describes e.moved ∧
      Steps.resolve.runFrom e = (.ok e.resolve.1, e.resolve.2)) ∧
    List.Forall₂ Report.Describes (Answer.reports (e.run ops).1) ((e.passing ops).map moved) ∧
    (e.run ops).2.ledger.resolved = e.ledger.resolved ++ ((e.passing ops).map moved).flatten := by
  refine ⟨⟨?appended, e.describes_resolve, Steps.resolve_implements e⟩, ?reports, ?resolved⟩
  case appended =>
    rw [moved_eq]
    rfl
  case reports =>
    rw [reports_run, List.forall₂_map_left_iff, List.forall₂_map_right_iff, List.forall₂_same]
    exact fun met _ => met.describes_resolve
  case resolved =>
    have hmoved : (moved : Engine α → List Contradiction) =
        fun met => met.ledger.pending.map Contradiction.attempted := funext moved_eq
    rw [resolved_run, passes, List.flatMap_map, List.flatMap_def, hmoved]

end Engine

end TernaryBelief
