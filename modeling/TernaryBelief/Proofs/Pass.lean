import TernaryBelief.Proofs.Procedure
import TernaryBelief.Proofs.Reports

/-!
# What a pass leaves behind

A pass takes the active list away, sorts it, and moves its records one by one to the end of the
resolved list. What comes out is said without the loop and without the sort: the critical records,
then the hard, the medium and the soft ones, each group in the order of filing, with one attempt
more; and nothing else in the engine is touched (`Engine.pass_effect`). So of the four counts of a
snapshot the first two stay, and the last two are added up in the last one.

For whole runs, `Engine.passing` lists the engines that the passes meet, and `Engine.passes` what
each pass processes. The resolved list is these batches, one after the other, and the reports are
those of the passes.
-/

namespace TernaryBelief

variable {α : Type}

open Contradiction (attempted)

/-! ## One pass -/

namespace Ledger

/-- A pass goes through one severity after the other. -/
theorem pending_eq (l : Ledger) :
    l.pending = l.active.filter (fun c => c.severity = .critical) ++
      l.active.filter (fun c => c.severity = .hard) ++
      l.active.filter (fun c => c.severity = .medium) ++
      l.active.filter (fun c => c.severity = .soft) := by
  rw [pending, Contradiction.bySeverity_eq_flatMap]
  simp [Severity.all]

theorem length_pending (l : Ledger) : l.pending.length = l.active.length :=
  (Contradiction.bySeverity_perm l.active).length_eq

end Ledger

namespace Engine

variable [Scalar α]

/-- After a pass, what was active counts as resolved. -/
theorem snapshot_resolve (e : Engine α) :
    e.resolve.2.snapshot =
      { e.snapshot with active := 0, resolved := e.snapshot.resolved + e.snapshot.active } := by
  have hresolved : e.resolve.2.ledger.resolved =
      e.ledger.resolved ++ e.ledger.pending.map attempted := rfl
  have hlength : e.resolve.2.ledger.resolved.length =
      e.ledger.resolved.length + e.ledger.active.length := by
    rw [hresolved, List.length_append, List.length_map, Ledger.length_pending]
  show Snapshot.ofValues _ _ e.resolve.2.ledger.resolved.length = _
  rw [hlength]
  rfl

/-- The share of unknown beliefs, which a pass looks up after it, is what it was before. -/
theorem preserved_resolve (e : Engine α) :
    (e.resolve.2.snapshot.preserved : α) = e.snapshot.preserved := by
  rw [snapshot_resolve]
  rfl

/-- Everything that a pass does to an engine. -/
structure PassEffect (e : Engine α) : Prop where
  active : e.resolve.2.ledger.active = []
  /-- The records move over group by group, each in the order of filing; only the attempts go up. -/
  resolved : e.resolve.2.ledger.resolved = e.ledger.resolved ++
    (e.ledger.active.filter (fun c => c.severity = .critical) ++
      e.ledger.active.filter (fun c => c.severity = .hard) ++
      e.ledger.active.filter (fun c => c.severity = .medium) ++
      e.ledger.active.filter (fun c => c.severity = .soft)).map
        fun c => { c with attempts := c.attempts + 1 }
  config : e.resolve.2.config = e.config
  evaluator : e.resolve.2.evaluator = e.evaluator
  network : e.resolve.2.network = e.network
  filed : e.resolve.2.ledger.filed = e.ledger.filed
  snapshot : e.resolve.2.snapshot =
    { e.snapshot with active := 0, resolved := e.snapshot.resolved + e.snapshot.active }
  /-- The share of unknown beliefs is looked up after the pass, and is what it was before. -/
  preserved : e.resolve.1.preserved = e.snapshot.preserved ∧
    (e.resolve.2.snapshot.preserved : α) = e.snapshot.preserved
  /-- That is so although the records are moved one by one, while the report is made up. -/
  inPlace : Steps.resolve.runFrom e = (.ok e.resolve.1, e.resolve.2)

/-- **What a pass does**, to any engine whatever. -/
theorem pass_effect (e : Engine α) : PassEffect e where
  active := rfl
  resolved := by
    show e.ledger.resolved ++ e.ledger.pending.map attempted = _
    rw [Ledger.pending_eq]
    rfl
  config := rfl
  evaluator := rfl
  network := rfl
  filed := rfl
  snapshot := e.snapshot_resolve
  preserved := ⟨e.preserved_resolve, e.preserved_resolve⟩
  inPlace := Steps.resolve_implements e

/-! ## The passes of a run -/

/-- The engines that the passes of a run meet. -/
def passing (e : Engine α) (ops : List Op) : List (Engine α) :=
  ((e.trace ops).filter fun x => x.2.isPass).map Prod.fst

theorem passing_cons (e : Engine α) (op : Op) (ops : List Op) :
    e.passing (op :: ops) = (if op.isPass then [e] else []) ++ (e.step op).2.passing ops := by
  simp only [passing, trace, List.filter_cons]
  cases op.isPass <;> rfl

/-- What each pass of a run processes, in the order of processing. -/
def passes (e : Engine α) (ops : List Op) : List (List Contradiction) :=
  (e.passing ops).map fun met => met.ledger.pending

/-- What a run resolves is what its passes process, one batch after the other. -/
theorem resolved_run (e : Engine α) (ops : List Op) :
    (e.run ops).2.ledger.resolved =
      e.ledger.resolved ++ (e.passes ops).flatMap fun batch => batch.map attempted := by
  induction ops generalizing e with
  | nil => exact (List.append_nil _).symm
  | cons op ops ih =>
    rw [run, ih, passes, passes, passing_cons]
    rcases op.pass_or with rfl | hop
    · have hresolved : (e.step (.network .resolve)).2.ledger.resolved =
          e.ledger.resolved ++ e.ledger.pending.map attempted := rfl
      rw [hresolved, List.append_assoc]
      rfl
    · have hentry : (e.entry op).isPass = false := by rw [isPass_entry, hop]
      rw [step_ledger, Ledger.resolved_enter hentry, hop]
      rfl

/-- The reports of a run are those of its passes. -/
theorem reports_run (e : Engine α) (ops : List Op) :
    Answer.reports (e.run ops).1 = (e.passing ops).map fun met => met.resolve.1 := by
  induction ops generalizing e with
  | nil => rfl
  | cons op ops ih =>
    rw [run, Answer.reports_cons, ih, passing_cons, List.map_append]
    rcases op.pass_or with rfl | hop
    · rfl
    · rw [report?_step hop, hop]
      rfl

end Engine

end TernaryBelief
