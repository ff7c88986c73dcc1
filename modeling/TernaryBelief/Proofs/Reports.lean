import Mathlib.Algebra.Ring.Nat
import TernaryBelief.Proofs.Schedule

/-!
# What the answers of a run account for

Reports are all that a client sees of the passes of a run. Put one after the other, their outcomes
are those of the records that the run resolves, in the order in which it resolves them
(`Engine.outcomes_run`). And what was filed can be read off the answers too: a count for each
accepted assertion, and one identifier for each record from elsewhere (`Engine.filed_run`). So of a
new engine, what the answers say was filed is what they report and what is still active
(`Engine.Fresh.balance`, `Engine.Fresh.ids_perm`).
-/

namespace TernaryBelief

variable {α : Type}

/-- The identifiers that a report is about. -/
def Report.ids (r : Report α) : List Uuid := r.outcomes.map Outcome.id

namespace Answer

/-- The reports among the answers. -/
def reports (answers : List (Answer α)) : List (Report α) := answers.filterMap report?

/-- The outcomes of all reports among the answers, report after report. -/
def outcomes (answers : List (Answer α)) : List (Outcome α) :=
  (reports answers).flatMap fun r => r.outcomes

/-- How many records were filed, as far as the answer says so. -/
def filings : Answer α → Nat
  | found count => count
  | filed _ => 1
  | _ => 0

theorem reports_cons (a : Answer α) (answers : List (Answer α)) :
    reports (a :: answers) = a.report?.toList ++ reports answers := by
  cases h : a.report? <;> simp [reports, h]

theorem outcomes_cons (a : Answer α) (answers : List (Answer α)) :
    outcomes (a :: answers) = outcomes [a] ++ outcomes answers := by
  cases h : a.report? <;> simp [outcomes, reports, h]

theorem outcomes_singleton_of_none {a : Answer α} (h : a.report? = none) : outcomes [a] = [] := by
  simp [outcomes, reports, h]

end Answer

variable [Scalar α]

/-- Whatever is the same for conclusions, for oppositions and for refusals is the same
for all answers of an evaluator. -/
theorem Evaluator.apply_step {β : Type} (f : Answer α → β) (b : β) (v : Evaluator α)
    (op : EvaluatorOp) (hconcluded : ∀ c, f (.concluded c) = b)
    (hopposed : ∀ yes, f (.opposed yes) = b) (hrefused : ∀ reason, f (.refused reason) = b) :
    f (v.step op).1 = b := by
  have hattempt (r : Except Rejection (Conclusion α × Evaluator α)) :
      f (Answer.ofAttempt v .concluded r).1 = b := by
    cases r with
    | ok r => exact hconcluded r.1
    | error reason => exact hrefused reason
  cases op with
  | contradicts x y => exact hopposed _
  | chain premises operations => exact hattempt _
  | tagged premises tags => exact hattempt _
  | codes codes tags => exact hattempt _

omit [Scalar α] in
theorem Contradiction.attempted_injective :
    Function.Injective Contradiction.attempted := by
  rintro ⟨k, id, sequence, context, attempts⟩ ⟨k', id', sequence', context', attempts'⟩ h
  simpa [attempted] using h

omit [Scalar α] in
/-- Every record that was filed is active or resolved, and only one of the two. -/
theorem Ledger.Complete.length_eq {l : Ledger} (h : l.Complete) :
    l.active.length + l.resolved.length = l.filed := by
  have hlength := List.Perm.length_eq h
  rwa [List.length_map, List.length_append, List.length_range'] at hlength

namespace Engine

variable {e : Engine α}

/-! ## Outcomes -/

/-- A request reports what it resolves. -/
theorem outcomes_step (e : Engine α) (op : Op) :
    e.ledger.resolved.map Outcome.ofContradiction ++ Answer.outcomes [(e.step op).1] =
      (e.step op).2.ledger.resolved.map (Outcome.ofContradiction (α := α)) := by
  rcases op.pass_or with rfl | hop
  · -- a pass reports on what is pending, before the attempt is counted
    have hresolved : (e.step (.network .resolve)).2.ledger.resolved =
        e.ledger.resolved ++ e.ledger.pending.map Contradiction.attempted := rfl
    have houtcomes : Answer.outcomes [(e.step (.network .resolve)).1] =
        e.ledger.pending.map Outcome.ofContradiction := List.append_nil _
    rw [hresolved, houtcomes, List.map_append, List.map_map]
    rfl
  · have hentry : (e.entry op).isPass = false := by rw [isPass_entry, hop]
    rw [Answer.outcomes_singleton_of_none (report?_step hop), List.append_nil, step_ledger,
      Ledger.resolved_enter hentry]

/-- **A run reports what it resolves**, outcome by outcome and in that order. -/
theorem outcomes_run (e : Engine α) (ops : List Op) :
    e.ledger.resolved.map Outcome.ofContradiction ++ Answer.outcomes (e.run ops).1 =
      (e.run ops).2.ledger.resolved.map (Outcome.ofContradiction (α := α)) := by
  induction ops generalizing e with
  | nil => exact List.append_nil _
  | cons op ops ih =>
    calc
      e.ledger.resolved.map Outcome.ofContradiction ++ Answer.outcomes (e.run (op :: ops)).1
          = (e.ledger.resolved.map Outcome.ofContradiction ++ Answer.outcomes [(e.step op).1]) ++
              Answer.outcomes ((e.step op).2.run ops).1 := by
        rw [run, Answer.outcomes_cons, List.append_assoc]
      _ = (e.step op).2.ledger.resolved.map Outcome.ofContradiction ++
            Answer.outcomes ((e.step op).2.run ops).1 := by rw [outcomes_step]
      _ = (e.run (op :: ops)).2.ledger.resolved.map Outcome.ofContradiction := ih (e.step op).2

/-- Of a new engine, the outcomes are those of all that has been resolved. -/
theorem Fresh.outcomes_run (h : e.Fresh) (ops : List Op) :
    Answer.outcomes (e.run ops).1 =
      (e.run ops).2.ledger.resolved.map (Outcome.ofContradiction (α := α)) := by
  have hresolved : e.ledger.resolved = [] := by rw [h.empty.2]
  rw [← Engine.outcomes_run, hresolved]
  rfl

/-- The number in a report is the number of its outcomes. -/
theorem resolved_eq_of_mem_reports (e : Engine α) (ops : List Op) {r : Report α}
    (hr : r ∈ Answer.reports (e.run ops).1) : r.resolved = r.outcomes.length := by
  induction ops generalizing e with
  | nil => cases hr
  | cons op ops ih =>
    rw [run, Answer.reports_cons, List.mem_append] at hr
    rcases hr with hhere | hlater
    · rcases op.pass_or with rfl | hop
      · rw [Option.mem_toList] at hhere
        cases hhere
        rfl
      · rw [report?_step hop] at hhere
        cases hhere
    · exact ih (e.step op).2 hlater

/-! ## Filings -/

/-- A request answers how many records it files. -/
theorem filed_step (e : Engine α) (op : Op) :
    e.ledger.filed + (e.step op).1.filings = (e.step op).2.ledger.filed := by
  rw [step_eq_perform]
  cases e.effect op with
  | reasoning op =>
    have hfilings := Evaluator.apply_step Answer.filings 0 e.evaluator op (fun _ => rfl)
      (fun _ => rfl) (fun _ => rfl)
    simp only [perform, hfilings, Nat.add_zero]
  | _ => rfl

/-- **The answers of a run count what it files.** -/
theorem filed_run (e : Engine α) (ops : List Op) :
    e.ledger.filed + ((e.run ops).1.map Answer.filings).sum = (e.run ops).2.ledger.filed := by
  induction ops generalizing e with
  | nil => rfl
  | cons op ops ih =>
    rw [run, List.map_cons, List.sum_cons, ← Nat.add_assoc, filed_step]
    exact ih (e.step op).2

/-! ## What a new engine accounts for -/

/-- Of a new engine, all that came in is resolved or active. -/
theorem Fresh.account_perm (h : e.Fresh) (ops : List Op) :
    (e.run ops).2.ledger.account.Perm
      ((Ledger.numbered 0 ((e.journal ops).flatMap Entry.records)).map
        Contradiction.attempted) := by
  rw [run_ledger, h.empty.2]
  exact Ledger.account_foldl_enter_perm {} (e.journal ops)

/-- The identifiers of what came in are those in the reports and those of what is active. -/
theorem Fresh.ids_perm (h : e.Fresh) (ops : List Op) :
    ((Answer.reports (e.run ops).1).flatMap Report.ids ++
        (e.run ops).2.ledger.active.map fun c => c.id).Perm
      (((e.journal ops).flatMap Entry.records).map fun c => c.id) := by
  have hreported : (Answer.reports (e.run ops).1).flatMap Report.ids =
      (e.run ops).2.ledger.resolved.map fun c => c.id := by
    have houtcomes := congrArg (List.map Outcome.id) (h.outcomes_run ops)
    rw [Answer.outcomes, List.map_flatMap, List.map_map] at houtcomes
    exact houtcomes
  have hperm := (h.account_perm ops).map fun c => c.id
  rw [Ledger.account, List.map_append, List.map_map, List.map_map] at hperm
  rw [hreported]
  exact hperm.trans (List.Perm.of_eq (Ledger.map_numbered (fun _ _ => rfl) 0 _))

theorem Fresh.place (h : e.Fresh) (ops : List Op) {c : Contradiction}
    (hc : c ∈ (e.journal ops).flatMap Entry.records) :
    (∃ r ∈ Answer.reports (e.run ops).1, Outcome.ofContradiction c ∈ r.outcomes) ∨
      ∃ n, { c with sequence := n } ∈ (e.run ops).2.ledger.active := by
  -- filing gives it a number
  obtain ⟨i, hi, hci⟩ := List.getElem_of_mem hc
  have hnumbered : { c with sequence := 0 + 1 + i } ∈
      Ledger.numbered 0 ((e.journal ops).flatMap Entry.records) :=
    List.mem_mapIdx.mpr ⟨i, hi, by rw [hci]⟩
  have haccount := (h.account_perm ops).mem_iff.mpr
    (List.mem_map_of_mem (f := Contradiction.attempted) hnumbered)
  rcases List.mem_append.mp haccount with hresolved | hactive
  · have houtcome : Outcome.ofContradiction c ∈ Answer.outcomes (e.run ops).1 := by
      rw [h.outcomes_run]
      exact List.mem_map.mpr ⟨_, hresolved, rfl⟩
    exact .inl (List.mem_flatMap.mp houtcome)
  · obtain ⟨d, hd, hattempted⟩ := List.mem_map.mp hactive
    exact .inr ⟨0 + 1 + i, Contradiction.attempted_injective hattempted ▸ hd⟩

/-- What is settled in a pass, or was before, is all that has been filed. -/
theorem Fresh.balance (h : e.Fresh) (ops : List Op) :
    ((e.run ops).1.map Answer.filings).sum =
      ((Answer.reports (e.run ops).1).map Report.resolved).sum +
        (e.run ops).2.ledger.active.length := by
  have hcomplete : (e.run ops).2.ledger.Complete := ((Reachable.fresh h).run ops).complete
  have hfiled : ((e.run ops).1.map Answer.filings).sum = (e.run ops).2.ledger.filed := by
    have hrun := e.filed_run ops
    rwa [h.empty.2, Nat.zero_add] at hrun
  have hresolved : ((Answer.reports (e.run ops).1).map Report.resolved).sum =
      (e.run ops).2.ledger.resolved.length := by
    calc
      ((Answer.reports (e.run ops).1).map Report.resolved).sum
          = ((Answer.reports (e.run ops).1).map fun r => r.outcomes.length).sum := by
        rw [List.map_congr_left fun r hr => e.resolved_eq_of_mem_reports ops hr]
      _ = (Answer.outcomes (e.run ops).1).length := List.length_flatMap.symm
      _ = (e.run ops).2.ledger.resolved.length := by rw [h.outcomes_run, List.length_map]
  rw [hfiled, hresolved, ← hcomplete.length_eq, Nat.add_comm]

end Engine

end TernaryBelief
