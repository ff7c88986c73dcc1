import TernaryBelief.Proofs.Reports
import TernaryBelief.Proofs.Routing

/-!
# What detection can find

An engine to which no record is handed holds what its own detection found, and nothing else.
Detection skips the name that is asserted and returns nothing for equal values, so it never meets
two unknowns: of the three severities of a policy, only two are ever assigned (`Conflict.Detected`),
and the third one makes no difference to any run (`Engine.run_withBothUnknown`).

Under the default policy this leaves two severities out of four. So the routing never sees a soft
contradiction, and a pass that commits to the certain side always has one (`Engine.run_detected`).
-/

namespace TernaryBelief

variable {α : Type} {p : SeverityPolicy}

/-! ## One conflict -/

namespace Conflict

def bothCertain (k : Conflict) : Bool :=
  k.standing.value.isCertain && k.incoming.value.isCertain

/-- One side says the value, which is certain, and the other side knows nothing. -/
def OneSided (k : Conflict) (v : Trit) : Prop :=
  v.isCertain = true ∧
    (k.standing.value = v ∧ k.incoming.value = .unknown ∨
      k.standing.value = .unknown ∧ k.incoming.value = v)

/-- What detection says under a policy. The severity for two unknowns is not among its answers. -/
structure Detected (p : SeverityPolicy) (k : Conflict) : Prop where
  names : k.standing.name ≠ k.incoming.name
  values : k.standing.value ≠ k.incoming.value
  severity : k.severity = if k.bothCertain then p.opposed else p.oneUnknown

variable {k : Conflict}

/-- If not both sides of a detected conflict are certain, then one
is, and a commitment adopts it. -/
theorem Detected.oneSided (h : k.Detected p) (hk : k.bothCertain = false) :
    k.OneSided (Strategy.commitToCertain.propose k) := by
  have hvalues := h.values
  unfold OneSided Strategy.propose certainValue
  unfold bothCertain at hk
  -- five of the nine pairs of values are excluded
  cases hstanding : k.standing.value <;> cases hincoming : k.incoming.value <;>
    simp_all [Trit.isCertain, Trit.isUnknown]

theorem Detected.severity_default (h : k.Detected {}) :
    k.severity = if k.bothCertain then .hard else .medium := h.severity

end Conflict

namespace SeverityPolicy

/-- Two values that differ are not both unknown, and if both are certain they are opposed. -/
theorem classify_of_ne (p : SeverityPolicy) {a b : Trit} (h : a ≠ b) :
    p.classify a b = if a.isCertain && b.isCertain then p.opposed else p.oneUnknown := by
  cases a <;> cases b <;> first | rfl | exact absurd rfl h

theorem detected_of_detect {x y : Observation} {k : Conflict} (h : p.detect x y = some k)
    (hname : x.name ≠ y.name) : k.Detected p := by
  unfold detect at h
  split at h
  · cases h
  · next hvalue =>
    cases h
    exact ⟨hname, hvalue, p.classify_of_ne hvalue⟩

/-- The severity for two unknowns has no part in detection. -/
theorem detect_bothUnknown (p : SeverityPolicy) (s : Severity) (x y : Observation) :
    ({ p with bothUnknown := s } : SeverityPolicy).detect x y = p.detect x y := by
  unfold detect
  split
  · rfl
  · next hvalue => rw [classify_of_ne _ hvalue, classify_of_ne _ hvalue]

end SeverityPolicy

theorem Network.detected_of_mem_conflicts {n : Network} {incoming : Observation} {k : Conflict}
    (h : k ∈ n.conflicts p incoming) : k.Detected p := by
  simp only [conflicts, List.mem_filterMap, List.mem_filter] at h
  obtain ⟨b, ⟨-, hname⟩, hk⟩ := h
  have hne : b.name ≠ incoming.name := by simpa using hname
  exact SeverityPolicy.detected_of_detect hk hne

/-! ## A ledger of detected conflicts -/

/-- All records come from detection, and each has been through the one pass that resolved it. -/
structure Ledger.Detected (p : SeverityPolicy) (l : Ledger) : Prop where
  active : ∀ c ∈ l.active, c.toConflict.Detected p ∧ c.attempts = 0
  resolved : ∀ c ∈ l.resolved, c.toConflict.Detected p ∧ c.attempts = 1

namespace Ledger

variable {l : Ledger}

theorem mem_numbered {last : Nat} {cs : List Contradiction} {c : Contradiction}
    (h : c ∈ numbered last cs) : ∃ d ∈ cs, c = { d with sequence := c.sequence } := by
  rw [numbered, List.mem_mapIdx] at h
  obtain ⟨i, hi, rfl⟩ := h
  exact ⟨cs[i], List.getElem_mem hi, rfl⟩

theorem detected_empty : ({} : Ledger).Detected p := ⟨by simp, by simp⟩

theorem Detected.enter (h : l.Detected p) {x : Entry}
    (hx : ∀ c ∈ x.records, c.toConflict.Detected p ∧ c.attempts = 0) : (l.enter x).Detected p := by
  cases x with
  | filed batch =>
    refine ⟨?_, h.resolved⟩
    intro c hc
    rcases List.mem_append.mp hc with hold | hnew
    · exact h.active c hold
    · -- numbering touches neither the conflict nor the attempts
      obtain ⟨d, hd, heq⟩ := mem_numbered hnew
      rw [heq]
      exact hx d hd
  | pass =>
    refine ⟨by simp [Ledger.enter, settle], ?_⟩
    intro c hc
    rcases List.mem_append.mp hc with hold | hnew
    · exact h.resolved c hold
    · obtain ⟨d, hd, rfl⟩ := List.mem_map.mp hnew
      have hactive : d ∈ l.active := (Contradiction.bySeverity_perm l.active).mem_iff.mp hd
      obtain ⟨hdetected, hattempts⟩ := h.active d hactive
      exact ⟨hdetected, congrArg (· + 1) hattempts⟩

end Ledger

/-! ## Requests that hand in no record -/

def Op.isRecord : Op → Bool
  | .network (.record _) => true
  | _ => false

namespace Engine

theorem mem_findings {e : Engine α} {ids : IdSource} {incoming : Observation} {c : Contradiction}
    (h : c ∈ e.findings ids incoming) :
    c.toConflict ∈ e.network.conflicts e.config.policy incoming ∧ c.attempts = 0 := by
  rw [findings, List.mem_mapIdx] at h
  obtain ⟨i, hi, rfl⟩ := h
  exact ⟨List.getElem_mem hi, rfl⟩

theorem effectOfUpdate_ne_filing (e : Engine α) (ids : IdSource) (name : String) (value : Trit)
    (confidence : Float) (c : Contradiction) :
    e.effectOfUpdate ids name value confidence ≠ .filing c := by
  unfold effectOfUpdate
  cases e.config.accept confidence <;> simp

/-- Only the request to file a record from elsewhere has that effect. -/
theorem effect_ne_filing (e : Engine α) {op : Op} (h : op.isRecord = false) (c : Contradiction) :
    e.effect op ≠ .filing c := by
  match op with
  | .network (.update ids name value confidence) =>
    exact e.effectOfUpdate_ne_filing ids name value confidence c
  | .network (.updateCode ids name code confidence) =>
    simp only [effect]
    cases Trit.ofInt code with
    | ok value => exact e.effectOfUpdate_ne_filing ids name value confidence c
    | error reason => simp
  | .network (.assert ids name value) => exact e.effectOfUpdate_ne_filing ids name value _ c
  | .network .resolve => simp [effect]
  | .evaluator op => simp [effect]

theorem detected_of_mem_entry {e : Engine α} {op : Op} (hop : op.isRecord = false) :
    ∀ c ∈ (e.entry op).records, c.toConflict.Detected e.config.policy ∧ c.attempts = 0 := by
  intro c hc
  unfold entry at hc
  cases heffect : e.effect op with
  | assertion ids a =>
    rw [heffect] at hc
    obtain ⟨hconflict, hattempts⟩ := mem_findings hc
    exact ⟨Network.detected_of_mem_conflicts hconflict, hattempts⟩
  | filing d => exact absurd heffect (e.effect_ne_filing hop d)
  | _ => simp [heffect, Entry.records] at hc

variable [Scalar α]

theorem ledger_detected_run {e : Engine α} (h : e.ledger.Detected e.config.policy) {ops : List Op}
    (hops : ∀ op ∈ ops, op.isRecord = false) :
    (e.run ops).2.ledger.Detected e.config.policy := by
  induction ops generalizing e with
  | nil => exact h
  | cons op ops ih =>
    rw [List.forall_mem_cons] at hops
    have hstep : (e.step op).2.ledger.Detected (e.step op).2.config.policy := by
      rw [step_ledger, step_config]
      exact h.enter (detected_of_mem_entry hops.1)
    have hrun := ih hstep hops.2
    rwa [step_config] at hrun

/-! ## The severity for two unknowns -/

omit [Scalar α] in
/-- The engine with another severity for two unknowns in its policy. -/
def withBothUnknown (e : Engine α) (s : Severity) : Engine α :=
  { e with config := { e.config with policy := { e.config.policy with bothUnknown := s } } }

omit [Scalar α] in
theorem findings_withBothUnknown (e : Engine α) (s : Severity) (ids : IdSource)
    (incoming : Observation) :
    (e.withBothUnknown s).findings ids incoming = e.findings ids incoming := by
  simp only [findings, withBothUnknown, Network.conflicts, SeverityPolicy.detect_bothUnknown]

theorem step_withBothUnknown (e : Engine α) (s : Severity) (op : Op) :
    (e.withBothUnknown s).step op = ((e.step op).1, (e.step op).2.withBothUnknown s) := by
  -- whether a request is accepted does not depend on the policy
  have heffect : (e.withBothUnknown s).effect op = e.effect op := rfl
  rw [step_eq_perform, step_eq_perform, heffect]
  cases e.effect op with
  | assertion ids a =>
    simp only [perform, findings_withBothUnknown]
    rfl
  | _ => rfl

/-- **The severity for two unknowns is never assigned**: no run depends on it, whatever is asked. -/
theorem run_withBothUnknown (e : Engine α) (s : Severity) (ops : List Op) :
    (e.withBothUnknown s).run ops = ((e.run ops).1, (e.run ops).2.withBothUnknown s) := by
  induction ops generalizing e with
  | nil => rfl
  | cons op ops ih => simp only [run, step_withBothUnknown, ih]

/-! ## Runs under the default policy -/

omit [Scalar α] in
/-- A routing that sees no soft contradiction is not chemical. -/
theorem substrate_ne_chemical {e : Engine α} (h : ∀ c ∈ e.ledger.active, c.severity ≠ .soft) :
    e.substrate ≠ .chemical := by
  intro hchemical
  rw [substrate, Substrate.route_eq_chemical_iff, count_distribution,
    Contradiction.tally_eq_zero h] at hchemical
  exact absurd hchemical (by decide)

/-- **What an engine holds that no record is handed to**, after any requests to a new one: only
what its detection finds, with one attempt once it is resolved; and the severity for two unknowns
makes no difference. Under the default policy all records are of medium severity or hard, nothing
is routed to the chemical substrate, and each medium outcome proposes the one side that is
certain. -/
theorem run_detected {e : Engine α} (h : e.Fresh) {ops : List Op}
    (hops : ∀ op ∈ ops, op.isRecord = false) :
    (e.run ops).2.ledger.Detected e.config.policy ∧
    (∀ s, (e.withBothUnknown s).run ops = ((e.run ops).1, (e.run ops).2.withBothUnknown s)) ∧
    (e.config.policy = {} →
      (∀ c ∈ (e.run ops).2.ledger.active ++ (e.run ops).2.ledger.resolved,
        c.severity ≠ .soft ∧ c.severity ≠ .critical) ∧
      (e.run ops).2.substrate ≠ .chemical ∧
      ∀ r ∈ Answer.reports (e.run ops).1, ∀ o ∈ r.outcomes, o.severity = .medium →
        ∃ c ∈ (e.run ops).2.ledger.resolved,
          o = Outcome.ofContradiction c ∧ c.toConflict.OneSided o.proposed) := by
  have hdetected : (e.run ops).2.ledger.Detected e.config.policy := by
    refine ledger_detected_run ?_ hops
    rw [h.empty.2]
    exact Ledger.detected_empty
  refine ⟨hdetected, fun s => e.run_withBothUnknown s ops, ?_⟩
  intro hpolicy
  rw [hpolicy] at hdetected
  have hall : ∀ c ∈ (e.run ops).2.ledger.active ++ (e.run ops).2.ledger.resolved,
      c.toConflict.Detected {} := by
    intro c hc
    rcases List.mem_append.mp hc with hactive | hresolved
    · exact (hdetected.active c hactive).1
    · exact (hdetected.resolved c hresolved).1
  have hseverity : ∀ c ∈ (e.run ops).2.ledger.active ++ (e.run ops).2.ledger.resolved,
      c.severity ≠ .soft ∧ c.severity ≠ .critical := by
    intro c hc
    rw [(hall c hc).severity_default]
    split <;> decide
  refine ⟨hseverity, ?_, ?_⟩
  · apply substrate_ne_chemical
    intro c hc
    exact (hseverity c (List.mem_append_left _ hc)).1
  · intro r hr o ho hmedium
    -- what is reported is reported of a record that is resolved at the end
    have hmem : o ∈ Answer.outcomes (e.run ops).1 := List.mem_flatMap.mpr ⟨r, hr, ho⟩
    rw [h.outcomes_run, List.mem_map] at hmem
    obtain ⟨c, hc, rfl⟩ := hmem
    refine ⟨c, hc, rfl, ?_⟩
    have hc' := hall c (List.mem_append_right _ hc)
    have hmedium' : c.severity = .medium := hmedium
    have hcertain : c.bothCertain = false := by
      have hsplit := hc'.severity_default
      rw [hmedium'] at hsplit
      split at hsplit
      · cases hsplit
      · next hfalse => simpa using hfalse
    have hproposed : (Outcome.ofContradiction c : Outcome α).proposed =
        Strategy.commitToCertain.propose c.toConflict := by
      simp only [Outcome.ofContradiction, Strategy.apply, hmedium', Strategy.forSeverity]
    rw [hproposed]
    exact hc'.oneSided hcertain

/-- Certain and unknown values meet, a pass is made, and two unknowns meet. -/
def meetings : List Op :=
  let ids : IdSource := Uuid.ofNat
  [.network (.update ids "a" .unknown 1.0), .network (.update ids "b" .yes 0.5),
    .network (.updateCode ids "c" (-1) 1.0), .network .resolve, .evaluator (.contradicts .yes .no),
    .network (.assert ids "b" .unknown)]

theorem run_detected_meetings :
    Fresh ({} : Engine Rat) ∧ (∀ op ∈ meetings, op.isRecord = false) ∧
    (({} : Engine Rat).run meetings).2.ledger.Detected {} ∧
    (({} : Engine Rat).run meetings).2.ledger.active.map (fun c => (c.severity, c.attempts)) =
      [(.medium, 0)] ∧
    (({} : Engine Rat).run meetings).2.substrate ≠ .chemical := by
  have hops : ∀ op ∈ meetings, op.isRecord = false := by simp [meetings, Op.isRecord]
  obtain ⟨hdetected, -, hdefault⟩ := run_detected (e := ({} : Engine Rat)) .blank hops
  obtain ⟨-, hsubstrate, -⟩ := hdefault rfl
  exact ⟨.blank, hops, hdetected, by decide +kernel, hsubstrate⟩

end Engine

end TernaryBelief
