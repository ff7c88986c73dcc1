import TernaryBelief.Proofs.Faithful

/-!
# Data read back

The document of each type of data keeps exactly the values whose counts fit their sizes and whose
numbers are finite. What a reader accepts is said once for each record, field by field, and from
this follows what its documents keep.
-/

namespace TernaryBelief

open Json (Coded NumberReader Value Faithful faithful_bool faithful_float faithful_name faithful_nat
  faithful_string slots?_record required optional)
open Json.Coded (encode decode)

/-- Documents of a type keep the values with this property. -/
abbrev Keeps (τ : Type) [Coded τ] (Kept : τ → Prop) : Prop :=
  Faithful (encode : τ → Value) decode Kept

/-! ## Codes, names and lists -/

theorem keeps_trit : Keeps Trit fun _ => True :=
  .of_total fun t => by
    show ((Numeral.ofInt t.toInt).toInt?).bind Trit.ofInt? = some t
    rw [Numeral.toInt?_ofInt]
    exact Trit.ofInt?_toInt t

theorem keeps_connective : Keeps Connective fun _ => True :=
  faithful_name fun op => by cases op <;> decide +kernel

theorem keeps_severity : Keeps Severity fun _ => True :=
  faithful_name fun s => by cases s <;> decide +kernel

theorem keeps_strategy : Keeps Strategy fun _ => True :=
  faithful_name fun s => by cases s <;> decide +kernel

theorem keeps_uuid : Keeps Uuid fun _ => True :=
  .of_total fun u => (Option.bind_some u.text Uuid.ofText?).trans (Uuid.ofText?_text u)

theorem keeps_list {τ : Type} [Coded τ] {Kept : τ → Prop} (h : Keeps τ Kept) :
    Keeps (List τ) fun xs => ∀ x ∈ xs, Kept x := h.list

/-! ## Policies and configurations -/

variable {v : Value}

theorem decode_policy_iff {p : SeverityPolicy} :
    decode v = some p ↔ ∃ both one opposed,
      v.slots? SeverityPolicy.fields = some [both, one, opposed] ∧
      optional .soft decode both = some p.bothUnknown ∧
      optional .medium decode one = some p.oneUnknown ∧
      optional .hard decode opposed = some p.opposed := by
  obtain ⟨both, one, opposed⟩ := p
  delta instCodedSeverityPolicy
  dsimp only
  split
  · next h => simp [h, Option.bind_eq_some_iff]
  · next h => exact ⟨fun h => (nomatch h), fun ⟨_, _, _, hs, _⟩ => (h _ _ _ hs).elim⟩

theorem keeps_policy : Keeps SeverityPolicy fun _ => True where
  read {p q} := by
    have hslots : (encode p : Value).slots? SeverityPolicy.fields =
        some [some (encode p.bothUnknown), some (encode p.oneUnknown), some (encode p.opposed)] :=
      slots?_record SeverityPolicy.fields (by simp)
    rw [decode_policy_iff, hslots]
    cases p
    cases q
    simp [keeps_severity.optional]
  kept _ := trivial

theorem decode_config_iff [NumberReader] {c : Config} :
    decode v = some c ↔ ∃ confidence strict policy,
      v.slots? Config.fields = some [confidence, strict, policy] ∧
      optional 1.0 decode confidence = some c.defaultConfidence ∧
      optional false decode strict = some c.strict ∧
      optional {} decode policy = some c.policy := by
  obtain ⟨confidence, strict, policy⟩ := c
  delta instCodedConfigOfNumberReader
  dsimp only
  split
  · next h => simp [h, Option.bind_eq_some_iff, -Bool.exists_bool]
  · next h => exact ⟨fun h => (nomatch h), fun ⟨_, _, _, hs, _⟩ => (h _ _ _ hs).elim⟩

theorem keeps_config [reader : NumberReader] (hreader : reader.Exact) :
    Keeps Config fun c => c.defaultConfidence.isFinite = true where
  read {c d} := by
    have hslots : (encode c : Value).slots? Config.fields =
        some [some (encode c.defaultConfidence), some (encode c.strict), some (encode c.policy)] :=
      slots?_record Config.fields (by simp)
    rw [decode_config_iff, hslots]
    cases c
    cases d
    simp [(faithful_float hreader).optional, faithful_bool.optional, keeps_policy.optional,
      and_assoc]
  kept h := by
    obtain ⟨_, _, _, -, hconfidence, -⟩ := decode_config_iff.mp h
    exact (faithful_float hreader).kept_of_optional (by decide +kernel) hconfidence

/-! ## Beliefs and contradictions -/

theorem decode_belief_iff [NumberReader] {b : Belief} :
    decode v = some b ↔ ∃ name value confidence revision,
      v.slots? Belief.fields = some [name, value, confidence, revision] ∧
      required decode name = some b.name ∧ required decode value = some b.value ∧
      required decode confidence = some b.confidence ∧
      required (Json.decodeNat Json.bound32) revision = some b.revision := by
  obtain ⟨name, value, confidence, revision⟩ := b
  delta instCodedBeliefOfNumberReader
  dsimp only
  split
  · next h => simp [h, Option.bind_eq_some_iff]
  · next h => exact ⟨fun h => (nomatch h), fun ⟨_, _, _, _, hs, _⟩ => (h _ _ _ _ hs).elim⟩

theorem keeps_belief [reader : NumberReader] (hreader : reader.Exact) :
    Keeps Belief fun b => b.confidence.isFinite = true ∧ b.revision < Json.bound32 where
  read {b c} := by
    have hslots : (encode b : Value).slots? Belief.fields =
        some [some (encode b.name), some (encode b.value), some (encode b.confidence),
          some (Json.encodeNat b.revision)] :=
      slots?_record Belief.fields (by simp)
    rw [decode_belief_iff, hslots]
    cases b
    cases c
    simp [faithful_string.required, keeps_trit.required, (faithful_float hreader).required,
      (faithful_nat _).required]
    tauto
  kept h := by
    obtain ⟨_, _, _, _, -, -, -, hconfidence, hrevision⟩ := decode_belief_iff.mp h
    exact ⟨(faithful_float hreader).kept_of_required hconfidence,
      (faithful_nat _).kept_of_required hrevision⟩

theorem decode_contradiction_iff {c : Contradiction} :
    decode v = some c ↔
      ∃ id nameA nameB valueA valueB severity sequence context attempts,
        v.slots? Contradiction.fields = some [id, nameA, nameB, valueA, valueB, severity, sequence,
          context, attempts] ∧
        required decode id = some c.id ∧ required decode nameA = some c.standing.name ∧
        required decode valueA = some c.standing.value ∧
        required decode nameB = some c.incoming.name ∧
        required decode valueB = some c.incoming.value ∧
        required decode severity = some c.severity ∧
        required (Json.decodeNat Json.bound64) sequence = some c.sequence ∧
        optional "" decode context = some c.context ∧
        required (Json.decodeNat Json.bound32) attempts = some c.attempts := by
  -- fields are read in the order of the record, in which the conflict comes first
  obtain ⟨⟨⟨nameA, valueA⟩, ⟨nameB, valueB⟩, severity⟩, id, sequence, context, attempts⟩ := c
  delta instCodedContradiction
  dsimp only
  split
  · next h => simp [h, Option.bind_eq_some_iff]
  · next h =>
    exact ⟨fun h => (nomatch h),
      fun ⟨_, _, _, _, _, _, _, _, _, hs, _⟩ => (h _ _ _ _ _ _ _ _ _ hs).elim⟩

/-- An empty remark is not written. -/
theorem slots_contradiction (c : Contradiction) :
    (encode c : Value).slots? Contradiction.fields =
      some [some (encode c.id), some (encode c.standing.name), some (encode c.incoming.name),
        some (encode c.standing.value), some (encode c.incoming.value), some (encode c.severity),
        some (Json.encodeNat c.sequence),
        if c.context = "" then none else some (encode c.context),
        some (Json.encodeNat c.attempts)] := by
  refine (slots?_record Contradiction.fields ?_).trans ?_
  · split <;> simp
  · split <;> rfl

theorem keeps_contradiction :
    Keeps Contradiction fun c => c.sequence < Json.bound64 ∧ c.attempts < Json.bound32 where
  read {c d} := by
    rw [decode_contradiction_iff, slots_contradiction]
    obtain ⟨⟨⟨nameA, valueA⟩, ⟨nameB, valueB⟩, severity⟩, id, sequence, context, attempts⟩ := c
    obtain ⟨⟨⟨nameA', valueA'⟩, ⟨nameB', valueB'⟩, severity'⟩, id', sequence', context',
      attempts'⟩ := d
    have hcontext : optional "" decode (if context = "" then none else some (encode context)) =
        some context' ↔ True ∧ context' = context := faithful_string.omitted trivial fun h => h
    simp [faithful_string.required, keeps_trit.required, keeps_uuid.required,
      keeps_severity.required, (faithful_nat _).required, hcontext]
    tauto
  kept h := by
    obtain ⟨_, _, _, _, _, _, _, _, _, -, -, -, -, -, -, -, hsequence, -, hattempts⟩ :=
      decode_contradiction_iff.mp h
    exact ⟨(faithful_nat _).kept_of_required hsequence, (faithful_nat _).kept_of_required hattempts⟩

/-! ## Chains -/

theorem decode_step_iff [NumberReader] {s : Step Float} :
    decode v = some s ↔ ∃ premises operations result uncertainty,
      v.slots? Step.fields = some [premises, operations, result, uncertainty] ∧
      required decode premises = some s.premises ∧
      required decode operations = some s.operations ∧ required decode result = some s.result ∧
      required decode uncertainty = some s.uncertainty := by
  obtain ⟨premises, operations, result, uncertainty⟩ := s
  delta instCodedStepFloatOfNumberReader
  dsimp only
  split
  · next h => simp [h, Option.bind_eq_some_iff]
  · next h => exact ⟨fun h => (nomatch h), fun ⟨_, _, _, _, hs, _⟩ => (h _ _ _ _ hs).elim⟩

theorem keeps_step [reader : NumberReader] (hreader : reader.Exact) :
    Keeps (Step Float) fun s => s.uncertainty.isFinite = true where
  read {s t} := by
    have hslots : (encode s : Value).slots? Step.fields =
        some [some (encode s.premises), some (encode s.operations), some (encode s.result),
          some (encode s.uncertainty)] :=
      slots?_record Step.fields (by simp)
    rw [decode_step_iff, hslots]
    cases s
    cases t
    simp [(keeps_list keeps_trit).required, (keeps_list keeps_connective).required,
      keeps_trit.required, (faithful_float hreader).required]
    tauto
  kept h := by
    obtain ⟨_, _, _, _, -, -, -, -, huncertainty⟩ := decode_step_iff.mp h
    exact (faithful_float hreader).kept_of_required huncertainty

/-! ## Resolution -/

theorem decode_resolution_iff [NumberReader] {r : Resolution Float} :
    decode v = some r ↔ ∃ value cost,
      v.slots? Resolution.fields = some [value, cost] ∧
      required decode value = some r.value ∧ required decode cost = some r.cost := by
  obtain ⟨value, cost⟩ := r
  delta instCodedResolutionFloatOfNumberReader
  dsimp only
  split
  · next h => simp [h, Option.bind_eq_some_iff]
  · next h => exact ⟨fun h => (nomatch h), fun ⟨_, _, hs, _⟩ => (h _ _ hs).elim⟩

theorem keeps_resolution [reader : NumberReader] (hreader : reader.Exact) :
    Keeps (Resolution Float) fun r => r.cost.isFinite = true where
  read {r s} := by
    have hslots : (encode r : Value).slots? Resolution.fields =
        some [some (encode r.value), some (encode r.cost)] :=
      slots?_record Resolution.fields (by simp)
    rw [decode_resolution_iff, hslots]
    cases r
    cases s
    simp [keeps_trit.required, (faithful_float hreader).required]
    tauto
  kept h := by
    obtain ⟨_, _, -, -, hcost⟩ := decode_resolution_iff.mp h
    exact (faithful_float hreader).kept_of_required hcost

theorem decode_outcome_iff [NumberReader] {o : Outcome Float} :
    decode v = some o ↔ ∃ id severity strategy proposed cost,
      v.slots? Outcome.fields = some [id, severity, strategy, proposed, cost] ∧
      required decode id = some o.id ∧ required decode severity = some o.severity ∧
      required decode strategy = some o.strategy ∧ required decode proposed = some o.proposed ∧
      required decode cost = some o.cost := by
  obtain ⟨id, severity, strategy, proposed, cost⟩ := o
  delta instCodedOutcomeFloatOfNumberReader
  dsimp only
  split
  · next h => simp [h, Option.bind_eq_some_iff]
  · next h => exact ⟨fun h => (nomatch h), fun ⟨_, _, _, _, _, hs, _⟩ => (h _ _ _ _ _ hs).elim⟩

theorem keeps_outcome [reader : NumberReader] (hreader : reader.Exact) :
    Keeps (Outcome Float) fun o => o.cost.isFinite = true where
  read {o p} := by
    have hslots : (encode o : Value).slots? Outcome.fields =
        some [some (encode o.id), some (encode o.severity), some (encode o.strategy),
          some (encode o.proposed), some (encode o.cost)] :=
      slots?_record Outcome.fields (by simp)
    rw [decode_outcome_iff, hslots]
    cases o
    cases p
    simp [keeps_uuid.required, keeps_severity.required, keeps_strategy.required,
      keeps_trit.required, (faithful_float hreader).required]
    tauto
  kept h := by
    obtain ⟨_, _, _, _, _, -, -, -, -, -, hcost⟩ := decode_outcome_iff.mp h
    exact (faithful_float hreader).kept_of_required hcost

theorem decode_report_iff [NumberReader] {r : Report Float} :
    decode v = some r ↔ ∃ resolved cost delta preserved outcomes,
      v.slots? Report.fields = some [resolved, cost, delta, preserved, outcomes] ∧
      required (Json.decodeNat Json.bound64) resolved = some r.resolved ∧
      required decode cost = some r.cost ∧ required decode delta = some r.delta ∧
      required decode preserved = some r.preserved ∧
      optional [] decode outcomes = some r.outcomes := by
  obtain ⟨resolved, cost, delta, preserved, outcomes⟩ := r
  delta instCodedReportFloatOfNumberReader
  dsimp only
  split
  · next h => simp [h, Option.bind_eq_some_iff]
  · next h => exact ⟨fun h => (nomatch h), fun ⟨_, _, _, _, _, hs, _⟩ => (h _ _ _ _ _ hs).elim⟩

/-- An empty list of outcomes is not written. -/
theorem slots_report [NumberReader] (r : Report Float) :
    (encode r : Value).slots? Report.fields =
      some [some (Json.encodeNat r.resolved), some (encode r.cost), some (encode r.delta),
        some (encode r.preserved),
        if r.outcomes.isEmpty then none else some (encode r.outcomes)] := by
  refine (slots?_record Report.fields ?_).trans ?_
  · split <;> simp
  · split <;> rfl

/-- The numbers of a report, and of the outcomes in it, are finite. -/
@[mk_iff]
structure Report.AllFinite (r : Report Float) : Prop where
  cost : r.cost.isFinite = true
  delta : r.delta.isFinite = true
  preserved : r.preserved.isFinite = true
  outcomes : ∀ o ∈ r.outcomes, o.cost.isFinite = true

theorem keeps_report [reader : NumberReader] (hreader : reader.Exact) :
    Keeps (Report Float) fun r => r.AllFinite ∧ r.resolved < Json.bound64 where
  read {r s} := by
    rw [decode_report_iff, slots_report]
    have houtcomes : optional [] decode
        (if r.outcomes.isEmpty then none else some (encode r.outcomes)) = some s.outcomes ↔
        (∀ o ∈ r.outcomes, o.cost.isFinite = true) ∧ s.outcomes = r.outcomes :=
      (keeps_list (keeps_outcome hreader)).omitted (fun _ h => absurd h List.not_mem_nil)
        List.isEmpty_iff.mp
    cases r
    cases s
    simp [(faithful_float hreader).required, (faithful_nat _).required, houtcomes,
      Report.allFinite_iff, -List.isEmpty_iff]
    tauto
  kept h := by
    obtain ⟨_, _, _, _, _, -, hresolved, hcost, hdelta, hpreserved, houtcomes⟩ :=
      decode_report_iff.mp h
    exact ⟨⟨(faithful_float hreader).kept_of_required hcost,
      (faithful_float hreader).kept_of_required hdelta,
      (faithful_float hreader).kept_of_required hpreserved,
      (keeps_list (keeps_outcome hreader)).kept_of_optional (fun _ h => absurd h List.not_mem_nil)
        houtcomes⟩,
      (faithful_nat _).kept_of_required hresolved⟩

/-! ## Scores -/

theorem decode_snapshot_iff {s : Snapshot} :
    decode v = some s ↔ ∃ beliefs unknown active resolved,
      v.slots? Snapshot.fields = some [beliefs, unknown, active, resolved] ∧
      required (Json.decodeNat Json.bound64) beliefs = some s.beliefs ∧
      required (Json.decodeNat Json.bound64) unknown = some s.unknown ∧
      required (Json.decodeNat Json.bound64) active = some s.active ∧
      required (Json.decodeNat Json.bound64) resolved = some s.resolved := by
  obtain ⟨beliefs, unknown, active, resolved⟩ := s
  delta instCodedSnapshot
  dsimp only
  split
  · next h => simp [h, Option.bind_eq_some_iff]
  · next h => exact ⟨fun h => (nomatch h), fun ⟨_, _, _, _, hs, _⟩ => (h _ _ _ _ hs).elim⟩

/-- The counts of a snapshot are those that it can hold. -/
@[mk_iff]
structure Snapshot.InRange (s : Snapshot) : Prop where
  beliefs : s.beliefs < Json.bound64
  unknown : s.unknown < Json.bound64
  active : s.active < Json.bound64
  resolved : s.resolved < Json.bound64

theorem keeps_snapshot : Keeps Snapshot Snapshot.InRange where
  read {s t} := by
    have hslots : (encode s : Value).slots? Snapshot.fields =
        some [some (Json.encodeNat s.beliefs), some (Json.encodeNat s.unknown),
          some (Json.encodeNat s.active), some (Json.encodeNat s.resolved)] :=
      slots?_record Snapshot.fields (by simp)
    rw [decode_snapshot_iff, hslots]
    cases s
    cases t
    simp [(faithful_nat _).required, Snapshot.inRange_iff]
    tauto
  kept h := by
    obtain ⟨_, _, _, _, -, hbeliefs, hunknown, hactive, hresolved⟩ := decode_snapshot_iff.mp h
    exact ⟨(faithful_nat _).kept_of_required hbeliefs, (faithful_nat _).kept_of_required hunknown,
      (faithful_nat _).kept_of_required hactive, (faithful_nat _).kept_of_required hresolved⟩

end TernaryBelief
