import TernaryBelief.Proofs.Disagreement
import TernaryBelief.Proofs.Procedure

/-!
# What an assertion leaves behind

An assertion goes through the network, and with each belief of another name it asks a detector for
the conflict. What comes out is said without the detector and without the filing one by one: for
each belief of another name and another value there is one record, in the order of the beliefs and
under the next sequence numbers, and what was believed of the asserted name before has no part in it
(`Engine.AssertionEffect`, `Engine.Reachable.update_effect`).

A detector keeps a policy of its own. It is given one when the engine is made, in each of the three
ways to make one, and nothing changes it afterwards; so in every engine that requests lead to it is
the policy of the configuration (`Engine.WithDetector.Reachable.detector_eq`).
-/

namespace TernaryBelief

variable {α : Type}

/-! ## Disputed beliefs -/

namespace Network

/-- The beliefs that an observation disputes, in the order of the beliefs. -/
def disputed (n : Network) (incoming : Observation) : List Belief :=
  n.beliefs.toList.filter fun b => b.name ≠ incoming.name ∧ b.value ≠ incoming.value

/-- The beliefs of all names but one, in the order of the beliefs. -/
def others (n : Network) (name : String) : List Belief :=
  n.beliefs.toList.filter fun b => b.name ≠ name

/-- The detector finds one conflict for each disputed belief. -/
theorem conflicts_eq_map_disputed (p : SeverityPolicy) (n : Network) (incoming : Observation) :
    n.conflicts p incoming = (n.disputed incoming).map fun b =>
      ⟨b.observation, incoming, p.classify b.value incoming.value⟩ := by
  unfold conflicts disputed
  induction n.beliefs.toList with
  | nil => rfl
  | cons b bs ih =>
    by_cases hname : b.name = incoming.name
    · -- the detector is not asked about the asserted name
      simpa [List.filter_cons, hname] using ih
    · by_cases hvalue : b.value = incoming.value
      · have hdetect : p.detect b.observation incoming = none := if_pos hvalue
        simpa [List.filter_cons, hname, hvalue, hdetect] using ih
      · have hdetect : p.detect b.observation incoming =
            some ⟨b.observation, incoming, p.classify b.value incoming.value⟩ := if_neg hvalue
        simpa [List.filter_cons, hname, hvalue, hdetect] using ih

/-- Only beliefs of other names are disputed. -/
theorem disputed_eq_filter_others (n : Network) (incoming : Observation) :
    n.disputed incoming = (n.others incoming.name).filter fun b => b.value ≠ incoming.value := by
  rw [others, List.filter_filter, disputed]
  congr 1
  funext b
  by_cases hname : b.name = incoming.name <;> simp [hname]

theorem Indexed.nodup_disputed {n : Network} (h : n.Indexed) (incoming : Observation) :
    ((n.disputed incoming).map Belief.name).Nodup :=
  h.nodup_names.sublist (List.filter_sublist.map Belief.name)

/-- What a filter does not let through may change in place. -/
theorem filter_modify {β : Type} {p : β → Bool} {f : β → β} {xs : List β} {i : Nat}
    (h : ∀ x ∈ xs[i]?, p x = false ∧ p (f x) = false) : (xs.modify i f).filter p = xs.filter p := by
  induction xs generalizing i with
  | nil => cases i <;> rfl
  | cons x xs ih =>
    cases i with
    | zero =>
      obtain ⟨hx, hfx⟩ := h x rfl
      rw [List.modify_zero_cons, List.filter_cons_of_neg (by simp [hfx]),
        List.filter_cons_of_neg (by simp [hx])]
    | succ i =>
      rw [List.modify_succ_cons, List.filter_cons, List.filter_cons, ih h]

/-- An assertion leaves all beliefs of other names as they are, and in their order. -/
theorem Indexed.others_write {n : Network} (h : n.Indexed) (a : Assertion) :
    (n.write a).others a.name = n.others a.name := by
  cases hi : n.index[a.name]? with
  | some i =>
    obtain ⟨b, hb, hname, -⟩ := h.find?_of_index hi
    rw [write_of_index hi, others, Array.toList_modify]
    apply filter_modify
    -- the belief at the place of the name bears the name, before and after
    intro c hc
    rw [Array.getElem?_toList, hb] at hc
    obtain rfl := Option.some.inj hc
    simp [Belief.overwrite, hname]
  | none =>
    rw [write_of_not_indexed hi, others, Array.toList_push, List.filter_append]
    simp [others]

end Network

namespace Engine

/-- The records that an assertion causes, as they stand in the ledger:
one for each disputed belief. -/
def disputes (e : Engine α) (ids : IdSource) (incoming : Observation) : List Contradiction :=
  (e.network.disputed incoming).mapIdx fun i b =>
    { standing := ⟨b.name, b.value⟩
      incoming := incoming
      severity := e.config.policy.classify b.value incoming.value
      id := ids i
      sequence := e.ledger.filed + 1 + i
      context := ""
      attempts := 0 }

theorem numbered_findings (e : Engine α) (ids : IdSource) (incoming : Observation) :
    Ledger.numbered e.ledger.filed (e.findings ids incoming) = e.disputes ids incoming := by
  rw [findings, Network.conflicts_eq_map_disputed]
  apply List.ext_getElem?
  intro i
  simp only [Ledger.numbered, disputes, List.getElem?_mapIdx, List.getElem?_map, Option.map_map]
  rfl

theorem length_findings (e : Engine α) (ids : IdSource) (incoming : Observation) :
    (e.findings ids incoming).length = (e.disputes ids incoming).length := by
  rw [← numbered_findings, Ledger.length_numbered]

/-- To file what is found is to add the records at the end of the active list. -/
theorem fileAll_findings (e : Engine α) (ids : IdSource) (incoming : Observation) :
    e.ledger.fileAll (e.findings ids incoming) =
      { e.ledger with
        active := e.ledger.active ++ e.disputes ids incoming
        filed := e.ledger.filed + (e.disputes ids incoming).length } := by
  rw [Ledger.fileAll, numbered_findings, length_findings]

/-- The records of an assertion depend on no belief of the name that is asserted. -/
theorem disputes_congr {e x : Engine α} (ids : IdSource) (incoming : Observation)
    (hconfig : x.config = e.config) (hledger : x.ledger = e.ledger)
    (hothers : x.network.others incoming.name = e.network.others incoming.name) :
    x.disputes ids incoming = e.disputes ids incoming := by
  have hdisputed : x.network.disputed incoming = e.network.disputed incoming := by
    rw [Network.disputed_eq_filter_others, Network.disputed_eq_filter_others, hothers]
  rw [disputes, disputes, hdisputed, hconfig, hledger]

/-! ## A detector of its own -/

/-- An engine whose detector keeps the policy that it was made with. -/
structure WithDetector (α : Type) where
  engine : Engine α := {}
  detector : SeverityPolicy := {}

namespace WithDetector

def ofConfig (c : Config) : Except Rejection (WithDetector α) := do
  let c ← c.validate
  return { engine := { config := c }, detector := c.policy }

def ofEvaluator (v : Evaluator α) : WithDetector α := { engine := Engine.ofEvaluator v }

/-- Asserts a value for a name; conflicts are looked for by the detector. -/
def update (x : WithDetector α) (ids : IdSource) (name : String) (value : Trit)
    (confidence : Float) : Except Rejection (Nat × WithDetector α) := do
  let confidence ← x.engine.config.accept confidence
  let found : List Contradiction :=
    (x.engine.network.conflicts x.detector ⟨name, value⟩).mapIdx fun i c => .ofConflict (ids i) c
  return (found.length,
    { x with engine := { x.engine with
      ledger := x.engine.ledger.fileAll found
      network := x.engine.network.insert name value confidence } })

/-- One request. The detector has a part in assertions only. -/
def step [Scalar α] (x : WithDetector α) : Op → Answer α × WithDetector α
  | .network (.update ids name value confidence) =>
    Answer.ofAttempt x .found (x.update ids name value confidence)
  | .network (.updateCode ids name code confidence) =>
    Answer.ofAttempt x .found do x.update ids name (← Trit.ofInt code) confidence
  | .network (.assert ids name value) =>
    Answer.ofAttempt x .found (x.update ids name value x.engine.config.defaultConfidence)
  | op => ((x.engine.step op).1, { x with engine := (x.engine.step op).2 })

/-- What requests lead to from an engine that was made in one of the three ways. -/
inductive Reachable [Scalar α] : WithDetector α → Prop where
  | blank : Reachable {}
  | ofConfig {c : Config} {x : WithDetector α} (h : WithDetector.ofConfig c = .ok x) : Reachable x
  | ofEvaluator (v : Evaluator α) : Reachable (WithDetector.ofEvaluator v)
  | step {x : WithDetector α} (h : Reachable x) (op : Op) : Reachable (x.step op).2

/-- A configuration is given to the engine and its policy to the detector. -/
theorem ofConfig_eq (c : Config) :
    (ofConfig c : Except Rejection (WithDetector α)) =
      (Engine.ofConfig c).map fun e => { engine := e, detector := e.config.policy } := by
  unfold ofConfig Engine.ofConfig
  cases c.validate with
  | ok c => rfl
  | error reason => rfl

variable {x : WithDetector α}

/-- With the policy of the configuration, the detector finds what the engine finds. -/
theorem update_eq (hx : x.detector = x.engine.config.policy) (ids : IdSource) (name : String)
    (value : Trit) (confidence : Float) :
    x.update ids name value confidence =
      (x.engine.update ids name value confidence).map fun r => (r.1, { x with engine := r.2 }) := by
  unfold update Engine.update Engine.findings
  rw [hx]
  cases x.engine.config.accept confidence with
  | ok stored => rfl
  | error reason => rfl

theorem ofAttempt_map (x : WithDetector α) (r : Except Rejection (Nat × Engine α)) :
    Answer.ofAttempt x .found (r.map fun r => (r.1, { x with engine := r.2 })) =
      ((Answer.ofAttempt x.engine (.found (α := α)) r).1,
        { x with engine := (Answer.ofAttempt x.engine (.found (α := α)) r).2 }) := by
  cases r with
  | ok r => rfl
  | error reason => rfl

variable [Scalar α]

theorem step_eq (hx : x.detector = x.engine.config.policy) (op : Op) :
    x.step op = ((x.engine.step op).1, { x with engine := (x.engine.step op).2 }) := by
  match op with
  | .network (.update ids name value confidence) =>
    rw [step, update_eq hx, ofAttempt_map]
    rfl
  | .network (.updateCode ids name code confidence) =>
    simp only [step, Engine.step, networkStep, Engine.updateCode]
    cases Trit.ofInt code with
    | ok value =>
      exact (congrArg _ (update_eq hx ids name value confidence)).trans (ofAttempt_map x _)
    | error reason => rfl
  | .network (.assert ids name value) =>
    rw [step, update_eq hx, ofAttempt_map]
    rfl
  | .network (.record c) => rfl
  | .network .resolve => rfl
  | .evaluator op => rfl

/-- **The detector goes by the policy of the configuration**, whichever way the engine was made and
whatever was requested of it. -/
theorem Reachable.detector_eq (h : x.Reachable) : x.detector = x.engine.config.policy := by
  induction h with
  | blank => rfl
  | ofEvaluator v => rfl
  | @ofConfig c x h =>
    rw [ofConfig_eq] at h
    cases hmade : (Engine.ofConfig c : Except Rejection (Engine α)) with
    | error reason =>
      rw [hmade] at h
      cases h
    | ok e =>
      rw [hmade] at h
      cases h
      rfl
  | step _ op ih => rw [step_eq ih, step_config, ih]

/-- Every engine that requests lead to can be had with a detector of its own. -/
theorem exists_of_reachable {e : Engine α} (h : e.Reachable) :
    ∃ x : WithDetector α, x.Reachable ∧ x.engine = e := by
  induction h with
  | fresh h =>
    cases h with
    | blank => exact ⟨_, .blank, rfl⟩
    | ofEvaluator v => exact ⟨_, .ofEvaluator v, rfl⟩
    | @ofConfig c e h => exact ⟨_, .ofConfig (c := c) (by rw [ofConfig_eq, h]; rfl), rfl⟩
  | step _ op ih =>
    obtain ⟨x, hx, rfl⟩ := ih
    exact ⟨_, hx.step op, by rw [step_eq hx.detector_eq]⟩

end WithDetector

/-! ## One assertion -/

/-- Everything that an assertion does to an engine that accepts it. -/
structure AssertionEffect (e : Engine α) (ids : IdSource) (a : Assertion) (count : Nat)
    (after : Engine α) : Prop where
  active : after.ledger.active = e.ledger.active ++ e.disputes ids a.observation
  counted : count = (e.disputes ids a.observation).length
  filed : after.ledger.filed = e.ledger.filed + count
  /-- No belief is disputed twice. -/
  once : ((e.disputes ids a.observation).map fun c => c.standing.name).Nodup
  /-- What was believed of the name before makes no difference to the ledger. -/
  prior (x : Engine α) : x.config = e.config → x.ledger = e.ledger →
    x.network.others a.name = e.network.others a.name →
    ∃ after', x.update ids a.name a.value a.confidence = .ok (count, after') ∧
      after'.ledger = after.ledger
  written : after.belief? a.name = some (a.believe (e.belief? a.name))
  others : after.network.others a.name = e.network.others a.name
  lookups (name : String) : name ≠ a.name → after.belief? name = e.belief? name
  resolved : after.ledger.resolved = e.ledger.resolved
  evaluator : after.evaluator = e.evaluator
  config : after.config = e.config
  /-- That is so although the records are filed one by one, before the value is written. -/
  inPlace : (Steps.update ids a.name a.value a.confidence).runFrom e = (.ok count, after)

theorem update_of_accepted (e : Engine α) (ids : IdSource) (name : String) (value : Trit)
    {confidence : Float} (haccept : e.config.strict = true → inUnit confidence = true) :
    e.update ids name value confidence =
      .ok ((e.disputes ids ⟨name, value⟩).length,
        { e with
          ledger := { e.ledger with
            active := e.ledger.active ++ e.disputes ids ⟨name, value⟩
            filed := e.ledger.filed + (e.disputes ids ⟨name, value⟩).length }
          network := e.network.insert name value confidence }) := by
  rw [update, Config.accept_eq_ok_iff.mpr ⟨rfl, haccept⟩, ← fileAll_findings, ← length_findings]
  rfl

variable [Scalar α] {e : Engine α}

/-- **What an accepted assertion does**, to any engine that requests lead to; and it does the same
if the engine goes by a detector of its own. -/
theorem Reachable.update_effect (h : e.Reachable) (ids : IdSource) (name : String) (value : Trit)
    {confidence : Float} (haccept : e.config.strict = true → inUnit confidence = true) :
    ∃ count after, e.update ids name value confidence = .ok (count, after) ∧
      AssertionEffect e ids ⟨name, value, confidence⟩ count after ∧
      (∃ x : WithDetector α, x.Reachable ∧ x.engine = e) ∧
      ∀ x : WithDetector α, x.Reachable → x.engine = e →
        x.detector = e.config.policy ∧
        x.update ids name value confidence = .ok (count, { x with engine := after }) := by
  have hindexed := h.indexed
  have hupdate := e.update_of_accepted ids name value haccept
  refine ⟨_, _, hupdate, ?effect, WithDetector.exists_of_reachable h, ?detector⟩
  case effect =>
    constructor
    case active => rfl
    case counted => rfl
    case filed => rfl
    case once =>
      have hnames : (e.disputes ids ⟨name, value⟩).map (fun c => c.standing.name) =
          (e.network.disputed ⟨name, value⟩).map Belief.name := by
        apply List.ext_getElem?
        intro i
        simp only [disputes, List.getElem?_map, List.getElem?_mapIdx, Option.map_map]
        rfl
      show ((e.disputes ids ⟨name, value⟩).map _).Nodup
      rw [hnames]
      exact hindexed.nodup_disputed _
    case prior =>
      intro x hconfig hledger hothers
      have hsame := disputes_congr ids ⟨name, value⟩ hconfig hledger hothers
      have hx := x.update_of_accepted ids name value (hconfig ▸ haccept)
      rw [hsame] at hx
      exact ⟨_, hx, by rw [hledger]⟩
    case written =>
      exact (hindexed.find?_write ⟨name, value, confidence⟩ name).trans (if_pos rfl)
    case others => exact hindexed.others_write ⟨name, value, confidence⟩
    case lookups =>
      intro other hother
      exact (hindexed.find?_write ⟨name, value, confidence⟩ other).trans (if_neg (Ne.symm hother))
    case resolved => rfl
    case evaluator => rfl
    case config => rfl
    case inPlace =>
      have himplements := Steps.update_implements ids name value confidence e
      simp only [hupdate] at himplements
      exact himplements
  case detector =>
    rintro x hx rfl
    exact ⟨hx.detector_eq, by rw [WithDetector.update_eq hx.detector_eq, hupdate]; rfl⟩

/-- A configuration in which both kinds of conflict have a severity of their own. -/
def sharp : Config := { strict := true, policy := { oneUnknown := .soft, opposed := .critical } }

/-- Four names are asserted, with a record from elsewhere and a pass in between. -/
def fourBeliefs : List Op :=
  let ids : IdSource := Uuid.ofNat
  [.network (.update ids "a" .yes 1.0), .network (.update ids "b" .unknown 0.5),
    .network (.record { standing := ⟨"x", .no⟩, incoming := ⟨"x", .no⟩, severity := .medium
                        id := Uuid.ofNat 9, sequence := 7, context := "seen", attempts := 3 }),
    .network .resolve, .network (.updateCode ids "c" (-1) 0.0), .network (.assert ids "d" .unknown)]

/-- The second name is asserted again: its own value before, and the value
that agrees, are passed over. -/
theorem update_effect_secondName :
    (ofConfig sharp : Except Rejection (Engine Rat)) = .ok { config := sharp } ∧
    (({ config := sharp } : Engine Rat).run fourBeliefs).2.Reachable ∧
    inUnit 0.25 = true ∧
    ∃ after,
      (({ config := sharp } : Engine Rat).run fourBeliefs).2.update Uuid.ofNat "b" .yes 0.25 =
        .ok (2, after) ∧
      (after.ledger.active.drop 4).map (fun c => (c.standing, c.severity, c.sequence)) =
        [(⟨"c", .no⟩, .critical, 7), (⟨"d", .unknown⟩, .soft, 8)] ∧
      after.network.others "b" =
        [⟨"a", .yes, 1.0, 0⟩, ⟨"c", .no, 0.0, 0⟩, ⟨"d", .unknown, 1.0, 0⟩] := by
  have hmade : (ofConfig sharp : Except Rejection (Engine Rat)) = .ok { config := sharp } := by
    have hvalid : sharp.validate = .ok sharp := by decide +kernel
    rw [ofConfig, hvalid]
    rfl
  have hreachable : (({ config := sharp } : Engine Rat).run fourBeliefs).2.Reachable :=
    Reachable.run (.fresh (.ofConfig hmade)) fourBeliefs
  have hunit : inUnit 0.25 = true := by decide +kernel
  obtain ⟨count, after, hupdate, heffect, -, -⟩ :=
    hreachable.update_effect Uuid.ofNat "b" .yes fun _ => hunit
  have hcount : count = 2 := heffect.counted.trans (by decide +kernel)
  subst hcount
  refine ⟨hmade, hreachable, hunit, after, hupdate, ?_, ?_⟩
  · rw [heffect.active]
    decide +kernel
  · rw [heffect.others]
    decide +kernel

end Engine

end TernaryBelief
