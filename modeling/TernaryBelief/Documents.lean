import TernaryBelief.Engine
import TernaryBelief.Json.Codec

/-!
# Documents of beliefs and contradictions

The documents of the data that an engine takes and gives. Records are written with their fields in a
fixed order; an empty remark and an empty list of outcomes are not written. Truth values are
integers, connectives are their tags, and all other names are in lower case with underscores.

## Main definitions

* an instance of `Json.Coded` for each type of data;
* `Config.ofDocument`, `Config.ofText`: a configuration from a document or its text, checked.
-/

namespace TernaryBelief

open Json (Coded NumberReader Value required optional)
open Json.Coded (encode decode)

/-! ## Names and codes -/

instance : Coded Trit where
  encode t := Json.encodeInt t.toInt
  decode v := (Json.decodeInt v).bind Trit.ofInt?

instance : Coded Connective where
  encode op := .text (some op.tag)
  decode := Json.decodeName Connective.all Connective.tag

instance : Coded Severity where
  encode s := .text (some s.name)
  decode := Json.decodeName Severity.all Severity.name

instance : Coded Strategy where
  encode s := .text (some s.name)
  decode := Json.decodeName Strategy.all Strategy.name

instance : Coded Substrate where
  encode s := .text (some s.name)
  decode := Json.decodeName [.chemical, .quantum, .electronic] Substrate.name

instance : Coded Uuid where
  encode u := .text (some u.text)
  decode
    | .text s => s.bind Uuid.ofText?
    | _ => none

/-! ## Configuration -/

def SeverityPolicy.fields : List String := ["both_unknown", "one_unknown", "opposed"]

/-- Every field of a policy has a default. -/
instance : Coded SeverityPolicy where
  encode p := .record
    [("both_unknown", encode p.bothUnknown), ("one_unknown", encode p.oneUnknown),
      ("opposed", encode p.opposed)]
  decode v :=
    match v.slots? SeverityPolicy.fields with
    | some [both, one, opposed] => do
      return {
        bothUnknown := ← optional .soft decode both
        oneUnknown := ← optional .medium decode one
        opposed := ← optional .hard decode opposed }
    | _ => none

def Config.fields : List String := ["default_confidence", "strict_confidence", "severity_policy"]

/-- Every field of a configuration has a default. -/
instance [NumberReader] : Coded Config where
  encode c := .record
    [("default_confidence", encode c.defaultConfidence), ("strict_confidence", encode c.strict),
      ("severity_policy", encode c.policy)]
  decode v :=
    match v.slots? Config.fields with
    | some [confidence, strict, policy] => do
      return {
        defaultConfidence := ← optional 1.0 decode confidence
        strict := ← optional false decode strict
        policy := ← optional {} decode policy }
    | _ => none

/-- The rejection of what is no document, or not the document of a configuration. -/
def Config.unreadable : Rejection :=
  .badConfig (.unreadable "the document is not a configuration")

/-- The configuration that a document holds, if it holds one and nothing is wrong with it. -/
def Config.ofDocument [NumberReader] (v : Value) : Except Rejection Config :=
  match (decode v : Option Config) with
  | some c => c.validate
  | none => .error Config.unreadable

def Config.ofText [NumberReader] (s : String) : Except Rejection Config :=
  match Json.parse s with
  | some v => Config.ofDocument v
  | none => .error Config.unreadable

/-! ## Beliefs and contradictions -/

def Belief.fields : List String := ["name", "value", "confidence", "revision"]

instance [NumberReader] : Coded Belief where
  encode b := .record
    [("name", encode b.name), ("value", encode b.value), ("confidence", encode b.confidence),
      ("revision", Json.encodeNat b.revision)]
  decode v :=
    match v.slots? Belief.fields with
    | some [name, value, confidence, revision] => do
      return {
        name := ← required decode name
        value := ← required decode value
        confidence := ← required decode confidence
        revision := ← required (Json.decodeNat Json.bound32) revision }
    | _ => none

def Contradiction.fields : List String :=
  ["id", "belief_a", "belief_b", "value_a", "value_b", "severity", "sequence", "context",
    "resolution_attempts"]

/-- A remark that is not given is empty. -/
instance : Coded Contradiction where
  encode c := .record (
    [("id", encode c.id), ("belief_a", encode c.standing.name),
      ("belief_b", encode c.incoming.name), ("value_a", encode c.standing.value),
      ("value_b", encode c.incoming.value), ("severity", encode c.severity),
      ("sequence", Json.encodeNat c.sequence)] ++
    (if c.context = "" then [] else [("context", encode c.context)]) ++
    [("resolution_attempts", Json.encodeNat c.attempts)])
  decode v :=
    match v.slots? Contradiction.fields with
    | some [id, nameA, nameB, valueA, valueB, severity, sequence, context, attempts] => do
      return {
        id := ← required decode id
        standing := ⟨← required decode nameA, ← required decode valueA⟩
        incoming := ⟨← required decode nameB, ← required decode valueB⟩
        severity := ← required decode severity
        sequence := ← required (Json.decodeNat Json.bound64) sequence
        context := ← optional "" decode context
        attempts := ← required (Json.decodeNat Json.bound32) attempts }
    | _ => none

/-! ## Chains -/

def Step.fields : List String := ["premises", "operations", "result", "uncertainty"]

instance [NumberReader] : Coded (Step Float) where
  encode s := .record
    [("premises", encode s.premises), ("operations", encode s.operations),
      ("result", encode s.result), ("uncertainty", encode s.uncertainty)]
  decode v :=
    match v.slots? Step.fields with
    | some [premises, operations, result, uncertainty] => do
      return {
        premises := ← required decode premises
        operations := ← required decode operations
        result := ← required decode result
        uncertainty := ← required decode uncertainty }
    | _ => none

/-! ## Resolution -/

def Resolution.fields : List String := ["value", "entropy_cost"]

instance [NumberReader] : Coded (Resolution Float) where
  encode r := .record [("value", encode r.value), ("entropy_cost", encode r.cost)]
  decode v :=
    match v.slots? Resolution.fields with
    | some [value, cost] => do
      return { value := ← required decode value, cost := ← required decode cost }
    | _ => none

def Outcome.fields : List String :=
  ["contradiction_id", "severity", "strategy", "proposed_value", "entropy_cost"]

instance [NumberReader] : Coded (Outcome Float) where
  encode o := .record
    [("contradiction_id", encode o.id), ("severity", encode o.severity),
      ("strategy", encode o.strategy), ("proposed_value", encode o.proposed),
      ("entropy_cost", encode o.cost)]
  decode v :=
    match v.slots? Outcome.fields with
    | some [id, severity, strategy, proposed, cost] => do
      return {
        id := ← required decode id
        severity := ← required decode severity
        strategy := ← required decode strategy
        proposed := ← required decode proposed
        cost := ← required decode cost }
    | _ => none

def Report.fields : List String :=
  ["resolved", "entropy_cost", "consciousness_delta", "preserved_information", "outcomes"]

/-- Outcomes that are not given are none. -/
instance [NumberReader] : Coded (Report Float) where
  encode r := .record (
    [("resolved", Json.encodeNat r.resolved), ("entropy_cost", encode r.cost),
      ("consciousness_delta", encode r.delta), ("preserved_information", encode r.preserved)] ++
    (if r.outcomes.isEmpty then [] else [("outcomes", encode r.outcomes)]))
  decode v :=
    match v.slots? Report.fields with
    | some [resolved, cost, delta, preserved, outcomes] => do
      return {
        resolved := ← required (Json.decodeNat Json.bound64) resolved
        cost := ← required decode cost
        delta := ← required decode delta
        preserved := ← required decode preserved
        outcomes := ← optional [] decode outcomes }
    | _ => none

/-! ## Scores -/

def Snapshot.fields : List String :=
  ["beliefs", "unknown_beliefs", "active_contradictions", "resolved_contradictions"]

instance : Coded Snapshot where
  encode s := .record
    [("beliefs", Json.encodeNat s.beliefs), ("unknown_beliefs", Json.encodeNat s.unknown),
      ("active_contradictions", Json.encodeNat s.active),
      ("resolved_contradictions", Json.encodeNat s.resolved)]
  decode v :=
    match v.slots? Snapshot.fields with
    | some [beliefs, unknown, active, resolved] => do
      return {
        beliefs := ← required (Json.decodeNat Json.bound64) beliefs
        unknown := ← required (Json.decodeNat Json.bound64) unknown
        active := ← required (Json.decodeNat Json.bound64) active
        resolved := ← required (Json.decodeNat Json.bound64) resolved }
    | _ => none

end TernaryBelief
