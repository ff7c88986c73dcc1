import TernaryBelief.Rejection
import TernaryBelief.Severity

/-!
# Configuration of an engine

## Main definitions

* `Config`, with its defaults;
* `Config.fault?`: what is wrong with a configuration, and `Config.Valid`;
* `Config.accept`: the confidence that is stored for a given one, or the refusal of it
  (`Config.accept_eq_ok_iff`, `Config.accept_eq_error_iff`).
-/

namespace TernaryBelief

structure Config where
  /-- The confidence of an assertion that gives none. -/
  defaultConfidence : Float := 1.0
  /-- Only confidences from 0 to 1 are accepted. -/
  strict : Bool := false
  policy : SeverityPolicy := {}
deriving DecidableEq

instance : Inhabited Config := ⟨{}⟩

/-- The number lies between 0 and 1, ends included. What is no number does not. -/
def inUnit (x : Float) : Bool := decide ((0.0 : Float) ≤ x) && decide (x ≤ 1.0)

namespace Config

/-- What is wrong with a configuration. A default confidence that is not finite is reported before
one that lies outside the restriction. -/
def fault? (c : Config) : Option ConfigFault :=
  if !c.defaultConfidence.isFinite then some .notFinite
  else if c.strict && !inUnit c.defaultConfidence then some (.outsideUnit c.defaultConfidence)
  else none

/-- Nothing is wrong with the configuration. -/
def Valid (c : Config) : Prop := c.fault? = none

instance (c : Config) : Decidable c.Valid := inferInstanceAs (Decidable (_ = _))

def validate (c : Config) : Except Rejection Config :=
  match c.fault? with
  | none => .ok c
  | some fault => .error (.badConfig fault)

theorem validate_eq_ok_iff {c d : Config} : c.validate = .ok d ↔ d = c ∧ c.Valid := by
  unfold validate Valid
  cases c.fault? <;> simp [eq_comm]

/-- A confidence is stored as it is given, unless confidences are restricted and it lies outside the
restriction. -/
def accept (c : Config) (confidence : Float) : Except Rejection Float :=
  if c.strict && !inUnit confidence then .error (.confidenceOutOfRange confidence)
  else .ok confidence

theorem accept_eq_ok_iff {c : Config} {x y : Float} :
    c.accept x = .ok y ↔ y = x ∧ (c.strict = true → inUnit x = true) := by
  unfold accept
  cases c.strict <;> cases inUnit x <;> simp [eq_comm]

theorem accept_eq_error_iff {c : Config} {x : Float} {reason : Rejection} :
    c.accept x = .error reason ↔
      reason = .confidenceOutOfRange x ∧ c.strict = true ∧ inUnit x = false := by
  unfold accept
  cases c.strict <;> cases inUnit x <;> simp [eq_comm]

end Config

end TernaryBelief
