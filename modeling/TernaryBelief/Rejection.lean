import TernaryBelief.Decimal.Layout
import TernaryBelief.Trit

/-!
# Why a request fails

A request is refused for a reason that its sender can mend (`Rejection`), or it fails for a reason
of the engine's own (`Failure`). Each reason is a constructor with the data that it is about; the
wording is in `message` alone.

## Main definitions

* `ConfigFault`, `Rejection`, `Failure`, each with its `message`;
* `Trit.ofInt`: the reader of integer codes that says why it refuses.
-/

namespace TernaryBelief

/-! ## Reasons -/

/-- What is wrong with a configuration. -/
inductive ConfigFault where
  /-- The default confidence is infinite or no number. -/
  | notFinite
  /-- Confidences are restricted, and the default one lies outside the restriction. -/
  | outsideUnit (confidence : Float)
  /-- The document holds no configuration; the detail is the reader's own account. -/
  | unreadable (detail : String)
deriving DecidableEq

/-- Why an input is refused. A refused input changes nothing. -/
inductive Rejection where
  /-- The integer codes no truth value. -/
  | notATrit (value : Int)
  /-- A chain needs a premise to start from. -/
  | noPremises
  /-- The tag names no connective. -/
  | unknownOperator (tag : String)
  /-- Confidences are restricted, and this one lies outside the restriction. -/
  | confidenceOutOfRange (value : Float)
  | badConfig (fault : ConfigFault)
deriving DecidableEq

/-- Why a call on a shared engine fails. -/
inductive Failure where
  | rejected (reason : Rejection)
  /-- A client died while it held the named resource. -/
  | poisoned (what : String)
  /-- Something else went wrong. -/
  | internal (detail : String)
deriving DecidableEq

/-! ## Wording -/

def ConfigFault.message : ConfigFault → String
  | notFinite => "default_confidence must be finite"
  | outsideUnit c =>
    "default_confidence " ++ Layout.message c ++
      " is outside [0.0, 1.0] with strict_confidence enabled"
  | unreadable detail => detail

def Rejection.message : Rejection → String
  | notATrit n => "Trinary value " ++ toString n ++ " is outside the domain \x7b-1, 0, 1\x7d"
  | noPremises => "Reasoning chain requires at least one premise"
  | unknownOperator tag => "Unknown logic operator '" ++ tag ++ "'"
  | confidenceOutOfRange c =>
    "Confidence value " ++ Layout.message c ++ " is out of range [0.0, 1.0]"
  | badConfig fault => "Invalid configuration: " ++ fault.message

def Failure.message : Failure → String
  | rejected reason => "Validation error: " ++ reason.message
  | poisoned what => "Execution error: Lock guarding " ++ what ++ " was poisoned"
  | internal detail => "Internal error: " ++ detail

/-! ## Reading integer codes -/

/-- The value that an integer codes; an integer that codes none is refused. -/
def Trit.ofInt (n : Int) : Except Rejection Trit :=
  match Trit.ofInt? n with
  | some t => .ok t
  | none => .error (.notATrit n)

@[simp] theorem Trit.ofInt_toInt (t : Trit) : Trit.ofInt t.toInt = .ok t := by cases t <;> rfl

/-- An integer is refused exactly if it is none of the three codes, and the refusal carries it. -/
theorem Trit.ofInt_eq_error_iff {code : Int} {reason : Rejection} :
    Trit.ofInt code = .error reason ↔ reason = .notATrit code ∧ code ∉ [-1, 0, 1] := by
  have hread (t : Trit) : t.toInt ∈ [-1, 0, 1] := by cases t <;> decide
  unfold ofInt
  cases hcode : ofInt? code with
  | some t =>
    rw [ofInt?_eq_some_iff] at hcode
    subst hcode
    simp only [reduceCtorEq, hread, not_true, and_false]
  | none =>
    have hnot : code ∉ [-1, 0, 1] := by
      intro hmem
      simp only [List.mem_cons, List.not_mem_nil, or_false] at hmem
      rcases hmem with rfl | rfl | rfl <;> cases hcode
    simp only [Except.error.injEq, hnot, not_false_eq_true, and_true]
    exact eq_comm

end TernaryBelief
