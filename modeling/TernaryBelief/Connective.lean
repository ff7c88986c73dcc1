import TernaryBelief.Rejection
import TernaryBelief.Text.Blank

/-!
# Connectives of three-valued logic

Conjunction is the minimum and disjunction the maximum of two values. Negation looks at its left
operand only. The implication holds if its premise is denied, says what its conclusion says if its
premise is affirmed, and for an unknown premise holds only if the conclusion is affirmed.

## Main definitions

* `Connective`, with its meaning `Connective.apply`;
* `Connective.tag` and the reader `Connective.ofTag`, which ignores blanks around the tag and
  the case of its ASCII letters.
-/

namespace TernaryBelief

def Trit.implies : Trit → Trit → Trit
  | .no, _ => .yes
  | .unknown, .yes => .yes
  | .unknown, _ => .unknown
  | .yes, b => b

inductive Connective where
  | and
  | or
  | not
  | implies
deriving DecidableEq, Repr

namespace Connective

def all : List Connective := [and, or, not, implies]

/-- The value of a connective at two operands. -/
def apply : Connective → Trit → Trit → Trit
  | and, a, b => min a b
  | or, a, b => max a b
  | not, a, _ => -a
  | implies, a, b => a.implies b

/-- The connective ignores its right operand. -/
def isUnary (op : Connective) : Bool := op == not

/-! ## Tags -/

def tag : Connective → String
  | and => "AND"
  | or => "OR"
  | not => "NOT"
  | implies => "IMPLIES"

/-- The connective that a tag names, if it names one. -/
def ofTag? (s : String) : Option Connective :=
  let spelled := (Text.trim s.toList).map Char.toUpper
  all.find? fun op => op.tag.toList == spelled

/-- The connective that a tag names; a tag that names none is refused as it was given. -/
def ofTag (s : String) : Except Rejection Connective :=
  match ofTag? s with
  | some op => .ok op
  | none => .error (.unknownOperator s)

@[simp] theorem ofTag?_tag (op : Connective) : ofTag? op.tag = some op := by
  cases op <;> decide

end Connective

/-- The value of a connective at two integer codes. The left one is read first, and both are read
even if the connective ignores one. -/
def Connective.applyCodes (op : Connective) (a b : Int) : Except Rejection Trit := do
  let a ← Trit.ofInt a
  let b ← Trit.ofInt b
  return op.apply a b

end TernaryBelief
