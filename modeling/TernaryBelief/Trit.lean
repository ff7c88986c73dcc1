import TernaryBelief.Scalar

/-!
# Three-valued truth

A `Trit` says of a statement that it is denied, unknown or affirmed. The values are coded by the
integers -1, 0 and 1 and ordered as these are.

## Main definitions

* `Trit`, with `Trit.toInt` and its partial inverse `Trit.ofInt?`;
* `-t`: negation, which keeps the unknown;
* the order, with `min` and `max`;
* `Trit.certainty`, `Trit.uncertainty`: how much is known, as a number.
-/

namespace TernaryBelief

/-- A truth value: denied, unknown or affirmed. -/
inductive Trit where
  | no
  | unknown
  | yes
deriving DecidableEq, Repr

namespace Trit

/-- Nothing is known before something is said. -/
instance : Inhabited Trit := ⟨unknown⟩

def all : List Trit := [no, unknown, yes]

/-! ## Integer code -/

def toInt : Trit → Int
  | no => -1
  | unknown => 0
  | yes => 1

/-- The value that an integer codes, if it codes one. -/
def ofInt? : Int → Option Trit
  | -1 => some no
  | 0 => some unknown
  | 1 => some yes
  | _ => none

/-- What a truth value of two-valued logic says. -/
def ofBool (b : Bool) : Trit := if b then yes else no

/-- The code as it is written: a sign for the certain values, and a bare zero. -/
def symbol : Trit → String
  | no => "-1"
  | unknown => "0"
  | yes => "+1"

/-! ## Order and negation -/

instance : LE Trit := ⟨fun a b => a.toInt ≤ b.toInt⟩
instance : LT Trit := ⟨fun a b => a.toInt < b.toInt⟩
instance : DecidableLE Trit := fun a b => inferInstanceAs (Decidable (a.toInt ≤ b.toInt))
instance : DecidableLT Trit := fun a b => inferInstanceAs (Decidable (a.toInt < b.toInt))
instance : Min Trit := minOfLe
instance : Max Trit := maxOfLe
instance : Ord Trit := ⟨fun a b => compare a.toInt b.toInt⟩

/-- Affirming and denying change places; the unknown stays. -/
def negate : Trit → Trit
  | no => yes
  | unknown => unknown
  | yes => no

instance : Neg Trit := ⟨negate⟩

/-! ## What is known -/

/-- Nothing is known of the statement. -/
def isUnknown (t : Trit) : Bool := t == unknown

/-- The statement is affirmed or denied. -/
def isCertain (t : Trit) : Bool := !t.isUnknown

/-- Two certain values of which one denies what the other affirms. -/
def opposes (a b : Trit) : Bool := a.isCertain && b.isCertain && a == -b

variable {α : Type} [Scalar α]

/-- One for a certain value and zero for the unknown. -/
def certainty (t : Trit) : α := if t.isUnknown then 0.0 else 1.0

/-- One for the unknown and zero for a certain value. -/
def uncertainty (t : Trit) : α := if t.isUnknown then 1.0 else 0.0

/-! ## Small laws -/

@[simp] theorem ofInt?_toInt (t : Trit) : ofInt? t.toInt = some t := by cases t <;> rfl

theorem ofInt?_eq_some_iff {n : Int} {t : Trit} : ofInt? n = some t ↔ n = t.toInt := by
  constructor
  · intro h
    unfold ofInt? at h
    split at h <;> first | (cases h; rfl) | contradiction
  · rintro rfl
    exact ofInt?_toInt t

@[simp] theorem neg_neg (t : Trit) : - -t = t := by cases t <;> rfl

@[simp] theorem isUnknown_neg (t : Trit) : (-t).isUnknown = t.isUnknown := by cases t <;> rfl

@[simp] theorem toInt_neg (t : Trit) : (-t).toInt = -t.toInt := by cases t <;> rfl

end Trit

end TernaryBelief
