import TernaryBelief.Decimal.Layout
import TernaryBelief.Decimal.Reading
import TernaryBelief.Json.Value

/-!
# Data as documents

A type of data has a document for each value, and a reader for documents. Readers accept more than
is written: a record may be given by its members in any order, with others among them, or by the
array of its fields; a name may be given as the only key of an object.

## Main definitions

* `Json.Coded`: a type with documents, and `Coded.write`, `Coded.read` for their texts;
* `Json.NumberReader`: the way in which numerals are read as numbers;
* `Json.encodeNat`, `Json.decodeNat`: counts of limited size;
* `Json.Value.variant?`: a name;
* `Json.Value.record`, `Json.Value.slots?`: records;
* `Json.required`, `Json.optional`: a field that must be given, and one that has a default.
-/

namespace TernaryBelief.Json

/-- A type whose values are kept as documents. -/
class Coded (τ : Type) where
  encode : τ → Value
  decode : Value → Option τ

namespace Coded

variable {τ : Type} [Coded τ]

def write (x : τ) : String := (encode x).render

/-- The value that a text stands for, if it stands for one. -/
def read (s : String) : Option τ := (parse s).bind decode

end Coded

/-- A way to read numerals as numbers. What documents are read as depends on it. -/
class NumberReader where
  /-- The number that a numeral is read as, if it is read as one. -/
  number? : Numeral → Option Float

/-- The reader that runs. -/
instance : NumberReader where
  number? := Numeral.toFloat?

/-! ## Simple data -/

instance : Coded Bool where
  encode b := .bool b
  decode
    | .bool b => some b
    | _ => none

instance : Coded String where
  encode s := .text (some s)
  decode
    | .text s => s
    | _ => none

/-- A number that is not finite has no numeral, and is written as a null that nothing reads back. -/
instance [NumberReader] : Coded Float where
  encode x := if x.isFinite then .number (Layout.scientific.numeral x) else .null
  decode
    | .number n => NumberReader.number? n
    | _ => none

instance {τ : Type} [Coded τ] : Coded (List τ) where
  encode xs := .array (xs.map Coded.encode)
  decode
    | .array vs => vs.mapM Coded.decode
    | _ => none

def encodeInt (n : Int) : Value := .number (Numeral.ofInt n)

/-- The integer that a document is. -/
def decodeInt : Value → Option Int
  | .number n => n.toInt?
  | _ => none

def encodeNat (n : Nat) : Value := encodeInt n

/-- The count below a bound that a document is. -/
def decodeNat (bound : Nat) (v : Value) : Option Nat :=
  match decodeInt v with
  | some (.ofNat n) => if n < bound then some n else none
  | _ => none

/-- Counts that are kept in 32 bits are below this bound. -/
def bound32 : Nat := Nat.pow 2 32

/-- Counts that are kept in 64 bits are below this bound. -/
def bound64 : Nat := Nat.pow 2 64

/-- The name that a document is: a text, or the only key of an object, at a null. -/
def Value.variant? : Value → Option String
  | .text s => s
  | .object [(some k, .null)] => some k
  | _ => none

/-- The one of the listed values whose name a document is. -/
def decodeName {τ : Type} (all : List τ) (name : τ → String) (v : Value) : Option τ :=
  v.variant?.bind fun s => all.find? fun x => name x == s

/-! ## Records -/

/-- A record, given by the names and the values of its fields. -/
def Value.record (fields : List (String × Value)) : Value :=
  .object (fields.map fun f => (some f.1, f.2))

/-- What a document says of the fields with the given names, in their order. An object may give
other members too, but every key must be a text with characters, and no field may be given twice.
An array gives the first so many fields, and no more than there are. -/
def Value.slots? (names : List String) : Value → Option (List (Option Value))
  | .object members =>
    if members.all (fun m => m.1.isSome) &&
        names.all (fun n => members.countP (fun m => m.1 == some n) ≤ 1) then
      some (names.map fun n => members.lookup (some n))
    else none
  | .array elements =>
    if elements.length ≤ names.length then
      some (elements.map some ++ List.replicate (names.length - elements.length) none)
    else none
  | _ => none

/-- A field that must be given. -/
def required {τ : Type} (decode : Value → Option τ) (slot : Option Value) : Option τ :=
  slot.bind decode

/-- A field that has a default. -/
def optional {τ : Type} (default : τ) (decode : Value → Option τ) : Option Value → Option τ
  | none => some default
  | some v => decode v

end TernaryBelief.Json
