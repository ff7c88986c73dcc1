/-!
# Identifiers

An identifier is 128 bits, written as 32 hexadecimal digits in groups of 8, 4, 4, 4 and 12. It may
be read without the hyphens, in upper case, in braces, or after the scheme of uniform resource
names.

## Main definitions

* `Uuid`, with its text `Uuid.text` and the reader `Uuid.ofText?`;
* `Uuid.ofNat`: the identifier with a given number.
-/

namespace TernaryBelief

/-- An identifier of 128 bits: its hexadecimal digits, the most significant first. -/
structure Uuid where
  digits : Vector (Fin 16) 32
deriving DecidableEq, Repr

namespace Uuid

/-- The identifier with a given number, which counts modulo `2 ^ 128`. -/
def ofNat (n : Nat) : Uuid := ⟨Vector.ofFn fun i => Fin.ofNat 16 (n / Nat.pow 16 (31 - i.val))⟩

instance : Inhabited Uuid := ⟨ofNat 0⟩

/-! ## Text -/

/-- The hexadecimal digit that a character stands for, in either case. -/
def hexDigit? (c : Char) : Option (Fin 16) :=
  if '0' ≤ c ∧ c ≤ '9' then some (Fin.ofNat 16 (c.toNat - '0'.toNat))
  else if 'a' ≤ c ∧ c ≤ 'f' then some (Fin.ofNat 16 (c.toNat - 'a'.toNat + 10))
  else if 'A' ≤ c ∧ c ≤ 'F' then some (Fin.ofNat 16 (c.toNat - 'A'.toNat + 10))
  else none

/-- The digits in lower case, with hyphens between the groups. -/
def chars (u : Uuid) : List Char :=
  let ds := u.digits.toList.map fun (d : Fin 16) => Nat.digitChar d.val
  ds.take 8 ++ '-' :: (ds.drop 8).take 4 ++ '-' :: (ds.drop 12).take 4 ++
    '-' :: (ds.drop 16).take 4 ++ '-' :: ds.drop 20

def text (u : Uuid) : String := String.ofList u.chars

/-- The identifier with the given 32 digits. -/
def ofDigits? (cs : List Char) : Option Uuid := do
  let ds ← cs.mapM hexDigit?
  if h : ds.length = 32 then some ⟨⟨ds.toArray, by simpa using h⟩⟩ else none

/-- The digits of a text in groups, without the hyphens between these. -/
def ungroup? (cs : List Char) : Option (List Char) :=
  if cs.length = 36 ∧ [8, 13, 18, 23].all (fun i => cs[i]? == some '-') then
    some (cs.take 8 ++ (cs.drop 9).take 4 ++ (cs.drop 14).take 4 ++ (cs.drop 19).take 4 ++
      cs.drop 24)
  else none

/-- What is left of a text in groups after braces or a scheme around it are taken away. -/
def unwrap (cs : List Char) : List Char :=
  if cs.length = 38 ∧ cs.head? = some '{' ∧ cs.getLast? = some '}' then cs.tail.dropLast
  else if cs.length = 45 ∧ (cs.take 9).map Char.toLower = "urn:uuid:".toList then cs.drop 9
  else cs

/-- The identifier that a text stands for, if it stands for one. -/
def ofText? (s : String) : Option Uuid :=
  let cs := s.toList
  if cs.length = 32 then ofDigits? cs else (ungroup? (unwrap cs)).bind ofDigits?

example : (ofText? "67E5504410b1426f9247bb680e5fe0c8").map text =
    some "67e55044-10b1-426f-9247-bb680e5fe0c8" := by decide +kernel

end Uuid

end TernaryBelief
