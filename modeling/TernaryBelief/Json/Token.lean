import TernaryBelief.Decimal.Numeral
import TernaryBelief.Json.Text

/-!
# Tokens

A document is a sequence of tokens with white space between them.

## Main definitions

* `Json.Token`, with its text `Token.chars`;
* `Json.number?`: the numeral at the start of a text;
* `Json.lexeme?`: the token at the start of a text;
* `Json.tokens`: the tokens of a text.
-/

namespace TernaryBelief.Json

/-- The smallest part of a document. A text has no characters if one of its surrogate escapes has no
partner. -/
inductive Token where
  | openArray
  | closeArray
  | openObject
  | closeObject
  | comma
  | colon
  | null
  | bool (b : Bool)
  | number (n : Numeral)
  | text (s : Option String)
deriving DecidableEq, Repr

def Token.chars : Token → List Char
  | openArray => ['[']
  | closeArray => [']']
  | openObject => ['{']
  | closeObject => ['}']
  | comma => [',']
  | colon => [':']
  | null => "null".toList
  | bool true => "true".toList
  | bool false => "false".toList
  | number n => n.text
  | text (some s) => quote s.toList
  | text none => "\"\\ud800\"".toList

/-! ## Numerals -/

/-- The digits at the start of a text and what follows them. -/
def digits (cs : List Char) : List Char × List Char :=
  (cs.takeWhile Char.isDigit, cs.dropWhile Char.isDigit)

/-- A minus sign at the start of a text, and what follows it. -/
def minus : List Char → Bool × List Char
  | '-' :: rest => (true, rest)
  | cs => (false, cs)

/-- The digits after a point at the start of a text, of which there must be one, and what follows
them. Without a point there are none. -/
def fraction? : List Char → Option (List Char × List Char)
  | '.' :: rest => if (digits rest).1 = [] then none else some (digits rest)
  | cs => some ([], cs)

/-- A sign at the start of an exponent, of which a minus is remembered, and what follows it. -/
def sign : List Char → Bool × List Char
  | '-' :: rest => (true, rest)
  | '+' :: rest => (false, rest)
  | cs => (false, cs)

/-- The exponent at the start of a text, which has a digit if it has a mark, and what follows it. -/
def exponent? (cs : List Char) : Option (Option Int × List Char) :=
  if cs.head? = some 'e' ∨ cs.head? = some 'E' then
    let signed := sign cs.tail
    let ds := digits signed.2
    let n : Int := Nat.ofDigitChars 10 ds.1 0
    if ds.1 = [] then none else some (some (if signed.1 then -n else n), ds.2)
  else some (none, cs)

/-- The numeral at the start of a text and what follows it. Its digits do not start with a
superfluous zero. -/
def number? (cs : List Char) : Option (Numeral × List Char) := do
  let (negative, cs) := minus cs
  let (whole, cs) := digits cs
  if whole = [] ∨ (whole.head? = some '0' ∧ whole.length ≠ 1) then none
  else
    let (fraction, cs) ← fraction? cs
    let (exponent, cs) ← exponent? cs
    some (⟨negative, Nat.ofDigitChars 10 (whole ++ fraction) 0, fraction.length, exponent⟩, cs)

/-! ## Tokens of a text -/

/-- The characters that may stand between tokens. -/
def isSpace (c : Char) : Bool := c == ' ' || c == '\t' || c == '\n' || c == '\r'

/-- The token at the start of a text and what follows it. -/
def lexeme? : List Char → Option (Token × List Char)
  | '[' :: rest => some (.openArray, rest)
  | ']' :: rest => some (.closeArray, rest)
  | '{' :: rest => some (.openObject, rest)
  | '}' :: rest => some (.closeObject, rest)
  | ',' :: rest => some (.comma, rest)
  | ':' :: rest => some (.colon, rest)
  | '"' :: rest => (scanText [] rest).map fun r => (.text ((join? [] r.1).map String.ofList), r.2)
  | 'n' :: 'u' :: 'l' :: 'l' :: rest => some (.null, rest)
  | 't' :: 'r' :: 'u' :: 'e' :: rest => some (.bool true, rest)
  | 'f' :: 'a' :: 'l' :: 's' :: 'e' :: rest => some (.bool false, rest)
  | cs => (number? cs).map fun r => (.number r.1, r.2)

/-- The digits are part of the text. -/
theorem length_digits (cs : List Char) :
    (digits cs).1.length + (digits cs).2.length = cs.length := by
  rw [← List.length_append]
  exact congrArg List.length List.takeWhile_append_dropWhile

theorem length_minus (cs : List Char) : (minus cs).2.length ≤ cs.length := by
  unfold minus
  split <;> simp

theorem length_of_fraction? {cs : List Char} {r : List Char × List Char}
    (h : fraction? cs = some r) : r.2.length ≤ cs.length := by
  unfold fraction? at h
  split at h
  · rename_i rest
    split at h
    · contradiction
    · cases h
      have := length_digits rest
      simp only [List.length_cons]
      omega
  · cases h
    exact Nat.le_refl _

theorem length_sign (cs : List Char) : (sign cs).2.length ≤ cs.length := by
  unfold sign
  split <;> simp

theorem length_of_exponent? {cs : List Char} {r : Option Int × List Char}
    (h : exponent? cs = some r) : r.2.length ≤ cs.length := by
  simp only [exponent?] at h
  split at h
  · split at h
    · contradiction
    · cases h
      have hs := length_sign cs.tail
      have hd := length_digits (sign cs.tail).2
      have ht := @List.length_tail _ cs
      simp only
      omega
  · cases h
    exact Nat.le_refl _

/-- What follows a numeral is shorter than the text. -/
theorem length_of_number? {cs : List Char} {r : Numeral × List Char} (h : number? cs = some r) :
    r.2.length < cs.length := by
  simp only [number?] at h
  split at h
  · contradiction
  · rename_i digit
    have hm := length_minus cs
    have hd := length_digits (minus cs).2
    have hp : 0 < (digits (minus cs).2).1.length :=
      List.length_pos_iff.mpr fun hnil => digit (Or.inl hnil)
    cases hf : fraction? (digits (minus cs).2).2 with
    | none => simp [hf] at h
    | some f =>
      have := length_of_fraction? hf
      cases he : exponent? f.2 with
      | none => simp [hf, he] at h
      | some x =>
        have := length_of_exponent? he
        simp only [hf, he, Option.bind_eq_bind, Option.bind_some, Option.some.injEq] at h
        subst h
        simp only
        omega

/-- What follows a token is shorter than the text. -/
theorem length_of_lexeme? {cs : List Char} {r : Token × List Char} (h : lexeme? cs = some r) :
    r.2.length < cs.length := by
  unfold lexeme? at h
  split at h
  case h_7 rest =>
    obtain ⟨s, hs, rfl⟩ := Option.map_eq_some_iff.mp h
    have := length_of_scanText hs
    simp only [List.length_cons]
    omega
  case h_11 =>
    obtain ⟨n, hn, rfl⟩ := Option.map_eq_some_iff.mp h
    exact length_of_number? hn
  all_goals
    cases h
    simp only [List.length_cons]
    omega

/-- The tokens of a text, after those in `done`, of which the last comes first. -/
def tokens (done : List Token) (cs : List Char) : Option (List Token) :=
  match cs with
  | [] => some done.reverse
  | c :: rest =>
    if isSpace c then tokens done rest
    else
      match _h : lexeme? (c :: rest) with
      | some (t, rest') => tokens (t :: done) rest'
      | none => none
termination_by cs.length
decreasing_by
  · simp
  · exact length_of_lexeme? _h

end TernaryBelief.Json
