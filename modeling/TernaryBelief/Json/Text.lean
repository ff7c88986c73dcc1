/-!
# Quoted text

A text stands between quotation marks. Some characters are written as escapes, and any 16-bit unit
may be: two units that form a surrogate pair are one character. An escape that is half of a pair is
still grammatical, but a text with one has no characters.

## Main definitions

* `Json.quote`: a text between quotation marks;
* `Json.scanText`: the pieces of a quoted text, and what follows it;
* `Json.join?`: the characters that pieces form, if they form any.
-/

namespace TernaryBelief.Json

/-! ## Writing -/

/-- The hexadecimal digits of a number below 65536. -/
def hex4 (n : Nat) : List Char :=
  [Nat.digitChar (n / 4096 % 16), Nat.digitChar (n / 256 % 16), Nat.digitChar (n / 16 % 16),
    Nat.digitChar (n % 16)]

/-- A character as it is written within quotation marks. The quotation mark, the backslash and the
control characters are escaped, the last in a short form if they have one. -/
def escape (c : Char) : List Char :=
  if c = '"' then ['\\', '"']
  else if c = '\\' then ['\\', '\\']
  else if c = '\x08' then ['\\', 'b']
  else if c = '\x0c' then ['\\', 'f']
  else if c = '\n' then ['\\', 'n']
  else if c = '\r' then ['\\', 'r']
  else if c = '\t' then ['\\', 't']
  else if c < ' ' then '\\' :: 'u' :: hex4 c.toNat
  else [c]

/-- A text between quotation marks. -/
def quote (cs : List Char) : List Char := '"' :: cs.flatMap escape ++ ['"']

/-! ## Reading -/

/-- A piece of a quoted text: a character, or a 16-bit unit given by its number. -/
inductive Piece where
  | char (c : Char)
  | unit (u : Nat)
deriving DecidableEq, Repr

/-- The value of a hexadecimal digit of either case. -/
def hexValue? (c : Char) : Option Nat :=
  if '0' ≤ c ∧ c ≤ '9' then some (c.toNat - '0'.toNat)
  else if 'a' ≤ c ∧ c ≤ 'f' then some (c.toNat - 'a'.toNat + 10)
  else if 'A' ≤ c ∧ c ≤ 'F' then some (c.toNat - 'A'.toNat + 10)
  else none

/-- The unit with the given four digits. -/
def unit? (a b c d : Char) : Option Nat := do
  return (((← hexValue? a) * 16 + (← hexValue? b)) * 16 + (← hexValue? c)) * 16 + (← hexValue? d)

/-- The character that a short escape stands for. -/
def shortEscape? (c : Char) : Option Char :=
  if c = '"' ∨ c = '\\' ∨ c = '/' then some c
  else if c = 'b' then some '\x08'
  else if c = 'f' then some '\x0c'
  else if c = 'n' then some '\n'
  else if c = 'r' then some '\r'
  else if c = 't' then some '\t'
  else none

/-- The pieces of a quoted text after the opening mark, the last piece first and followed by those
in `done`, with what comes after the closing mark. Control characters must be escaped. -/
def scanText (done : List Piece) : List Char → Option (List Piece × List Char)
  | '\\' :: 'u' :: a :: b :: c :: d :: rest =>
    match unit? a b c d with
    | some u => scanText (.unit u :: done) rest
    | none => none
  | '\\' :: e :: rest =>
    match shortEscape? e with
    | some c => scanText (.char c :: done) rest
    | none => none
  | c :: rest =>
    if c = '"' then some (done, rest)
    else if c = '\\' ∨ c < ' ' then none
    else scanText (.char c :: done) rest
  | [] => none

/-- The unit is the first of a surrogate pair. -/
def isLeading (u : Nat) : Bool := 0xD800 ≤ u && u < 0xDC00

/-- The unit is the second of a surrogate pair. -/
def isTrailing (u : Nat) : Bool := 0xDC00 ≤ u && u < 0xE000

/-- The character of a surrogate pair. -/
def pairChar (u v : Nat) : Char := Char.ofNat (0x10000 + (u - 0xD800) * 0x400 + (v - 0xDC00))

/-- The characters that pieces form, in front of those in `done`; the last piece comes first. Every
surrogate must have its partner. -/
def join? (done : List Char) : List Piece → Option (List Char)
  | [] => some done
  | .char c :: ps => join? (c :: done) ps
  | .unit v :: ps =>
    if isTrailing v then
      match ps with
      | .unit u :: qs => if isLeading u then join? (pairChar u v :: done) qs else none
      | _ => none
    else if isLeading v then none
    else join? (Char.ofNat v :: done) ps

/-- What follows a quoted text is shorter than the text. -/
theorem length_of_scanText {done ps : List Piece} {cs rest : List Char}
    (h : scanText done cs = some (ps, rest)) : rest.length < cs.length := by
  fun_induction scanText done cs <;> simp_all <;> omega

end TernaryBelief.Json
