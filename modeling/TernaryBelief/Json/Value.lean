import TernaryBelief.Json.Token

/-!
# Documents as trees

A document is a value: a constant, a numeral, a text, or a container of values. It is read from its
tokens by a machine that keeps the containers that are still open, so the nesting of a document is
limited by nothing but its length.

## Main definitions

* `Json.Value`, with `Value.tokens` and `Value.render`;
* `Json.Mode`, `Json.Frame`, `Json.State`, and `State.step`: the machine;
* `Json.Value.ofTokens?`, `Json.parse`: the readers of tokens and of texts.
-/

namespace TernaryBelief.Json

/-! ## Values -/

/-- A document. The keys of an object may repeat, and they keep their order. -/
inductive Value where
  | null
  | bool (b : Bool)
  | number (n : Numeral)
  | text (s : Option String)
  | array (elements : List Value)
  | object (members : List (Option String × Value))

mutual

/-- The tokens of a document. -/
def Value.tokens : Value → List Token
  | .null => [.null]
  | .bool b => [.bool b]
  | .number n => [.number n]
  | .text s => [.text s]
  | .array vs => .openArray :: (elementTokens vs ++ [.closeArray])
  | .object ms => .openObject :: (memberTokens ms ++ [.closeObject])

/-- The tokens of the elements of an array, with commas between them. -/
def elementTokens : List Value → List Token
  | [] => []
  | [v] => v.tokens
  | v :: w :: vs => v.tokens ++ .comma :: elementTokens (w :: vs)

/-- The tokens of the members of an object, with commas between them. -/
def memberTokens : List (Option String × Value) → List Token
  | [] => []
  | [(k, v)] => .text k :: .colon :: v.tokens
  | (k, v) :: m :: ms => .text k :: .colon :: (v.tokens ++ .comma :: memberTokens (m :: ms))

end

def Value.render (v : Value) : String := String.ofList (v.tokens.flatMap Token.chars)

/-! ## The machine -/

/-- A container that is still open, with what it holds before the value that is being read, the last
of it first. -/
inductive Frame where
  | array (before : List Value)
  | object (before : List (Option String × Value)) (key : Option String)

/-- What may come next. -/
inductive Mode where
  | value
  /-- The first element of an array, or its end. -/
  | element
  /-- The first key of an object, or its end. -/
  | member
  /-- A further key of an object that holds the given members. -/
  | key (before : List (Option String × Value))
  | colon (before : List (Option String × Value)) (key : Option String)
  /-- Whatever may follow the value just read. -/
  | after (v : Value)

/-- What may come next, and the open containers, the innermost first. -/
structure State where
  mode : Mode := .value
  frames : List Frame := []

namespace State

/-- A token at which a value starts, within the given containers. -/
def start (frames : List Frame) : Token → Option State
  | .null => some ⟨.after .null, frames⟩
  | .bool b => some ⟨.after (.bool b), frames⟩
  | .number n => some ⟨.after (.number n), frames⟩
  | .text s => some ⟨.after (.text s), frames⟩
  | .openArray => some ⟨.element, frames⟩
  | .openObject => some ⟨.member, frames⟩
  | _ => none

/-- A token after a value, within the given containers. -/
def follow (v : Value) : List Frame → Token → Option State
  | .array before :: frames, .comma => some ⟨.value, .array (v :: before) :: frames⟩
  | .array before :: frames, .closeArray =>
    some ⟨.after (.array (v :: before).reverse), frames⟩
  | .object before k :: frames, .comma => some ⟨.key ((k, v) :: before), frames⟩
  | .object before k :: frames, .closeObject =>
    some ⟨.after (.object ((k, v) :: before).reverse), frames⟩
  | _, _ => none

def step (s : State) (t : Token) : Option State :=
  match s.mode, t with
  | .value, t => start s.frames t
  | .element, .closeArray => some ⟨.after (.array []), s.frames⟩
  | .element, t => start (.array [] :: s.frames) t
  | .member, .closeObject => some ⟨.after (.object []), s.frames⟩
  | .member, .text k => some ⟨.colon [] k, s.frames⟩
  | .key before, .text k => some ⟨.colon before k, s.frames⟩
  | .colon before k, .colon => some ⟨.value, .object before k :: s.frames⟩
  | .after v, t => follow v s.frames t
  | _, _ => none

end State

/-- The document with the given tokens. -/
def Value.ofTokens? (ts : List Token) : Option Value :=
  match ts.foldlM State.step ({} : State) with
  | some ⟨.after v, []⟩ => some v
  | _ => none

/-- The document with the given text. -/
def parse (s : String) : Option Value := (tokens [] s.toList).bind Value.ofTokens?

end TernaryBelief.Json
