import TernaryBelief.Connective

/-!
# Chains of reasoning

A chain starts from its first premise and combines the running value with one premise after the
other. Every unknown running value that an operation produces adds one to the uncertainty of the
chain. An evaluator keeps the chains that it has run, and counts the oppositions that it was shown.

## Main definitions

* `Chain.conclude`: the conclusion of a chain that has a premise, and `Chain.trace`, its running
  values;
* `Chain.run`: the conclusion of premises and operations, refused if there is no premise;
* `Evaluator`, with `runChain`, `runTagged`, `runCodes`, `contradicts` and `phi`.
-/

namespace TernaryBelief

variable {α : Type}

/-- What a chain comes to. -/
structure Conclusion (α : Type) where
  result : Trit
  /-- How many running values were unknown. -/
  uncertainty : α
deriving DecidableEq, Repr

/-- A chain that has been run. -/
structure Step (α : Type) where
  /-- All premises that were given. -/
  premises : List Trit
  /-- All operations that were given, also those for which no premise was left. -/
  operations : List Connective
  result : Trit
  uncertainty : α
deriving DecidableEq, Repr

/-! ## A single chain -/

namespace Chain

/-- The running values of a chain, after each operation. -/
def trace (current : Trit) : List (Connective × Trit) → List Trit
  | [] => []
  | (op, next) :: rest => op.apply current next :: trace (op.apply current next) rest

variable [Scalar α]

/-- One operation with its right operand. -/
def advance (c : Conclusion α) (link : Connective × Trit) : Conclusion α :=
  let result := link.1.apply c.result link.2
  ⟨result, c.uncertainty + result.uncertainty⟩

/-- The conclusion of a chain from its first premise. -/
def conclude (first : Trit) (links : List (Connective × Trit)) : Conclusion α :=
  links.foldl advance ⟨first, 0.0⟩

/-- The conclusion of premises and operations. Operation `i` takes premise `i + 1` as its right
operand; operations and premises without a partner are left out. -/
def run : List Trit → List Connective → Except Rejection (Conclusion α)
  | [], _ => .error .noPremises
  | first :: rest, operations => .ok (conclude first (operations.zip rest))

end Chain

/-! ## The evaluator -/

/-- The chains run so far and the number of oppositions found. -/
structure Evaluator (α : Type) where
  history : List (Step α) := []
  contradictions : Nat := 0
deriving DecidableEq, Repr

namespace Evaluator

instance : Inhabited (Evaluator α) := ⟨{}⟩

/-- Whether two values are certain and opposed; if they are, that is counted. -/
def contradicts (e : Evaluator α) (a b : Trit) : Bool × Evaluator α :=
  if a.opposes b then (true, { e with contradictions := e.contradictions + 1 }) else (false, e)

variable [Scalar α]

/-- Runs a chain and keeps it. -/
def runChain (e : Evaluator α) (premises : List Trit) (operations : List Connective) :
    Except Rejection (Conclusion α × Evaluator α) := do
  let c ← Chain.run premises operations
  return (c, { e with history := e.history ++ [⟨premises, operations, c.result, c.uncertainty⟩] })

/-- Runs a chain whose operations are given by tags. All tags are read before anything else. -/
def runTagged (e : Evaluator α) (premises : List Trit) (tags : List String) :
    Except Rejection (Conclusion α × Evaluator α) := do
  e.runChain premises (← tags.mapM Connective.ofTag)

/-- Runs a chain whose premises are given by integer codes and whose operations by tags. All
codes are read before the tags. -/
def runCodes (e : Evaluator α) (codes : List Int) (tags : List String) :
    Except Rejection (Conclusion α × Evaluator α) := do
  e.runTagged (← codes.mapM Trit.ofInt) tags

/-- The mean uncertainty of the chains, damped by one more chain without any; zero if there are no
chains. -/
def phi (e : Evaluator α) : α :=
  if e.history.isEmpty then 0.0
  else Scalar.total (e.history.map Step.uncertainty) / Scalar.ofCount (e.history.length + 1)

end Evaluator

end TernaryBelief
