import TernaryBelief.Engine

/-!
# Runs of an engine

Requests to an engine as data, so that a whole history of an engine is a list. A request concerns
the network and its ledger, or the evaluator; the answer to a refused request is the reason, and the
engine stays as it was.

## Main definitions

* `NetworkOp`, `EvaluatorOp`, `Op`: requests;
* `Answer`: what a request is answered;
* `Engine.step`, `Engine.run`: one request, and a list of them.
-/

namespace TernaryBelief

/-! ## Requests and answers -/

/-- A request that concerns the network and its ledger. -/
inductive NetworkOp where
  | update (ids : IdSource) (name : String) (value : Trit) (confidence : Float)
  | updateCode (ids : IdSource) (name : String) (code : Int) (confidence : Float)
  | assert (ids : IdSource) (name : String) (value : Trit)
  | record (c : Contradiction)
  | resolve

/-- A request that concerns the evaluator. -/
inductive EvaluatorOp where
  | chain (premises : List Trit) (operations : List Connective)
  | tagged (premises : List Trit) (tags : List String)
  | codes (codes : List Int) (tags : List String)
  | contradicts (a b : Trit)

inductive Op where
  | network (op : NetworkOp)
  | evaluator (op : EvaluatorOp)

/-- What a request is answered. -/
inductive Answer (α : Type) where
  /-- The number of contradictions that an assertion caused. -/
  | found (count : Nat)
  /-- The identifier of a record that was filed. -/
  | filed (id : Uuid)
  | report (r : Report α)
  /-- The conclusion of a chain. -/
  | concluded (c : Conclusion α)
  /-- Whether two values are opposed. -/
  | opposed (yes : Bool)
  | refused (reason : Rejection)

/-! ## Steps -/

variable {α σ τ : Type}

/-- The answer to a request that may be refused, and the state after
it: a refusal keeps the state. -/
def Answer.ofAttempt (state : σ) (accepted : τ → Answer α) :
    Except Rejection (τ × σ) → Answer α × σ
  | .ok (t, state') => (accepted t, state')
  | .error reason => (.refused reason, state)

variable [Scalar α]

def Evaluator.step (v : Evaluator α) : EvaluatorOp → Answer α × Evaluator α
  | .chain premises operations => Answer.ofAttempt v .concluded (v.runChain premises operations)
  | .tagged premises tags => Answer.ofAttempt v .concluded (v.runTagged premises tags)
  | .codes codes tags => Answer.ofAttempt v .concluded (v.runCodes codes tags)
  | .contradicts a b =>
    let r := v.contradicts a b
    (.opposed r.1, r.2)

namespace Engine

def networkStep (e : Engine α) : NetworkOp → Answer α × Engine α
  | .update ids name value confidence =>
    Answer.ofAttempt e .found (e.update ids name value confidence)
  | .updateCode ids name code confidence =>
    Answer.ofAttempt e .found (e.updateCode ids name code confidence)
  | .assert ids name value => Answer.ofAttempt e .found (e.assert ids name value)
  | .record c =>
    let r := e.record c
    (.filed r.1, r.2)
  | .resolve =>
    let r := e.resolve
    (.report r.1, r.2)

def step (e : Engine α) : Op → Answer α × Engine α
  | .network op => e.networkStep op
  | .evaluator op =>
    let r := e.evaluator.step op
    (r.1, { e with evaluator := r.2 })

/-- A list of requests, with the answer to each. -/
def run (e : Engine α) : List Op → List (Answer α) × Engine α
  | [] => ([], e)
  | op :: ops =>
    let r := e.step op
    let rest := r.2.run ops
    (r.1 :: rest.1, rest.2)

end Engine

/-- A list of requests to an evaluator alone, with the answer to each. -/
def Evaluator.run (v : Evaluator α) : List EvaluatorOp → List (Answer α) × Evaluator α
  | [] => ([], v)
  | op :: ops =>
    let r := v.step op
    let rest := r.2.run ops
    (r.1 :: rest.1, rest.2)

end TernaryBelief
