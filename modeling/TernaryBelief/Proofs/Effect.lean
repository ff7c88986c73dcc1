import TernaryBelief.Engine.Run

/-!
# What a request does

The requests to an engine come down to five effects: an assertion is written and its conflicts are
filed, a record from elsewhere is filed, a pass settles what is active, the request is refused, or
the evaluator alone is concerned. What a request does is said here once (`Engine.step_eq_perform`);
the laws of whole runs are derived from it.

## Main definitions

* `Assertion`, `Effect`, `Engine.effect`, `Engine.perform`: the effect
  of a request, and what it does;
* `Engine.written?`, `Engine.entry`: what a request means for the network and for the ledger;
* `Engine.trace`, `Engine.writes`, `Engine.journal`: the same for all requests of a run;
* `Engine.Fresh`, `Engine.Reachable`: new engines, and those that requests lead to.

## Main statements

* `Engine.step_eq_perform`: a request does what its effect says;
* `Engine.run_network`, `Engine.run_ledger`: a run folds its writes and its journal.
-/

namespace TernaryBelief

variable {α : Type}

/-! ## Effects -/

structure Assertion where
  name : String
  value : Trit
  /-- The confidence as it is stored. -/
  confidence : Float

/-- What an assertion says, without the confidence. -/
def Assertion.observation (a : Assertion) : Observation := ⟨a.name, a.value⟩

/-- What a request does to an engine. -/
inductive Effect where
  /-- An assertion is written; its conflicts are filed under the given identifiers. -/
  | assertion (ids : IdSource) (a : Assertion)
  /-- A record from elsewhere is filed. -/
  | filing (c : Contradiction)
  /-- All active contradictions are settled. -/
  | pass
  /-- The request is refused. -/
  | refusal (reason : Rejection)
  /-- The evaluator answers. -/
  | reasoning (op : EvaluatorOp)

def Op.isPass : Op → Bool
  | .network .resolve => true
  | _ => false

/-- An entry in the journal of a ledger. -/
inductive Entry where
  /-- Records come in together. -/
  | filed (batch : List Contradiction)
  /-- A pass settles all that is active. -/
  | pass

/-- The records that an entry brings in, as they are before they are filed. -/
def Entry.records : Entry → List Contradiction
  | filed batch => batch
  | pass => []

def Entry.isPass : Entry → Bool
  | filed _ => false
  | pass => true

def Network.write (n : Network) (a : Assertion) : Network := n.insert a.name a.value a.confidence

def Ledger.enter (l : Ledger) : Entry → Ledger
  | .filed batch => l.fileAll batch
  | .pass => l.settle

namespace Engine

/-- The effect of asserting a value: it is written if its confidence is accepted. -/
def effectOfUpdate (e : Engine α) (ids : IdSource) (name : String) (value : Trit)
    (confidence : Float) : Effect :=
  match e.config.accept confidence with
  | .ok stored => .assertion ids ⟨name, value, stored⟩
  | .error reason => .refusal reason

/-- The effect of a request. -/
def effect (e : Engine α) : Op → Effect
  | .network (.update ids name value confidence) => e.effectOfUpdate ids name value confidence
  | .network (.updateCode ids name code confidence) =>
    match Trit.ofInt code with
    | .ok value => e.effectOfUpdate ids name value confidence
    | .error reason => .refusal reason
  | .network (.assert ids name value) =>
    e.effectOfUpdate ids name value e.config.defaultConfidence
  | .network (.record c) => .filing c
  | .network .resolve => .pass
  | .evaluator op => .reasoning op

/-- The assertion that a request writes, if it is one that is accepted. -/
def written? (e : Engine α) (op : Op) : Option Assertion :=
  match e.effect op with
  | .assertion _ a => some a
  | _ => none

/-- The entry that a request makes in the journal of the ledger. -/
def entry (e : Engine α) (op : Op) : Entry :=
  match e.effect op with
  | .assertion ids a => .filed (e.findings ids a.observation)
  | .filing c => .filed [c]
  | .pass => .pass
  | _ => .filed []

/-! ## One request -/

variable [Scalar α]

/-- The answer to a request with the given effect, and the engine after it. The conflicts of an
assertion are those with the network before it is written. -/
def perform (e : Engine α) : Effect → Answer α × Engine α
  | .assertion ids a =>
    (.found (e.findings ids a.observation).length,
      { e with
        ledger := e.ledger.fileAll (e.findings ids a.observation)
        network := e.network.write a })
  | .filing c => (.filed c.id, { e with ledger := e.ledger.file c })
  | .pass => (.report e.resolve.1, { e with ledger := e.ledger.settle })
  | .refusal reason => (.refused reason, e)
  | .reasoning op =>
    ((e.evaluator.step op).1, { e with evaluator := (e.evaluator.step op).2 })

theorem ofAttempt_update (e : Engine α) (ids : IdSource) (name : String) (value : Trit)
    (confidence : Float) :
    Answer.ofAttempt e .found (e.update ids name value confidence) =
      e.perform (e.effectOfUpdate ids name value confidence) := by
  unfold update effectOfUpdate
  cases e.config.accept confidence with
  | ok stored => rfl
  | error reason => rfl

/-- **Every request does what its effect says**, and is answered accordingly. -/
theorem step_eq_perform (e : Engine α) (op : Op) : e.step op = e.perform (e.effect op) := by
  -- the three assertions differ only in how they come by their value and their confidence
  match op with
  | .network (.update ids name value confidence) =>
    exact e.ofAttempt_update ids name value confidence
  | .network (.updateCode ids name code confidence) =>
    simp only [step, networkStep, updateCode, effect]
    cases Trit.ofInt code with
    | ok value => exact e.ofAttempt_update ids name value confidence
    | error reason => rfl
  | .network (.assert ids name value) => exact e.ofAttempt_update ids name value _
  | .network (.record c) => rfl
  | .network .resolve => rfl
  | .evaluator op => rfl

@[simp] theorem step_config (e : Engine α) (op : Op) : (e.step op).2.config = e.config := by
  rw [step_eq_perform]
  cases e.effect op <;> rfl

/-- The accepted assertions are the requests that are answered by a count of contradictions. -/
theorem written?_isSome_iff {e : Engine α} {op : Op} :
    (e.written? op).isSome ↔ ∃ count, (e.step op).1 = .found count := by
  rw [step_eq_perform]
  unfold written?
  cases e.effect op with
  | reasoning v =>
    -- the evaluator never answers by a count
    simp only [perform, Option.isSome_none, Bool.false_eq_true, false_iff]
    rintro ⟨count, h⟩
    cases v <;> simp only [Evaluator.step, Answer.ofAttempt] at h
    all_goals (try split at h) <;> cases h
  | _ => simp [perform]

theorem step_network_of_written {e : Engine α} {op : Op} {a : Assertion}
    (h : e.written? op = some a) : (e.step op).2.network = e.network.write a := by
  rw [step_eq_perform]
  unfold written? at h
  cases he : e.effect op with
  | assertion ids b =>
    simp only [he, Option.some.injEq] at h
    rw [← h]
    rfl
  | _ => simp [he] at h

/-- Nothing but an accepted assertion touches the network. -/
theorem step_network_of_not_written {e : Engine α} {op : Op} (h : e.written? op = none) :
    (e.step op).2.network = e.network := by
  rw [step_eq_perform]
  unfold written? at h
  cases he : e.effect op with
  | assertion ids b => simp [he] at h
  | _ => rfl

/-- The ledger after a request is the ledger after its entry. -/
theorem step_ledger (e : Engine α) (op : Op) :
    (e.step op).2.ledger = e.ledger.enter (e.entry op) := by
  rw [step_eq_perform]
  unfold entry
  cases e.effect op with
  -- what does not concern the ledger is entered as an empty batch
  | refusal reason => exact e.ledger.fileAll_nil.symm
  | reasoning op => exact e.ledger.fileAll_nil.symm
  | _ => rfl

omit [Scalar α] in
/-- The request for a pass, and no other, is entered as one. -/
theorem isPass_entry (e : Engine α) (op : Op) : (e.entry op).isPass = op.isPass := by
  match op with
  | .network (.update ids name value confidence) =>
    simp only [entry, effect, effectOfUpdate]
    cases e.config.accept confidence <;> rfl
  | .network (.updateCode ids name code confidence) =>
    simp only [entry, effect, effectOfUpdate]
    cases Trit.ofInt code with
    | ok value => cases e.config.accept confidence <;> rfl
    | error reason => rfl
  | .network (.assert ids name value) =>
    simp only [entry, effect, effectOfUpdate]
    cases e.config.accept e.config.defaultConfidence <;> rfl
  | .network (.record c) => rfl
  | .network .resolve => rfl
  | .evaluator op => rfl

/-! ## Runs -/

/-- The requests of a run, each with the engine that it meets. -/
def trace (e : Engine α) : List Op → List (Engine α × Op)
  | [] => []
  | op :: ops => (e, op) :: trace (e.step op).2 ops

def writes (e : Engine α) (ops : List Op) : List Assertion :=
  (e.trace ops).filterMap fun (met, op) => met.written? op

/-- The entries that a run makes in the journal of the ledger, one for each request. -/
def journal (e : Engine α) (ops : List Op) : List Entry :=
  (e.trace ops).map fun (met, op) => met.entry op

theorem run_append (e : Engine α) (xs ys : List Op) :
    e.run (xs ++ ys) =
      ((e.run xs).1 ++ ((e.run xs).2.run ys).1, ((e.run xs).2.run ys).2) := by
  induction xs generalizing e with
  | nil => rfl
  | cons op xs ih => simp only [List.cons_append, run, ih]

theorem writes_cons (e : Engine α) (op : Op) (ops : List Op) :
    e.writes (op :: ops) = (e.written? op).toList ++ (e.step op).2.writes ops := by
  simp only [writes, trace, List.filterMap_cons]
  cases e.written? op <;> rfl

theorem writes_append (e : Engine α) (xs ys : List Op) :
    e.writes (xs ++ ys) = e.writes xs ++ (e.run xs).2.writes ys := by
  induction xs generalizing e with
  | nil => rfl
  | cons op xs ih => rw [List.cons_append, writes_cons, ih, writes_cons, run, List.append_assoc]

@[simp] theorem journal_cons (e : Engine α) (op : Op) (ops : List Op) :
    e.journal (op :: ops) = e.entry op :: (e.step op).2.journal ops := rfl

theorem journal_append (e : Engine α) (xs ys : List Op) :
    e.journal (xs ++ ys) = e.journal xs ++ (e.run xs).2.journal ys := by
  induction xs generalizing e with
  | nil => rfl
  | cons op xs ih =>
    rw [List.cons_append, journal_cons, ih, journal_cons, run]
    rfl

theorem map_isPass_journal (e : Engine α) (ops : List Op) :
    (e.journal ops).map Entry.isPass = ops.map Op.isPass := by
  induction ops generalizing e with
  | nil => rfl
  | cons op ops ih => simp only [journal_cons, List.map_cons, isPass_entry, ih]

@[simp] theorem run_config (e : Engine α) (ops : List Op) : (e.run ops).2.config = e.config := by
  induction ops generalizing e with
  | nil => rfl
  | cons op ops ih => simp only [run, ih, step_config]

/-- **The network after a run** is what its accepted assertions make of the network before. -/
theorem run_network (e : Engine α) (ops : List Op) :
    (e.run ops).2.network = (e.writes ops).foldl Network.write e.network := by
  induction ops generalizing e with
  | nil => rfl
  | cons op ops ih =>
    rw [run, ih, writes_cons, List.foldl_append]
    -- the request writes one assertion or none
    cases h : e.written? op with
    | none => rw [step_network_of_not_written h]; rfl
    | some a => rw [step_network_of_written h]; rfl

/-- **The ledger after a run** is what its journal makes of the ledger before. -/
theorem run_ledger (e : Engine α) (ops : List Op) :
    (e.run ops).2.ledger = (e.journal ops).foldl Ledger.enter e.ledger := by
  induction ops generalizing e with
  | nil => rfl
  | cons op ops ih => simp only [run, ih, journal_cons, step_ledger, List.foldl_cons]

/-! ## Reachable engines -/

omit [Scalar α] in
/-- A new engine: an empty one with the default or with a valid configuration, or one around an
evaluator that comes from elsewhere. -/
inductive Fresh : Engine α → Prop where
  | blank : Fresh {}
  | ofConfig {c : Config} {e : Engine α} (h : Engine.ofConfig c = .ok e) : Fresh e
  | ofEvaluator (v : Evaluator α) : Fresh (Engine.ofEvaluator v)

/-- An engine that requests to a new one lead to. -/
inductive Reachable : Engine α → Prop where
  | fresh {e : Engine α} (h : e.Fresh) : Reachable e
  | step {e : Engine α} (h : Reachable e) (op : Op) : Reachable (e.step op).2

theorem Reachable.run {e : Engine α} (h : e.Reachable) (ops : List Op) :
    (e.run ops).2.Reachable := by
  induction ops generalizing e with
  | nil => exact h
  | cons op ops ih => exact ih (h.step op)

omit [Scalar α] in
/-- Only a valid configuration makes an engine at all, and that engine is empty. -/
theorem ofConfig_eq_ok_iff {c : Config} {e : Engine α} :
    Engine.ofConfig c = .ok e ↔ c.Valid ∧ e = { config := c } := by
  unfold Engine.ofConfig Config.validate Config.Valid
  cases hfault : c.fault? with
  | some fault => simp [bind, Except.bind]
  | none => simp [bind, Except.bind, pure, Except.pure, eq_comm]

omit [Scalar α] in
theorem eq_of_ofConfig {c : Config} {e : Engine α} (h : Engine.ofConfig c = .ok e) :
    e = { config := c } := (ofConfig_eq_ok_iff.mp h).2

omit [Scalar α] in
/-- A new engine believes nothing and has filed nothing. -/
theorem Fresh.empty {e : Engine α} (h : e.Fresh) : e.network = {} ∧ e.ledger = {} := by
  cases h with
  | blank => exact ⟨rfl, rfl⟩
  | ofEvaluator v => exact ⟨rfl, rfl⟩
  | ofConfig h =>
    obtain rfl := eq_of_ofConfig h
    exact ⟨rfl, rfl⟩

end Engine

end TernaryBelief
