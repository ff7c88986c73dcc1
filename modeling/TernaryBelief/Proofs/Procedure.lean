import TernaryBelief.SharedEngine

/-!
# Operations step by step

An operation works on the engine in place: it looks, files and writes in some order, and where it
breaks off, what it did before stands. Here the operations that can fail are given in that form, and
each comes to what the engine's own definition of it says, with the state as before if it fails
(`Procedure.Implements`). So nothing is filed or written before the last check has been passed. A
pass, which cannot fail, goes through the active records one by one.

## Main definitions

* `Procedure`: steps on a state that may break off, without any undoing;
* `Procedure.Implements`: it comes to what a function says, and leaves no trace if it fails;
* `Engine.Steps`, `SharedEngine.Steps`: the operations as procedures, the latter of a client that
  holds the engine.
-/

namespace TernaryBelief

/-! ## Procedures -/

/-- Steps on a state. They may break off, and then what was done before stands. -/
abbrev Procedure (σ ε τ : Type) := ExceptT ε (StateM σ) τ

namespace Procedure

variable {σ ε τ υ : Type}

/-- What a procedure results in, and the state that it leaves. -/
def runFrom (p : Procedure σ ε τ) (s : σ) : Except ε τ × σ := p.run.run s

/-- A look at the state, after which the procedure may have to break off. -/
def look (check : σ → Except ε τ) : Procedure σ ε τ := ExceptT.mk fun s => pure (check s, s)

/-- The result of an operation, and the state after it: a failure keeps the state. -/
def orKeep (s : σ) : Except ε (τ × σ) → Except ε τ × σ
  | .ok (t, s') => (.ok t, s')
  | .error reason => (.error reason, s)

/-- The procedure comes to what the function says; if that is a failure, the state is as before. -/
def Implements (p : Procedure σ ε τ) (f : σ → Except ε (τ × σ)) : Prop :=
  ∀ s, p.runFrom s = orKeep s (f s)

theorem runFrom_bind_ok {p : Procedure σ ε τ} {s s' : σ} {t : τ} (h : p.runFrom s = (.ok t, s'))
    (q : τ → Procedure σ ε υ) : (p >>= q).runFrom s = (q t).runFrom s' := by
  unfold runFrom at *
  rw [ExceptT.run_bind, StateT.run_bind, h]
  rfl

theorem runFrom_bind_error {p : Procedure σ ε τ} {s s' : σ} {reason : ε}
    (h : p.runFrom s = (.error reason, s')) (q : τ → Procedure σ ε υ) :
    (p >>= q).runFrom s = (.error reason, s') := by
  unfold runFrom at *
  rw [ExceptT.run_bind, StateT.run_bind, h]
  rfl

/-- A failure leaves no trace either if the procedure looks first, and breaks off there. -/
theorem Implements.look_bind (check : σ → Except ε τ) {q : τ → Procedure σ ε υ}
    {g : τ → σ → Except ε (υ × σ)} (h : ∀ t, (q t).Implements (g t)) :
    (look check >>= q).Implements fun s => check s >>= fun t => g t s := by
  intro s
  show _ = orKeep s (check s >>= fun t => g t s)
  have hlook : (look check).runFrom s = (check s, s) := rfl
  cases hc : check s with
  | error reason =>
    rw [hc] at hlook
    exact runFrom_bind_error hlook q
  | ok t =>
    rw [hc] at hlook
    rw [runFrom_bind_ok hlook]
    exact h t s

/-- What cannot fail may follow: then a failure still leaves no trace. -/
theorem Implements.bind_total {p : Procedure σ ε τ} {f : σ → Except ε (τ × σ)} (h : p.Implements f)
    {q : τ → Procedure σ ε υ} {g : τ → σ → υ × σ}
    (hq : ∀ t s, (q t).runFrom s = (.ok (g t s).1, (g t s).2)) :
    (p >>= q).Implements fun s => (f s).map fun r => g r.1 r.2 := by
  intro s
  show _ = orKeep s ((f s).map fun r => g r.1 r.2)
  have hp := h s
  cases hf : f s with
  | error reason =>
    rw [hf] at hp
    exact runFrom_bind_error hp q
  | ok r =>
    rw [hf] at hp
    rw [runFrom_bind_ok hp]
    exact hq r.1 r.2

end Procedure

open Procedure (look)

/-! ## The engine -/

namespace Engine.Steps

variable {α : Type}

/-- Files one record: the number of filings is raised, and the record comes in under it. -/
def file (c : Contradiction) : Procedure (Engine α) Rejection Uuid := do
  modify fun e => { e with ledger.filed := e.ledger.filed + 1 }
  let sequence := (← get).ledger.filed
  modify fun e => { e with ledger.active := e.ledger.active ++ [{ c with sequence }] }
  return c.id

/-- Files records one by one. -/
def fileAll : List Contradiction → Procedure (Engine α) Rejection Unit
  | [] => pure ()
  | c :: cs => do
    let _ ← file c
    fileAll cs

/-- Writes a value: a known name is overwritten, a new one is indexed and comes last. -/
def write (name : String) (value : Trit) (confidence : Float) :
    Procedure (Engine α) Rejection Unit := do
  match (← get).network.index[name]? with
  | some i =>
    modify fun e =>
      { e with network.beliefs := e.network.beliefs.modify i (·.overwrite value confidence) }
  | none =>
    modify fun e =>
      { e with network.index := e.network.index.insert name e.network.beliefs.size }
    modify fun e =>
      { e with network.beliefs := e.network.beliefs.push { name, value, confidence } }

/-- Asserts a value: the confidence is checked, conflicts are looked for and filed one by one, and
at last the value is written. -/
def update (ids : IdSource) (name : String) (value : Trit) (confidence : Float) :
    Procedure (Engine α) Rejection Nat := do
  let confidence ← look fun e => e.config.accept confidence
  let e ← get
  let found := e.findings ids ⟨name, value⟩
  fileAll found
  write name value confidence
  return found.length

def updateCode (ids : IdSource) (name : String) (code : Int) (confidence : Float) :
    Procedure (Engine α) Rejection Nat := do
  let value ← look fun _ => Trit.ofInt code
  update ids name value confidence

def assert (ids : IdSource) (name : String) (value : Trit) :
    Procedure (Engine α) Rejection Nat := do
  let confidence ← look fun e => .ok e.config.defaultConfidence
  update ids name value confidence

/-- Settles one record: it moves over with one attempt more, and the report so far is continued. -/
def settle [Scalar α] (r : Report α) (c : Contradiction) :
    Procedure (Engine α) Rejection (Report α) := do
  let o : Outcome α := .ofContradiction c
  modify fun e => { e with ledger.resolved := e.ledger.resolved ++ [c.attempted] }
  return { r with
    cost := r.cost + o.cost, resolved := r.resolved + 1, outcomes := r.outcomes ++ [o] }

/-- Settles records one by one. -/
def settleAll [Scalar α] (r : Report α) : List Contradiction →
    Procedure (Engine α) Rejection (Report α)
  | [] => pure r
  | c :: cs => do
    let r ← settle r c
    settleAll r cs

/-- Makes a pass: the evaluator is looked at, the active list is taken away and gone through, and
then the evaluator and the network are looked at. -/
def resolve [Scalar α] : Procedure (Engine α) Rejection (Report α) := do
  let before := (← get).evaluator.phi
  let pending := (← get).ledger.pending
  modify fun e => { e with ledger.active := [] }
  let r ← settleAll ⟨0, 0.0, 0.0, 0.0, []⟩ pending
  let e ← get
  return { r with delta := e.evaluator.phi - before, preserved := e.snapshot.preserved }

theorem runFrom_file (e : Engine α) (c : Contradiction) :
    (file c).runFrom e = (.ok c.id, { e with ledger := e.ledger.file c }) := rfl

/-- Filing one by one is filing all together. -/
theorem runFrom_fileAll (e : Engine α) (cs : List Contradiction) :
    (fileAll cs).runFrom e = (.ok (), { e with ledger := e.ledger.fileAll cs }) := by
  induction cs generalizing e with
  | nil =>
    rw [Ledger.fileAll_nil]
    rfl
  | cons c cs ih =>
    rw [fileAll, Procedure.runFrom_bind_ok (runFrom_file e c), ih, ← List.singleton_append (x := c),
      Ledger.fileAll_append]
    rfl

theorem runFrom_write (e : Engine α) (name : String) (value : Trit) (confidence : Float) :
    (write name value confidence).runFrom e =
      (.ok (), { e with network := e.network.insert name value confidence }) := by
  have hget : (get : Procedure (Engine α) Rejection (Engine α)).runFrom e = (.ok e, e) := rfl
  rw [write, Procedure.runFrom_bind_ok hget]
  unfold Network.insert
  cases e.network.index[name]? with
  | some i => rfl
  | none => rfl

/-- The check of the confidence comes before anything is filed or written. -/
theorem update_implements (ids : IdSource) (name : String) (value : Trit) (confidence : Float) :
    (update ids name value confidence).Implements fun e : Engine α =>
      e.update ids name value confidence := by
  apply Procedure.Implements.look_bind
  intro stored e
  have hget : (get : Procedure (Engine α) Rejection (Engine α)).runFrom e = (.ok e, e) := rfl
  rw [Procedure.runFrom_bind_ok hget, Procedure.runFrom_bind_ok (runFrom_fileAll e _),
    Procedure.runFrom_bind_ok (runFrom_write _ _ _ _)]
  rfl

/-- The code is read before the confidence is checked. -/
theorem updateCode_implements (ids : IdSource) (name : String) (code : Int) (confidence : Float) :
    (updateCode ids name code confidence).Implements fun e : Engine α =>
      e.updateCode ids name code confidence := by
  apply Procedure.Implements.look_bind
  intro value
  exact update_implements ids name value confidence

theorem assert_implements (ids : IdSource) (name : String) (value : Trit) :
    (assert ids name value).Implements fun e : Engine α => e.assert ids name value := by
  intro e
  -- the look at the default confidence never fails
  have hlook :
      (look fun e : Engine α => Except.ok (ε := Rejection) e.config.defaultConfidence).runFrom e =
        (.ok e.config.defaultConfidence, e) := rfl
  rw [assert, Procedure.runFrom_bind_ok hlook]
  exact update_implements ids name value e.config.defaultConfidence e

/-- Going through records touches nothing but the resolved ones, and the report adds up. -/
theorem runFrom_settleAll [Scalar α] (e : Engine α) (r : Report α) (cs : List Contradiction) :
    (settleAll r cs).runFrom e =
      (.ok { r with
        cost :=
          (cs.map Outcome.ofContradiction).foldl (fun sum (o : Outcome α) => sum + o.cost) r.cost
        resolved := r.resolved + cs.length
        outcomes := r.outcomes ++ cs.map Outcome.ofContradiction },
      { e with ledger.resolved := e.ledger.resolved ++ cs.map Contradiction.attempted }) := by
  induction cs generalizing e r with
  | nil =>
    simp only [List.map_nil, List.append_nil]
    rfl
  | cons c cs ih =>
    have hsettle : (settle r c).runFrom e =
        (.ok { r with
          cost := r.cost + (Outcome.ofContradiction c : Outcome α).cost
          resolved := r.resolved + 1
          outcomes := r.outcomes ++ [Outcome.ofContradiction c] },
        { e with ledger.resolved := e.ledger.resolved ++ [c.attempted] }) := rfl
    rw [settleAll, Procedure.runFrom_bind_ok hsettle, ih]
    simp only [List.map_cons, List.foldl_cons, List.length_cons, List.append_assoc,
      List.singleton_append, Nat.add_assoc, Nat.add_comm 1]

/-- A pass never fails. -/
theorem resolve_implements [Scalar α] :
    (resolve (α := α)).Implements fun e => .ok e.resolve := by
  intro e
  have hget (e : Engine α) :
      (get : Procedure (Engine α) Rejection (Engine α)).runFrom e = (.ok e, e) := rfl
  have htake : (modify fun e : Engine α => { e with ledger.active := [] } :
      Procedure (Engine α) Rejection Unit).runFrom e =
        (.ok (), { e with ledger.active := [] }) := rfl
  rw [resolve, Procedure.runFrom_bind_ok (hget e), Procedure.runFrom_bind_ok (hget e),
    Procedure.runFrom_bind_ok htake, Procedure.runFrom_bind_ok (runFrom_settleAll _ _ _),
    Procedure.runFrom_bind_ok (hget _)]
  simp only [Procedure.orKeep, Engine.resolve, List.nil_append, Nat.zero_add, List.length_map]
  rfl

end Engine.Steps

/-! ## The shared engine -/

namespace SharedEngine.Steps

variable {α τ : Type}

/-- A client holds the engine while it goes through a procedure. The engine is left to the next
client as the procedure leaves it, also if that fails. -/
def holding (p : Procedure (Engine α) Rejection τ) : Procedure (SharedEngine α) Failure τ := do
  let e ← look enter
  let (result, e') := p.runFrom e
  modify fun s => { s with engine := e' }
  look fun _ => result.mapError .rejected

def update (ids : IdSource) (name : String) (value : Trit) (confidence : Float) :
    Procedure (SharedEngine α) Failure Nat :=
  holding (Engine.Steps.update ids name value confidence)

/-- Asserts a value and makes a pass, in one holding. -/
def updateAndResolve [Scalar α] (ids : IdSource) (name : String) (value : Trit)
    (confidence : Float) : Procedure (SharedEngine α) Failure (Nat × Report α) :=
  holding do
    let found ← Engine.Steps.update ids name value confidence
    let report ← modifyGet Engine.resolve
    return (found, report)

/-- What a client gets out of an operation on the engine that it holds. -/
def holdingFor (f : Engine α → Except Rejection (τ × Engine α)) (s : SharedEngine α) :
    Except Failure (τ × SharedEngine α) := do
  let e ← s.enter
  match f e with
  | .ok (t, e') => return (t, { s with engine := e' })
  | .error reason => throw (.rejected reason)

/-- To hold the engine for a procedure that leaves no trace if it fails leaves none either. -/
theorem holding_implements {p : Procedure (Engine α) Rejection τ}
    {f : Engine α → Except Rejection (τ × Engine α)} (h : p.Implements f) :
    (holding p).Implements (holdingFor f) := by
  intro s
  obtain ⟨e, poisoned⟩ := s
  cases poisoned with
  | true => rfl
  | false =>
    have hlook : (look enter).runFrom ({ engine := e } : SharedEngine α) =
        (.ok e, { engine := e }) := rfl
    have henter : ({ engine := e } : SharedEngine α).enter = .ok e := rfl
    rw [holding, Procedure.runFrom_bind_ok hlook, h e, holdingFor, henter]
    show _ = Procedure.orKeep _ (match f e with
      | .ok (t, e') => _
      | .error reason => _)
    cases f e with
    | ok r => rfl
    | error reason => rfl

theorem update_implements (ids : IdSource) (name : String) (value : Trit) (confidence : Float) :
    (update ids name value confidence).Implements fun s : SharedEngine α =>
      s.update ids name value confidence := by
  have hfor : (holdingFor fun e : Engine α => e.update ids name value confidence) =
      fun s => s.update ids name value confidence := by
    funext s
    unfold holdingFor SharedEngine.update
    cases s.enter with
    | error reason => rfl
    | ok e =>
      simp only [bind, Except.bind]
      cases e.update ids name value confidence with
      | ok r => rfl
      | error reason => rfl
  rw [← hfor]
  exact holding_implements (Engine.Steps.update_implements ids name value confidence)

/-- The pass comes after the last check, so it is not made if the assertion is refused. -/
theorem updateAndResolve_implements [Scalar α] (ids : IdSource) (name : String) (value : Trit)
    (confidence : Float) :
    (updateAndResolve ids name value confidence).Implements fun s : SharedEngine α =>
      s.updateAndResolve ids name value confidence := by
  have hfor : (holdingFor fun e : Engine α => (e.update ids name value confidence).map fun r =>
        ((r.1, r.2.resolve.1), r.2.resolve.2)) =
      fun s => s.updateAndResolve ids name value confidence := by
    funext s
    unfold holdingFor SharedEngine.updateAndResolve
    cases s.enter with
    | error reason => rfl
    | ok e =>
      simp only [bind, Except.bind]
      cases e.update ids name value confidence with
      | ok r => rfl
      | error reason => rfl
  rw [← hfor]
  have hupdate := Engine.Steps.update_implements (α := α) ids name value confidence
  exact holding_implements (hupdate.bind_total
    (g := fun found e => ((found, e.resolve.1), e.resolve.2)) fun _ _ => rfl)

end SharedEngine.Steps

/-- The operations that can fail, gone through in place, come to what the engine says of them, and
leave the state as it was if they fail. -/
structure InPlace (α : Type) [Scalar α] : Prop where
  update (ids : IdSource) (name : String) (value : Trit) (confidence : Float) :
    (Engine.Steps.update ids name value confidence).Implements fun e : Engine α =>
      e.update ids name value confidence
  updateCode (ids : IdSource) (name : String) (code : Int) (confidence : Float) :
    (Engine.Steps.updateCode ids name code confidence).Implements fun e : Engine α =>
      e.updateCode ids name code confidence
  assert (ids : IdSource) (name : String) (value : Trit) :
    (Engine.Steps.assert ids name value).Implements fun e : Engine α => e.assert ids name value
  sharedUpdate (ids : IdSource) (name : String) (value : Trit) (confidence : Float) :
    (SharedEngine.Steps.update ids name value confidence).Implements fun s : SharedEngine α =>
      s.update ids name value confidence
  updateAndResolve (ids : IdSource) (name : String) (value : Trit) (confidence : Float) :
    (SharedEngine.Steps.updateAndResolve ids name value confidence).Implements
      fun s : SharedEngine α => s.updateAndResolve ids name value confidence

theorem inPlace {α : Type} [Scalar α] : InPlace α where
  update := Engine.Steps.update_implements
  updateCode := Engine.Steps.updateCode_implements
  assert := Engine.Steps.assert_implements
  sharedUpdate := SharedEngine.Steps.update_implements
  updateAndResolve := SharedEngine.Steps.updateAndResolve_implements

end TernaryBelief
