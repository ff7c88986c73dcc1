import TernaryBelief.Proofs.Refusal

/-!
# An engine behind a lock

A shared engine is an engine that one client at a time holds. As long as no client dies while it
holds the engine, each call is answered as the engine itself would answer, and leaves the engine as
the engine itself would (`Engine.serve`). Once a client has died, the lock is poisoned: every later
call, whoever makes it, fails alike, begins no work, and leaves the engine as the dead client left
it (`SharedEngine.lifetime`).

## Main definitions

* `Engine.serve`, `Engine.serveAll`: what an engine that is not shared
  makes of a call, and of calls;
* `SharedEngine.hold`: the work of a client that may have effects of its own, behind the lock;
* `SharedEngine.Lifetime`: what becomes of calls in turn.
-/

namespace TernaryBelief

variable {α ρ κ : Type}

/-- The client died in the call. -/
def SharedAnswer.died : SharedAnswer α ρ → Bool
  | visited result => result.isNone
  | _ => false

/-- What an engine that is not shared makes of a call: the operation that the call stands for, and
if the call asks for a pass after an assertion, the pass too, unless the assertion is refused. -/
def Engine.serve [Scalar α] (e : Engine α) : SharedOp α ρ → SharedAnswer α ρ × Engine α
  | .update ids name value confidence =>
    match e.update ids name value confidence with
    | .ok (found, e') => (.found found, e')
    | .error reason => (.failed (.rejected reason), e)
  | .resolve => (.report e.resolve.1, e.resolve.2)
  | .updateAndResolve ids name value confidence =>
    match e.update ids name value confidence with
    | .ok (found, e') => (.foundAndReport found e'.resolve.1, e'.resolve.2)
    | .error reason => (.failed (.rejected reason), e)
  | .snapshot => (.snapshot e.snapshot, e)
  | .coherence => (.coherence e.snapshot.coherence, e)
  | .visit procedure => (.visited (procedure e).1, (procedure e).2)

/-- Calls in turn on an engine that is not shared, with the answers. -/
def Engine.serveAll [Scalar α] (e : Engine α) (ops : List (SharedOp α ρ)) :
    List (SharedAnswer α ρ) × Engine α :=
  Machine.run Engine.serve e ops

theorem Machine.run_append {σ ω β : Type} (step : σ → ω → β × σ) (s : σ) (xs ys : List ω) :
    Machine.run step s (xs ++ ys) =
      ((Machine.run step s xs).1 ++ (Machine.run step (Machine.run step s xs).2 ys).1,
        (Machine.run step (Machine.run step s xs).2 ys).2) := by
  induction xs generalizing s with
  | nil => rfl
  | cons x xs ih => simp only [List.cons_append, Machine.run, ih]

namespace SharedEngine

/-! ## Work behind the lock -/

section Hold

variable {m : Type → Type} [Monad m]

/-- A client holds the engine for its work, which answers it and leaves the engine as it likes.
The work may have any effects besides. -/
def hold (s : SharedEngine α) (work : Engine α → m (SharedAnswer α ρ × Engine α)) :
    m (SharedAnswer α ρ × SharedEngine α) :=
  match s.enter with
  | .ok e => do
    let r ← work e
    return (r.1, { engine := r.2, poisoned := r.1.died })
  | .error reason => return (.failed reason, s)

/-- Clients hold the engine one after the other. -/
def holdAll (s : SharedEngine α) :
    List (Engine α → m (SharedAnswer α ρ × Engine α)) → m (List (SharedAnswer α ρ) × SharedEngine α)
  | [] => return ([], s)
  | work :: works => do
    let r ← s.hold work
    let rest ← r.2.holdAll works
    return (r.1 :: rest.1, rest.2)

/-- Behind a poisoned lock no work is begun, whatever it would do. -/
theorem holdAll_of_poisoned [LawfulMonad m] {s : SharedEngine α} (h : s.poisoned = true)
    (works : List (Engine α → m (SharedAnswer α ρ × Engine α))) :
    s.holdAll works = pure (works.map fun _ => .failed lockFailure, s) := by
  induction works with
  | nil => rfl
  | cons work works ih =>
    -- the lock is as it was, so the other clients are turned away as well
    have hwork : s.hold work = pure (.failed lockFailure, s) := by
      rw [hold, enter, if_pos h]
    rw [holdAll, hwork, pure_bind, ih, pure_bind]
    rfl

end Hold

variable [Scalar α]

/-- **Every call goes through the lock**, and once there it is served by the engine alone. -/
theorem step_eq_hold (s : SharedEngine α) (op : SharedOp α ρ) :
    s.step op = Id.run (s.hold fun e => pure (e.serve op)) := by
  obtain ⟨e, poisoned⟩ := s
  cases poisoned with
  | true => cases op <;> rfl
  | false =>
    show _ = ((e.serve op).1, ({ engine := (e.serve op).2, poisoned := (e.serve op).1.died } :
      SharedEngine α))
    -- only the two calls that assert can be refused
    cases op with
    | update ids name value confidence =>
      show attempt _ _ ((e.update ids name value confidence).mapError Failure.rejected >>= _) = _
      simp only [Engine.serve]
      cases e.update ids name value confidence with
      | ok r => rfl
      | error reason => rfl
    | updateAndResolve ids name value confidence =>
      show attempt _ _ ((e.update ids name value confidence).mapError Failure.rejected >>= _) = _
      simp only [Engine.serve]
      cases e.update ids name value confidence with
      | ok r => rfl
      | error reason => rfl
    | _ => rfl

theorem run_eq_holdAll (s : SharedEngine α) (ops : List (SharedOp α ρ)) :
    s.run ops = Id.run (s.holdAll (ops.map fun op e => pure (e.serve op))) := by
  induction ops generalizing s with
  | nil => rfl
  | cons op ops ih =>
    rw [run, step_eq_hold, ih]
    rfl

/-! ## Before and after a death -/

/-- An engine that may be reached serves the call, and is lost if the client dies. -/
theorem step_eq_serve (e : Engine α) (op : SharedOp α ρ) :
    ({ engine := e } : SharedEngine α).step op =
      ((e.serve op).1, { engine := (e.serve op).2, poisoned := (e.serve op).1.died }) :=
  step_eq_hold { engine := e } op

theorem run_of_sound {e : Engine α} {ops : List (SharedOp α ρ)}
    (h : ∀ a ∈ (e.serveAll ops).1, a.died = false) :
    ({ engine := e } : SharedEngine α).run ops =
      ((e.serveAll ops).1, { engine := (e.serveAll ops).2 }) := by
  induction ops generalizing e with
  | nil => rfl
  | cons op ops ih =>
    -- the first client survives, so the others find the lock sound
    have hop : (e.serve op).1.died = false := h _ List.mem_cons_self
    have hrest := ih (e := (e.serve op).2) fun a ha => h a (List.mem_cons_of_mem _ ha)
    rw [run, step_eq_serve, hop, hrest]
    rfl

theorem run_of_poisoned {s : SharedEngine α} (h : s.poisoned = true) (ops : List (SharedOp α ρ)) :
    s.run ops = (ops.map fun _ => .failed lockFailure, s) := by
  rw [run_eq_holdAll, holdAll_of_poisoned h, List.map_map]
  rfl

/-- After calls in which nobody died, the next client dies. -/
theorem run_of_death {e : Engine α} {before after : List (SharedOp α ρ)} {op : SharedOp α ρ}
    (h : ∀ a ∈ (e.serveAll before).1, a.died = false)
    (hop : ((e.serveAll before).2.serve op).1.died = true) :
    ({ engine := e } : SharedEngine α).run (before ++ op :: after) =
      ((e.serveAll before).1 ++ ((e.serveAll before).2.serve op).1 ::
          after.map fun _ => .failed lockFailure,
        { engine := ((e.serveAll before).2.serve op).2, poisoned := true }) := by
  have hbefore := run_of_sound h
  -- the run is split at the death
  rw [run_eq_machine] at hbefore ⊢
  rw [Machine.run_append, hbefore, ← run_eq_machine, run, step_eq_serve, hop, run_of_poisoned rfl]

/-- What becomes of the calls that clients make in turn. -/
structure Lifetime (e : Engine α) (calls : List (κ × SharedOp α ρ)) : Prop where
  /-- No call touches the engine but behind the lock. -/
  held : ({ engine := e } : SharedEngine α).run (calls.map Prod.snd) =
    Id.run (holdAll { engine := e } (calls.map fun x e => pure (e.serve x.2)))
  /-- As long as nobody has died, the shared engine answers and changes as the engine does. -/
  sound {before after : List (κ × SharedOp α ρ)} (hcalls : calls = before ++ after)
    (hbefore : ∀ a ∈ (e.serveAll (before.map Prod.snd)).1, a.died = false) :
    ({ engine := e } : SharedEngine α).run (before.map Prod.snd) =
      ((e.serveAll (before.map Prod.snd)).1,
        { engine := (e.serveAll (before.map Prod.snd)).2 })
  /-- From the first death on, every call of every client fails, and the engine
  stays as the dead client left it. -/
  lost {before after : List (κ × SharedOp α ρ)} {k : κ} {procedure : Engine α → Option ρ × Engine α}
    (hcalls : calls = before ++ (k, .visit procedure) :: after)
    (hbefore : ∀ a ∈ (e.serveAll (before.map Prod.snd)).1, a.died = false)
    (hdeath : (procedure (e.serveAll (before.map Prod.snd)).2).1 = none) :
    (({ engine := e } : SharedEngine α).run (calls.map Prod.snd)).1 =
        (e.serveAll (before.map Prod.snd)).1 ++ .visited none ::
          after.map (fun _ => .failed (.poisoned "resolution engine")) ∧
      ∀ n, (({ engine := e } : SharedEngine α).run
          ((before ++ (k, .visit procedure) :: after.take n).map Prod.snd)).2 =
        { engine := (procedure (e.serveAll (before.map Prod.snd)).2).2
          poisoned := true }
  /-- The calls that fail do nothing else either: whatever effects the work of a client would
  have, none of it is begun behind a poisoned lock. -/
  idle (dead : Engine α) (m : Type → Type) [Monad m] [LawfulMonad m]
    (works : List (Engine α → m (SharedAnswer α ρ × Engine α))) :
    holdAll { engine := dead, poisoned := true } works =
      pure (works.map fun _ => .failed (.poisoned "resolution engine"),
        { engine := dead, poisoned := true })

/-- **A shared engine is the engine until a client dies in it, and then it is lost for all.** -/
theorem lifetime (e : Engine α) (calls : List (κ × SharedOp α ρ)) : Lifetime e calls where
  held := by
    rw [run_eq_holdAll, List.map_map]
    rfl
  sound _ hbefore := run_of_sound hbefore
  lost := by
    rintro before after k procedure rfl hbefore hdeath
    -- the dead client's answer is all that is left of it
    have hop : ((e.serveAll (before.map Prod.snd)).2.serve
        (.visit procedure : SharedOp α ρ)).1 = .visited none :=
      congrArg SharedAnswer.visited hdeath
    have hdied := congrArg SharedAnswer.died hop
    constructor
    · rw [List.map_append, List.map_cons, run_of_death hbefore hdied, hop, List.map_map]
      rfl
    · intro n
      rw [List.map_append, List.map_cons, run_of_death hbefore hdied]
      rfl
  idle dead m _ _ works := holdAll_of_poisoned rfl works

/-- One client asserts twice, the second time in vain, and the other one looks. -/
def shortLife : List (Bool × SharedOp Rat Unit) :=
  [(true, .update Uuid.ofNat "a" .yes 1.0), (true, .updateAndResolve Uuid.ofNat "b" .no 1.5),
    (false, .snapshot)]

/-- It hands the record in before it dies. -/
def dyingVisit (e : Engine Rat) : Option Unit × Engine Rat :=
  let foreign : Contradiction :=
    { standing := ⟨"a", .yes⟩, incoming := ⟨"a", .no⟩, severity := .critical, id := Uuid.ofNat 0 }
  (none, (e.record foreign).2)

theorem lifetime_dyingVisit :
    let s : SharedEngine Rat := { engine := Engine.strictEngine }
    let calls := shortLife ++ (false, .visit dyingVisit) :: [(true, .coherence), (false, .resolve)]
    (∀ a ∈ (Engine.strictEngine.serveAll (shortLife.map Prod.snd)).1, a.died = false) ∧
    (s.run (calls.map Prod.snd)).1 =
      [.found 0, .failed (.rejected (.confidenceOutOfRange 1.5)), .snapshot ⟨1, 0, 0, 0⟩,
        .visited none, .failed (.poisoned "resolution engine"),
        .failed (.poisoned "resolution engine")] ∧
    (s.run (calls.map Prod.snd)).2.engine.ledger.filed = 1 := by
  intro s calls
  have hsound : ∀ a ∈ (Engine.strictEngine.serveAll (shortLife.map Prod.snd)).1,
      a.died = false := by
    decide +kernel
  have hlifetime : Lifetime Engine.strictEngine calls := lifetime Engine.strictEngine calls
  obtain ⟨hanswers, hstates⟩ := hlifetime.lost rfl hsound rfl
  exact ⟨hsound, hanswers, congrArg (fun s => s.engine.ledger.filed) (hstates 2)⟩

end SharedEngine

end TernaryBelief
