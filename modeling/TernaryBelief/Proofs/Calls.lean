import TernaryBelief.Proofs.Reports
import TernaryBelief.SharedEngine.Run

/-!
# Calls come to requests

A client of a shared engine asserts, makes passes, looks, and hands records in. As long as no client
dies, each of its calls comes to a few requests to the engine, made one right after the other
(`ClientCall.requests`). So calls that take turns, in whatever order, make a run of the engine
(`SharedEngine.comes`), and what holds of all runs holds of them.

## Main definitions

* `ClientCall`, with `ClientCall.op`: the calls that leave the engine sound;
* `ClientCall.requests`, `ClientCall.files`: what a call comes to, and
  the records that it brings in;
* `SharedEngine.runCalls`, `requests`, `handed`, `files`: the same for calls in turn.
-/

namespace TernaryBelief

variable {α ρ : Type}

/-! ## Calls -/

/-- A call of a client. Its visits hand records to the engine, chosen by what
they find there, and do not die. -/
inductive ClientCall (α ρ : Type) where
  | update (ids : IdSource) (name : String) (value : Trit) (confidence : Float)
  | updateAndResolve (ids : IdSource) (name : String) (value : Trit) (confidence : Float)
  | resolve
  | snapshot
  | coherence
  | record (choose : Engine α → List Contradiction) (reply : Engine α → ρ)

namespace Engine

/-- Files records from elsewhere, one after the other. -/
def recordAll (e : Engine α) (cs : List Contradiction) : Engine α :=
  cs.foldl (fun e c => (e.record c).2) e

end Engine

namespace ClientCall

/-- The call as the shared engine knows it. -/
def op : ClientCall α ρ → SharedOp α ρ
  | update ids name value confidence => .update ids name value confidence
  | updateAndResolve ids name value confidence => .updateAndResolve ids name value confidence
  | resolve => .resolve
  | snapshot => .snapshot
  | coherence => .coherence
  | record choose reply => .visit fun e =>
      let e' := e.recordAll (choose e)
      (some (reply e'), e')

/-- The records that a visit hands to the engine. -/
def handed (e : Engine α) : ClientCall α ρ → List Contradiction
  | record choose _ => choose e
  | _ => []

/-- The records that a call brings in. -/
def files (e : Engine α) : ClientCall α ρ → List Contradiction
  | update ids name value confidence | updateAndResolve ids name value confidence =>
    match e.config.accept confidence with
    | .ok _ => e.findings ids ⟨name, value⟩
    | .error _ => []
  | record choose _ => choose e
  | _ => []

/-- The requests that a call comes to. If the assertion is refused, no pass is made. -/
def requests (e : Engine α) : ClientCall α ρ → List Op
  | update ids name value confidence => [.network (.update ids name value confidence)]
  | updateAndResolve ids name value confidence =>
    .network (.update ids name value confidence) ::
      match e.config.accept confidence with
      | .ok _ => [.network .resolve]
      | .error _ => []
  | resolve => [.network .resolve]
  | snapshot => []
  | coherence => []
  | record choose _ => (choose e).map fun c => .network (.record c)

end ClientCall

namespace SharedAnswer

/-- The report that an answer brings. -/
def report? : SharedAnswer α ρ → Option (Report α)
  | report r => some r
  | foundAndReport _ r => some r
  | _ => none

/-- How many contradictions an assertion caused. -/
def counted : SharedAnswer α ρ → Nat
  | found count => count
  | foundAndReport count _ => count
  | _ => 0

/-- How many contradictions a pass settled. -/
def settled (a : SharedAnswer α ρ) : Nat := (a.report?.map Report.resolved).getD 0

end SharedAnswer

/-! ## One call -/

variable [Scalar α]

namespace Engine

theorem run_records (e : Engine α) (cs : List Contradiction) :
    e.run (cs.map fun c => .network (.record c)) =
      (cs.map fun c => .filed c.id, e.recordAll cs) := by
  induction cs generalizing e with
  | nil => rfl
  | cons c cs ih =>
    rw [List.map_cons, run, ih]
    rfl

theorem records_journal_records (e : Engine α) (cs : List Contradiction) :
    (e.journal (cs.map fun c => .network (.record c))).flatMap Entry.records = cs := by
  induction cs generalizing e with
  | nil => rfl
  | cons c cs ih =>
    rw [List.map_cons, journal_cons, List.flatMap_cons, ih]
    rfl

/-- What an assertion comes to, with the engine after it. -/
theorem update_eq (e : Engine α) (ids : IdSource) (name : String) (value : Trit)
    (confidence : Float) :
    e.update ids name value confidence =
      match e.config.accept confidence with
      | .ok stored => .ok ((e.findings ids ⟨name, value⟩).length,
          (e.perform (.assertion ids ⟨name, value, stored⟩)).2)
      | .error reason => .error reason := by
  unfold update
  cases e.config.accept confidence with
  | ok stored => rfl
  | error reason => rfl

theorem step_update (e : Engine α) (ids : IdSource) (name : String) (value : Trit)
    (confidence : Float) :
    e.step (.network (.update ids name value confidence)) =
      match e.config.accept confidence with
      | .ok stored => e.perform (.assertion ids ⟨name, value, stored⟩)
      | .error reason => (.refused reason, e) := by
  rw [step_eq_perform, effect, effectOfUpdate]
  cases e.config.accept confidence with
  | ok stored => rfl
  | error reason => rfl

omit [Scalar α] in
theorem records_entry_update (e : Engine α) (ids : IdSource) (name : String) (value : Trit)
    (confidence : Float) :
    (e.entry (.network (.update ids name value confidence))).records =
      match e.config.accept confidence with
      | .ok _ => e.findings ids ⟨name, value⟩
      | .error _ => [] := by
  rw [entry, effect, effectOfUpdate]
  cases e.config.accept confidence with
  | ok stored => rfl
  | error reason => rfl

end Engine

namespace SharedEngine

variable (e : Engine α) (ids : IdSource) (name : String) (value : Trit) (confidence : Float)

theorem step_update :
    ({ engine := e } : SharedEngine α).step (.update ids name value confidence : SharedOp α ρ) =
      match e.config.accept confidence with
      | .ok stored =>
        (.found (e.findings ids ⟨name, value⟩).length,
          { engine := (e.perform (.assertion ids ⟨name, value, stored⟩)).2 })
      | .error reason => (.failed (.rejected reason), { engine := e }) := by
  show attempt _ _ ((e.update ids name value confidence).mapError Failure.rejected >>= _) = _
  rw [e.update_eq]
  cases e.config.accept confidence with
  | ok stored => rfl
  | error reason => rfl

theorem step_updateAndResolve :
    ({ engine := e } : SharedEngine α).step
        (.updateAndResolve ids name value confidence : SharedOp α ρ) =
      match e.config.accept confidence with
      | .ok stored =>
        let after := (e.perform (.assertion ids ⟨name, value, stored⟩)).2
        (.foundAndReport (e.findings ids ⟨name, value⟩).length after.resolve.1,
          { engine := after.resolve.2 })
      | .error reason => (.failed (.rejected reason), { engine := e }) := by
  show attempt _ _ ((e.update ids name value confidence).mapError Failure.rejected >>= _) = _
  rw [e.update_eq]
  cases e.config.accept confidence with
  | ok stored => rfl
  | error reason => rfl

end SharedEngine

/-- A call and the requests that it comes to agree on the engine, on the answers, and on the records
that come in. -/
structure ClientCall.Comes (e : Engine α) (c : ClientCall α ρ) : Prop where
  engine : (({ engine := e } : SharedEngine α).step c.op).2 =
    { engine := (e.run (c.requests e)).2 }
  reports : (({ engine := e } : SharedEngine α).step c.op).1.report?.toList =
    Answer.reports (e.run (c.requests e)).1
  counted : (({ engine := e } : SharedEngine α).step c.op).1.counted + (c.handed e).length =
    ((e.run (c.requests e)).1.map Answer.filings).sum
  files : (e.journal (c.requests e)).flatMap Entry.records = c.files e

namespace ClientCall

theorem Comes.of_run {e e' : Engine α} {c : ClientCall α ρ} {a : SharedAnswer α ρ}
    {answers : List (Answer α)}
    (hstep : ({ engine := e } : SharedEngine α).step c.op = (a, { engine := e' }))
    (hrun : e.run (c.requests e) = (answers, e'))
    (hreports : a.report?.toList = Answer.reports answers)
    (hcounted : a.counted + (c.handed e).length = (answers.map Answer.filings).sum)
    (hfiles : (e.journal (c.requests e)).flatMap Entry.records = c.files e) : c.Comes e where
  engine := by rw [hstep, hrun]
  reports := by rw [hstep, hrun, hreports]
  counted := by rw [hstep, hrun, hcounted]
  files := hfiles

variable {e : Engine α} {c : ClientCall α ρ} {ids : IdSource} {name : String} {value : Trit}
  {confidence stored : Float} {reason : Rejection}

/-- A call whose assertion is refused comes to that refusal alone. -/
theorem comes_of_refused (hc : e.config.accept confidence = .error reason)
    (hshared : ({ engine := e } : SharedEngine α).step c.op =
      (.failed (.rejected reason), { engine := e }))
    (hrequests : c.requests e = [.network (.update ids name value confidence)])
    (hhanded : c.handed e = []) (hfiles : c.files e = []) : c.Comes e := by
  have hstep := e.step_update ids name value confidence
  have hrecords := e.records_entry_update ids name value confidence
  rw [hc] at hstep hrecords
  have hrun : e.run (c.requests e) = ([.refused reason], e) := by
    rw [hrequests]
    show ([_], _) = _
    rw [hstep]
    rfl
  refine .of_run hshared hrun rfl ?_ ?_
  · rw [hhanded]
    rfl
  · rw [hrequests, hfiles]
    exact (List.append_nil _).trans hrecords

theorem comes_update (hc : e.config.accept confidence = .ok stored) :
    (update ids name value confidence : ClientCall α ρ).Comes e := by
  have hshared := SharedEngine.step_update (ρ := ρ) e ids name value confidence
  have hstep := e.step_update ids name value confidence
  have hrecords := e.records_entry_update ids name value confidence
  rw [hc] at hshared hstep
  have hrun : e.run [.network (.update ids name value confidence)] =
      ([.found (e.findings ids ⟨name, value⟩).length],
        (e.perform (.assertion ids ⟨name, value, stored⟩)).2) := by
    show ([_], _) = _
    rw [hstep]
    rfl
  exact .of_run hshared hrun rfl rfl ((List.append_nil _).trans hrecords)

theorem comes_updateAndResolve (hc : e.config.accept confidence = .ok stored) :
    (updateAndResolve ids name value confidence : ClientCall α ρ).Comes e := by
  have hshared := SharedEngine.step_updateAndResolve (ρ := ρ) e ids name value confidence
  have hstep := e.step_update ids name value confidence
  have hrecords := e.records_entry_update ids name value confidence
  rw [hc] at hshared hstep hrecords
  have hrequests : (updateAndResolve ids name value confidence : ClientCall α ρ).requests e =
      [.network (.update ids name value confidence), .network .resolve] := by
    rw [requests, hc]
  have hfiles : (updateAndResolve ids name value confidence : ClientCall α ρ).files e =
      e.findings ids ⟨name, value⟩ := by
    rw [files, hc]
  have hrun : e.run [.network (.update ids name value confidence), .network .resolve] =
      let after := (e.perform (.assertion ids ⟨name, value, stored⟩)).2
      ([.found (e.findings ids ⟨name, value⟩).length, .report after.resolve.1],
        after.resolve.2) := by
    show ([_, _], _) = _
    rw [hstep]
    rfl
  refine .of_run hshared (hrequests ▸ hrun) rfl rfl ?_
  -- the pass brings nothing in
  rw [hrequests, hfiles]
  show _ ++ [] = _
  rw [List.append_nil]
  exact hrecords

theorem comes_record (choose : Engine α → List Contradiction) (reply : Engine α → ρ) :
    (record choose reply).Comes e := by
  refine .of_run (a := .visited _) rfl (e.run_records (choose e)) ?_ ?_
    (e.records_journal_records (choose e))
  · -- no identifier is a report
    show [] = _
    simp [Answer.reports, Answer.report?]
  · -- each record counts for one
    show 0 + (choose e).length = _
    rw [List.map_map]
    show _ = ((choose e).map fun _ => 1).sum
    rw [List.map_const', List.sum_replicate_nat, Nat.mul_one, Nat.zero_add]

/-- **Every call comes to its requests.** -/
theorem comes (e : Engine α) (c : ClientCall α ρ) : c.Comes e := by
  cases c with
  | resolve => exact ⟨rfl, rfl, rfl, rfl⟩
  | snapshot => exact ⟨rfl, rfl, rfl, rfl⟩
  | coherence => exact ⟨rfl, rfl, rfl, rfl⟩
  | record choose reply => exact comes_record choose reply
  | update ids name value confidence =>
    cases hc : e.config.accept confidence with
    | ok stored => exact comes_update hc
    | error reason =>
      have hshared := SharedEngine.step_update (ρ := ρ) e ids name value confidence
      rw [hc] at hshared
      exact comes_of_refused hc hshared rfl rfl (by rw [files, hc])
  | updateAndResolve ids name value confidence =>
    cases hc : e.config.accept confidence with
    | ok stored => exact comes_updateAndResolve hc
    | error reason =>
      have hshared := SharedEngine.step_updateAndResolve (ρ := ρ) e ids name value confidence
      have hrequests : (updateAndResolve ids name value confidence : ClientCall α ρ).requests e =
          [.network (.update ids name value confidence)] := by
        rw [requests, hc]
      rw [hc] at hshared
      exact comes_of_refused hc hshared hrequests rfl (by rw [files, hc])

end ClientCall

/-! ## Calls in turn -/

namespace SharedEngine

/-- Calls in the order in which they take turns, with the answers. -/
def runCalls (s : SharedEngine α) (calls : List (ClientCall α ρ)) :
    List (SharedAnswer α ρ) × SharedEngine α :=
  s.run (calls.map ClientCall.op)

/-- The calls, each with the engine that it meets. -/
def met (s : SharedEngine α) : List (ClientCall α ρ) → List (Engine α × ClientCall α ρ)
  | [] => []
  | c :: calls => (s.engine, c) :: (s.step c.op).2.met calls

/-- All requests that the calls come to, one after the other. -/
def requests (s : SharedEngine α) (calls : List (ClientCall α ρ)) : List Op :=
  (s.met calls).flatMap fun x => x.2.requests x.1

/-- All records that visits hand to the engine. -/
def handed (s : SharedEngine α) (calls : List (ClientCall α ρ)) : List Contradiction :=
  (s.met calls).flatMap fun x => x.2.handed x.1

/-- All records that come in. -/
def files (s : SharedEngine α) (calls : List (ClientCall α ρ)) : List Contradiction :=
  (s.met calls).flatMap fun x => x.2.files x.1

/-- The reports among the answers. -/
def reports (answers : List (SharedAnswer α ρ)) : List (Report α) :=
  answers.filterMap SharedAnswer.report?

/-- Calls and the requests that they come to agree on the engine, on the answers, and on the records
that come in. -/
structure Comes (e : Engine α) (calls : List (ClientCall α ρ)) (ops : List Op) : Prop where
  engine : (({ engine := e } : SharedEngine α).runCalls calls).2 = { engine := (e.run ops).2 }
  reports : reports (({ engine := e } : SharedEngine α).runCalls calls).1 =
    Answer.reports (e.run ops).1
  counted : ((({ engine := e } : SharedEngine α).runCalls calls).1.map SharedAnswer.counted).sum +
      (({ engine := e } : SharedEngine α).handed calls).length =
    ((e.run ops).1.map Answer.filings).sum
  files : (e.journal ops).flatMap Entry.records = ({ engine := e } : SharedEngine α).files calls

theorem runCalls_cons (e : Engine α) (c : ClientCall α ρ) (calls : List (ClientCall α ρ)) :
    ({ engine := e } : SharedEngine α).runCalls (c :: calls) =
      let rest := ({ engine := (e.run (c.requests e)).2 } : SharedEngine α).runCalls calls
      ((({ engine := e } : SharedEngine α).step c.op).1 :: rest.1, rest.2) := by
  rw [← (c.comes e).engine]
  rfl

theorem met_cons (e : Engine α) (c : ClientCall α ρ) (calls : List (ClientCall α ρ)) :
    ({ engine := e } : SharedEngine α).met (c :: calls) =
      (e, c) :: ({ engine := (e.run (c.requests e)).2 } : SharedEngine α).met calls := by
  rw [← (c.comes e).engine]
  rfl

/-- **Calls that take turns come to requests**, whatever the calls and the order. -/
theorem comes (e : Engine α) (calls : List (ClientCall α ρ)) :
    Comes e calls (({ engine := e } : SharedEngine α).requests calls) := by
  induction calls generalizing e with
  | nil => exact ⟨rfl, rfl, rfl, rfl⟩
  | cons c calls ih =>
    -- the other calls meet the engine that the requests of the first one lead to
    have hc := c.comes e
    obtain ⟨hengine, hreports, hcounted, hfiles⟩ := ih (e.run (c.requests e)).2
    rw [requests] at hengine hreports hcounted hfiles
    rw [requests, met_cons, List.flatMap_cons]
    constructor
    case engine => rw [runCalls_cons, hengine, Engine.run_append]
    case reports =>
      rw [runCalls_cons, Engine.run_append, Answer.reports, List.filterMap_append]
      show _ = Answer.reports _ ++ Answer.reports _
      rw [← hc.reports, ← hreports]
      -- one call brings one report or none
      cases h : (({ engine := e } : SharedEngine α).step c.op).1.report? <;> simp [reports, h]
    case counted =>
      have hhanded : ({ engine := e } : SharedEngine α).handed (c :: calls) =
          c.handed e ++ ({ engine := (e.run (c.requests e)).2 } : SharedEngine α).handed calls := by
        rw [handed, met_cons]
        rfl
      rw [runCalls_cons, Engine.run_append, List.map_append, List.sum_append, ← hc.counted,
        ← hcounted, hhanded, List.length_append, List.map_cons, List.sum_cons]
      omega
    case files =>
      rw [Engine.journal_append, List.flatMap_append, hc.files, hfiles, files, files, met_cons,
        List.flatMap_cons]

end SharedEngine

end TernaryBelief
