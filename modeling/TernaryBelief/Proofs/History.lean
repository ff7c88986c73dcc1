import Mathlib.Data.List.Forall2
import TernaryBelief.Engine.Run
import TernaryBelief.Proofs.Procedure

/-!
# The history of an evaluator

What a request leaves in the history is told by the request alone: a chain that has a premise, and
whose codes and tags can be read, leaves one step with everything that was given
(`EvaluatorOp.step?`). So the history of a run is a list of such steps, one for each call that
succeeded (`Evaluator.run_history`, `Evaluator.forall₂_successes`), and any evaluator that is given
the same premises and operations again comes to the same conclusions (`Evaluator.run_audit`).

## Main definitions

* `EvaluatorOp.given`, `EvaluatorOp.step?`: what a request gives, and what it leaves in the history;
* `Evaluator.successes`: the calls of a run that succeeded, with their conclusions;
* `Evaluator.Steps`: the calls as procedures on the evaluator in place;
* `Evaluator.Audit`: the history as a log that can be replayed.
-/

namespace TernaryBelief

variable {α : Type}

/-! ## Steps of the history -/

/-- What the call that is kept in this step was answered. -/
def Step.conclusion (s : Step α) : Conclusion α := ⟨s.result, s.uncertainty⟩

/-- The call that is kept in this step, as a request. -/
def Step.request (s : Step α) : EvaluatorOp := .chain s.premises s.operations

/-- The conclusion that an answer gives. -/
def Answer.conclusion? : Answer α → Option (Conclusion α)
  | concluded c => some c
  | _ => none

namespace EvaluatorOp

/-- The premises and the operations that a request gives, if its codes and tags can be read. -/
def given : EvaluatorOp → Option (List Trit × List Connective)
  | .chain premises operations => some (premises, operations)
  | .tagged premises tags => (tags.mapM Connective.ofTag).toOption.map (premises, ·)
  | .codes numbers tags =>
    (numbers.mapM Trit.ofInt).toOption.bind fun premises =>
      (tags.mapM Connective.ofTag).toOption.map (premises, ·)
  | .contradicts _ _ => none

/-- The request shows two certain values of which one denies what the other affirms. -/
def isOpposition : EvaluatorOp → Bool
  | .contradicts .yes .no => true
  | .contradicts .no .yes => true
  | _ => false

variable [Scalar α]

/-- The step that a call with these premises and operations leaves, if there is a premise. -/
def stepOf : List Trit × List Connective → Option (Step α)
  | ([], _) => none
  | (first :: rest, operations) =>
    let c := Chain.conclude first (operations.zip rest)
    some ⟨first :: rest, operations, c.result, c.uncertainty⟩

/-- The step that a request leaves in the history. -/
def step? (op : EvaluatorOp) : Option (Step α) := op.given.bind stepOf

end EvaluatorOp

open EvaluatorOp (stepOf)
open Procedure (look)

/-- The step was left by a call: its conclusion is that of its premises and operations. -/
structure Step.Sound [Scalar α] (s : Step α) : Prop where
  nonempty : s.premises ≠ []
  run : Chain.run s.premises s.operations = .ok s.conclusion

variable [Scalar α]

/-- A step keeps the complete premises and operations that were given. -/
theorem EvaluatorOp.given_of_step? {op : EvaluatorOp} {s : Step α} (h : op.step? = some s) :
    op.given = some (s.premises, s.operations) ∧ s.Sound := by
  obtain ⟨⟨premises, operations⟩, hgiven, hstep⟩ := Option.bind_eq_some_iff.mp h
  cases premises with
  | nil => cases hstep
  | cons first rest =>
    cases hstep
    exact ⟨hgiven, List.cons_ne_nil _ _, rfl⟩

/-- A step that was left by a call has a first premise, and its conclusion is
that of the chain from there. -/
theorem Step.Sound.exists_conclude {s : Step α} (h : s.Sound) : ∃ first rest,
    s.premises = first :: rest ∧ Chain.conclude first (s.operations.zip rest) = s.conclusion := by
  obtain ⟨first, rest, hpremises⟩ := List.exists_cons_of_ne_nil h.nonempty
  have hrun := h.run
  rw [hpremises] at hrun
  exact ⟨first, rest, hpremises, Except.ok.inj hrun⟩

theorem EvaluatorOp.step?_request {s : Step α} (h : s.Sound) : s.request.step? = some s := by
  obtain ⟨premises, operations, result, uncertainty⟩ := s
  cases premises with
  | nil => exact absurd rfl h.nonempty
  | cons first rest =>
    have hconclude : Chain.conclude first (operations.zip rest) = ⟨result, uncertainty⟩ :=
      Except.ok.inj h.run
    show some _ = _
    rw [hconclude]

namespace Evaluator

/-! ## One request -/

/-- Everything that a request does to an evaluator. -/
structure Answers (v : Evaluator α) (op : EvaluatorOp) (r : Answer α × Evaluator α) : Prop where
  conclusion : r.1.conclusion? = op.step?.map Step.conclusion
  history : r.2.history = v.history ++ op.step?.toList
  contradictions : r.2.contradictions = v.contradictions + if op.isOpposition then 1 else 0

/-- Whatever the form of the call, it comes to the same as the chain that it gives. -/
theorem answers_of_given (v : Evaluator α) {op : EvaluatorOp}
    {premises : List Trit} {operations : List Connective}
    (hgiven : op.given = some (premises, operations))
    (hop : op.isOpposition = false) :
    Answers v op (Answer.ofAttempt v .concluded (v.runChain premises operations)) := by
  have hstep : op.step? = stepOf (α := α) (premises, operations) := by
    rw [EvaluatorOp.step?, hgiven]
    rfl
  cases premises with
  | nil =>
    exact ⟨by rw [hstep]; rfl, by rw [hstep]; exact (List.append_nil _).symm, by rw [hop]; rfl⟩
  | cons first rest => exact ⟨by rw [hstep]; rfl, by rw [hstep]; rfl, by rw [hop]; rfl⟩

/-- A call whose codes or tags cannot be read leaves nothing. -/
theorem answers_refused (v : Evaluator α) {op : EvaluatorOp} (hgiven : op.given = none)
    (hop : op.isOpposition = false) (reason : Rejection) : Answers v op (.refused reason, v) := by
  have hstep : op.step? = (none : Option (Step α)) := by
    rw [EvaluatorOp.step?, hgiven]
    rfl
  exact ⟨by rw [hstep]; rfl, by rw [hstep]; exact (List.append_nil _).symm, by rw [hop]; rfl⟩

theorem answers_step (v : Evaluator α) (op : EvaluatorOp) : Answers v op (v.step op) := by
  -- codes are read before tags, and tags before the premises are looked at
  cases op with
  | chain premises operations => exact answers_of_given v rfl rfl
  | tagged premises tags =>
    simp only [step, runTagged]
    cases htags : tags.mapM Connective.ofTag with
    | error reason =>
      exact answers_refused v (by rw [EvaluatorOp.given, htags]; rfl) rfl reason
    | ok operations => exact answers_of_given v (by rw [EvaluatorOp.given, htags]; rfl) rfl
  | codes numbers tags =>
    simp only [step, runCodes, runTagged]
    cases hnumbers : numbers.mapM Trit.ofInt with
    | error reason =>
      exact answers_refused v (by rw [EvaluatorOp.given, hnumbers]; rfl) rfl reason
    | ok premises =>
      cases htags : tags.mapM Connective.ofTag with
      | error reason =>
        exact answers_refused v (by rw [EvaluatorOp.given, hnumbers, htags]; rfl) rfl reason
      | ok operations =>
        exact answers_of_given v (by rw [EvaluatorOp.given, hnumbers, htags]; rfl) rfl
  | contradicts a b =>
    have hnone : EvaluatorOp.step? (.contradicts a b) = (none : Option (Step α)) := rfl
    have hopposed : (EvaluatorOp.contradicts a b).isOpposition = a.opposes b := by
      cases a <;> cases b <;> rfl
    simp only [step, contradicts]
    refine ⟨rfl, ?_, ?_⟩
    · rw [hnone, Option.toList_none, List.append_nil]
      split <;> rfl
    · rw [hopposed]
      split <;> rfl

/-! ## Runs -/

theorem run_append (v : Evaluator α) (xs ys : List EvaluatorOp) :
    v.run (xs ++ ys) = ((v.run xs).1 ++ ((v.run xs).2.run ys).1, ((v.run xs).2.run ys).2) := by
  induction xs generalizing v with
  | nil => rfl
  | cons op xs ih =>
    simp only [List.cons_append, run, ih]

/-- Every request adds its step at the end. -/
theorem run_history (v : Evaluator α) (ops : List EvaluatorOp) :
    (v.run ops).2.history = v.history ++ ops.filterMap EvaluatorOp.step? := by
  induction ops generalizing v with
  | nil => exact (List.append_nil _).symm
  | cons op ops ih =>
    rw [run, ih, (v.answers_step op).history, List.append_assoc]
    cases h : op.step? (α := α) with
    | none => rw [List.filterMap_cons_none h, Option.toList_none, List.nil_append]
    | some s => rw [List.filterMap_cons_some h, Option.toList_some, List.singleton_append]

theorem run_contradictions (v : Evaluator α) (ops : List EvaluatorOp) :
    (v.run ops).2.contradictions = v.contradictions + ops.countP EvaluatorOp.isOpposition := by
  induction ops generalizing v with
  | nil => rfl
  | cons op ops ih =>
    rw [run, ih, (v.answers_step op).contradictions, List.countP_cons, Nat.add_assoc,
      Nat.add_comm (ops.countP _)]

/-- The calls of a run that succeeded, each with its conclusion. -/
def successes (v : Evaluator α) (ops : List EvaluatorOp) : List (EvaluatorOp × Conclusion α) :=
  (ops.zip (v.run ops).1).filterMap fun x => x.2.conclusion?.map (x.1, ·)

/-- The step keeps what this call was given and what it was answered. -/
structure Keeps (x : EvaluatorOp × Conclusion α) (s : Step α) : Prop where
  given : x.1.given = some (s.premises, s.operations)
  conclusion : x.2 = s.conclusion

/-- Whatever the evaluator, a call succeeds if it leaves a step, and then it
is answered by its conclusion. -/
theorem successes_eq (v : Evaluator α) (ops : List EvaluatorOp) :
    v.successes ops =
      ops.filterMap fun op => op.step?.map fun s => (op, s.conclusion) := by
  induction ops generalizing v with
  | nil => rfl
  | cons op ops ih =>
    have hanswer := (v.answers_step op).conclusion
    cases h : op.step? (α := α) with
    | none =>
      have hsuccesses : v.successes (op :: ops) = (v.step op).2.successes ops :=
        List.filterMap_cons_none (by rw [hanswer, h]; rfl)
      rw [hsuccesses, ih, List.filterMap_cons_none (by rw [h]; rfl)]
    | some s =>
      have hsuccesses : v.successes (op :: ops) =
          (op, s.conclusion) :: (v.step op).2.successes ops :=
        List.filterMap_cons_some (by rw [hanswer, h]; rfl)
      rw [hsuccesses, ih, List.filterMap_cons_some (by rw [h]; rfl)]

/-- The steps of a run are those of its successful calls, one for each, in their order. -/
theorem forall₂_successes (v : Evaluator α) (ops : List EvaluatorOp) :
    List.Forall₂ Keeps (v.successes ops) (ops.filterMap EvaluatorOp.step?) := by
  rw [successes_eq]
  induction ops with
  | nil => exact .nil
  | cons op ops ih =>
    cases h : op.step? (α := α) with
    | none =>
      rw [List.filterMap_cons_none (by rw [h]; rfl), List.filterMap_cons_none h]
      exact ih
    | some s =>
      rw [List.filterMap_cons_some (by rw [h]; rfl), List.filterMap_cons_some h]
      exact .cons ⟨(EvaluatorOp.given_of_step? h).1, rfl⟩ ih

/-- The steps of a run are sound if those that it starts with are. -/
theorem sound_run {v : Evaluator α} (hv : ∀ s ∈ v.history, s.Sound) (ops : List EvaluatorOp) :
    ∀ s ∈ (v.run ops).2.history, s.Sound := by
  intro s hs
  rw [run_history, List.mem_append] at hs
  rcases hs with hs | hs
  · exact hv s hs
  · obtain ⟨op, -, hop⟩ := List.mem_filterMap.mp hs
    exact (EvaluatorOp.given_of_step? hop).2

theorem sound_run_new (ops : List EvaluatorOp) :
    ∀ s ∈ (({} : Evaluator α).run ops).2.history, s.Sound :=
  sound_run (fun _ hs => absurd hs List.not_mem_nil) ops

/-! ## Replays -/

/-- The calls that are kept in a history, as requests. -/
def requests (v : Evaluator α) : List EvaluatorOp := v.history.map Step.request

theorem filterMap_step?_requests {steps : List (Step α)} (h : ∀ s ∈ steps, s.Sound) :
    (steps.map Step.request).filterMap EvaluatorOp.step? = steps := by
  rw [List.filterMap_map]
  exact (List.filterMap_congr fun s hs => EvaluatorOp.step?_request (h s hs)).trans
    List.filterMap_some

/-- The calls that are kept in a history are made again, and leave it again. -/
theorem run_requests {v : Evaluator α} (h : ∀ s ∈ v.history, s.Sound) :
    (({} : Evaluator α).run v.requests).2 = { v with contradictions := 0 } := by
  have hhistory : (({} : Evaluator α).run v.requests).2.history = v.history := by
    rw [run_history, requests, filterMap_step?_requests h]
    exact List.nil_append _
  have hcount : (({} : Evaluator α).run v.requests).2.contradictions = 0 := by
    rw [run_contradictions, List.countP_eq_zero.mpr]
    intro op hop
    obtain ⟨s, -, rfl⟩ := List.mem_map.mp hop
    exact Bool.false_ne_true
  -- the two fields are all there is to an evaluator
  generalize (({} : Evaluator α).run v.requests).2 = w at hhistory hcount
  cases w
  simp only at hhistory hcount
  rw [hhistory, hcount]

/-! ## Calls in place -/

namespace Steps

/-- Runs a chain: the first premise is taken, and only when the conclusion is there it is kept. -/
def runChain (premises : List Trit) (operations : List Connective) :
    Procedure (Evaluator α) Rejection (Conclusion α) := do
  let c ← look fun _ => Chain.run premises operations
  modify fun v =>
    { v with history := v.history ++ [⟨premises, operations, c.result, c.uncertainty⟩] }
  return c

/-- Reads all tags, then runs the chain. -/
def runTagged (premises : List Trit) (tags : List String) :
    Procedure (Evaluator α) Rejection (Conclusion α) := do
  let operations ← look fun _ => tags.mapM Connective.ofTag
  runChain premises operations

/-- Reads all codes, then all tags, then runs the chain. -/
def runCodes (codes : List Int) (tags : List String) :
    Procedure (Evaluator α) Rejection (Conclusion α) := do
  let premises ← look fun _ => codes.mapM Trit.ofInt
  runTagged premises tags

/-- Compares two values, and counts if they are certain and opposed. -/
def contradicts (a b : Trit) : Procedure (Evaluator α) Rejection Bool := do
  if a.opposes b then
    modify fun v => { v with contradictions := v.contradictions + 1 }
  return a.opposes b

theorem runChain_implements (premises : List Trit) (operations : List Connective) :
    (runChain premises operations).Implements fun v : Evaluator α =>
      v.runChain premises operations :=
  Procedure.Implements.look_bind (fun _ => Chain.run premises operations) fun _ _ => rfl

theorem runTagged_implements (premises : List Trit) (tags : List String) :
    (runTagged premises tags).Implements fun v : Evaluator α => v.runTagged premises tags :=
  Procedure.Implements.look_bind (fun _ => tags.mapM Connective.ofTag)
    (runChain_implements premises)

theorem runCodes_implements (codes : List Int) (tags : List String) :
    (runCodes codes tags).Implements fun v : Evaluator α => v.runCodes codes tags :=
  Procedure.Implements.look_bind (fun _ => codes.mapM Trit.ofInt) fun premises =>
    runTagged_implements premises tags

omit [Scalar α] in
theorem contradicts_implements (a b : Trit) :
    (contradicts a b).Implements fun v : Evaluator α => .ok (v.contradicts a b) := by
  intro v
  simp only [contradicts, Evaluator.contradicts]
  cases a.opposes b <;> rfl

end Steps

/-- The calls, gone through in place, come to what the evaluator says of them, and
leave it as it was if they fail. -/
structure KeepsPlace (α : Type) [Scalar α] : Prop where
  chain (premises : List Trit) (operations : List Connective) :
    (Steps.runChain premises operations).Implements fun v : Evaluator α =>
      v.runChain premises operations
  tagged (premises : List Trit) (tags : List String) :
    (Steps.runTagged premises tags).Implements fun v : Evaluator α => v.runTagged premises tags
  codes (codes : List Int) (tags : List String) :
    (Steps.runCodes codes tags).Implements fun v : Evaluator α => v.runCodes codes tags
  contradicts (a b : Trit) :
    (Steps.contradicts a b).Implements fun v : Evaluator α => .ok (v.contradicts a b)

/-! ## The audit -/

/-- The evaluator that these requests have left a new one in keeps a log
of them that can be replayed. -/
structure Audit (ops : List EvaluatorOp) (v : Evaluator α) : Prop where
  /-- There is one step for each call that succeeded, in their order, with all that was given. -/
  entries : List.Forall₂ Keeps (({} : Evaluator α).successes ops) v.history
  /-- Whatever is requested next, the history grows at its end. -/
  grows (later : List EvaluatorOp) : v.history <+: (v.run later).2.history
  nonempty : ∀ s ∈ v.history, s.premises ≠ []
  /-- Any evaluator comes to the conclusion of a step again, and keeps the same step. -/
  recomputes : ∀ s ∈ v.history, ∀ w : Evaluator α,
    w.runChain s.premises s.operations =
      .ok (⟨s.result, s.uncertainty⟩, { w with history := w.history ++ [s] })
  /-- A new evaluator that is given all steps again comes to the same history. -/
  replays : (({} : Evaluator α).run v.requests).2.history = v.history
  phi : (({} : Evaluator α).run v.requests).2.phi = v.phi
  contradictions : v.contradictions = ops.countP EvaluatorOp.isOpposition
  /-- A call that fails leaves the evaluator as it was, also if it is gone through step by step. -/
  inPlace : KeepsPlace α

theorem runChain_of_sound {s : Step α} (hs : s.Sound) (w : Evaluator α) :
    w.runChain s.premises s.operations =
      .ok (⟨s.result, s.uncertainty⟩, { w with history := w.history ++ [s] }) := by
  rw [runChain, hs.run]
  rfl

/-- **The history is a log that can be replayed.** -/
theorem run_audit (ops : List EvaluatorOp) : Audit ops (({} : Evaluator α).run ops).2 where
  entries := by
    rw [run_history]
    exact forall₂_successes {} ops
  grows later := by
    rw [run_history _ later]
    exact List.prefix_append _ _
  nonempty s hs := (sound_run_new ops s hs).nonempty
  recomputes s hs w := runChain_of_sound (sound_run_new ops s hs) w
  replays := by rw [run_requests (sound_run_new ops)]
  phi := by
    rw [run_requests (sound_run_new ops)]
    rfl
  contradictions := by
    rw [run_contradictions]
    exact Nat.zero_add _
  inPlace :=
    ⟨Steps.runChain_implements, Steps.runTagged_implements, Steps.runCodes_implements,
      Steps.contradicts_implements⟩

/-- A refused call, a call with more operations than premises and an opposition, in a row. -/
example : (({} : Evaluator Rat).run
    [.chain [] [.and], .tagged [.unknown] ["or", "nor"], .codes [1, 0] ["and", "not", "implies"],
      .contradicts .yes .no]).2 =
    ⟨[⟨[.yes, .unknown], [.and, .not, .implies], .unknown, 1⟩], 1⟩ := by decide +kernel

end Evaluator

end TernaryBelief
