import TernaryBelief.Proofs.MachineCounts
import TernaryBelief.Proofs.Procedure
import TernaryBelief.Proofs.Reports

/-!
# Network and evaluator do not meet

The requests of a run concern the network or the evaluator, in any order and whether they are
refused or not. The run comes to what the requests of either kind come to by themselves
(`Engine.run_eq_withEvaluator`), and so do its answers. The one place where the two could meet is
the report of a pass, which compares the evaluator's mean uncertainty before the pass with that
after it. A pass leaves the evaluator alone, so the report says how much a number differs from
itself.

## Main definitions

* `Op.concernsNetwork`, `Op.evaluator?`: the two kinds of requests;
* `Engine.answersFor`: the answers to the requests of one kind;
* `Engine.Separate`: what a run owes to the requests of either kind.
-/

namespace TernaryBelief

variable {α : Type}

/-! ## Requests of either kind -/

namespace Op

def concernsNetwork : Op → Bool
  | network _ => true
  | evaluator _ => false

def evaluator? : Op → Option EvaluatorOp
  | network _ => none
  | evaluator op => some op

/-- The requests that concern the network, as a run of their own. -/
def networkRequests (ops : List Op) : List Op := ops.filter concernsNetwork

/-- The requests that concern the evaluator, as a run of an evaluator. -/
def evaluatorRequests (ops : List Op) : List EvaluatorOp := ops.filterMap evaluator?

end Op

open Op (concernsNetwork networkRequests evaluatorRequests)

/-- The same answer, except that a report has the given number for the change over its pass. -/
def Answer.setDelta (delta : α) : Answer α → Answer α
  | report r => report { r with delta := delta }
  | a => a

@[simp] theorem Answer.setDelta_setDelta (x y : α) (a : Answer α) :
    (a.setDelta x).setDelta y = a.setDelta y := by
  cases a <;> rfl

namespace Engine

/-- The engine with another evaluator. -/
def withEvaluator (e : Engine α) (v : Evaluator α) : Engine α := { e with evaluator := v }

/-- What asserts, files, passes or is refused does not reason. -/
theorem effect_network_ne_reasoning (e : Engine α) (op : NetworkOp) (r : EvaluatorOp) :
    e.effect (.network op) ≠ .reasoning r := by
  have hupdate (ids : IdSource) (name : String) (value : Trit) (confidence : Float) :
      e.effectOfUpdate ids name value confidence ≠ .reasoning r := by
    unfold effectOfUpdate
    cases e.config.accept confidence <;> simp
  cases op with
  | update ids name value confidence => exact hupdate ids name value confidence
  | updateCode ids name code confidence =>
    simp only [effect]
    cases Trit.ofInt code with
    | ok value => exact hupdate ids name value confidence
    | error reason => simp
  | assert ids name value => exact hupdate ids name value _
  | record c => simp [effect]
  | resolve => simp [effect]

variable [Scalar α]

/-! ## One request -/

/-- A request that concerns the network does not see which evaluator the engine has, but for the two
looks at it in a pass. -/
theorem step_withEvaluator (e : Engine α) (v : Evaluator α) (op : NetworkOp) :
    (e.withEvaluator v).step (.network op) =
      ((e.step (.network op)).1.setDelta (v.phi - v.phi),
        (e.step (.network op)).2.withEvaluator v) := by
  have heffect : (e.withEvaluator v).effect (.network op) = e.effect (.network op) := rfl
  have hnot := e.effect_network_ne_reasoning op
  rw [step_eq_perform, step_eq_perform, heffect]
  cases h : e.effect (.network op) with
  | reasoning r => exact absurd h (hnot r)
  | _ => rfl

theorem step_network_evaluator (e : Engine α) (op : NetworkOp) :
    (e.step (.network op)).2.evaluator = e.evaluator :=
  -- with its own evaluator for another, the engine is the same
  congrArg (fun r => r.2.evaluator) (e.step_withEvaluator e.evaluator op)

theorem step_evaluator (e : Engine α) (op : EvaluatorOp) :
    e.step (.evaluator op) =
      ((e.evaluator.step op).1, e.withEvaluator (e.evaluator.step op).2) := rfl

/-! ## Runs -/

theorem run_withEvaluator (e : Engine α) (v : Evaluator α) (ops : List Op) :
    (e.withEvaluator v).run (networkRequests ops) =
      ((e.run (networkRequests ops)).1.map (Answer.setDelta (v.phi - v.phi)),
        (e.run (networkRequests ops)).2.withEvaluator v) := by
  induction ops generalizing e with
  | nil => rfl
  | cons op ops ih =>
    cases op with
    | evaluator op => exact ih e
    | network op =>
      have hcons : networkRequests (.network op :: ops) = .network op :: networkRequests ops := rfl
      rw [hcons, run, run, step_withEvaluator, ih, List.map_cons]

/-- **A run comes to what the requests of either kind come to by themselves.** -/
theorem run_eq_withEvaluator (e : Engine α) (ops : List Op) :
    (e.run ops).2 = (e.run (networkRequests ops)).2.withEvaluator
      (e.evaluator.run (evaluatorRequests ops)).2 := by
  induction ops generalizing e with
  | nil => rfl
  | cons op ops ih =>
    rw [run, ih]
    cases op with
    | network op => rw [step_network_evaluator]; rfl
    | evaluator op =>
      -- the network of the rest starts from an engine that differs in its evaluator alone
      rw [step_evaluator, run_withEvaluator]
      rfl

theorem run_evaluator (e : Engine α) (ops : List Op) :
    (e.run ops).2.evaluator = (e.evaluator.run (evaluatorRequests ops)).2 := by
  rw [run_eq_withEvaluator]
  rfl

/-- The answers of a run to the requests of one kind. -/
def answersFor (kind : Op → Bool) (e : Engine α) (ops : List Op) : List (Answer α) :=
  ((ops.zip (e.run ops).1).filter fun x => kind x.1).map Prod.snd

theorem answersFor_cons (kind : Op → Bool) (e : Engine α) (op : Op) (ops : List Op) :
    e.answersFor kind (op :: ops) =
      (if kind op then [(e.step op).1] else []) ++ (e.step op).2.answersFor kind ops := by
  simp only [answersFor, run, List.zip_cons_cons, List.filter_cons]
  cases kind op <;> rfl

theorem answersFor_evaluator (e : Engine α) (ops : List Op) :
    e.answersFor (fun op => !op.concernsNetwork) ops =
      (e.evaluator.run (evaluatorRequests ops)).1 := by
  induction ops generalizing e with
  | nil => rfl
  | cons op ops ih =>
    rw [answersFor_cons, ih]
    cases op with
    | network op => rw [step_network_evaluator]; rfl
    | evaluator op => rfl

/-- Whatever number is written over the changes that the reports give, the answers of the network
are those that it gives by itself. -/
theorem map_setDelta_answersFor (e : Engine α) (ops : List Op) (delta : α) :
    (e.answersFor concernsNetwork ops).map (Answer.setDelta delta) =
      (e.run (networkRequests ops)).1.map (Answer.setDelta delta) := by
  induction ops generalizing e with
  | nil => rfl
  | cons op ops ih =>
    rw [answersFor_cons, List.map_append, ih]
    cases op with
    | network op => rfl
    | evaluator op =>
      rw [step_evaluator, run_withEvaluator, List.map_map]
      simp only [Function.comp_def, Answer.setDelta_setDelta]
      rfl

theorem length_run (e : Engine α) (ops : List Op) : (e.run ops).1.length = ops.length := by
  induction ops generalizing e with
  | nil => rfl
  | cons op ops ih => exact congrArg Nat.succ (ih (e.step op).2)

/-- A pass finds the same mean uncertainty after it as before it: that of the chains that
came before, run by themselves. -/
theorem getElem?_run_resolve (e : Engine α) (before after : List Op) :
    ∃ r : Report α, (e.run (before ++ .network .resolve :: after)).1[before.length]? =
        some (.report r) ∧
      r.delta = (e.evaluator.run (evaluatorRequests before)).2.phi -
        (e.evaluator.run (evaluatorRequests before)).2.phi := by
  refine ⟨(e.run before).2.resolve.1, ?_, ?_⟩
  · rw [run_append, List.getElem?_append_right (Nat.le_of_eq (length_run e before)), length_run,
      Nat.sub_self]
    rfl
  · rw [← run_evaluator]
    rfl

/-! ## Changes over a pass -/

theorem setDelta_evaluator_step (v : Evaluator α) (op : EvaluatorOp) (delta : α) :
    (v.step op).1.setDelta delta = (v.step op).1 := by
  have hattempt (r : Except Rejection (Conclusion α × Evaluator α)) :
      (Answer.ofAttempt v .concluded r).1.setDelta delta = (Answer.ofAttempt v .concluded r).1 := by
    cases r <;> rfl
  cases op with
  | chain premises operations => exact hattempt _
  | tagged premises tags => exact hattempt _
  | codes codes tags => exact hattempt _
  | contradicts a b => rfl

/-- Where the mean uncertainty less itself is zero in every evaluator that is reached, every
report says that nothing has changed. -/
theorem setDelta_zero {P : Evaluator α → Prop} (hstep : ∀ v op, P v → P (v.step op).2)
    (hzero : ∀ v, P v → v.phi - v.phi = (0.0 : α)) {e : Engine α} (he : P e.evaluator)
    (ops : List Op) : ∀ a ∈ (e.run ops).1, a.setDelta 0.0 = a := by
  induction ops generalizing e with
  | nil => exact fun a ha => absurd ha List.not_mem_nil
  | cons op ops ih =>
    intro a ha
    cases op with
    | network op =>
      rcases List.mem_cons.mp ha with rfl | ha
      · -- with its own evaluator for another, the engine gives its own answer, the change at zero
        have hown := congrArg Prod.fst (e.step_withEvaluator e.evaluator op)
        rw [hzero _ he] at hown
        show ((e.withEvaluator e.evaluator).step (.network op)).1.setDelta 0.0 = _
        rw [hown, Answer.setDelta_setDelta]
        exact hown.symm
      · exact ih (by rw [step_network_evaluator]; exact he) a ha
    | evaluator op =>
      rcases List.mem_cons.mp ha with rfl | ha
      · exact setDelta_evaluator_step e.evaluator op 0.0
      · exact ih (e := (e.step (.evaluator op)).2) (hstep e.evaluator op he) a ha

theorem mem_run_of_mem_answersFor {kind : Op → Bool} {e : Engine α} {ops : List Op} {a : Answer α}
    (h : a ∈ e.answersFor kind ops) : a ∈ (e.run ops).1 := by
  obtain ⟨x, hx, rfl⟩ := List.mem_map.mp h
  exact (List.of_mem_zip (List.mem_filter.mp hx).1).2

/-! ## Separation -/

/-- What a run owes to the requests of either kind. -/
structure Separate (e : Engine α) (ops : List Op) : Prop where
  /-- Beliefs, records and numbering are those of the requests that concern the network; history and
  count of oppositions are those of the other requests, run on the evaluator alone. -/
  state : (e.run ops).2 = (e.run (networkRequests ops)).2.withEvaluator
    (e.evaluator.run (evaluatorRequests ops)).2
  evaluator : e.answersFor (fun op => !op.concernsNetwork) ops =
    (e.evaluator.run (evaluatorRequests ops)).1
  /-- The same holds of the answers of the network, whatever numbers
  the reports give for the change. -/
  network (delta : α) : (e.answersFor concernsNetwork ops).map (Answer.setDelta delta) =
    (e.run (networkRequests ops)).1.map (Answer.setDelta delta)
  /-- The report of a pass gives for the change how much the mean uncertainty of the chains
  before it differs from itself. -/
  passes (before after : List Op) : ops = before ++ .network .resolve :: after →
    ∃ r : Report α, (e.run ops).1[before.length]? = some (.report r) ∧
      ∃ p : α, p = (e.evaluator.run (evaluatorRequests before)).2.phi ∧ r.delta = p - p
  /-- That is so although a pass looks at the evaluator twice, before
  the records are moved and after. -/
  inPlace : (Steps.resolve (α := α)).Implements fun e => .ok e.resolve

/-- Moreover the change is zero, so that the answers of the network are the same in full. -/
structure Unmoved (e : Engine α) (ops : List Op) : Prop extends Separate e ops where
  full : e.answersFor concernsNetwork ops = (e.run (networkRequests ops)).1
  zero : ∀ r : Report α, .report r ∈ (e.run ops).1 → r.delta = 0.0

theorem separate (e : Engine α) (ops : List Op) : Separate e ops where
  state := e.run_eq_withEvaluator ops
  evaluator := e.answersFor_evaluator ops
  network := e.map_setDelta_answersFor ops
  passes := by
    rintro before after rfl
    obtain ⟨r, hr, hdelta⟩ := e.getElem?_run_resolve before after
    exact ⟨r, hr, _, rfl, hdelta⟩
  inPlace := Steps.resolve_implements

theorem unmoved {P : Evaluator α → Prop} (hstep : ∀ v op, P v → P (v.step op).2)
    (hzero : ∀ v, P v → v.phi - v.phi = (0.0 : α)) {e : Engine α} (he : P e.evaluator)
    (ops : List Op) : Unmoved e ops where
  toSeparate := e.separate ops
  full := by
    have hmap {answers : List (Answer α)} (h : ∀ a ∈ answers, a.setDelta 0.0 = a) :
        answers.map (Answer.setDelta 0.0) = answers :=
      (List.map_congr_left h).trans (List.map_id answers)
    calc
      e.answersFor concernsNetwork ops
          = (e.answersFor concernsNetwork ops).map (Answer.setDelta 0.0) :=
        (hmap fun a ha =>
          setDelta_zero hstep hzero he ops a (mem_run_of_mem_answersFor ha)).symm
      _ = (e.run (networkRequests ops)).1.map (Answer.setDelta 0.0) :=
        e.map_setDelta_answersFor ops 0.0
      _ = (e.run (networkRequests ops)).1 :=
        hmap (setDelta_zero hstep hzero he (networkRequests ops))
  zero r hr := (Answer.report.inj (setDelta_zero hstep hzero he ops _ hr)) ▸ rfl

/-- **Network and evaluator do not interfere.** In exact arithmetic the change over a pass is
zero; with machine numbers it is too, as the mean uncertainty of chains that were run is a finite
number. -/
theorem run_separate :
    (∀ (α : Type) [Scalar α] (e : Engine α) (ops : List Op), Separate e ops) ∧
    (∀ (e : Engine Rat) (ops : List Op), Unmoved e ops) ∧
    (∀ e : Engine Float, (∀ s ∈ e.evaluator.history, s.Sound) → ∀ ops : List Op, Unmoved e ops) :=
  ⟨fun _ _ e ops => e.separate ops,
    fun _ ops => unmoved (P := fun _ => True) (fun _ _ _ => trivial)
      (fun v _ => (sub_self v.phi).trans (by decide +kernel)) trivial ops,
    fun _ he ops => unmoved (P := fun v => ∀ s ∈ v.history, s.Sound)
      (fun _ op hv => Evaluator.sound_run hv [op]) (fun _ hv => Evaluator.phi_sub_phi hv) he ops⟩

/-- An engine around an evaluator that has run a chain before. -/
def experienced : Engine Float :=
  .ofEvaluator (({} : Evaluator Float).run [.chain [.yes, .unknown] [.and]]).2

/-- Two names come to disagree; before the first pass and after it, chains are run and refused. -/
def requestsOfBothKinds : List Op :=
  [.evaluator (.codes [0, 1, 5] []), .network (.update Uuid.ofNat "a" .yes 1.0),
    .evaluator (.chain [.unknown, .no] [.or]), .network (.updateCode Uuid.ofNat "b" 9 1.0),
    .network (.update Uuid.ofNat "b" .no 0.5), .evaluator (.contradicts .yes .no),
    .network .resolve, .evaluator (.tagged [.unknown, .yes] ["and", "not"]), .network .resolve]

theorem run_separate_requestsOfBothKinds :
    experienced.evaluator.history.length = 1 ∧ Unmoved experienced requestsOfBothKinds ∧
      ∃ r : Report Float,
        (experienced.run requestsOfBothKinds).1[6]? = some (.report r) ∧ r.delta = 0.0 := by
  have hunmoved : Unmoved experienced requestsOfBothKinds :=
    run_separate.2.2 experienced (Evaluator.sound_run_new _) requestsOfBothKinds
  obtain ⟨r, hr, -⟩ := hunmoved.passes (requestsOfBothKinds.take 6) (requestsOfBothKinds.drop 7) rfl
  exact ⟨by decide +kernel, hunmoved, r, hr, hunmoved.zero r (List.mem_of_getElem? hr)⟩

end Engine

end TernaryBelief
