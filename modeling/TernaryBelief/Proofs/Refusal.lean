import TernaryBelief.Proofs.Reports
import TernaryBelief.Proofs.Procedure
import TernaryBelief.SharedEngine.Run

/-!
# Refused requests

An integer code is refused exactly if it codes no truth value, and otherwise the confidence is
refused exactly if it lies outside the restriction; the refusal carries what was refused
(`Engine.ReadsCode`). A request that is refused leaves the state as it was, so a run comes to the
same without the requests that it refuses (`Machine.run_survivors`).
-/

namespace TernaryBelief

/-! ## Numbers that are no finite ones -/

section
open Float.Model

theorem float_le_iff {a b : Float} :
    a ≤ b ↔ UnpackedFloat.le a.toModel.unpack b.toModel.unpack = true := by
  show Float.le a b = true ↔ _
  rw [Float.le, decide_eq_true_eq]
  rfl

/-- No infinity lies between 0 and 1, and neither does what is no number. -/
theorem inUnit_of_not_finite {x : Float} (h : x.isFinite = false) : inUnit x = false := by
  have hzero : (0.0 : Float).toModel.unpack = .zero .positive := rfl
  obtain ⟨m, q, hm, hone⟩ : ∃ m q hm, (1.0 : Float).toModel.unpack = .finite .positive m q hm :=
    ⟨_, _, _, rfl⟩
  have hx : x.toModel.unpack.isFinite = false := h
  rw [inUnit, Bool.and_eq_false_iff, decide_eq_false_iff_not, decide_eq_false_iff_not,
    float_le_iff, float_le_iff, hzero, hone]
  -- the comparisons with the bounds compute, whatever the mantissa of one is
  cases hcases : x.toModel.unpack with
  | zero s =>
    rw [hcases] at hx
    exact absurd hx.symm Bool.false_ne_true
  | finite s m q hm =>
    rw [hcases] at hx
    exact absurd hx.symm Bool.false_ne_true
  | notANumber => exact .inl Bool.false_ne_true
  | infinity s =>
    cases s with
    | positive => exact .inr Bool.false_ne_true
    | negative => exact .inl Bool.false_ne_true

end

theorem inUnit_eq_true_iff {x : Float} : inUnit x = true ↔ (0.0 : Float) ≤ x ∧ x ≤ 1.0 := by
  rw [inUnit, Bool.and_eq_true, decide_eq_true_eq, decide_eq_true_eq]

/-! ## Runs without the refused requests -/

namespace Machine

variable {σ ω β : Type}

/-- A list of requests to a machine that answers each and may change its state, with the answers. -/
def run (step : σ → ω → β × σ) (s : σ) : List ω → List β × σ
  | [] => ([], s)
  | op :: ops =>
    let rest := run step (step s op).2 ops
    ((step s op).1 :: rest.1, rest.2)

/-- The requests of a run that are not refused. -/
def survivors (step : σ → ω → β × σ) (refusal : β → Bool) (s : σ) : List ω → List ω
  | [] => []
  | op :: ops =>
    let rest := survivors step refusal (step s op).2 ops
    if refusal (step s op).1 then rest else op :: rest

/-- **Without its refused requests, a run comes to the same**: the other answers are the same,
and so is the state at the end. -/
theorem run_survivors {step : σ → ω → β × σ} {refusal : β → Bool}
    (h : ∀ s op, refusal (step s op).1 = true → (step s op).2 = s) (s : σ) (ops : List ω) :
    run step s (survivors step refusal s ops) =
      ((run step s ops).1.filter fun a => !refusal a, (run step s ops).2) := by
  induction ops generalizing s with
  | nil => rfl
  | cons op ops ih =>
    by_cases hrefused : refusal (step s op).1 = true
    · -- the next request meets the state that this one met
      have hstate := h s op hrefused
      have hsurvivors : survivors step refusal s (op :: ops) = survivors step refusal s ops := by
        rw [survivors, if_pos hrefused, hstate]
      rw [hsurvivors, ih, run, hstate, List.filter_cons_of_neg (by simp [hrefused])]
    · have hsurvivors : survivors step refusal s (op :: ops) =
          op :: survivors step refusal (step s op).2 ops := if_neg hrefused
      rw [hsurvivors, run, ih, run, List.filter_cons_of_pos (by simpa using hrefused)]

end Machine

variable {α ρ : Type}

/-- The answer is a refusal. -/
def Answer.isRefused : Answer α → Bool
  | refused _ => true
  | _ => false

/-- The call failed. -/
def SharedAnswer.isFailed : SharedAnswer α ρ → Bool
  | failed _ => true
  | _ => false

/-- A refused request leaves the evaluator as it was. -/
theorem Evaluator.step_of_refused [Scalar α] (v : Evaluator α) (op : EvaluatorOp)
    (h : (v.step op).1.isRefused = true) : (v.step op).2 = v := by
  have hattempt (r : Except Rejection (Conclusion α × Evaluator α))
      (h : (Answer.ofAttempt v .concluded r).1.isRefused = true) :
      (Answer.ofAttempt v .concluded r).2 = v := by
    cases r with
    | ok r => cases h
    | error reason => rfl
  cases op with
  | contradicts x y => cases h
  | chain premises operations => exact hattempt _ h
  | tagged premises tags => exact hattempt _ h
  | codes codes tags => exact hattempt _ h

namespace Engine

variable [Scalar α]

theorem perform_of_refused (e : Engine α) (x : Effect) (h : (e.perform x).1.isRefused = true) :
    (e.perform x).2 = e := by
  cases x with
  | refusal reason => rfl
  | reasoning op => rw [perform, e.evaluator.step_of_refused op h]
  -- the other effects are answered, not refused
  | _ => cases h

/-- A refused request leaves the engine as it was: its beliefs and their index, its ledger with the
number of filings, and its evaluator. -/
theorem step_of_refused (e : Engine α) (op : Op) (h : (e.step op).1.isRefused = true) :
    (e.step op).2 = e := by
  rw [step_eq_perform] at h ⊢
  exact e.perform_of_refused _ h

/-- The requests of a run that are not refused. -/
def accepted (e : Engine α) (ops : List Op) : List Op :=
  Machine.survivors step Answer.isRefused e ops

theorem run_eq_machine (e : Engine α) (ops : List Op) : e.run ops = Machine.run step e ops := by
  induction ops generalizing e with
  | nil => rfl
  | cons op ops ih => simp only [run, Machine.run, ih]

end Engine

namespace SharedEngine

variable [Scalar α]

/-- The calls of a run that do not fail. -/
def succeeding (s : SharedEngine α) (ops : List (SharedOp α ρ)) : List (SharedOp α ρ) :=
  Machine.survivors step SharedAnswer.isFailed s ops

theorem run_eq_machine (s : SharedEngine α) (ops : List (SharedOp α ρ)) :
    s.run ops = Machine.run step s ops := by
  induction ops generalizing s with
  | nil => rfl
  | cons op ops ih => simp only [run, Machine.run, ih]

omit [Scalar α] in
theorem attempt_of_failed {τ : Type} {s : SharedEngine α} {accepted : τ → SharedAnswer α ρ}
    (haccepted : ∀ t, (accepted t).isFailed = false) {r : Except Failure (τ × SharedEngine α)}
    (h : (s.attempt accepted r).1.isFailed = true) : (s.attempt accepted r).2 = s := by
  cases r with
  | ok r =>
    rw [attempt, haccepted] at h
    cases h
  | error reason => rfl

/-- A call that fails leaves the shared engine as it was, whether its assertion is refused or the
engine is poisoned. -/
theorem step_of_failed (s : SharedEngine α) (op : SharedOp α ρ)
    (h : (s.step op).1.isFailed = true) : (s.step op).2 = s := by
  cases op with
  | _ => exact attempt_of_failed (fun _ => rfl) h

end SharedEngine

/-! ## What is refused -/

namespace Engine

variable {e : Engine α} {ids : IdSource} {name : String} {confidence : Float}

/-- An assertion is refused for its confidence alone. -/
theorem update_eq_error_iff {value : Trit} {reason : Rejection} :
    e.update ids name value confidence = .error reason ↔
      reason = .confidenceOutOfRange confidence ∧ e.config.strict = true ∧
        inUnit confidence = false := by
  rw [← Config.accept_eq_error_iff]
  unfold update
  cases e.config.accept confidence with
  | ok stored => simp [bind, Except.bind, pure, Except.pure]
  | error reason' => simp [bind, Except.bind]

theorem updateCode_of_read {code : Int} {value : Trit} (h : Trit.ofInt code = .ok value) :
    e.updateCode ids name code confidence = e.update ids name value confidence := by
  rw [updateCode, h]
  rfl

theorem updateCode_of_unread {code : Int} {reason : Rejection}
    (h : Trit.ofInt code = .error reason) :
    e.updateCode ids name code confidence = .error reason := by
  rw [updateCode, h]
  rfl

/-- An integer code is refused for what it is, or else for its confidence. -/
theorem updateCode_eq_error_iff {code : Int} {reason : Rejection} :
    e.updateCode ids name code confidence = .error reason ↔
      (reason = .notATrit code ∧ code ∉ [-1, 0, 1]) ∨
      (reason = .confidenceOutOfRange confidence ∧ code ∈ [-1, 0, 1] ∧ e.config.strict = true ∧
        inUnit confidence = false) := by
  cases hcode : Trit.ofInt code with
  | error unread =>
    obtain ⟨rfl, hnot⟩ := Trit.ofInt_eq_error_iff.mp hcode
    rw [updateCode_of_unread hcode, Except.error.injEq]
    simp only [hnot, not_false_eq_true, and_true, false_and, and_false, or_false]
    exact eq_comm
  | ok value =>
    -- the code is read, so only the confidence can still be refused
    have hmem : code ∈ [-1, 0, 1] := by
      by_contra hnot
      have herror := Trit.ofInt_eq_error_iff.mpr ⟨rfl, hnot⟩
      rw [hcode] at herror
      cases herror
    rw [updateCode_of_read hcode, update_eq_error_iff]
    simp only [hmem, not_true, and_false, false_or, true_and]

variable (e ids name confidence) in
/-- What comes of asserting an integer code: the code is read before the confidence is checked, each
refusal carries what it is about, and whatever is not refused is asserted. -/
structure ReadsCode (code : Int) : Prop where
  notATrit (n : Int) : e.updateCode ids name code confidence = .error (.notATrit n) ↔
    n = code ∧ code ∉ [-1, 0, 1]
  outOfRange (c : Float) :
    e.updateCode ids name code confidence = .error (.confidenceOutOfRange c) ↔
      c = confidence ∧ code ∈ [-1, 0, 1] ∧ e.config.strict = true ∧
        ¬((0.0 : Float) ≤ confidence ∧ confidence ≤ 1.0)
  /-- There is no other refusal. -/
  accepted : (∃ r, e.updateCode ids name code confidence = .ok r) ↔
    code ∈ [-1, 0, 1] ∧
      (e.config.strict = true → (0.0 : Float) ≤ confidence ∧ confidence ≤ 1.0)
  decoded (value : Trit) : code = value.toInt →
    e.updateCode ids name code confidence = e.update ids name value confidence

theorem readsCode (code : Int) : e.ReadsCode ids name confidence code := by
  have hunit : inUnit confidence = false ↔ ¬((0.0 : Float) ≤ confidence ∧ confidence ≤ 1.0) := by
    rw [← inUnit_eq_true_iff, Bool.not_eq_true]
  have herror (reason : Rejection) :
      e.updateCode ids name code confidence = .error reason ↔
        (reason = .notATrit code ∧ code ∉ [-1, 0, 1]) ∨
        (reason = .confidenceOutOfRange confidence ∧ code ∈ [-1, 0, 1] ∧ e.config.strict = true ∧
          ¬((0.0 : Float) ≤ confidence ∧ confidence ≤ 1.0)) := by
    rw [← hunit]
    exact updateCode_eq_error_iff
  constructor
  case notATrit => intro n; simp [herror]
  case outOfRange => intro c; simp [herror]
  case decoded =>
    -- the reader undoes the coding
    rintro value rfl
    exact updateCode_of_read (Trit.ofInt_toInt value)
  case accepted =>
    -- an answer is a count exactly if it is none of the refusals
    have hok : (∃ r, e.updateCode ids name code confidence = .ok r) ↔
        ∀ reason, e.updateCode ids name code confidence ≠ .error reason := by
      cases e.updateCode ids name code confidence <;> simp
    simp only [hok, ne_eq, herror]
    constructor
    · intro h
      have hmem : code ∈ [-1, 0, 1] := by
        by_contra hnot
        exact h _ (.inl ⟨rfl, hnot⟩)
      refine ⟨hmem, fun hstrict => ?_⟩
      by_contra hout
      exact h _ (.inr ⟨rfl, hmem, hstrict, hout⟩)
    · rintro ⟨hmem, hwithin⟩ reason (⟨-, hnot⟩ | ⟨-, -, hstrict, hout⟩)
      · exact hnot hmem
      · exact hout (hwithin hstrict)

variable (e ids name confidence) in
/-- **Refusals are exact and leave no trace.** Of the requests of a run and of the calls to a shared
engine, those that are refused or fail leave everything as it was, and the run comes to the same
without them. -/
theorem refused_exactly_without_trace [Scalar α] (s : SharedEngine α) :
    (∀ code, e.ReadsCode ids name confidence code) ∧
    (confidence.isFinite = false → ¬((0.0 : Float) ≤ confidence ∧ confidence ≤ 1.0)) ∧
    InPlace α ∧
    (∀ op, (e.step op).1.isRefused = true → (e.step op).2 = e) ∧
    (∀ op : SharedOp α ρ, (s.step op).1.isFailed = true → (s.step op).2 = s) ∧
    (∀ ops, e.run (e.accepted ops) =
      ((e.run ops).1.filter fun a => !a.isRefused, (e.run ops).2)) ∧
    ∀ ops : List (SharedOp α ρ), s.run (s.succeeding ops) =
      ((s.run ops).1.filter fun a => !a.isFailed, (s.run ops).2) := by
  refine ⟨readsCode, ?finite, inPlace, e.step_of_refused, s.step_of_failed, ?requests, ?calls⟩
  case finite =>
    intro hfinite
    rw [← inUnit_eq_true_iff, Bool.not_eq_true]
    exact inUnit_of_not_finite hfinite
  case requests =>
    intro ops
    rw [run_eq_machine, run_eq_machine]
    exact Machine.run_survivors step_of_refused e ops
  case calls =>
    intro ops
    rw [SharedEngine.run_eq_machine, SharedEngine.run_eq_machine]
    exact Machine.run_survivors SharedEngine.step_of_failed s ops

/-- An engine that restricts confidences. -/
def strictEngine : Engine Rat := { config := { strict := true } }

/-- Two names come to disagree, and an assertion with a pass is refused for its confidence. -/
def strictCalls : List (SharedOp Rat Unit) :=
  let ids : IdSource := Uuid.ofNat
  [.update ids "a" .yes 1.0, .update ids "b" .no (-0.0), .updateAndResolve ids "c" .yes 1.5,
    .resolve]

theorem refused_exactly_without_trace_strict :
    strictEngine.updateCode Uuid.ofNat "a" 7 (0.0 / 0.0) = .error (.notATrit 7) ∧
    strictEngine.updateCode Uuid.ofNat "a" 1 (0.0 / 0.0) =
      .error (.confidenceOutOfRange (0.0 / 0.0)) ∧
    (∃ r, strictEngine.updateCode Uuid.ofNat "a" 1 (-0.0) = .ok r) ∧
    (({ engine := strictEngine } : SharedEngine Rat).succeeding strictCalls).length = 3 ∧
    ({ engine := strictEngine } : SharedEngine Rat).run
        (({ engine := strictEngine } : SharedEngine Rat).succeeding strictCalls) =
      ((({ engine := strictEngine } : SharedEngine Rat).run strictCalls).1.filter fun a =>
          !a.isFailed,
        (({ engine := strictEngine } : SharedEngine Rat).run strictCalls).2) := by
  obtain ⟨hcode, hfinite, -, -, -, -, hcalls⟩ := refused_exactly_without_trace (ρ := Unit)
    strictEngine Uuid.ofNat "a" (0.0 / 0.0) { engine := strictEngine }
  obtain ⟨hcode', -⟩ := refused_exactly_without_trace (ρ := Unit)
    strictEngine Uuid.ofNat "a" (-0.0) { engine := strictEngine }
  refine ⟨?_, ?_, ?_, ?_, hcalls strictCalls⟩
  · exact ((hcode 7).notATrit 7).mpr ⟨rfl, by decide⟩
  · exact ((hcode 1).outOfRange _).mpr ⟨rfl, by decide, rfl, hfinite (by decide +kernel)⟩
  · exact (hcode' 1).accepted.mpr ⟨by decide, fun _ => by decide +kernel⟩
  · decide +kernel

end Engine

end TernaryBelief
