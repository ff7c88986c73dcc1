import Mathlib.Algebra.BigOperators.Group.List.Basic
import Mathlib.Algebra.Order.Ring.Rat
import Mathlib.Data.List.Forall2
import TernaryBelief.Proofs.Journal

/-!
# It does not matter when passes are made

Two runs make the same requests, in the same order, but passes at different moments. In between,
what is active in one run may be resolved in the other, and the resolved lists come out in different
orders. What the runs share all the time is said by `Engine.Alike`: configuration, evaluator,
network and number of filings, and the account of the ledger up to its order. A pass on either side
keeps this, and so does any other request made on both (`Engine.Alike.run`). After a last pass in
each run nothing is active, so that the accounts are what has been resolved
(`Engine.Reachable.run_rescheduled`).

Fresh identifiers may differ between the runs. A relation `R` says which identifiers may stand for
which.
-/

namespace TernaryBelief

variable {α : Type} {R : Uuid → Uuid → Prop}

theorem map_eq_of_forall₂ {β γ δ : Type} {P : β → γ → Prop} {f : β → δ} {g : γ → δ}
    (hfg : ∀ x y, P x y → f x = g y) {xs : List β} {ys : List γ} (h : List.Forall₂ P xs ys) :
    xs.map f = ys.map g := by
  rw [← List.forall₂_eq_eq_eq, List.forall₂_map_left_iff, List.forall₂_map_right_iff]
  exact h.imp hfg

/-- Lists that correspond place by place still do so if each member is changed by its place. -/
theorem forall₂_mapIdx {β β' γ γ' : Type} {P : β → β' → Prop} {Q : γ → γ' → Prop}
    {f : Nat → β → γ} {g : Nat → β' → γ'} (hfg : ∀ i x y, P x y → Q (f i x) (g i y)) {xs : List β}
    {ys : List β'} (h : List.Forall₂ P xs ys) : List.Forall₂ Q (xs.mapIdx f) (ys.mapIdx g) := by
  -- on the lists, for all maps: those for the tail start one place further on
  induction h generalizing f g with
  | nil => exact .nil
  | cons hxy _ ih =>
    rw [List.mapIdx_cons, List.mapIdx_cons]
    exact .cons (hfg 0 _ _ hxy) (ih fun i => hfg (i + 1))

/-! ## Records up to identifiers -/

/-- The records differ in their identifiers at most, and then by identifiers that are related. -/
def Contradiction.SameBut (R : Uuid → Uuid → Prop) (c d : Contradiction) : Prop :=
  { c with id := d.id } = d ∧ (c.id = d.id ∨ R c.id d.id)

namespace Contradiction

theorem SameBut.refl (c : Contradiction) : c.SameBut R c := ⟨rfl, .inl rfl⟩

theorem SameBut.sequence_eq {c d : Contradiction} (h : c.SameBut R d) :
    c.sequence = d.sequence := by
  rw [← h.1]

theorem SameBut.severity_eq {c d : Contradiction} (h : c.SameBut R d) :
    c.severity = d.severity := by
  rw [← h.1]

theorem SameBut.attempted {c d : Contradiction} (h : c.SameBut R d) :
    c.attempted.SameBut R d.attempted :=
  ⟨congrArg Contradiction.attempted h.1, h.2⟩

theorem SameBut.renumber {c d : Contradiction} (h : c.SameBut R d) (n : Nat) :
    SameBut R { c with sequence := n } { d with sequence := n } :=
  ⟨congrArg (fun c : Contradiction => { c with sequence := n }) h.1, h.2⟩

/-- The lists hold the same records up to identifiers, and up to order. -/
def Rearranged (R : Uuid → Uuid → Prop) (cs ds : List Contradiction) : Prop :=
  ∃ cs' ds', cs.Perm cs' ∧ List.Forall₂ (SameBut R) cs' ds' ∧ ds'.Perm ds

variable {cs ds : List Contradiction}

theorem Rearranged.refl (cs : List Contradiction) : Rearranged R cs cs :=
  ⟨cs, cs, .refl cs, List.forall₂_same.mpr fun c _ => .refl c, .refl cs⟩

theorem Rearranged.permLeft (h : Rearranged R cs ds) {cs₁ : List Contradiction}
    (hp : cs₁.Perm cs) : Rearranged R cs₁ ds := by
  obtain ⟨cs', ds', hcs, hsame, hds⟩ := h
  exact ⟨cs', ds', hp.trans hcs, hsame, hds⟩

theorem Rearranged.permRight (h : Rearranged R cs ds) {ds₁ : List Contradiction}
    (hp : ds₁.Perm ds) : Rearranged R cs ds₁ := by
  obtain ⟨cs', ds', hcs, hsame, hds⟩ := h
  exact ⟨cs', ds', hcs, hsame, hds.trans hp.symm⟩

theorem Rearranged.append (h : Rearranged R cs ds) {cs₁ ds₁ : List Contradiction}
    (h₁ : List.Forall₂ (SameBut R) cs₁ ds₁) : Rearranged R (cs ++ cs₁) (ds ++ ds₁) := by
  obtain ⟨cs', ds', hcs, hsame, hds⟩ := h
  refine ⟨cs' ++ cs₁, ds' ++ ds₁, hcs.append_right cs₁, ?_, hds.append_right ds₁⟩
  exact List.rel_append hsame h₁

theorem Rearranged.length_eq (h : Rearranged R cs ds) : cs.length = ds.length := by
  obtain ⟨cs', ds', hcs, hsame, hds⟩ := h
  rw [hcs.length_eq, hsame.length_eq, hds.length_eq]

/-- What the identifier has no part in comes out the same, up to order. -/
theorem Rearranged.map_perm {β : Type} (h : Rearranged R cs ds) {f : Contradiction → β}
    (hf : ∀ c d, c.SameBut R d → f c = f d) : (cs.map f).Perm (ds.map f) := by
  obtain ⟨cs', ds', hcs, hsame, hds⟩ := h
  have heq : cs'.map f = ds'.map f := map_eq_of_forall₂ hf hsame
  exact (hcs.map f).trans (heq ▸ hds.map f)

/-- If sequence numbers are not repeated, the records that correspond are those with one number. -/
theorem Rearranged.sameBut (h : Rearranged R cs ds) (hds : (ds.map fun d => d.sequence).Nodup)
    {c d : Contradiction} (hc : c ∈ cs) (hd : d ∈ ds) (hcd : c.sequence = d.sequence) :
    c.SameBut R d := by
  obtain ⟨cs', ds', hpcs, hsame, hpds⟩ := h
  -- `c` stands at some place of `cs'`, and what stands at that place of `ds'` can only be `d`
  obtain ⟨i, hi, rfl⟩ := List.mem_iff_getElem.mp (hpcs.mem_iff.mp hc)
  have hi' : i < ds'.length := hsame.length_eq ▸ hi
  have hpair : cs'[i].SameBut R ds'[i] := hsame.get hi hi'
  have hmem : ds'[i] ∈ ds := hpds.mem_iff.mp (List.getElem_mem hi')
  have heq : ds'[i] = d :=
    List.inj_on_of_nodup_map hds hmem hd (hpair.sequence_eq.symm.trans hcd)
  exact heq ▸ hpair

end Contradiction

namespace Ledger

open Contradiction (SameBut Rearranged)

/-- Records that come in on both sides are filed alike. -/
theorem forall₂_numbered {P : Contradiction → Contradiction → Prop}
    (hP : ∀ c d n, P c d → P { c with sequence := n } { d with sequence := n })
    {cs ds : List Contradiction} (h : List.Forall₂ P cs ds) (last : Nat) :
    List.Forall₂ P (numbered last cs) (numbered last ds) :=
  forall₂_mapIdx (fun i c d => hP c d (last + 1 + i)) h

theorem rearranged_fileAll {l l' : Ledger} (h : Rearranged R l.account l'.account)
    (hfiled : l.filed = l'.filed) {cs ds : List Contradiction}
    (hcs : List.Forall₂ (SameBut R) cs ds) :
    Rearranged R (l.fileAll cs).account (l'.fileAll ds).account := by
  rw [account_fileAll, account_fileAll, ← hfiled]
  apply h.append
  rw [List.forall₂_map_left_iff, List.forall₂_map_right_iff]
  exact (forall₂_numbered (fun _ _ n h => h.renumber n) hcs l.filed).imp fun _ _ h => h.attempted

end Ledger

/-! ## Requests up to identifiers -/

/-- The sources supply the same identifiers, or related ones. -/
def IdSource.Related (R : Uuid → Uuid → Prop) (ids ids' : IdSource) : Prop :=
  ∀ i, ids i = ids' i ∨ R (ids i) (ids' i)

/-- It is one request, but for the identifiers that are to be given to
new records. It is not a pass. -/
inductive Op.SameBut (R : Uuid → Uuid → Prop) : Op → Op → Prop where
  | update {ids ids' : IdSource} (h : ids.Related R ids') (name : String) (value : Trit)
      (confidence : Float) :
      SameBut R (.network (.update ids name value confidence))
        (.network (.update ids' name value confidence))
  | updateCode {ids ids' : IdSource} (h : ids.Related R ids') (name : String) (code : Int)
      (confidence : Float) :
      SameBut R (.network (.updateCode ids name code confidence))
        (.network (.updateCode ids' name code confidence))
  | assert {ids ids' : IdSource} (h : ids.Related R ids') (name : String) (value : Trit) :
      SameBut R (.network (.assert ids name value)) (.network (.assert ids' name value))
  | record (c : Contradiction) : SameBut R (.network (.record c)) (.network (.record c))
  | evaluator (op : EvaluatorOp) : SameBut R (.evaluator op) (.evaluator op)

/-- The effects are the same, but for the identifiers that are to be given to new records. -/
inductive Effect.SameBut (R : Uuid → Uuid → Prop) : Effect → Effect → Prop where
  | assertion {ids ids' : IdSource} (h : ids.Related R ids') (a : Assertion) :
      SameBut R (.assertion ids a) (.assertion ids' a)
  | filing (c : Contradiction) : SameBut R (.filing c) (.filing c)
  | refusal (reason : Rejection) : SameBut R (.refusal reason) (.refusal reason)
  | reasoning (op : EvaluatorOp) : SameBut R (.reasoning op) (.reasoning op)

/-- The lists make the same requests in the same order, but for passes and identifiers. -/
inductive Rescheduled (R : Uuid → Uuid → Prop) : List Op → List Op → Prop where
  | nil : Rescheduled R [] []
  | both {op op' : Op} (h : op.SameBut R op') {s t : List Op} (rest : Rescheduled R s t) :
      Rescheduled R (op :: s) (op' :: t)
  | passLeft {s t : List Op} (rest : Rescheduled R s t) :
      Rescheduled R (.network .resolve :: s) t
  | passRight {s t : List Op} (rest : Rescheduled R s t) :
      Rescheduled R s (.network .resolve :: t)

namespace Op

theorem pass_or (op : Op) : op = .network .resolve ∨ op.isPass = false := by
  match op with
  | .network .resolve => exact .inl rfl
  | .network (.update ..) => exact .inr rfl
  | .network (.updateCode ..) => exact .inr rfl
  | .network (.assert ..) => exact .inr rfl
  | .network (.record _) => exact .inr rfl
  | .evaluator _ => exact .inr rfl

theorem SameBut.isPass_eq {op op' : Op} (h : op.SameBut R op') :
    op.isPass = false ∧ op'.isPass = false := by
  cases h <;> exact ⟨rfl, rfl⟩

/-- The requests of a list that are not passes. -/
def others (ops : List Op) : List Op := ops.filter fun op => !op.isPass

theorem others_cons {op : Op} (h : op.isPass = false) (ops : List Op) :
    others (op :: ops) = op :: others ops :=
  List.filter_cons_of_pos (by simp [h])

end Op

open Op (others others_cons)

theorem Rescheduled.of_others {s t : List Op}
    (h : List.Forall₂ (Op.SameBut R) (others s) (others t)) : Rescheduled R s t := by
  induction s generalizing t with
  | nil =>
    -- only passes are left on the right
    induction t with
    | nil => exact .nil
    | cons op t ih =>
      rcases op.pass_or with rfl | hop
      · exact .passRight (ih h)
      · rw [others_cons hop] at h
        cases h
  | cons op s ih =>
    rcases op.pass_or with rfl | hop
    · exact .passLeft (ih h)
    · rw [others_cons hop] at h
      -- passes on the right come before the request that corresponds to `op`
      induction t with
      | nil => cases h
      | cons op' t iht =>
        rcases op'.pass_or with rfl | hop'
        · exact .passRight (iht h)
        · rw [others_cons hop'] at h
          cases h with
          | cons hsame hrest => exact .both hsame (ih hrest)

/-- Lists are rescheduled if and only if they make the same requests when passes are left out. -/
theorem rescheduled_iff {s t : List Op} :
    Rescheduled R s t ↔ List.Forall₂ (Op.SameBut R) (others s) (others t) := by
  refine ⟨fun h => ?_, .of_others⟩
  induction h with
  | nil => exact .nil
  | both hop _ ih =>
    rw [others_cons hop.isPass_eq.1, others_cons hop.isPass_eq.2]
    exact .cons hop ih
  | passLeft _ ih => exact ih
  | passRight _ ih => exact ih

/-! ## Engines that passes alone tell apart -/

/-- The report that an answer gives, if it gives one. -/
def Answer.report? : Answer α → Option (Report α)
  | .report r => some r
  | _ => none

theorem Answer.report?_ofAttempt {σ τ : Type} (state : σ) {accepted : τ → Answer α}
    (h : ∀ t, (accepted t).report? = none) (attempt : Except Rejection (τ × σ)) :
    (Answer.ofAttempt state accepted attempt).1.report? = none := by
  cases attempt with
  | ok r => exact h r.1
  | error reason => rfl

theorem Evaluator.report?_step [Scalar α] (v : Evaluator α) (op : EvaluatorOp) :
    (v.step op).1.report? = none := by
  cases op with
  | contradicts a b => rfl
  | _ => exact Answer.report?_ofAttempt v (fun _ => rfl) _

/-- What two engines have in common if the same is asked of them, but for passes and identifiers. -/
structure Engine.Alike (R : Uuid → Uuid → Prop) (e e' : Engine α) : Prop where
  config : e.config = e'.config
  evaluator : e.evaluator = e'.evaluator
  network : e.network = e'.network
  filed : e.ledger.filed = e'.ledger.filed
  /-- A pass now would leave the same records resolved on both sides. -/
  account : Contradiction.Rearranged R e.ledger.account e'.ledger.account

namespace Engine

variable {e e' : Engine α}

theorem Alike.refl (R : Uuid → Uuid → Prop) (e : Engine α) : e.Alike R e :=
  ⟨rfl, rfl, rfl, rfl, .refl _⟩

theorem Alike.findings (h : e.Alike R e') {ids ids' : IdSource} (hids : ids.Related R ids')
    (incoming : Observation) :
    List.Forall₂ (Contradiction.SameBut R) (e.findings ids incoming)
      (e'.findings ids' incoming) := by
  unfold Engine.findings
  rw [← h.network, ← h.config]
  refine forall₂_mapIdx ?_ (List.forall₂_same.mpr fun k _ => Eq.refl k)
  rintro i k - rfl
  exact ⟨rfl, hids i⟩

theorem Alike.effectOfUpdate (h : e.Alike R e') {ids ids' : IdSource} (hids : ids.Related R ids')
    (name : String) (value : Trit) (confidence : Float) :
    (e.effectOfUpdate ids name value confidence).SameBut R
      (e'.effectOfUpdate ids' name value confidence) := by
  unfold Engine.effectOfUpdate
  rw [← h.config]
  cases e.config.accept confidence with
  | ok stored => exact .assertion hids _
  | error reason => exact .refusal reason

theorem Alike.effect (h : e.Alike R e') {op op' : Op} (hop : op.SameBut R op') :
    (e.effect op).SameBut R (e'.effect op') := by
  cases hop with
  | update hids name value confidence => exact h.effectOfUpdate hids name value confidence
  | updateCode hids name code confidence =>
    simp only [Engine.effect]
    cases Trit.ofInt code with
    | ok value => exact h.effectOfUpdate hids name value confidence
    | error reason => exact .refusal reason
  | assert hids name value =>
    simp only [Engine.effect, ← h.config]
    exact h.effectOfUpdate hids name value _
  | record c => exact .filing c
  | evaluator op => exact .reasoning op

variable [Scalar α]

/-- Engines that are alike answer a request alike, if it is not a pass, and stay alike. -/
theorem Alike.step (h : e.Alike R e') {op op' : Op} (hop : op.SameBut R op') :
    (e.step op).1 = (e'.step op').1 ∧ (e.step op).2.Alike R (e'.step op').2 := by
  rw [step_eq_perform, step_eq_perform]
  have heffect := h.effect hop
  generalize e.effect op = f at heffect ⊢
  generalize e'.effect op' = f' at heffect ⊢
  cases heffect with
  | assertion hids a =>
    -- detection reads the network and the policy, and passes touch neither
    have hfound := h.findings hids a.observation
    refine ⟨by simp only [perform, hfound.length_eq], h.config, h.evaluator, ?_, ?_, ?_⟩
    · simp only [perform, h.network]
    · simp only [perform, Ledger.fileAll, h.filed, hfound.length_eq]
    · exact Ledger.rearranged_fileAll h.account h.filed hfound
  | filing c =>
    have hfound : List.Forall₂ (Contradiction.SameBut R) [c] [c] := .cons (.refl c) .nil
    refine ⟨rfl, h.config, h.evaluator, h.network, ?_, ?_⟩
    · simp only [perform, Ledger.file, Ledger.fileAll, h.filed]
    · exact Ledger.rearranged_fileAll h.account h.filed hfound
  | refusal reason => exact ⟨rfl, h⟩
  | reasoning op =>
    refine ⟨by simp only [perform, h.evaluator], h.config, ?_, h.network, h.filed, h.account⟩
    simp only [perform, h.evaluator]

/-- A request other than a pass is not answered by a report. -/
theorem report?_step {op : Op} (hop : op.isPass = false) : (e.step op).1.report? = none := by
  rw [step_eq_perform]
  have hentry := e.isPass_entry op
  rw [hop, entry] at hentry
  cases heffect : e.effect op with
  | pass =>
    rw [heffect] at hentry
    cases hentry
  | reasoning op => exact e.evaluator.report?_step op
  | _ => rfl

/-- A pass on one side keeps engines alike. -/
theorem Alike.passLeft (h : e.Alike R e') : (e.step (.network .resolve)).2.Alike R e' :=
  ⟨h.config, h.evaluator, h.network, h.filed, h.account.permLeft e.ledger.account_settle_perm⟩

theorem Alike.passRight (h : e.Alike R e') : e.Alike R (e'.step (.network .resolve)).2 :=
  ⟨h.config, h.evaluator, h.network, h.filed, h.account.permRight e'.ledger.account_settle_perm⟩

/-- Those of the answers that are not reports. -/
def nonReports (answers : List (Answer α)) : List (Answer α) :=
  answers.filter fun a => a.report?.isNone

/-- **Passes change no answer but their own.** Runs of rescheduled requests from engines that are
alike give the same answers apart from the reports, and lead to engines that are alike. -/
theorem Alike.run (h : e.Alike R e') {s t : List Op} (hst : Rescheduled R s t) :
    nonReports (e.run s).1 = nonReports (e'.run t).1 ∧ (e.run s).2.Alike R (e'.run t).2 := by
  -- on how the lists correspond, with `Alike` as the invariant
  induction hst generalizing e e' with
  | nil => exact ⟨rfl, h⟩
  | both hop _ ih =>
    obtain ⟨hanswer, hstep⟩ := h.step hop
    obtain ⟨hanswers, hrun⟩ := ih hstep
    refine ⟨?_, hrun⟩
    have hleft := report?_step (e := e) hop.isPass_eq.1
    have hright := report?_step (e := e') hop.isPass_eq.2
    simp only [nonReports, Engine.run] at hanswers ⊢
    rw [List.filter_cons_of_pos (by simp [hleft]), List.filter_cons_of_pos (by simp [hright]),
      hanswer, hanswers]
  | passLeft _ ih => exact ih h.passLeft
  | passRight _ ih => exact ih h.passRight

end Engine

/-! ## What the passes of a run charge -/

namespace Contradiction

/-- In exact arithmetic it does not matter how costs are summed. -/
theorem totalCost_eq_sum (cs : List Contradiction) :
    (totalCost cs : Rat) = (cs.map fun c => (Strategy.forSeverity c.severity).cost).sum := by
  have hzero : (-(0.0 : Rat)) = 0 := by decide +kernel
  rw [List.sum_eq_foldl]
  exact congrArg (fun z => List.foldl (· + ·) z _) hzero

theorem totalCost_append (cs ds : List Contradiction) :
    (totalCost (cs ++ ds) : Rat) = totalCost cs + totalCost ds := by
  simp only [totalCost_eq_sum, List.map_append, List.sum_append]

theorem totalCost_attempted (cs : List Contradiction) :
    (totalCost (cs.map attempted) : Rat) = totalCost cs := by
  rw [totalCost, totalCost, List.map_map]
  rfl

theorem Rearranged.totalCost_eq {cs ds : List Contradiction} (h : Rearranged R cs ds) :
    (totalCost cs : Rat) = totalCost ds := by
  rw [totalCost_eq_sum, totalCost_eq_sum]
  exact (h.map_perm fun c d hcd => by rw [hcd.severity_eq]).sum_eq

end Contradiction

/-- What all reports among the answers charge. -/
def Answer.charged (answers : List (Answer Rat)) : Rat :=
  ((answers.filterMap Answer.report?).map fun r => r.cost).sum

theorem Answer.charged_cons (a : Answer Rat) (answers : List (Answer Rat)) :
    Answer.charged (a :: answers) = Answer.charged [a] + Answer.charged answers := by
  cases h : a.report? <;> simp [Answer.charged, h]

/-- Only a pass resolves anything. -/
theorem Ledger.resolved_enter {l : Ledger} {x : Entry} (hx : x.isPass = false) :
    (l.enter x).resolved = l.resolved := by
  cases x with
  | filed batch => rfl
  | pass => cases hx

namespace Engine

open Contradiction (totalCost)

/-- A pass charges for what it processes. -/
theorem cost_resolve (e : Engine Rat) : e.resolve.1.cost = totalCost e.ledger.pending := by
  have hzero : (0.0 : Rat) = -(0.0) := by decide +kernel
  show Outcome.totalCost (e.ledger.pending.map Outcome.ofContradiction) = totalCost e.ledger.pending
  rw [Outcome.totalCost, totalCost, Scalar.total, List.foldl_map, List.foldl_map]
  exact congrArg (fun z => List.foldl _ z _) hzero

theorem charged_step (e : Engine Rat) (op : Op) :
    totalCost e.ledger.resolved + Answer.charged [(e.step op).1] =
      totalCost (e.step op).2.ledger.resolved := by
  rcases op.pass_or with rfl | hop
  · have hresolved : (e.step (.network .resolve)).2.ledger.resolved =
        e.ledger.resolved ++ e.ledger.pending.map Contradiction.attempted := rfl
    have hcharged : Answer.charged [(e.step (.network .resolve)).1] = e.resolve.1.cost :=
      List.sum_singleton
    rw [hresolved, hcharged, cost_resolve, Contradiction.totalCost_append,
      Contradiction.totalCost_attempted]
  · have hentry : (e.entry op).isPass = false := by rw [isPass_entry, hop]
    have hcharged : Answer.charged [(e.step op).1] = 0 := by
      simp [Answer.charged, report?_step hop]
    rw [hcharged, add_zero, step_ledger, Ledger.resolved_enter hentry]

/-- **A run charges for what it resolves**, neither more nor less. -/
theorem charged_run (e : Engine Rat) (ops : List Op) :
    totalCost e.ledger.resolved + Answer.charged (e.run ops).1 =
      totalCost (e.run ops).2.ledger.resolved := by
  induction ops generalizing e with
  | nil => exact add_zero _
  | cons op ops ih =>
    calc
      totalCost e.ledger.resolved + Answer.charged (e.run (op :: ops)).1
          = totalCost e.ledger.resolved + Answer.charged [(e.step op).1] +
              Answer.charged ((e.step op).2.run ops).1 := by
        rw [Engine.run, Answer.charged_cons, add_assoc]
      _ = totalCost (e.step op).2.ledger.resolved +
            Answer.charged ((e.step op).2.run ops).1 := by rw [charged_step]
      _ = totalCost (e.run (op :: ops)).2.ledger.resolved := ih (e.step op).2

end Engine

/-! ## Runs that end with a pass -/

namespace Engine

variable [Scalar α]

/-- Two runs, each with its answers and the engine at its end, agree in all that the moments of
their passes must not matter to. Both end with a pass. -/
structure Agree (R : Uuid → Uuid → Prop) (r r' : List (Answer α) × Engine α) : Prop where
  answers : nonReports r.1 = nonReports r'.1
  network : r.2.network = r'.2.network
  filed : r.2.ledger.filed = r'.2.ledger.filed
  /-- So every score is the same. -/
  snapshot : r.2.snapshot = r'.2.snapshot
  preserved : ∃ last last', r.1.getLast? = some (.report last) ∧
    r'.1.getLast? = some (.report last') ∧ last.preserved = last'.preserved
  resolved : Contradiction.Rearranged R r.2.ledger.resolved r'.2.ledger.resolved
  /-- A sequence number is not repeated, so it says which records correspond. -/
  distinct : (r.2.ledger.resolved.map fun c => c.sequence).Nodup ∧
    (r'.2.ledger.resolved.map fun d => d.sequence).Nodup
  matched : ∀ c ∈ r.2.ledger.resolved, ∀ d ∈ r'.2.ledger.resolved,
    c.sequence = d.sequence → c.SameBut R d

theorem run_concat_pass (e : Engine α) (ops : List Op) :
    e.run (ops ++ [.network .resolve]) =
      ((e.run ops).1 ++ [.report (e.run ops).2.resolve.1], (e.run ops).2.resolve.2) := by
  rw [run_append]
  rfl

omit [Scalar α] in
theorem nonReports_concat_report (answers : List (Answer α)) (r : Report α) :
    nonReports (answers ++ [.report r]) = nonReports answers := by
  simp [nonReports, Answer.report?]

/-- After a pass all records are resolved. -/
theorem resolved_resolve (e : Engine α) :
    e.resolve.2.ledger.resolved = e.resolve.2.ledger.account := by
  simp [resolve, Ledger.account, Ledger.settle]

/-- What a pass leaves of engines that are alike. -/
theorem Alike.resolve {e e' : Engine α} (h : e.Alike R e') :
    Contradiction.Rearranged R e.resolve.2.ledger.resolved e'.resolve.2.ledger.resolved ∧
      e.resolve.2.snapshot = e'.resolve.2.snapshot := by
  have hpass : e.resolve.2.Alike R e'.resolve.2 := h.passLeft.passRight
  have hresolved : Contradiction.Rearranged R e.resolve.2.ledger.resolved
      e'.resolve.2.ledger.resolved := by
    rw [resolved_resolve, resolved_resolve]
    exact hpass.account
  refine ⟨hresolved, ?_⟩
  -- of the ledger, a snapshot only has the lengths
  have hactive : e.resolve.2.ledger.active = [] := rfl
  have hactive' : e'.resolve.2.ledger.active = [] := rfl
  rw [snapshot, snapshot, hpass.network, hactive, hactive', hresolved.length_eq]

theorem Reachable.nodup_sequence_resolved {e : Engine α} (h : e.Reachable) :
    (e.ledger.resolved.map fun c => c.sequence).Nodup := by
  have hall := h.complete.nodup_iff.mpr List.nodup_range'
  rw [List.map_append] at hall
  exact hall.of_append_right

/-- **It does not matter when passes are made.** Let the same requests be made twice to one
engine, with passes at any moments, and with a pass at the end. Then the two runs agree, and read
in exact arithmetic they charge the same in total. -/
theorem Reachable.run_rescheduled {e : Engine α} (he : e.Reachable) {s t : List Op}
    (h : Rescheduled R s t) :
    Agree R (e.run (s ++ [.network .resolve])) (e.run (t ++ [.network .resolve])) ∧
    ∀ x : Engine Rat, Answer.charged (x.run (s ++ [.network .resolve])).1 =
      Answer.charged (x.run (t ++ [.network .resolve])).1 := by
  constructor
  · obtain ⟨hanswers, halike⟩ := (Alike.refl R e).run h
    obtain ⟨hresolved, hsnapshot⟩ := halike.resolve
    have hdistinct := (he.run (s ++ [.network .resolve])).nodup_sequence_resolved
    have hdistinct' := (he.run (t ++ [.network .resolve])).nodup_sequence_resolved
    rw [run_concat_pass] at hdistinct hdistinct'
    rw [run_concat_pass, run_concat_pass]
    exact
      { answers := by rw [nonReports_concat_report, nonReports_concat_report, hanswers]
        network := halike.network
        filed := halike.filed
        snapshot := hsnapshot
        preserved := ⟨_, _, List.getLast?_concat, List.getLast?_concat,
          congrArg Snapshot.preserved hsnapshot⟩
        resolved := hresolved
        distinct := ⟨hdistinct, hdistinct'⟩
        matched := fun c hc d hd hcd => hresolved.sameBut hdistinct' hc hd hcd }
  · -- both runs charge for what they resolve, and that is the same but for its order
    intro x
    obtain ⟨hresolved, -⟩ := ((Alike.refl R x).run h).2.resolve
    have hcost := hresolved.totalCost_eq
    have hleft := x.charged_run (s ++ [.network .resolve])
    have hright := x.charged_run (t ++ [.network .resolve])
    rw [run_concat_pass] at hleft hright ⊢
    rw [run_concat_pass]
    exact add_left_cancel (hleft.trans (hcost.trans hright.symm))

/-- A critical record from elsewhere. -/
def criticalRecord : Contradiction :=
  { standing := ⟨"a", .yes⟩, incoming := ⟨"a", .no⟩, severity := .critical, id := Uuid.ofNat 0 }

/-- A pass is made before the critical record comes in. -/
def passEarly : List Op :=
  [.network (.update Uuid.ofNat "a" .yes 1.0), .network (.update Uuid.ofNat "b" .no 0.5),
    .network .resolve, .network (.record criticalRecord),
    .network (.assert Uuid.ofNat "a" .unknown)]

/-- The same requests, with passes at the ends. The identifiers for
new records are the next ones. -/
def passLate : List Op :=
  let ids : IdSource := fun i => Uuid.ofNat (i + 1)
  [.network .resolve, .network (.update ids "a" .yes 1.0), .network (.update ids "b" .no 0.5),
    .network (.record criticalRecord), .network (.assert ids "a" .unknown), .network .resolve]

theorem run_rescheduled_passEarly_passLate :
    Reachable ({} : Engine Rat) ∧
    Rescheduled (fun u v => ∃ i, u = Uuid.ofNat i ∧ v = Uuid.ofNat (i + 1)) passEarly passLate ∧
    (({} : Engine Rat).run (passEarly ++ [.network .resolve])).2.snapshot =
      (({} : Engine Rat).run (passLate ++ [.network .resolve])).2.snapshot ∧
    Answer.charged (({} : Engine Rat).run (passEarly ++ [.network .resolve])).1 =
      Answer.charged (({} : Engine Rat).run (passLate ++ [.network .resolve])).1 := by
  have hids : IdSource.Related (fun u v => ∃ i, u = Uuid.ofNat i ∧ v = Uuid.ofNat (i + 1))
      Uuid.ofNat (fun i => Uuid.ofNat (i + 1)) := fun i => .inr ⟨i, rfl, rfl⟩
  have h : Rescheduled (fun u v => ∃ i, u = Uuid.ofNat i ∧ v = Uuid.ofNat (i + 1))
      passEarly passLate :=
    .passRight (.both (.update hids _ _ _) (.both (.update hids _ _ _) (.passLeft
      (.both (.record _) (.both (.assert hids _ _) (.passRight .nil))))))
  have he : Reachable ({} : Engine Rat) := .fresh .blank
  have hrun := he.run_rescheduled h
  exact ⟨he, h, hrun.1.snapshot, hrun.2 {}⟩

end Engine

end TernaryBelief
