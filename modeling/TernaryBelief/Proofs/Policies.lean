import Mathlib.Algebra.Order.BigOperators.Group.Multiset
import TernaryBelief.Proofs.Detection
import TernaryBelief.Proofs.Pass

/-!
# What a severity policy can change

Two engines differ in their severity policies alone, and the same is asked of both. A policy has no
part in whether a request is accepted, in which conflicts are found or in how they are numbered. So
the engines go on holding the same records, but for their severities (`Engine.Regraded`,
`Engine.Regraded.run`). The active lists correspond place by place. The resolved lists do so only up
to their order, as each pass puts the more severe records first; as multisets they correspond all
the same.

How severities correspond is said by a relation `S`. If anything may stand for anything, what is
left is what no policy can change. If a severity may stand for one that is at least as high, the one
run is the milder one: no pass of it meets a more severe record than the same pass of the other run,
or charges more.

## Main definitions

* `Contradiction.Regraded`, `Engine.Regraded`: the same, but for severities;
* `Engine.withPolicy`: the engine under another policy;
* `Engine.SameCourse`: what two runs have in common if only severities differ.

## Main statement

* `Engine.Reachable.run_withPolicy`: what the choice of a policy does
  to a run, and what it does not.
-/

namespace TernaryBelief

variable {α : Type} {S : Severity → Severity → Prop}

/-! ## Severities in order -/

namespace Severity

instance : Std.IsLinearOrder Severity where
  le_refl a := Nat.le_refl a.rank
  le_trans _ _ _ := Nat.le_trans
  le_antisymm _ _ hab hba := rank_inj.mp (Nat.le_antisymm hab hba)
  le_total a b := Nat.le_total a.rank b.rank

instance : Std.LawfulOrderMax Severity where
  max_eq_or a b := by cases a <;> cases b <;> decide
  max_le_iff a b c := by cases a <;> cases b <;> cases c <;> decide

/-- If severities correspond to higher ones, in whatever order, so does the greatest of them. -/
theorem rel_max? {xs ys : List Severity} (h : Multiset.Rel (· ≤ ·) (xs : Multiset Severity) ys) :
    Option.Rel (· ≤ ·) xs.max? ys.max? := by
  have hlength : xs.length = ys.length := Multiset.card_eq_card_of_rel h
  cases hx : xs.max? with
  | none =>
    have hys : ys = [] := by
      rw [List.max?_eq_none_iff.mp hx] at hlength
      exact List.eq_nil_of_length_eq_zero hlength.symm
    rw [hys]
    exact .none
  | some x =>
    -- what stands for the greatest severity of `xs` is not above the greatest one of `ys`
    obtain ⟨hmem, -⟩ := List.max?_eq_some_iff.mp hx
    obtain ⟨y, hy, hxy⟩ := Multiset.exists_mem_of_rel_of_mem h (Multiset.mem_coe.mpr hmem)
    obtain ⟨m, hm⟩ := Option.isSome_iff_exists.mp
      (List.isSome_max?_iff.mpr (List.ne_nil_of_mem (Multiset.mem_coe.mp hy)))
    rw [hm]
    have hym : y ≤ m := (List.max?_eq_some_iff.mp hm).2 y (Multiset.mem_coe.mp hy)
    exact .some (Nat.le_trans hxy hym)

end Severity

/-- In exact arithmetic, the strategy for a higher severity costs no less. -/
theorem Strategy.cost_mono {s t : Severity} (h : s ≤ t) :
    ((Strategy.forSeverity s).cost : Rat) ≤ (Strategy.forSeverity t).cost := by
  revert h
  cases s <;> cases t <;> decide +kernel

/-! ## Records up to severity -/

/-- The conflicts differ in their severities at most, and these are related. -/
def Conflict.Regraded (S : Severity → Severity → Prop) (k l : Conflict) : Prop :=
  { k with severity := l.severity } = l ∧ S k.severity l.severity

/-- The records differ in their severities at most, and these are related. -/
def Contradiction.Regraded (S : Severity → Severity → Prop) (c d : Contradiction) : Prop :=
  { c with severity := d.severity } = d ∧ S c.severity d.severity

/-- The policies assign related severities, except to two unknowns, which detection never meets. -/
structure SeverityPolicy.Regrades (S : Severity → Severity → Prop) (p q : SeverityPolicy) :
    Prop where
  oneUnknown : S p.oneUnknown q.oneUnknown
  opposed : S p.opposed q.opposed

theorem Conflict.Regraded.ofConflict {k l : Conflict} (h : k.Regraded S l) (id : Uuid) :
    (Contradiction.ofConflict id k).Regraded S (.ofConflict id l) :=
  ⟨congrArg (Contradiction.ofConflict id) h.1, h.2⟩

namespace Contradiction

variable {c d : Contradiction}

theorem Regraded.refl (hS : ∀ s, S s s) (c : Contradiction) : c.Regraded S c := ⟨rfl, hS c.severity⟩

theorem Regraded.renumber (h : c.Regraded S d) (n : Nat) :
    Regraded S { c with sequence := n } { d with sequence := n } :=
  ⟨congrArg (fun c : Contradiction => { c with sequence := n }) h.1, h.2⟩

theorem Regraded.attempted (h : c.Regraded S d) : c.attempted.Regraded S d.attempted :=
  ⟨congrArg Contradiction.attempted h.1, h.2⟩

theorem Regraded.sequence_eq (h : c.Regraded S d) : c.sequence = d.sequence := by
  rw [← h.1]

/-- The lists hold the same records up to severity, and up to order. -/
def RegradedAll (S : Severity → Severity → Prop) (cs ds : List Contradiction) : Prop :=
  Multiset.Rel (Regraded S) (cs : Multiset Contradiction) ds

variable {cs ds : List Contradiction}

theorem RegradedAll.of_forall₂ (h : List.Forall₂ (Regraded S) cs ds) : RegradedAll S cs ds := by
  induction h with
  | nil => exact .zero
  | cons hcd _ ih => exact .cons hcd ih

theorem RegradedAll.append (h : RegradedAll S cs ds) {cs₁ ds₁ : List Contradiction}
    (h₁ : RegradedAll S cs₁ ds₁) : RegradedAll S (cs ++ cs₁) (ds ++ ds₁) := by
  unfold RegradedAll at *
  rw [← Multiset.coe_add, ← Multiset.coe_add]
  exact h.add h₁

theorem RegradedAll.perm (h : RegradedAll S cs ds) {cs₁ ds₁ : List Contradiction}
    (hcs : cs₁.Perm cs) (hds : ds₁.Perm ds) : RegradedAll S cs₁ ds₁ := by
  unfold RegradedAll at *
  rwa [Multiset.coe_eq_coe.mpr hcs, Multiset.coe_eq_coe.mpr hds]

/-- What corresponds for records that correspond, corresponds for lists of them. -/
theorem RegradedAll.map {β : Type} {P : β → β → Prop} {f : Contradiction → β}
    (h : RegradedAll S cs ds) (hf : ∀ c d, c.Regraded S d → P (f c) (f d)) :
    Multiset.Rel P (cs.map f : Multiset β) (ds.map f) := by
  rw [← Multiset.map_coe, ← Multiset.map_coe, Multiset.rel_map]
  exact h.mono fun c _ d _ hcd => hf c d hcd

theorem RegradedAll.length_eq (h : RegradedAll S cs ds) : cs.length = ds.length :=
  Multiset.card_eq_card_of_rel h

theorem RegradedAll.sequences_perm (h : RegradedAll S cs ds) :
    (cs.map fun c => c.sequence).Perm (ds.map fun d => d.sequence) :=
  Multiset.coe_eq_coe.mp (Multiset.rel_eq.mp (h.map fun _ _ hcd => hcd.sequence_eq))

/-- If sequence numbers are not repeated, the records that correspond are those with one number. -/
theorem RegradedAll.regraded (h : RegradedAll S cs ds) (hds : (ds.map fun d => d.sequence).Nodup)
    (hc : c ∈ cs) (hd : d ∈ ds) (hcd : c.sequence = d.sequence) : c.Regraded S d := by
  -- some record of `ds` corresponds to `c`, and it bears the number of `d`
  obtain ⟨d', hd', hregraded⟩ := Multiset.exists_mem_of_rel_of_mem h (Multiset.mem_coe.mpr hc)
  have heq : d' = d := List.inj_on_of_nodup_map hds (Multiset.mem_coe.mp hd') hd
    (hregraded.sequence_eq.symm.trans hcd)
  exact heq ▸ hregraded

theorem RegradedAll.totalCost_le (h : RegradedAll (· ≤ ·) cs ds) :
    (totalCost cs : Rat) ≤ totalCost ds := by
  rw [totalCost_eq_sum, totalCost_eq_sum, ← Multiset.sum_coe, ← Multiset.sum_coe]
  exact Multiset.sum_le_sum_of_rel_le (h.map fun _ _ hcd => Strategy.cost_mono hcd.2)

end Contradiction

/-! ## Detection under two policies -/

section Detection

variable {p q : SeverityPolicy}

/-- Both policies see a conflict, or none of them does. -/
theorem SeverityPolicy.Regrades.detect (h : p.Regrades S q) (x y : Observation) :
    Option.Rel (Conflict.Regraded S) (p.detect x y) (q.detect x y) := by
  unfold SeverityPolicy.detect
  split
  · exact .none
  · next hvalue =>
    -- the values differ, so the policies are asked for one of two severities
    refine .some ⟨rfl, ?_⟩
    show S (p.classify x.value y.value) (q.classify x.value y.value)
    rw [p.classify_of_ne hvalue, q.classify_of_ne hvalue]
    split
    · exact h.opposed
    · exact h.oneUnknown

theorem SeverityPolicy.Regrades.conflicts (h : p.Regrades S q) (n : Network)
    (incoming : Observation) :
    List.Forall₂ (Conflict.Regraded S) (n.conflicts p incoming) (n.conflicts q incoming) := by
  refine List.rel_filterMap ?_ (List.forall₂_same.mpr fun b _ => Eq.refl b)
  rintro b - rfl
  exact h.detect b.observation incoming

end Detection

/-! ## Engines that only severities tell apart -/

open Contradiction (RegradedAll)

/-- What two engines have in common if they started with different policies and the same is asked of
them. -/
structure Engine.Regraded (S : Severity → Severity → Prop) (e e' : Engine α) : Prop where
  config : { e.config with policy := e'.config.policy } = e'.config
  policy : e.config.policy.Regrades S e'.config.policy
  evaluator : e.evaluator = e'.evaluator
  network : e.network = e'.network
  filed : e.ledger.filed = e'.ledger.filed
  active : List.Forall₂ (Contradiction.Regraded S) e.ledger.active e'.ledger.active
  resolved : RegradedAll S e.ledger.resolved e'.ledger.resolved

namespace Engine

variable {e e' : Engine α}

theorem Regraded.findings (h : e.Regraded S e') (ids : IdSource) (incoming : Observation) :
    List.Forall₂ (Contradiction.Regraded S) (e.findings ids incoming)
      (e'.findings ids incoming) := by
  unfold Engine.findings
  rw [← h.network]
  exact forall₂_mapIdx (fun i _ _ hconflict => hconflict.ofConflict (ids i))
    (h.policy.conflicts e.network incoming)

/-- What a request does is decided without the policy. -/
theorem Regraded.effect_eq (h : e.Regraded S e') (op : Op) : e'.effect op = e.effect op := by
  have hupdate : e'.effectOfUpdate = e.effectOfUpdate := by
    unfold effectOfUpdate
    rw [← h.config]
    rfl
  have hconfidence : e'.config.defaultConfidence = e.config.defaultConfidence := by
    rw [← h.config]
  unfold effect
  rw [hupdate, hconfidence]

theorem Regraded.pending (h : e.Regraded S e') :
    RegradedAll S e.ledger.pending e'.ledger.pending :=
  (RegradedAll.of_forall₂ h.active).perm (Contradiction.bySeverity_perm _)
    (Contradiction.bySeverity_perm _)

theorem Regraded.file (h : e.Regraded S e') {cs ds : List Contradiction}
    (hcs : List.Forall₂ (Contradiction.Regraded S) cs ds) :
    List.Forall₂ (Contradiction.Regraded S) (e.ledger.fileAll cs).active
      (e'.ledger.fileAll ds).active := by
  simp only [Ledger.fileAll, ← h.filed]
  exact List.rel_append h.active
    (Ledger.forall₂_numbered (fun _ _ n hcd => hcd.renumber n) hcs e.ledger.filed)

variable [Scalar α]

/-- **One request keeps engines apart in severities alone**, and unless it is a pass it
is answered the same by both. -/
theorem Regraded.step (hS : ∀ s, S s s) (h : e.Regraded S e') (op : Op) :
    (op.isPass = false → (e.step op).1 = (e'.step op).1) ∧
      (e.step op).2.Regraded S (e'.step op).2 := by
  -- the effect is the same on both sides; only what an assertion files depends on the policy
  have hpass := e.isPass_entry op
  rw [entry] at hpass
  rw [step_eq_perform, step_eq_perform, h.effect_eq op]
  cases heffect : e.effect op with
  | assertion ids a =>
    have hfound := h.findings ids a.observation
    refine ⟨fun _ => by simp only [perform, hfound.length_eq], h.config, h.policy, h.evaluator, ?_,
      ?_, h.file hfound, h.resolved⟩
    · simp only [perform, h.network]
    · simp only [perform, Ledger.fileAll, h.filed, hfound.length_eq]
  | filing c =>
    have hfound : List.Forall₂ (Contradiction.Regraded S) [c] [c] := .cons (.refl hS c) .nil
    refine ⟨fun _ => rfl, h.config, h.policy, h.evaluator, h.network, ?_, h.file hfound, h.resolved⟩
    simp only [perform, Ledger.file, Ledger.fileAll, h.filed]
  | pass =>
    rw [heffect] at hpass
    refine ⟨?_, h.config, h.policy, h.evaluator, h.network, h.filed, .nil, ?_⟩
    · intro hop
      rw [hop] at hpass
      cases hpass
    · -- the batches come in different orders, so what is resolved corresponds as a multiset
      exact h.resolved.append (h.pending.map fun _ _ hcd => hcd.attempted)
  | refusal reason => exact ⟨fun _ => rfl, h⟩
  | reasoning op =>
    refine ⟨fun _ => by simp only [perform, h.evaluator], h.config, h.policy, ?_, h.network,
      h.filed, h.active, h.resolved⟩
    simp only [perform, h.evaluator]

/-- **Only severities tell the runs apart**: the answers other than reports are the same, and each
pass of the one run meets an engine that corresponds to the one that it meets in the other run. -/
theorem Regraded.run (hS : ∀ s, S s s) (h : e.Regraded S e') (ops : List Op) :
    nonReports (e.run ops).1 = nonReports (e'.run ops).1 ∧
      List.Forall₂ (Regraded S) (e.passing ops) (e'.passing ops) ∧
      (e.run ops).2.Regraded S (e'.run ops).2 := by
  -- on the requests, with `Regraded` as the invariant
  induction ops generalizing e e' with
  | nil => exact ⟨rfl, .nil, h⟩
  | cons op ops ih =>
    obtain ⟨hanswer, hstep⟩ := h.step hS op
    obtain ⟨hanswers, hpassing, hrun⟩ := ih hstep
    rw [passing_cons, passing_cons]
    refine ⟨?_, ?_, hrun⟩
    · rcases op.pass_or with rfl | hop
      · exact hanswers
      · simp only [nonReports, Engine.run, List.filter_cons] at hanswers ⊢
        rw [hanswers, hanswer hop]
    · refine List.rel_append ?_ hpassing
      cases op.isPass with
      | true => exact .cons h .nil
      | false => exact .nil

/-! ## A pass on either side -/

theorem Regraded.resolve_eq (h : e.Regraded S e') :
    e.resolve.1.resolved = e'.resolve.1.resolved ∧ e.resolve.1.delta = e'.resolve.1.delta ∧
      e.resolve.1.preserved = e'.resolve.1.preserved := by
  have hlength : (e.ledger.pending.map (Outcome.ofContradiction (α := α))).length =
      (e'.ledger.pending.map (Outcome.ofContradiction (α := α))).length := by
    rw [List.length_map, List.length_map, h.pending.length_eq]
  refine ⟨hlength, ?_, ?_⟩
  · show e.evaluator.phi - e.evaluator.phi = e'.evaluator.phi - e'.evaluator.phi
    rw [h.evaluator]
  · show (e.resolve.2.snapshot.preserved : α) = e'.resolve.2.snapshot.preserved
    rw [preserved_resolve, preserved_resolve, Engine.snapshot, Engine.snapshot, h.network]
    -- the two snapshots differ in nothing that the share of unknown beliefs is computed from
    rfl

theorem Regraded.maxSeverity (h : e.Regraded (· ≤ ·) e') :
    Option.Rel (· ≤ ·) e.resolve.1.maxSeverity e'.resolve.1.maxSeverity := by
  have hseverity (met : Engine α) : met.resolve.1.outcomes.map Outcome.severity =
      met.ledger.pending.map fun c => c.severity := List.map_map
  unfold Report.maxSeverity
  rw [hseverity, hseverity]
  exact Severity.rel_max? (h.pending.map fun _ _ hcd => hcd.2)

theorem Regraded.cost_le {x x' : Engine Rat} (h : x.Regraded (· ≤ ·) x') :
    x.resolve.1.cost ≤ x'.resolve.1.cost := by
  rw [cost_resolve, cost_resolve]
  exact h.pending.totalCost_le

/-! ## The choice of a policy -/

omit [Scalar α] in
/-- The engine under another policy. -/
def withPolicy (e : Engine α) (p : SeverityPolicy) : Engine α :=
  { e with config := { e.config with policy := p } }

omit [Scalar α] in
/-- A configuration with another policy is as valid, and makes the engine under that policy. -/
theorem ofConfig_withPolicy (c : Config) (p : SeverityPolicy) :
    (ofConfig { c with policy := p } : Except Rejection (Engine α)) =
      (ofConfig c).map fun e => e.withPolicy p := by
  have hfault : Config.fault? { c with policy := p } = c.fault? := rfl
  unfold ofConfig Config.validate
  rw [hfault]
  cases c.fault? <;> rfl

omit [Scalar α] in
theorem regraded_withPolicy (hS : ∀ s, S s s) (e : Engine α) {p q : SeverityPolicy}
    (h : p.Regrades S q) : (e.withPolicy p).Regraded S (e.withPolicy q) where
  config := rfl
  policy := h
  evaluator := rfl
  network := rfl
  filed := rfl
  active := List.forall₂_same.mpr fun c _ => .refl hS c
  resolved := .of_forall₂ (List.forall₂_same.mpr fun c _ => .refl hS c)

/-- What two runs of the same requests have in common if only severities tell them apart, which `S`
relates. -/
structure SameCourse (S : Severity → Severity → Prop) (e e' : Engine α) (ops : List Op) : Prop where
  answers : nonReports (e.run ops).1 = nonReports (e'.run ops).1
  reports : List.Forall₂
    (fun r r' => r.resolved = r'.resolved ∧ r.delta = r'.delta ∧ r.preserved = r'.preserved)
    (Answer.reports (e.run ops).1) (Answer.reports (e'.run ops).1)
  /-- Each pass processes the same records, so the same sequence
  numbers, in orders that may differ. -/
  passes : List.Forall₂
    (fun batch batch' => RegradedAll S batch batch' ∧
      (batch.map fun c => c.sequence).Perm (batch'.map fun d => d.sequence))
    (e.passes ops) (e'.passes ops)
  network : (e.run ops).2.network = (e'.run ops).2.network
  evaluator : (e.run ops).2.evaluator = (e'.run ops).2.evaluator
  filed : (e.run ops).2.ledger.filed = (e'.run ops).2.ledger.filed
  active : List.Forall₂ (Contradiction.Regraded S) (e.run ops).2.ledger.active
    (e'.run ops).2.ledger.active
  resolved : RegradedAll S (e.run ops).2.ledger.resolved (e'.run ops).2.ledger.resolved
  /-- A sequence number says which records correspond. -/
  matched : ∀ c ∈ (e.run ops).2.ledger.active ++ (e.run ops).2.ledger.resolved,
    ∀ d ∈ (e'.run ops).2.ledger.active ++ (e'.run ops).2.ledger.resolved,
      c.sequence = d.sequence → c.Regraded S d

theorem Regraded.sameCourse (hS : ∀ s, S s s) (h : e.Regraded S e') (he' : e'.ledger.Complete)
    (ops : List Op) : SameCourse S e e' ops := by
  obtain ⟨hanswers, hpassing, hrun⟩ := h.run hS ops
  have hall := (RegradedAll.of_forall₂ hrun.active).append hrun.resolved
  have hcomplete : (e'.run ops).2.ledger.Complete := by
    rw [run_ledger]
    exact he'.foldl_enter _
  have hdistinct := hcomplete.nodup_iff.mpr List.nodup_range'
  exact
    { answers := hanswers
      reports := by
        rw [reports_run, reports_run, List.forall₂_map_left_iff, List.forall₂_map_right_iff]
        exact hpassing.imp fun _ _ hmet => hmet.resolve_eq
      passes := by
        rw [Engine.passes, Engine.passes, List.forall₂_map_left_iff, List.forall₂_map_right_iff]
        exact hpassing.imp fun _ _ hmet => ⟨hmet.pending, hmet.pending.sequences_perm⟩
      network := hrun.network
      evaluator := hrun.evaluator
      filed := hrun.filed
      active := hrun.active
      resolved := hrun.resolved
      matched := fun c hc d hd hcd => hall.regraded hdistinct hc hd hcd }

/-- **What the choice of a policy does to a run**, of any engine that can be reached. Whichever
policy it is, requests are answered the same except for reports, and the same records are filed,
processed and kept, but for their severities. If the policies differ only in the severity for two
unknowns, the runs do not differ at all. If the first one assigns no higher severities than the
second one, then no record is more severe under it, no pass meets a greater severity, and read in
exact arithmetic no pass charges more. -/
theorem Reachable.run_withPolicy (h : e.Reachable) (p q : SeverityPolicy) (ops : List Op) :
    SameCourse (fun _ _ => True) (e.withPolicy p) (e.withPolicy q) ops ∧
    (p.oneUnknown = q.oneUnknown → p.opposed = q.opposed →
      (e.withPolicy q).run ops =
        (((e.withPolicy p).run ops).1, ((e.withPolicy p).run ops).2.withPolicy q)) ∧
    (p.oneUnknown ≤ q.oneUnknown → p.opposed ≤ q.opposed →
      SameCourse (· ≤ ·) (e.withPolicy p) (e.withPolicy q) ops ∧
      List.Forall₂ (fun r r' => Option.Rel (· ≤ ·) r.maxSeverity r'.maxSeverity)
        (Answer.reports ((e.withPolicy p).run ops).1)
        (Answer.reports ((e.withPolicy q).run ops).1) ∧
      ∀ x : Engine Rat, List.Forall₂ (fun r r' => r.cost ≤ r'.cost)
        (Answer.reports ((x.withPolicy p).run ops).1)
        (Answer.reports ((x.withPolicy q).run ops).1)) := by
  have hcomplete : (e.withPolicy q).ledger.Complete := h.complete
  refine ⟨?_, ?_, ?_⟩
  · have hregraded := e.regraded_withPolicy (S := fun _ _ => True) (p := p) (q := q)
      (fun _ => trivial) ⟨trivial, trivial⟩
    exact hregraded.sameCourse (fun _ => trivial) hcomplete ops
  · intro hone hopposed
    have hpolicy : { p with bothUnknown := q.bothUnknown } = q := by
      rw [hone, hopposed]
    have hengine {x : Engine α} (hx : x.config.policy = p) :
        x.withBothUnknown q.bothUnknown = x.withPolicy q := by
      rw [withBothUnknown, hx, hpolicy]
      rfl
    have hconfig : ((e.withPolicy p).run ops).2.config.policy = p := by
      rw [run_config]
      rfl
    rw [← hengine hconfig, ← run_withBothUnknown, hengine rfl]
    rfl
  · intro hone hopposed
    have hle : ∀ s : Severity, s ≤ s := fun s => Nat.le_refl s.rank
    have hregraded := e.regraded_withPolicy hle ⟨hone, hopposed⟩
    refine ⟨hregraded.sameCourse hle hcomplete ops, ?_, fun x => ?_⟩
    · rw [reports_run, reports_run, List.forall₂_map_left_iff, List.forall₂_map_right_iff]
      exact (hregraded.run hle ops).2.1.imp fun _ _ hmet => hmet.maxSeverity
    · rw [reports_run, reports_run, List.forall₂_map_left_iff, List.forall₂_map_right_iff]
      have hpassing := ((x.regraded_withPolicy hle ⟨hone, hopposed⟩).run hle ops).2.1
      exact hpassing.imp fun _ _ hmet => hmet.cost_le

/-- A policy that finds every conflict critical. -/
def alarmed : SeverityPolicy := { oneUnknown := .critical, opposed := .critical }

/-- An unknown value meets a certain one, and both meet an opposed one. A critical record comes in
before the first pass and again before the second one. -/
def conflictsOfBothKinds : List Op :=
  let ids : IdSource := Uuid.ofNat
  [.network (.update ids "a" .unknown 1.0), .network (.update ids "b" .yes 0.5),
    .network (.update ids "c" .no 1.0), .network (.record criticalRecord), .network .resolve,
    .network (.assert ids "b" .unknown), .network (.record criticalRecord), .network .resolve]

/-- A new engine that only accepts confidences from 0 to 1. -/
def guarded : Engine Rat := { config := { strict := true } }

theorem run_withPolicy_conflictsOfBothKinds :
    ofConfig { strict := true } = .ok guarded ∧
    ofConfig { strict := true, policy := alarmed } = .ok (guarded.withPolicy alarmed) ∧
    guarded.Reachable ∧
    SeverityPolicy.oneUnknown {} ≤ alarmed.oneUnknown ∧
    SeverityPolicy.opposed {} ≤ alarmed.opposed ∧
    SameCourse (· ≤ ·) (guarded.withPolicy {}) (guarded.withPolicy alarmed) conflictsOfBothKinds ∧
    ((guarded.withPolicy {}).run (conflictsOfBothKinds.take 4)).2.ledger.active.map
      (fun c => c.severity) = [.medium, .medium, .hard, .critical] ∧
    ((guarded.withPolicy alarmed).run (conflictsOfBothKinds.take 4)).2.ledger.active.map
      (fun c => c.severity) = [.critical, .critical, .critical, .critical] ∧
    List.Forall₂ (fun r r' => r.cost ≤ r'.cost)
      (Answer.reports ((guarded.withPolicy {}).run conflictsOfBothKinds).1)
      (Answer.reports ((guarded.withPolicy alarmed).run conflictsOfBothKinds).1) ∧
    (guarded.withPolicy { bothUnknown := .critical }).run conflictsOfBothKinds =
      (((guarded.withPolicy {}).run conflictsOfBothKinds).1,
        ((guarded.withPolicy {}).run conflictsOfBothKinds).2.withPolicy
          { bothUnknown := .critical }) := by
  have hguarded : ofConfig { strict := true } = .ok guarded := rfl
  have halarmed : ofConfig { strict := true, policy := alarmed } =
      .ok (guarded.withPolicy alarmed) := by
    rw [ofConfig_withPolicy { strict := true } alarmed, hguarded]
    rfl
  have h : guarded.Reachable := .fresh (.ofConfig hguarded)
  have hone : SeverityPolicy.oneUnknown {} ≤ alarmed.oneUnknown := by decide
  have hopposed : SeverityPolicy.opposed {} ≤ alarmed.opposed := by decide
  obtain ⟨-, -, hmilder⟩ := h.run_withPolicy {} alarmed conflictsOfBothKinds
  obtain ⟨hcourse, -, hcost⟩ := hmilder hone hopposed
  obtain ⟨-, hsame, -⟩ := h.run_withPolicy {} { bothUnknown := .critical } conflictsOfBothKinds
  exact ⟨hguarded, halarmed, h, hone, hopposed, hcourse, by decide +kernel, by decide +kernel,
    hcost guarded, hsame rfl rfl⟩

end Engine

end TernaryBelief
