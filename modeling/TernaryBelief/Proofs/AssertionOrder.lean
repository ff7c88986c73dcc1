import Mathlib.Data.Sym.Sym2
import Mathlib.Tactic.Ring
import TernaryBelief.Proofs.Detection
import TernaryBelief.Proofs.Disagreement

/-!
# The order of first assertions

Distinct names are asserted to an empty engine, one after the other. Each assertion is compared with
those that were made before it, so whatever the order, every pair of names is compared once; only
the sides change with the order. `SeverityPolicy.clashes` lists the conflicts pair by pair, and
`Engine.Asserted` says that the engine holds them.

What is symmetric in the two sides of a conflict therefore comes out the same in any order
(`SeverityPolicy.map_clashes_perm`): the unordered pairs with their severities, all counts, and,
since a pass sorts by severity first, even the rounded sum of its costs. How many conflicts there
are of each kind depends on the number of affirmed, denied and unknown names alone (`Engine.Tally`).
-/

namespace TernaryBelief

open scoped List

variable {α : Type} {p : SeverityPolicy}

/-! ## Conflicts, pair by pair -/

namespace Conflict

/-- The two sides, without saying which of them stood first. -/
def sides (k : Conflict) : Sym2 Observation := s(k.standing, k.incoming)

def proposal (k : Conflict) : Trit := (Strategy.forSeverity k.severity).propose k

end Conflict

namespace SeverityPolicy

/-- The conflicts among observations. Each pair is compared once, and the earlier one stands. -/
def clashes (p : SeverityPolicy) : List Observation → List Conflict
  | [] => []
  | o :: os => os.filterMap (p.detect o) ++ clashes p os

/-- An observation that comes last is compared with all others. -/
theorem clashes_concat (p : SeverityPolicy) (os : List Observation) (o : Observation) :
    (p.clashes (os ++ [o])).Perm (p.clashes os ++ os.filterMap (p.detect · o)) := by
  induction os with
  | nil => exact .refl _
  | cons x os ih =>
    calc
      p.clashes (x :: (os ++ [o]))
          = os.filterMap (p.detect x) ++
              ([x].filterMap (p.detect · o) ++ p.clashes (os ++ [o])) := by
        rw [clashes, List.filterMap_append, List.append_assoc]
        rfl
      _ ~ os.filterMap (p.detect x) ++
            ([x].filterMap (p.detect · o) ++ (p.clashes os ++ os.filterMap (p.detect · o))) :=
        (ih.append_left _).append_left _
      _ ~ os.filterMap (p.detect x) ++
            (p.clashes os ++ ([x].filterMap (p.detect · o) ++ os.filterMap (p.detect · o))) :=
        (List.perm_append_comm_assoc _ _ _).append_left _
      _ = p.clashes (x :: os) ++ (x :: os).filterMap (p.detect · o) := by
        rw [clashes, List.append_assoc, ← List.filterMap_append, List.singleton_append]

/-- What is the same whichever of two observations comes first. -/
def Symmetric {β : Type} (p : SeverityPolicy) (f : Conflict → β) : Prop :=
  ∀ x y, (p.detect x y).map f = (p.detect y x).map f

/-- **What is symmetric does not depend on the order of the observations.** -/
theorem map_clashes_perm {β : Type} {f : Conflict → β} (hf : p.Symmetric f)
    {os os' : List Observation} (h : os.Perm os') :
    ((p.clashes os).map f).Perm ((p.clashes os').map f) := by
  induction h with
  | nil => exact .refl _
  | cons o h ih =>
    rw [clashes, clashes, List.map_append, List.map_append]
    exact ((h.filterMap _).map f).append ih
  | swap x y os =>
    simp only [clashes, List.map_append, List.map_filterMap, ← List.append_assoc]
    apply List.Perm.append_right
    -- the pair of `x` and `y` is compared first in either order, with its sides exchanged
    simp only [List.filterMap_cons, hf x y]
    cases (p.detect y x).map f with
    | none => exact List.perm_append_comm
    | some b => exact (List.perm_append_comm).cons b
  | trans _ _ ih ih' => exact ih.trans ih'

theorem classify_comm (p : SeverityPolicy) (a b : Trit) : p.classify a b = p.classify b a := by
  cases a <;> cases b <;> rfl

/-- Conflicts come in pairs with exchanged sides, so it is enough to look at those. -/
theorem symmetric_of_swap {β : Type} {f : Conflict → β}
    (h : ∀ x y, x.value ≠ y.value →
      f ⟨x, y, p.classify x.value y.value⟩ = f ⟨y, x, p.classify x.value y.value⟩) :
    p.Symmetric f := by
  intro x y
  unfold detect
  by_cases hvalue : x.value = y.value
  · rw [if_pos hvalue, if_pos hvalue.symm]
  · rw [if_neg hvalue, if_neg (Ne.symm hvalue), Option.map_some, Option.map_some, h x y hvalue,
      p.classify_comm x.value y.value]

theorem symmetric_sides (p : SeverityPolicy) : p.Symmetric fun k => (k.sides, k.severity) :=
  symmetric_of_swap fun x y _ => by simp [Conflict.sides, Sym2.eq_swap]

/-- A commitment adopts the standing side before the incoming one. This is symmetric as long as no
opposition is settled by a commitment. -/
theorem symmetric_proposal (h : p.opposed ≠ .medium) :
    p.Symmetric fun k => (k.sides, k.proposal) := by
  apply symmetric_of_swap
  intro x y hvalue
  rw [p.classify_of_ne hvalue]
  simp only [Conflict.sides, Sym2.eq_swap (a := x), Prod.mk.injEq, true_and]
  split
  · -- an opposition: both sides are given up
    cases hopposed : p.opposed with
    | medium => exact absurd hopposed h
    | _ => simp [Conflict.proposal, Strategy.forSeverity, Strategy.propose]
  · next hcertain =>
    -- one side is unknown, so there is no choice
    simp only [Conflict.proposal]
    cases Strategy.forSeverity p.oneUnknown with
    | commitToCertain =>
      simp only [Strategy.propose, Conflict.certainValue]
      cases hx : x.value <;> cases hy : y.value <;>
        simp_all [Trit.isCertain, Trit.isUnknown]
    | _ => rfl

end SeverityPolicy

/-! ## How many conflicts there are -/

/-- Truth values are counted value by value. -/
theorem Trit.countP_eq (q : Trit → Bool) (vs : List Trit) :
    vs.countP q = (q .no).toNat * vs.count .no + (q .unknown).toNat * vs.count .unknown +
      (q .yes).toNat * vs.count .yes := by
  induction vs with
  | nil => rfl
  | cons v vs ih =>
    rw [List.countP_cons, ih]
    cases v with
    | no => cases q .no <;> simp +arith
    | unknown => cases q .unknown <;> simp +arith
    | yes => cases q .yes <;> simp +arith

namespace SeverityPolicy

/-- The conflicts of one observation with others, counted by the values alone. -/
theorem countP_filterMap_detect (p : SeverityPolicy) (q : Trit → Trit → Bool) (o : Observation)
    (os : List Observation) :
    (os.filterMap (p.detect o)).countP (fun k => q k.standing.value k.incoming.value) =
      (os.map Observation.value).countP fun v => decide (o.value ≠ v) && q o.value v := by
  rw [List.countP_filterMap, List.countP_map]
  apply List.countP_congr
  intro x _
  by_cases hvalue : o.value = x.value <;> simp [detect, hvalue]

/-- **Conflicts are counted by the numbers of the values**, whatever symmetric property of the two
values is asked for. -/
theorem countP_clashes (p : SeverityPolicy) {q : Trit → Trit → Bool} (hq : ∀ a b, q a b = q b a)
    (os : List Observation) :
    (p.clashes os).countP (fun k => q k.standing.value k.incoming.value) =
      (q .yes .no).toNat *
        ((os.map Observation.value).count .yes * (os.map Observation.value).count .no) +
      (q .unknown .yes).toNat *
        ((os.map Observation.value).count .unknown * (os.map Observation.value).count .yes) +
      (q .unknown .no).toNat *
        ((os.map Observation.value).count .unknown * (os.map Observation.value).count .no) := by
  induction os with
  | nil => rfl
  | cons o os ih =>
    rw [clashes, List.countP_append, ih, countP_filterMap_detect, Trit.countP_eq, List.map_cons]
    -- the value of `o` goes with the two others, and is itself counted once more
    cases o.value with
    | no =>
      rw [hq .no .unknown, hq .no .yes]
      simp +decide
      ring
    | unknown =>
      simp +decide
      ring
    | yes =>
      rw [hq .yes .unknown]
      simp +decide
      ring

end SeverityPolicy

/-! ## Names that are asserted for the first time -/

/-- The request that makes an assertion. -/
def Assertion.request (a : Assertion) (ids : IdSource) : Op :=
  .network (.update ids a.name a.value a.confidence)

/-- The requests that make assertions one after the other, each with
the identifiers for its records. -/
def Assertion.requests (xs : List (IdSource × Assertion)) : List Op :=
  xs.map fun x => x.2.request x.1

namespace Network

variable {n : Network}

/-- What the beliefs say, in their order. -/
def observations (n : Network) : List Observation := n.beliefs.toList.map Belief.observation

theorem map_name_observations (n : Network) : n.observations.map Observation.name = n.names := by
  rw [observations, List.map_map]
  rfl

theorem Indexed.observations_write_of_new (h : n.Indexed) {a : Assertion} (ha : a.name ∉ n.names) :
    (n.write a).observations = n.observations ++ [a.observation] := by
  have hindex : n.index[a.name]? = none := by
    rw [Option.eq_none_iff_forall_ne_some]
    intro i hi
    exact ha (h.mem_names_iff.mpr ⟨i, hi⟩)
  rw [write_of_not_indexed hindex]
  simp [observations, Belief.observation, Assertion.observation]

/-- A new name is compared with all beliefs. -/
theorem conflicts_of_new (p : SeverityPolicy) {incoming : Observation}
    (h : incoming.name ∉ n.names) :
    n.conflicts p incoming = n.observations.filterMap (p.detect · incoming) := by
  have hfilter : (n.beliefs.toList.filter fun b => b.name ≠ incoming.name) = n.beliefs.toList := by
    rw [List.filter_eq_self]
    intro b hb
    simp only [ne_eq, decide_eq_true_eq]
    intro hname
    exact h (hname ▸ List.mem_map_of_mem hb)
  rw [conflicts, hfilter, observations, List.filterMap_map]
  rfl

end Network

namespace Engine

theorem map_toConflict_findings (e : Engine α) (ids : IdSource) (incoming : Observation) :
    (e.findings ids incoming).map Contradiction.toConflict =
      e.network.conflicts e.config.policy incoming := by
  apply List.ext_getElem?
  intro i
  simp only [findings, List.getElem?_map, List.getElem?_mapIdx, Option.map_map]
  exact Option.map_id'

theorem config_of_ofConfig {c : Config} {e : Engine α} (h : ofConfig c = .ok e) : e.config = c := by
  rw [eq_of_ofConfig h]

/-- The engine holds the conflicts among the given assertions, and none of them has been settled. -/
structure Asserted (e : Engine α) (ws : List Assertion) : Prop where
  indexed : e.network.Indexed
  observations : e.network.observations = ws.map Assertion.observation
  active : (e.ledger.active.map Contradiction.toConflict).Perm
    (e.config.policy.clashes (ws.map Assertion.observation))
  resolved : e.ledger.resolved = []

variable [Scalar α]

theorem step_request {e : Engine α} {a : Assertion} {stored : Float}
    (h : e.config.accept a.confidence = .ok stored) (ids : IdSource) :
    (e.step (a.request ids)).2 =
      { e with
        ledger := e.ledger.fileAll (e.findings ids a.observation)
        network := e.network.write a } := by
  -- a confidence that is accepted is stored as it is
  obtain ⟨rfl, -⟩ := Config.accept_eq_ok_iff.mp h
  have heffect : e.effect (a.request ids) = .assertion ids a := by
    simp only [Assertion.request, effect, effectOfUpdate, h]
  rw [step_eq_perform, heffect]
  rfl

theorem Asserted.step {e : Engine α} {ws : List Assertion} (h : e.Asserted ws) {a : Assertion}
    {stored : Float} (haccept : e.config.accept a.confidence = .ok stored)
    (hnew : a.name ∉ ws.map Assertion.name) (ids : IdSource) :
    (e.step (a.request ids)).2.Asserted (ws ++ [a]) := by
  have hnames : a.name ∉ e.network.names := by
    rw [← Network.map_name_observations, h.observations, List.map_map]
    exact hnew
  rw [step_request haccept]
  refine ⟨h.indexed.write a, ?_, ?_, h.resolved⟩
  · rw [h.indexed.observations_write_of_new hnames, h.observations, List.map_append]
    rfl
  · -- what is found is the conflicts of the last observation with all others
    have hfound : (e.findings ids a.observation).map Contradiction.toConflict =
        (ws.map Assertion.observation).filterMap (e.config.policy.detect · a.observation) := by
      rw [map_toConflict_findings, Network.conflicts_of_new _ hnames, h.observations]
    rw [List.map_append, List.map_singleton]
    refine List.Perm.trans ?_ (SeverityPolicy.clashes_concat _ _ _).symm
    rw [Ledger.fileAll, List.map_append, Ledger.map_toConflict_numbered, hfound]
    exact h.active.append_right _

theorem asserted_run {e : Engine α} (hnetwork : e.network = {}) (hledger : e.ledger = {})
    {xs : List (IdSource × Assertion)} (hnames : (xs.map fun x => x.2.name).Nodup)
    (haccept : ∀ x ∈ xs, ∃ stored, e.config.accept x.2.confidence = .ok stored) :
    (e.run (Assertion.requests xs)).2.Asserted (xs.map Prod.snd) := by
  -- from the end, since the last assertion meets all others
  induction xs using List.reverseRecOn with
  | nil =>
    refine ⟨?_, ?_, ?_, ?_⟩ <;> simp only [Assertion.requests, List.map_nil, run, hnetwork, hledger]
    · exact Network.indexed_empty
    · rfl
    · exact .refl _
  | append_singleton xs x ih =>
    rw [List.map_append, List.map_singleton, List.nodup_append] at hnames
    obtain ⟨hdistinct, -, hnew⟩ := hnames
    have hbefore := ih hdistinct fun y hy => haccept y (List.mem_append_left _ hy)
    obtain ⟨stored, hstored⟩ := haccept x (by simp)
    have hx : x.2.name ∉ (xs.map Prod.snd).map Assertion.name := by
      rw [List.map_map]
      intro hmem
      exact hnew _ hmem _ (List.mem_singleton_self _) rfl
    have haccept' :
        (e.run (Assertion.requests xs)).2.config.accept x.2.confidence = .ok stored := by
      rw [run_config]
      exact hstored
    rw [Assertion.requests, List.map_append, run_append, List.map_append]
    exact hbefore.step haccept' hx x.1

/-! ## What the order does not change -/

/-- How many contradictions are active if names with the given values were asserted: one for each
pair of opposed values, one for each pair of which one side is unknown, and no others. -/
structure Tally (p : SeverityPolicy) (e : Engine α) (values : List Trit) : Prop where
  opposed : e.ledger.active.countP (fun c => c.standing.value.opposes c.incoming.value) =
    values.count .yes * values.count .no
  oneUnknown : e.ledger.active.countP
      (fun c => c.standing.value.isUnknown != c.incoming.value.isUnknown) =
    values.count .unknown * (values.count .yes + values.count .no)
  length : e.ledger.active.length = values.count .yes * values.count .no +
    values.count .unknown * (values.count .yes + values.count .no)
  detected : e.ledger.Detected p
  resolved : e.ledger.resolved = []
  filed : e.ledger.filed = e.ledger.active.length

/-- The unordered pairs of what is in conflict, each with the value
that a pass would now propose. -/
def proposals (e : Engine α) : List (Sym2 Observation × Trit) :=
  (e.ledger.pending.zip e.resolve.1.outcomes).map fun x => (x.1.sides, x.2.proposed)

/-- What two engines have in common if they hold the same conflicts, but for the order of the
conflicts and of their sides. All numbers are equal to the bit. -/
structure SameConflicts (e e' : Engine α) : Prop where
  sides : (e.ledger.active.map fun c => (c.sides, c.severity)).Perm
    (e'.ledger.active.map fun c => (c.sides, c.severity))
  distribution (s : Severity) : e.distribution[s]? = e'.distribution[s]?
  substrate : e.substrate = e'.substrate
  coherence : (e.snapshot.coherence : α) = e'.snapshot.coherence
  enhancement : (e.snapshot.enhancement : α) = e'.snapshot.enhancement
  resolved : e.resolve.1.resolved = e'.resolve.1.resolved
  cost : e.resolve.1.cost = e'.resolve.1.cost

omit [Scalar α] in
theorem Asserted.tally {e : Engine α} {ws : List Assertion} (h : e.Asserted ws)
    (hdetected : e.ledger.Detected p) (hcomplete : e.ledger.Complete) :
    e.Tally p (ws.map Assertion.value) := by
  have hvalues : (ws.map Assertion.observation).map Observation.value = ws.map Assertion.value := by
    rw [List.map_map]
    rfl
  -- records are counted as the conflicts that they are about
  have hcount (q : Trit → Trit → Bool) (hq : ∀ a b, q a b = q b a) :=
    calc
      e.ledger.active.countP (fun c => q c.standing.value c.incoming.value)
          = (e.ledger.active.map Contradiction.toConflict).countP
              (fun k => q k.standing.value k.incoming.value) := by
        rw [List.countP_map]
        rfl
      _ = (e.config.policy.clashes (ws.map Assertion.observation)).countP
            (fun k => q k.standing.value k.incoming.value) := h.active.countP_eq _
      _ = _ := SeverityPolicy.countP_clashes _ hq _
  simp only [hvalues] at hcount
  refine ⟨?_, ?_, ?_, hdetected, h.resolved, ?_⟩
  · rw [hcount Trit.opposes (by intro a b; cases a <;> cases b <;> rfl)]
    show 1 * (_ * _) + 0 * _ + 0 * _ = _
    ring
  · rw [hcount (fun a b => a.isUnknown != b.isUnknown) (by intro a b; exact bne_comm)]
    show 0 * _ + 1 * (_ * _) + 1 * (_ * _) = _
    ring
  · rw [← List.countP_true, hcount (fun _ _ => true) (fun _ _ => rfl)]
    show 1 * (_ * _) + 1 * (_ * _) + 1 * (_ * _) = _
    ring
  · have hlength := hcomplete.length_eq
    rw [h.resolved] at hlength
    exact hlength.symm

omit [Scalar α] in
theorem Asserted.map_active_perm {β : Type} {e e' : Engine α} {ws ws' : List Assertion}
    (h : e.Asserted ws) (h' : e'.Asserted ws') (hpolicy : e'.config.policy = e.config.policy)
    (hperm : ws.Perm ws') {f : Conflict → β} (hf : e.config.policy.Symmetric f) :
    (e.ledger.active.map fun c => f c.toConflict).Perm
      (e'.ledger.active.map fun c => f c.toConflict) := by
  have hactive := h.active.map f
  have hactive' := h'.active.map f
  rw [List.map_map] at hactive hactive'
  rw [hpolicy] at hactive'
  exact hactive.trans
    ((SeverityPolicy.map_clashes_perm hf (hperm.map Assertion.observation)).trans hactive'.symm)

omit [Scalar α] in
/-- A pass goes by severities alone, so it meets the same ones in the same order. -/
theorem map_severity_pending {l l' : Ledger}
    (h : (l.active.map fun c => c.severity).Perm (l'.active.map fun c => c.severity)) :
    (l.pending.map fun c => c.severity) = l'.pending.map fun c => c.severity := by
  have htally : Contradiction.tally l.active = Contradiction.tally l'.active := by
    funext s
    rw [Contradiction.tally_eq_count, Contradiction.tally_eq_count, h.count_eq]
  rw [Ledger.pending, Ledger.pending, Contradiction.map_severity_bySeverity,
    Contradiction.map_severity_bySeverity, htally]

theorem cost_resolve_eq_foldl (e : Engine α) :
    e.resolve.1.cost = (e.ledger.pending.map fun c => c.severity).foldl
      (fun sum s => sum + (Strategy.forSeverity s).cost) 0.0 := by
  show Outcome.totalCost (e.ledger.pending.map Outcome.ofContradiction) = _
  rw [Outcome.totalCost, List.foldl_map, List.foldl_map]
  rfl

theorem proposals_eq (e : Engine α) :
    e.proposals = e.ledger.pending.map fun c => (c.sides, c.proposal) := by
  have hzip := List.zip_map' (f := id) (g := Outcome.ofContradiction (α := α))
    (l := e.ledger.pending)
  rw [List.map_id] at hzip
  show (e.ledger.pending.zip (e.ledger.pending.map Outcome.ofContradiction)).map _ = _
  rw [hzip, List.map_map]
  rfl

omit [Scalar α] in
theorem snapshot_eq_ofValues (e : Engine α) :
    e.snapshot = Snapshot.ofValues (e.network.observations.map Observation.value)
      e.ledger.active.length e.ledger.resolved.length := by
  rw [snapshot, Network.observations, List.map_map]
  rfl

theorem Asserted.sameConflicts {e e' : Engine α} {ws ws' : List Assertion} (h : e.Asserted ws)
    (h' : e'.Asserted ws') (hpolicy : e'.config.policy = e.config.policy) (hperm : ws.Perm ws') :
    e.SameConflicts e' := by
  have hsides := h.map_active_perm h' hpolicy hperm (SeverityPolicy.symmetric_sides _)
  have hseverity : (e.ledger.active.map fun c => c.severity).Perm
      (e'.ledger.active.map fun c => c.severity) := by
    have hsnd := hsides.map Prod.snd
    rwa [List.map_map, List.map_map] at hsnd
  have hdistribution (s : Severity) : e.distribution[s]? = e'.distribution[s]? := by
    rw [getElem?_distribution, getElem?_distribution, Contradiction.tally_eq_count,
      Contradiction.tally_eq_count, hseverity.count_eq]
  have hvalues : (e.network.observations.map Observation.value).Perm
      (e'.network.observations.map Observation.value) := by
    rw [h.observations, h'.observations]
    exact (hperm.map _).map _
  have hlength : e.ledger.active.length = e'.ledger.active.length := by
    simpa using hseverity.length_eq
  have hsnapshot : e.snapshot = e'.snapshot := by
    rw [snapshot_eq_ofValues, snapshot_eq_ofValues, h.resolved, h'.resolved, hlength]
    simp only [Snapshot.ofValues, hvalues.length_eq, hvalues.countP_eq]
  have hpending := map_severity_pending hseverity
  refine ⟨hsides, hdistribution, substrate_congr hseverity, ?_, ?_, ?_, ?_⟩
  · rw [hsnapshot]
  · rw [hsnapshot]
  · show (e.ledger.pending.map _).length = (e'.ledger.pending.map _).length
    rw [List.length_map, List.length_map]
    simpa using congrArg List.length hpending
  · rw [cost_resolve_eq_foldl, cost_resolve_eq_foldl, hpending]

theorem Asserted.proposals_perm {e e' : Engine α} {ws ws' : List Assertion} (h : e.Asserted ws)
    (h' : e'.Asserted ws') (hpolicy : e'.config.policy = e.config.policy) (hperm : ws.Perm ws')
    (hopposed : e.config.policy.opposed ≠ .medium) : e.proposals.Perm e'.proposals := by
  rw [proposals_eq, proposals_eq]
  have hpending (m : Engine α) := Contradiction.bySeverity_perm m.ledger.active
  have hactive := h.map_active_perm h' hpolicy hperm (SeverityPolicy.symmetric_proposal hopposed)
  exact ((hpending e).map _).trans (hactive.trans ((hpending e').map _).symm)

/-- **The order of first assertions does not matter.** Let distinct names be asserted to an empty
engine, with confidences that it accepts. Then there is a contradiction for each pair of names
that disagree, and no other; and if the same assertions are made in another order, the engine
holds the same conflicts. Unless oppositions are settled by a commitment, a pass would propose the
same values for them. -/
theorem run_requests_perm {c : Config} {e : Engine α} (he : ofConfig c = .ok e)
    {xs ys : List (IdSource × Assertion)} (hnames : (xs.map fun x => x.2.name).Nodup)
    (haccept : ∀ x ∈ xs, ∃ stored, c.accept x.2.confidence = .ok stored)
    (hperm : (xs.map Prod.snd).Perm (ys.map Prod.snd)) :
    Tally c.policy (e.run (Assertion.requests xs)).2 (xs.map fun x => x.2.value) ∧
    SameConflicts (e.run (Assertion.requests xs)).2 (e.run (Assertion.requests ys)).2 ∧
    (c.policy.opposed ≠ .medium →
      (e.run (Assertion.requests xs)).2.proposals.Perm
        (e.run (Assertion.requests ys)).2.proposals) := by
  have hfresh : e.Fresh := .ofConfig he
  obtain rfl := config_of_ofConfig he
  -- what holds of the one list holds of the other
  have hnames' : (ys.map fun y => y.2.name).Nodup := by
    have hmap := (hperm.map Assertion.name).nodup_iff
    rw [List.map_map, List.map_map] at hmap
    exact hmap.mp hnames
  have haccept' : ∀ y ∈ ys, ∃ stored, e.config.accept y.2.confidence = .ok stored := by
    intro y hy
    have hmem := hperm.mem_iff.mpr (List.mem_map_of_mem (f := Prod.snd) hy)
    obtain ⟨x, hx, heq⟩ := List.mem_map.mp hmem
    exact heq ▸ haccept x hx
  have hxs := asserted_run hfresh.empty.1 hfresh.empty.2 hnames haccept
  have hys := asserted_run hfresh.empty.1 hfresh.empty.2 hnames' haccept'
  have hpolicy : (e.run (Assertion.requests ys)).2.config.policy =
      (e.run (Assertion.requests xs)).2.config.policy := by
    rw [run_config, run_config]
  refine ⟨?_, hxs.sameConflicts hys hpolicy hperm, ?_⟩
  · have hstart : e.ledger.Detected e.config.policy := by
      rw [hfresh.empty.2]
      exact Ledger.detected_empty
    have hrecord : ∀ op ∈ Assertion.requests xs, op.isRecord = false := by
      intro op hop
      obtain ⟨x, -, rfl⟩ := List.mem_map.mp hop
      rfl
    have hcomplete := ((Reachable.fresh hfresh).run (Assertion.requests xs)).complete
    have htally := hxs.tally (ledger_detected_run hstart hrecord) hcomplete
    rwa [List.map_map] at htally
  · intro hopposed
    apply hxs.proposals_perm hys hpolicy hperm
    rwa [run_config]

/-- Confidences are restricted, and oppositions are critical. -/
def wary : Config := { strict := true, policy := { opposed := .critical } }

/-- Four names, of which two are affirmed. -/
def fourNames : List (IdSource × Assertion) :=
  [(Uuid.ofNat, ⟨"a", .yes, 1.0⟩), (Uuid.ofNat, ⟨"b", .no, 0.5⟩), (Uuid.ofNat, ⟨"", .unknown, 0.0⟩),
    (Uuid.ofNat, ⟨"c", .yes, 0.25⟩)]

theorem run_requests_perm_fourNames :
    (ofConfig wary : Except Rejection (Engine Rat)) = .ok { config := wary } ∧
    (fourNames.map fun x => x.2.name).Nodup ∧
    (∀ x ∈ fourNames, ∃ stored, wary.accept x.2.confidence = .ok stored) ∧
    (fourNames.map Prod.snd).Perm (fourNames.reverse.map Prod.snd) ∧
    ({ config := wary : Engine Rat}.run (Assertion.requests fourNames)).2.ledger.active.length = 5 ∧
    ({ config := wary : Engine Rat}.run (Assertion.requests fourNames)).2.proposals.Perm
      ({ config := wary : Engine Rat}.run (Assertion.requests fourNames.reverse)).2.proposals := by
  have hconfig : (ofConfig wary : Except Rejection (Engine Rat)) = .ok { config := wary } := rfl
  have hnames : (fourNames.map fun x => x.2.name).Nodup := by decide
  have haccept : ∀ x ∈ fourNames, ∃ stored, wary.accept x.2.confidence = .ok stored := by
    intro x hx
    refine ⟨x.2.confidence, Config.accept_eq_ok_iff.mpr ⟨rfl, fun _ => ?_⟩⟩
    have hall : fourNames.all fun x => inUnit x.2.confidence := by decide
    exact List.all_eq_true.mp hall x hx
  have hperm : (fourNames.map Prod.snd).Perm (fourNames.reverse.map Prod.snd) :=
    (List.reverse_perm fourNames).symm.map _
  obtain ⟨htally, -, hproposals⟩ := run_requests_perm hconfig hnames haccept hperm
  exact ⟨hconfig, hnames, haccept, hperm, htally.length.trans (by decide), hproposals (by decide)⟩

end Engine

end TernaryBelief
