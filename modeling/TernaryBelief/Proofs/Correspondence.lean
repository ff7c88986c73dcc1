import TernaryBelief.Proofs.Detection
import TernaryBelief.Proofs.LastWriter

/-!
# One run in the words of another

Two engines may be asked the same things in different words: other names, other identifiers for new
records, other confidences, and values that are called by other names. A `Translation` says which
words of the one stand for which of the other. All that an engine does with a name is to compare it
with another one; with an identifier or a confidence it does nothing at all, once the confidence is
admitted; and of a value it asks whether it is unknown and whether two values differ. So two engines
that are asked the same in different words answer the same in different words
(`Engine.Corresponds.run`).

## Layers

* **Words**: `Translation`, and what it makes of observations, records, beliefs and answers
  (`Corresponds`);
* **Detection and filing**: what corresponds is in conflict alike, and is processed in one order
  (`Contradiction.forall₂_bySeverity`);
* **Network**: two indices lead corresponding names to one place (`Network.Corresponds.index_eq`);
* **Requests and runs**: `Op.Corresponds`, `Engine.Corresponds.step`, `Engine.Corresponds.run`.
-/

namespace TernaryBelief

variable {α : Type}

/-! ## Words -/

/-- Which words of one run stand for which of another. Names that are told apart in the one are told
apart in the other; so are values, and the unknown is unknown in both. -/
structure Translation where
  name : String → String → Prop
  value : Trit → Trit
  id : Uuid → Uuid → Prop
  confidence : Float → Float → Prop
  name_eq_iff {a a' b b' : String} : name a a' → name b b' → (a = b ↔ a' = b')
  value_injective : Function.Injective value
  isUnknown_value (v : Trit) : (value v).isUnknown = v.isUnknown

section Words

variable (τ : Translation)

def Observation.Corresponds (o o' : Observation) : Prop :=
  τ.name o.name o'.name ∧ o'.value = τ.value o.value

/-- The sides correspond, each to the one in its own place. -/
structure Conflict.Corresponds (k k' : Conflict) : Prop where
  standing : k.standing.Corresponds τ k'.standing
  incoming : k.incoming.Corresponds τ k'.incoming
  severity : k'.severity = k.severity

structure Contradiction.Corresponds (c c' : Contradiction) : Prop
    extends Conflict.Corresponds τ c.toConflict c'.toConflict where
  id : τ.id c.id c'.id
  sequence : c'.sequence = c.sequence
  context : c'.context = c.context
  attempts : c'.attempts = c.attempts

structure Belief.Corresponds (b b' : Belief) : Prop where
  observation : b.observation.Corresponds τ b'.observation
  confidence : τ.confidence b.confidence b'.confidence
  revision : b'.revision = b.revision

structure Assertion.Corresponds (a a' : Assertion) : Prop where
  observation : a.observation.Corresponds τ a'.observation
  confidence : τ.confidence a.confidence a'.confidence

structure Outcome.Corresponds (o o' : Outcome α) : Prop where
  id : τ.id o.id o'.id
  severity : o'.severity = o.severity
  strategy : o'.strategy = o.strategy
  proposed : o'.proposed = τ.value o.proposed
  cost : o'.cost = o.cost

/-- All numbers are the same, to the bit. -/
structure Report.Corresponds (r r' : Report α) : Prop where
  resolved : r'.resolved = r.resolved
  cost : r'.cost = r.cost
  delta : r'.delta = r.delta
  preserved : r'.preserved = r.preserved
  outcomes : List.Forall₂ (Outcome.Corresponds τ) r.outcomes r'.outcomes

inductive Answer.Corresponds : Answer α → Answer α → Prop where
  | found (count : Nat) : Corresponds (.found count) (.found count)
  | filed {u u' : Uuid} (h : τ.id u u') : Corresponds (.filed u) (.filed u')
  | report {r r' : Report α} (h : r.Corresponds τ r') : Corresponds (.report r) (.report r')
  | concluded (c : Conclusion α) : Corresponds (.concluded c) (.concluded c)
  | opposed (yes : Bool) : Corresponds (.opposed yes) (.opposed yes)
  | refused (reason : Rejection) : Corresponds (.refused reason) (.refused reason)

inductive Effect.Corresponds : Effect → Effect → Prop where
  | assertion {ids ids' : IdSource} (hids : ∀ i, τ.id (ids i) (ids' i)) {a a' : Assertion}
      (ha : a.Corresponds τ a') : Corresponds (.assertion ids a) (.assertion ids' a')
  | filing {c c' : Contradiction} (h : c.Corresponds τ c') : Corresponds (.filing c) (.filing c')
  | pass : Corresponds .pass .pass
  | refusal (reason : Rejection) : Corresponds (.refusal reason) (.refusal reason)
  | reasoning (op : EvaluatorOp) : Corresponds (.reasoning op) (.reasoning op)

end Words

variable {τ : Translation}

namespace Translation

@[simp] theorem value_unknown (τ : Translation) : τ.value .unknown = .unknown := by
  have h := τ.isUnknown_value .unknown
  cases hv : τ.value .unknown with
  | unknown => rfl
  | _ => rw [hv] at h; cases h

@[simp] theorem isCertain_value (τ : Translation) (v : Trit) :
    (τ.value v).isCertain = v.isCertain := by
  simp only [Trit.isCertain, τ.isUnknown_value]

end Translation

/-! ## Detection and filing -/

/-- Whether values differ, and whether one of them is unknown, is the same in both runs. -/
theorem SeverityPolicy.rel_detect (p : SeverityPolicy) {x x' y y' : Observation}
    (hx : x.Corresponds τ x') (hy : y.Corresponds τ y') :
    Option.Rel (Conflict.Corresponds τ) (p.detect x y) (p.detect x' y') := by
  have hvalue : x'.value = y'.value ↔ x.value = y.value := by
    rw [hx.2, hy.2, τ.value_injective.eq_iff]
  unfold detect
  by_cases h : x.value = y.value
  · rw [if_pos h, if_pos (hvalue.mpr h)]
    exact .none
  · rw [if_neg h, if_neg (mt hvalue.mp h)]
    refine .some ⟨hx, hy, ?_⟩
    show p.classify x'.value y'.value = p.classify x.value y.value
    rw [p.classify_of_ne h, p.classify_of_ne (mt hvalue.mp h), hx.2, hy.2]
    simp only [Translation.isCertain_value]

namespace Conflict

variable {k k' : Conflict}

theorem Corresponds.certainValue (h : k.Corresponds τ k') :
    k'.certainValue = k.certainValue.map τ.value := by
  unfold Conflict.certainValue
  rw [h.standing.2, h.incoming.2, τ.isCertain_value, τ.isCertain_value]
  -- the standing side is adopted in both runs, or the incoming one, or neither
  split
  · rfl
  · split <;> rfl

theorem Corresponds.propose (h : k.Corresponds τ k') (s : Strategy) :
    s.propose k' = τ.value (s.propose k) := by
  cases s with
  | commitToCertain =>
    simp only [Strategy.propose, h.certainValue]
    cases k.certainValue with
    | none => exact τ.value_unknown.symm
    | some v => rfl
  | _ => exact τ.value_unknown.symm

end Conflict

namespace Contradiction

variable {c c' : Contradiction}

theorem Corresponds.renumber (h : c.Corresponds τ c') (n : Nat) :
    Corresponds τ { c with sequence := n } { c' with sequence := n } :=
  { h with sequence := rfl }

theorem Corresponds.attempted (h : c.Corresponds τ c') :
    c.attempted.Corresponds τ c'.attempted :=
  { h with attempts := congrArg (· + 1) h.attempts }

theorem Corresponds.outcome [Scalar α] (h : c.Corresponds τ c') :
    (Outcome.ofContradiction c : Outcome α).Corresponds τ (Outcome.ofContradiction c') := by
  have hstrategy : Strategy.forSeverity c'.severity = Strategy.forSeverity c.severity := by
    rw [h.severity]
  refine ⟨h.id, h.severity, hstrategy, ?_, congrArg Strategy.cost hstrategy⟩
  show (Strategy.forSeverity c'.severity).propose c'.toConflict = _
  rw [hstrategy, h.toCorresponds.propose]
  rfl

/-- What is paired in the order of filing is paired in the order of processing, as long as only
equally severe records are paired. -/
theorem forall₂_bySeverity {P : Contradiction → Contradiction → Prop}
    (hP : ∀ c d, P c d → d.severity = c.severity) {cs ds : List Contradiction}
    (h : List.Forall₂ P cs ds) : List.Forall₂ P (bySeverity cs) (bySeverity ds) := by
  rw [bySeverity_eq_flatMap, bySeverity_eq_flatMap]
  -- a batch is processed group by group, and the groups of one severity correspond
  refine List.rel_flatMap (R := Eq) (List.forall₂_same.mpr fun _ _ => rfl) ?_
  rintro s _ rfl
  refine List.rel_filter (fun c d hcd => ?_) h
  simp only [hP c d hcd]

end Contradiction

/-- Costs are summed in one order, so the sums are the same. -/
theorem Outcome.totalCost_eq_of_forall₂ [Scalar α] {os os' : List (Outcome α)}
    (h : List.Forall₂ (Outcome.Corresponds τ) os os') : totalCost os' = totalCost os := by
  have hcosts : os.map Outcome.cost = os'.map Outcome.cost :=
    map_eq_of_forall₂ (fun _ _ ho => ho.cost.symm) h
  have hsum (os : List (Outcome α)) :
      totalCost os = (os.map Outcome.cost).foldl (fun sum cost => sum + cost) 0.0 :=
    List.foldl_map.symm
  rw [hsum, hsum, hcosts]

/-! ## Networks -/

theorem rel_getElem? {β γ : Type} {P : β → γ → Prop} {xs : List β} {ys : List γ}
    (h : List.Forall₂ P xs ys) (i : Nat) : Option.Rel P xs[i]? ys[i]? := by
  induction h generalizing i with
  | nil => exact .none
  | cons hxy _ ih =>
    cases i with
    | zero => exact .some hxy
    | succ i => exact ih i

theorem map_eq_of_rel {β γ δ : Type} {P : β → γ → Prop} {f : β → δ} {g : γ → δ}
    (hfg : ∀ x y, P x y → f x = g y) {x : Option β} {y : Option γ} (h : Option.Rel P x y) :
    x.map f = y.map g := by
  cases h with
  | none => rfl
  | some hxy => exact congrArg some (hfg _ _ hxy)

theorem forall₂_modify {β γ : Type} {P : β → γ → Prop} {f : β → β} {g : γ → γ}
    (hfg : ∀ x y, P x y → P (f x) (g y)) {xs : List β} {ys : List γ} (h : List.Forall₂ P xs ys)
    (i : Nat) : List.Forall₂ P (xs.modify i f) (ys.modify i g) := by
  induction h generalizing i with
  | nil => simp
  | cons hxy hrest ih =>
    cases i with
    | zero => exact .cons (hfg _ _ hxy) hrest
    | succ i => exact .cons hxy (ih i)

/-- The beliefs correspond in their order, and each index is in step with its own beliefs. -/
structure Network.Corresponds (τ : Translation) (n n' : Network) : Prop where
  indexed : n.Indexed
  indexed' : n'.Indexed
  beliefs : List.Forall₂ (Belief.Corresponds τ) n.beliefs.toList n'.beliefs.toList

namespace Network

variable {n n' : Network} {name name' : String}

theorem Corresponds.getElem? (h : n.Corresponds τ n') (i : Nat) :
    Option.Rel (Belief.Corresponds τ) n.beliefs[i]? n'.beliefs[i]? := by
  simpa using rel_getElem? h.beliefs i

/-- **Corresponding names have one place**, however the two indices are ordered. -/
theorem Corresponds.index_eq (h : n.Corresponds τ n') (hname : τ.name name name') :
    n'.index[name']? = n.index[name]? := by
  apply Option.ext
  intro i
  -- an index that is in step says what the beliefs say, and these are compared place by place
  rw [h.indexed' name' i, h.indexed name i]
  have hbelief := h.getElem? i
  generalize n.beliefs[i]? = b at hbelief ⊢
  generalize n'.beliefs[i]? = b' at hbelief ⊢
  cases hbelief with
  | none => simp
  | some hb =>
    have heq := τ.name_eq_iff hb.observation.1 hname
    simp only [Option.map_some, Option.some.injEq]
    exact heq.symm

theorem Corresponds.find? (h : n.Corresponds τ n') (hname : τ.name name name') :
    Option.Rel (Belief.Corresponds τ) (n.find? name) (n'.find? name') := by
  unfold Network.find?
  rw [h.index_eq hname]
  cases n.index[name]? with
  | none => exact .none
  | some i => exact h.getElem? i

theorem Corresponds.conflicts (h : n.Corresponds τ n') (p : SeverityPolicy)
    {incoming incoming' : Observation} (hincoming : incoming.Corresponds τ incoming') :
    List.Forall₂ (Conflict.Corresponds τ) (n.conflicts p incoming)
      (n'.conflicts p incoming') := by
  have hothers : List.Forall₂ (Belief.Corresponds τ)
      (n.beliefs.toList.filter fun b => b.name ≠ incoming.name)
      (n'.beliefs.toList.filter fun b => b.name ≠ incoming'.name) := by
    refine List.rel_filter (fun b b' hb => ?_) h.beliefs
    -- the name that is asserted is skipped in both runs
    have hname := τ.name_eq_iff hb.observation.1 hincoming.1
    simp only [decide_eq_true_eq]
    exact not_congr hname
  exact List.rel_filterMap (fun b b' hb => p.rel_detect hb.observation hincoming) hothers

theorem Corresponds.write (h : n.Corresponds τ n') {a a' : Assertion}
    (ha : a.Corresponds τ a') : (n.write a).Corresponds τ (n'.write a') := by
  refine ⟨h.indexed.write a, h.indexed'.write a', ?_⟩
  have hindex := h.index_eq ha.observation.1
  cases hi : n.index[a.name]? with
  | some i =>
    rw [write_of_index hi, write_of_index (hindex.trans hi), Array.toList_modify,
      Array.toList_modify]
    refine forall₂_modify (fun b b' hb => ?_) h.beliefs i
    exact ⟨⟨hb.observation.1, ha.observation.2⟩, ha.confidence, congrArg (· + 1) hb.revision⟩
  | none =>
    rw [write_of_not_indexed hi, write_of_not_indexed (hindex.trans hi), Array.toList_push,
      Array.toList_push]
    exact List.rel_append h.beliefs (.cons ⟨ha.observation, ha.confidence, rfl⟩ .nil)

end Network

/-! ## Engines and requests -/

/-- Everything corresponds, in the same orders; the two engines rank conflicts
alike and have reasoned alike. -/
structure Engine.Corresponds (τ : Translation) (e e' : Engine α) : Prop where
  policy : e'.config.policy = e.config.policy
  evaluator : e'.evaluator = e.evaluator
  network : e.network.Corresponds τ e'.network
  active : List.Forall₂ (Contradiction.Corresponds τ) e.ledger.active e'.ledger.active
  resolved : List.Forall₂ (Contradiction.Corresponds τ) e.ledger.resolved e'.ledger.resolved
  filed : e'.ledger.filed = e.ledger.filed

/-- Both confidences are stored, or both are refused, for the same reason. -/
inductive Config.Treats (τ : Translation) (c c' : Config) (x x' : Float) : Prop where
  | stored (h : c.accept x = .ok x) (h' : c'.accept x' = .ok x') (hx : τ.confidence x x')
  | refused {reason : Rejection} (h : c.accept x = .error reason)
    (h' : c'.accept x' = .error reason)

/-- It is one request in different words, made to engines with the given configurations. A code
that says no value is refused in both runs, with the same refusal; only if it says one does the
confidence matter. -/
inductive Op.Corresponds (τ : Translation) (c c' : Config) : Op → Op → Prop where
  | update {ids ids' : IdSource} (hids : ∀ i, τ.id (ids i) (ids' i)) {name name' : String}
      (hname : τ.name name name') (value : Trit) {x x' : Float} (hx : c.Treats τ c' x x') :
      Corresponds τ c c' (.network (.update ids name value x))
        (.network (.update ids' name' (τ.value value) x'))
  | updateCode {ids ids' : IdSource} (hids : ∀ i, τ.id (ids i) (ids' i)) {name name' : String}
      (hname : τ.name name name') {code code' : Int}
      (hcode : Trit.ofInt code' = (Trit.ofInt code).map τ.value) {x x' : Float}
      (hx : ∀ value, Trit.ofInt code = .ok value → c.Treats τ c' x x') :
      Corresponds τ c c' (.network (.updateCode ids name code x))
        (.network (.updateCode ids' name' code' x'))
  | assert {ids ids' : IdSource} (hids : ∀ i, τ.id (ids i) (ids' i)) {name name' : String}
      (hname : τ.name name name') (value : Trit)
      (hx : c.Treats τ c' c.defaultConfidence c'.defaultConfidence) :
      Corresponds τ c c' (.network (.assert ids name value))
        (.network (.assert ids' name' (τ.value value)))
  | record {r r' : Contradiction} (h : r.Corresponds τ r') :
      Corresponds τ c c' (.network (.record r)) (.network (.record r'))
  | resolve : Corresponds τ c c' (.network .resolve) (.network .resolve)
  | evaluator (op : EvaluatorOp) : Corresponds τ c c' (.evaluator op) (.evaluator op)

namespace Engine

variable {e e' : Engine α}

/-- New engines with nothing said to them correspond, whatever the words. -/
theorem Fresh.corresponds (h : e.Fresh) (h' : e'.Fresh)
    (hpolicy : e'.config.policy = e.config.policy) (hevaluator : e'.evaluator = e.evaluator) :
    e.Corresponds τ e' := by
  obtain ⟨hnetwork, hledger⟩ := h.empty
  obtain ⟨hnetwork', hledger'⟩ := h'.empty
  refine ⟨hpolicy, hevaluator, ?_, ?_, ?_, ?_⟩
  · rw [hnetwork, hnetwork']
    exact ⟨Network.indexed_empty, Network.indexed_empty, .nil⟩
  · rw [hledger, hledger']
    exact .nil
  · rw [hledger, hledger']
    exact .nil
  · rw [hledger, hledger']

/-! ### What an engine shows -/

theorem Corresponds.snapshot (h : e.Corresponds τ e') : e'.snapshot = e.snapshot := by
  -- a snapshot has of each value only whether it is unknown
  have hunknown : (e.network.beliefs.toList.map Belief.value).map Trit.isUnknown =
      (e'.network.beliefs.toList.map Belief.value).map Trit.isUnknown := by
    rw [List.map_map, List.map_map]
    refine map_eq_of_forall₂ (fun b b' hb => ?_) h.network.beliefs
    have hvalue : b'.value = τ.value b.value := hb.observation.2
    simp only [Function.comp_apply, hvalue, τ.isUnknown_value]
  have hcount := congrArg (List.countP id) hunknown
  have hlength := congrArg List.length hunknown
  simp only [List.countP_map, List.length_map, Function.id_comp] at hcount hlength
  simp only [Engine.snapshot, Snapshot.ofValues, List.countP_map, List.length_map, hcount, hlength,
    h.active.length_eq, h.resolved.length_eq]

theorem Corresponds.distribution (h : e.Corresponds τ e') : e'.distribution = e.distribution := by
  unfold Engine.distribution
  rw [map_eq_of_forall₂ (g := fun c => c.severity) (fun _ _ hc => hc.severity.symm) h.active]

theorem Corresponds.substrate (h : e.Corresponds τ e') : e'.substrate = e.substrate := by
  rw [Engine.substrate, Engine.substrate, h.distribution]

theorem Corresponds.pending (h : e.Corresponds τ e') :
    List.Forall₂ (Contradiction.Corresponds τ) e.ledger.pending e'.ledger.pending :=
  Contradiction.forall₂_bySeverity (fun _ _ hc => hc.severity) h.active

/-! ### One request -/

theorem Corresponds.findings (h : e.Corresponds τ e') {ids ids' : IdSource}
    (hids : ∀ i, τ.id (ids i) (ids' i)) {incoming incoming' : Observation}
    (hincoming : incoming.Corresponds τ incoming') :
    List.Forall₂ (Contradiction.Corresponds τ) (e.findings ids incoming)
      (e'.findings ids' incoming') := by
  unfold Engine.findings
  have hconflicts := h.network.conflicts e.config.policy hincoming
  rw [← h.policy] at hconflicts ⊢
  exact forall₂_mapIdx (fun i _ _ hconflict => ⟨hconflict, hids i, rfl, rfl, rfl⟩) hconflicts

theorem effectOfUpdate_corresponds {ids ids' : IdSource} (hids : ∀ i, τ.id (ids i) (ids' i))
    {name name' : String} (hname : τ.name name name') (value : Trit) {x x' : Float}
    (hx : e.config.Treats τ e'.config x x') :
    (e.effectOfUpdate ids name value x).Corresponds τ
      (e'.effectOfUpdate ids' name' (τ.value value) x') := by
  unfold Engine.effectOfUpdate
  cases hx with
  | stored hok hok' hconfidence =>
    rw [hok, hok']
    exact .assertion hids ⟨⟨hname, rfl⟩, hconfidence⟩
  | refused herror herror' =>
    rw [herror, herror']
    exact .refusal _

/-- Whether a request is accepted, and what it does then, does not depend on the words. -/
theorem effect_corresponds {op op' : Op} (hop : op.Corresponds τ e.config e'.config op') :
    (e.effect op).Corresponds τ (e'.effect op') := by
  cases hop with
  | update hids hname value hx => exact effectOfUpdate_corresponds hids hname value hx
  | @updateCode ids ids' hids name name' hname code code' hcode x x' hx =>
    simp only [Engine.effect, hcode]
    cases hread : Trit.ofInt code with
    | ok value => exact effectOfUpdate_corresponds hids hname value (hx value hread)
    | error reason => exact .refusal reason
  | assert hids hname value hx => exact effectOfUpdate_corresponds hids hname value hx
  | record hrecord => exact .filing hrecord
  | resolve => exact .pass
  | evaluator op => exact .reasoning op

variable [Scalar α]

theorem Corresponds.resolve (h : e.Corresponds τ e') :
    e.resolve.1.Corresponds τ e'.resolve.1 ∧ e.resolve.2.Corresponds τ e'.resolve.2 := by
  have houtcomes : List.Forall₂ (Outcome.Corresponds τ)
      (e.ledger.pending.map (Outcome.ofContradiction (α := α)))
      (e'.ledger.pending.map Outcome.ofContradiction) :=
    List.rel_map (fun c c' hc => hc.outcome) h.pending
  have hresolved : List.Forall₂ (Contradiction.Corresponds τ) e.resolve.2.ledger.resolved
      e'.resolve.2.ledger.resolved :=
    List.rel_append h.resolved (List.rel_map (fun c c' hc => hc.attempted) h.pending)
  have hafter : e.resolve.2.Corresponds τ e'.resolve.2 :=
    ⟨h.policy, h.evaluator, h.network, .nil, hresolved, h.filed⟩
  refine ⟨⟨houtcomes.length_eq.symm, Outcome.totalCost_eq_of_forall₂ houtcomes, ?_,
    congrArg Snapshot.preserved hafter.snapshot, houtcomes⟩, hafter⟩
  -- a pass leaves the evaluator alone, so the change over it is a number less itself
  show e'.evaluator.phi - e'.evaluator.phi = e.evaluator.phi - e.evaluator.phi
  rw [h.evaluator]

omit [Scalar α] in
theorem Corresponds.fileAll (h : e.Corresponds τ e') {cs cs' : List Contradiction}
    (hcs : List.Forall₂ (Contradiction.Corresponds τ) cs cs') :
    Corresponds τ { e with ledger := e.ledger.fileAll cs }
      { e' with ledger := e'.ledger.fileAll cs' } := by
  -- the numbering goes on from one count
  refine { h with active := ?_, filed := ?_ }
  · show List.Forall₂ _ (_ ++ Ledger.numbered _ cs) (_ ++ Ledger.numbered e'.ledger.filed cs')
    rw [h.filed]
    exact List.rel_append h.active (Ledger.forall₂_numbered (fun _ _ n hc => hc.renumber n) hcs _)
  · show e'.ledger.filed + cs'.length = e.ledger.filed + cs.length
    rw [h.filed, hcs.length_eq]

theorem Corresponds.perform (h : e.Corresponds τ e') {x x' : Effect} (hx : x.Corresponds τ x') :
    (e.perform x).1.Corresponds τ (e'.perform x').1 ∧
      (e.perform x).2.Corresponds τ (e'.perform x').2 := by
  cases hx with
  | assertion hids ha =>
    have hfound := h.findings hids ha.observation
    refine ⟨?_, { h.fileAll hfound with network := h.network.write ha }⟩
    simp only [Engine.perform, ← hfound.length_eq]
    exact .found _
  | filing hc => exact ⟨.filed hc.id, h.fileAll (.cons hc .nil)⟩
  | pass => exact ⟨.report h.resolve.1, h.resolve.2⟩
  | refusal reason => exact ⟨.refused reason, h⟩
  | reasoning op =>
    refine ⟨?_, { h with evaluator := by simp only [Engine.perform, h.evaluator] }⟩
    simp only [Engine.perform, h.evaluator]
    -- an evaluator has no words but values, and these are not translated
    have hself := Evaluator.apply_step (fun a => Answer.Corresponds τ a a) True e.evaluator op
      (fun c => eq_true (.concluded c)) (fun yes => eq_true (.opposed yes))
      (fun reason => eq_true (.refused reason))
    exact of_eq_true hself

/-- **One request in different words** is answered alike, and what corresponded corresponds. -/
theorem Corresponds.step (h : e.Corresponds τ e') {op op' : Op}
    (hop : op.Corresponds τ e.config e'.config op') :
    (e.step op).1.Corresponds τ (e'.step op').1 ∧ (e.step op).2.Corresponds τ (e'.step op').2 := by
  rw [step_eq_perform, step_eq_perform]
  exact h.perform (effect_corresponds hop)

/-- **A run in different words** gives corresponding answers and leads to a corresponding engine. -/
theorem Corresponds.run (h : e.Corresponds τ e') {ops ops' : List Op}
    (hops : List.Forall₂ (Op.Corresponds τ e.config e'.config) ops ops') :
    List.Forall₂ (Answer.Corresponds τ) (e.run ops).1 (e'.run ops').1 ∧
      (e.run ops).2.Corresponds τ (e'.run ops').2 := by
  generalize hc : e.config = c at hops
  generalize hc' : e'.config = c' at hops
  -- the configurations stay as they are, so the requests correspond all along
  induction hops generalizing e e' with
  | nil => exact ⟨.nil, h⟩
  | cons hop _ ih =>
    subst hc hc'
    obtain ⟨hanswer, hstep⟩ := h.step hop
    obtain ⟨hanswers, hrun⟩ := ih hstep (step_config e _) (step_config e' _)
    exact ⟨.cons hanswer hanswers, hrun⟩

end Engine

end TernaryBelief
