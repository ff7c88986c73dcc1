import TernaryBelief.Proofs.Correspondence

/-!
# What confidences have no part in

A confidence is stored with a belief and read back under its name. Nothing else is made of it: two
engines that rank conflicts alike, and are asked the same but for the confidences, find, settle and
score the same, as long as neither of them refuses a confidence (`Engine.run_confidences`). It does
not matter what they store; an infinite confidence, or one that is no number, is as good as any
other.

Fresh identifiers may differ between the runs. A relation `R` says which identifiers may stand for
which.

## Main definitions

* `Op.SameButConfidence`: one request with another confidence;
* `Answer.SameBut`: one answer with other identifiers;
* `Engine.SameButConfidence`: one engine with other confidences and identifiers.
-/

namespace TernaryBelief

variable {α : Type} {R : Uuid → Uuid → Prop}

/-! ## Requests, answers and engines -/

/-- It is one request, but for the confidence, and for the identifiers of new records and
of a record that is handed in. -/
inductive Op.SameButConfidence (R : Uuid → Uuid → Prop) : Op → Op → Prop where
  | update {ids ids' : IdSource} (h : ids.Related R ids') (name : String) (value : Trit)
      (confidence confidence' : Float) :
      SameButConfidence R (.network (.update ids name value confidence))
        (.network (.update ids' name value confidence'))
  | updateCode {ids ids' : IdSource} (h : ids.Related R ids') (name : String) (code : Int)
      (confidence confidence' : Float) :
      SameButConfidence R (.network (.updateCode ids name code confidence))
        (.network (.updateCode ids' name code confidence'))
  /-- The engine supplies its own default confidence. -/
  | assert {ids ids' : IdSource} (h : ids.Related R ids') (name : String) (value : Trit) :
      SameButConfidence R (.network (.assert ids name value)) (.network (.assert ids' name value))
  | record {c c' : Contradiction} (h : c.SameBut R c') :
      SameButConfidence R (.network (.record c)) (.network (.record c'))
  | resolve : SameButConfidence R (.network .resolve) (.network .resolve)
  | evaluator (op : EvaluatorOp) : SameButConfidence R (.evaluator op) (.evaluator op)

/-- The request is refused for its confidence. -/
def Answer.refusesConfidence : Answer α → Bool
  | refused (.confidenceOutOfRange _) => true
  | _ => false

/-- The outcomes differ in their identifiers at most, and then by identifiers that are related. -/
def Outcome.SameBut (R : Uuid → Uuid → Prop) (o o' : Outcome α) : Prop :=
  { o with id := o'.id } = o' ∧ (o.id = o'.id ∨ R o.id o'.id)

/-- The answers are the same, but for identifiers. -/
inductive Answer.SameBut (R : Uuid → Uuid → Prop) : Answer α → Answer α → Prop where
  | same (a : Answer α) : SameBut R a a
  | filed {u u' : Uuid} (h : R u u') : SameBut R (.filed u) (.filed u')
  | report {r : Report α} {os : List (Outcome α)}
      (h : List.Forall₂ (Outcome.SameBut R) r.outcomes os) :
      SameBut R (.report r) (.report { r with outcomes := os })

/-- Beliefs and records are the same, in the same orders, but for the confidences in beliefs and the
identifiers of records. -/
structure Engine.SameButConfidence (R : Uuid → Uuid → Prop) (e e' : Engine α) : Prop where
  policy : e'.config.policy = e.config.policy
  evaluator : e'.evaluator = e.evaluator
  beliefs : e'.network.beliefs.toList.map (fun b => (b.observation, b.revision)) =
    e.network.beliefs.toList.map fun b => (b.observation, b.revision)
  index (name : String) : e'.network.index[name]? = e.network.index[name]?
  active : List.Forall₂ (Contradiction.SameBut R) e.ledger.active e'.ledger.active
  resolved : List.Forall₂ (Contradiction.SameBut R) e.ledger.resolved e'.ledger.resolved
  filed : e'.ledger.filed = e.ledger.filed
  /-- What a pass would process now, in that order. -/
  pending : List.Forall₂ (Contradiction.SameBut R) e.ledger.pending e'.ledger.pending
  value? (name : String) : e'.value? name = e.value? name
  /-- So every score is the same. -/
  snapshot : e'.snapshot = e.snapshot
  distribution : e'.distribution = e.distribution
  substrate : e'.substrate = e.substrate

/-! ## The translation that forgets confidences -/

namespace Translation

/-- The words are the same; identifiers are related, and any confidence stands for any other. -/
def ofIds (R : Uuid → Uuid → Prop) : Translation where
  name := Eq
  value v := v
  id u u' := u = u' ∨ R u u'
  confidence _ _ := True
  name_eq_iff ha hb := by rw [ha, hb]
  value_injective _ _ h := h
  isUnknown_value _ := rfl

end Translation

open Translation (ofIds)

theorem Observation.eq_of_corresponds {o o' : Observation} (h : o.Corresponds (ofIds R) o') :
    o = o' := by
  obtain ⟨hname, hvalue⟩ := h
  cases o
  cases o'
  exact congr (congrArg Observation.mk hname) hvalue.symm

theorem Contradiction.corresponds_ofIds {c c' : Contradiction} :
    c.Corresponds (ofIds R) c' ↔ c.SameBut R c' := by
  constructor
  · intro h
    have hstanding := Observation.eq_of_corresponds h.standing
    have hincoming := Observation.eq_of_corresponds h.incoming
    obtain ⟨⟨-, -, hseverity⟩, hid, hsequence, hcontext, hattempts⟩ := h
    refine ⟨?_, hid⟩
    rcases c with ⟨⟨standing, incoming, severity⟩, id, sequence, context, attempts⟩
    rcases c' with ⟨⟨standing', incoming', severity'⟩, id', sequence', context', attempts'⟩
    simp_all
  · rintro ⟨heq, hid⟩
    rw [← heq]
    exact ⟨⟨⟨rfl, rfl⟩, ⟨rfl, rfl⟩, rfl⟩, hid, rfl, rfl, rfl⟩

theorem Outcome.sameBut_of_corresponds {o o' : Outcome α} (h : o.Corresponds (ofIds R) o') :
    o.SameBut R o' := by
  obtain ⟨hid, hseverity, hstrategy, hproposed, hcost⟩ := h
  refine ⟨?_, hid⟩
  cases o'
  simp_all [ofIds]

theorem Answer.sameBut_of_corresponds {a a' : Answer α} (h : a.Corresponds (ofIds R) a') :
    a.SameBut R a' := by
  cases h with
  | @filed u u' h =>
    rcases h with rfl | h
    · exact .same _
    · exact .filed h
  | @report r r' h =>
    obtain ⟨hresolved, hcost, hdelta, hpreserved, houtcomes⟩ := h
    have hreport : r' = { r with outcomes := r'.outcomes } := by
      cases r'
      simp_all
    rw [hreport]
    exact .report (houtcomes.imp fun _ _ ho => Outcome.sameBut_of_corresponds ho)
  | _ => exact .same _

/-! ## Runs -/

namespace Engine

variable {e e' : Engine α}

theorem Corresponds.sameButConfidence (h : e.Corresponds (ofIds R) e') :
    e.SameButConfidence R e' := by
  have hrecords {cs cs' : List Contradiction}
      (hcs : List.Forall₂ (Contradiction.Corresponds (ofIds R)) cs cs') :
      List.Forall₂ (Contradiction.SameBut R) cs cs' :=
    hcs.imp fun _ _ hc => Contradiction.corresponds_ofIds.mp hc
  refine ⟨h.policy, h.evaluator, ?beliefs, fun _ => h.network.index_eq rfl, hrecords h.active,
    hrecords h.resolved, h.filed, hrecords h.pending, ?value, h.snapshot, h.distribution,
    h.substrate⟩
  case beliefs =>
    symm
    refine map_eq_of_forall₂ (fun b b' hb => ?_) h.network.beliefs
    rw [Observation.eq_of_corresponds hb.observation, hb.revision]
  case value =>
    intro name
    have hword : (ofIds R).name name name := rfl
    exact (map_eq_of_rel (fun b b' hb => hb.observation.2.symm) (h.network.find? hword)).symm

variable [Scalar α]

/-- An assertion that is not refused for its confidence has one that is stored. -/
theorem accept_of_perform {ids : IdSource} {name : String} {value : Trit} {x : Float}
    (h : (e.perform (e.effectOfUpdate ids name value x)).1.refusesConfidence = false) :
    e.config.accept x = .ok x := by
  cases hx : e.config.accept x with
  | ok stored =>
    obtain ⟨rfl, -⟩ := Config.accept_eq_ok_iff.mp hx
    rfl
  | error reason =>
    obtain ⟨rfl, -, -⟩ := Config.accept_eq_error_iff.mp hx
    rw [effectOfUpdate, hx] at h
    cases h

theorem treats_of_perform {ids ids' : IdSource} {name name' : String} {value value' : Trit}
    {x x' : Float}
    (h : (e.perform (e.effectOfUpdate ids name value x)).1.refusesConfidence = false)
    (h' : (e'.perform (e'.effectOfUpdate ids' name' value' x')).1.refusesConfidence = false) :
    e.config.Treats (ofIds R) e'.config x x' :=
  .stored (accept_of_perform h) (accept_of_perform h') trivial

/-- If neither confidence is refused, it is one request in the words that the translation allows. -/
theorem corresponds_of_sameButConfidence {op op' : Op} (hop : op.SameButConfidence R op')
    (h : (e.step op).1.refusesConfidence = false) (h' : (e'.step op').1.refusesConfidence = false) :
    op.Corresponds (ofIds R) e.config e'.config op' := by
  rw [step_eq_perform] at h h'
  cases hop with
  | update hids name value x x' =>
    exact .update (τ := ofIds R) hids rfl value (treats_of_perform h h')
  | updateCode hids name code x x' =>
    refine .updateCode (τ := ofIds R) hids rfl (by cases Trit.ofInt code <;> rfl) ?_
    intro value hvalue
    -- the confidence is looked at only if the code says a value
    simp only [effect, hvalue] at h h'
    exact treats_of_perform h h'
  | assert hids name value =>
    exact .assert (τ := ofIds R) hids rfl value (treats_of_perform h h')
  | record hc => exact .record (Contradiction.corresponds_ofIds.mpr hc)
  | resolve => exact .resolve
  | evaluator op => exact .evaluator op

theorem forall₂_corresponds {ops ops' : List Op}
    (hops : List.Forall₂ (Op.SameButConfidence R) ops ops')
    (h : ∀ a ∈ (e.run ops).1, a.refusesConfidence = false)
    (h' : ∀ a ∈ (e'.run ops').1, a.refusesConfidence = false) :
    List.Forall₂ (Op.Corresponds (ofIds R) e.config e'.config) ops ops' := by
  -- the configurations stay, so the engines as they are admit what is admitted in the rest of a run
  induction hops generalizing e e' with
  | nil => exact .nil
  | @cons op op' ops ops' hop _ ih =>
    have hrest : List.Forall₂
        (Op.Corresponds (ofIds R) (e.step op).2.config (e'.step op').2.config) ops ops' :=
      ih (fun a ha => h a (List.mem_cons_of_mem _ ha)) fun a ha => h' a (List.mem_cons_of_mem _ ha)
    rw [step_config, step_config] at hrest
    exact .cons (corresponds_of_sameButConfidence hop (h _ List.mem_cons_self)
      (h' _ List.mem_cons_self)) hrest

/-- **Confidences influence nothing but themselves.** Two engines with one policy, however they
are configured otherwise, are asked the same but for the confidences, and refuse none of these.
Then every answer is the same but for fresh identifiers, and at every moment the two engines hold
the same beliefs and records in the same orders, but for confidences and identifiers, and show the
same scores. -/
theorem run_confidences {c c' : Config} (he : ofConfig c = .ok e) (he' : ofConfig c' = .ok e')
    (hpolicy : c'.policy = c.policy) {ops ops' : List Op}
    (hops : List.Forall₂ (Op.SameButConfidence R) ops ops')
    (hstored : ∀ a ∈ (e.run ops).1, a.refusesConfidence = false)
    (hstored' : ∀ a ∈ (e'.run ops').1, a.refusesConfidence = false) :
    List.Forall₂ (Answer.SameBut R) (e.run ops).1 (e'.run ops').1 ∧
    ∀ n, SameButConfidence R (e.run (ops.take n)).2 (e'.run (ops'.take n)).2 := by
  have hstart : e.Corresponds (ofIds R) e' := by
    have hfresh : e.Fresh := .ofConfig he
    have hfresh' : e'.Fresh := .ofConfig he'
    obtain rfl := eq_of_ofConfig he
    obtain rfl := eq_of_ofConfig he'
    exact hfresh.corresponds hfresh' hpolicy rfl
  have hrequests := forall₂_corresponds hops hstored hstored'
  refine ⟨(hstart.run hrequests).1.imp fun _ _ ha => Answer.sameBut_of_corresponds ha, fun n => ?_⟩
  exact (hstart.run (List.forall₂_take n hrequests)).2.sameButConfidence

/-- Any confidence is stored, and the default one is large. -/
def lax : Config := { defaultConfidence := 64.0 }

/-- Confidences are restricted. -/
def strict : Config := { strict := true, defaultConfidence := 0.25 }

/-- Two names come to disagree, a code says no value, a record comes in, a pass is made,
and one side becomes unknown. -/
def asked (ids : IdSource) (x y : Float) : List Op :=
  let foreign : Contradiction :=
    { standing := ⟨"a", .yes⟩, incoming := ⟨"a", .no⟩, severity := .critical, id := ids 3 }
  [.network (.update ids "a" .yes x), .network (.updateCode ids "b" (-1) y),
    .network (.updateCode ids "b" 2 x), .network (.record foreign), .network .resolve,
    .network (.assert ids "a" .unknown)]

/-- The lax engine is told that the confidences are no number and infinite. -/
theorem run_confidences_lax_strict :
    let ids' : IdSource := fun i => Uuid.ofNat (i + 1)
    let R (u u' : Uuid) : Prop := ∃ i, u = Uuid.ofNat i ∧ u' = Uuid.ofNat (i + 1)
    let ops := asked Uuid.ofNat (0.0 / 0.0) (1.0 / 0.0)
    let ops' := asked ids' 1.0 (-0.0)
    (ofConfig lax : Except Rejection (Engine Rat)) = .ok { config := lax } ∧
    (ofConfig strict : Except Rejection (Engine Rat)) = .ok { config := strict } ∧
    strict.policy = lax.policy ∧ List.Forall₂ (Op.SameButConfidence R) ops ops' ∧
    (∀ a ∈ (({ config := lax } : Engine Rat).run ops).1, a.refusesConfidence = false) ∧
    (∀ a ∈ (({ config := strict } : Engine Rat).run ops').1, a.refusesConfidence = false) ∧
    List.Forall₂ (Answer.SameBut R) (({ config := lax } : Engine Rat).run ops).1
      (({ config := strict } : Engine Rat).run ops').1 ∧
    (({ config := strict } : Engine Rat).run ops').2.ledger.filed = 3 := by
  intro ids' R ops ops'
  have hlax : (ofConfig lax : Except Rejection (Engine Rat)) = .ok { config := lax } := rfl
  have hstrict : (ofConfig strict : Except Rejection (Engine Rat)) = .ok { config := strict } := rfl
  have hids : IdSource.Related R Uuid.ofNat ids' := fun i => .inr ⟨i, rfl, rfl⟩
  have hops : List.Forall₂ (Op.SameButConfidence R) ops ops' :=
    .cons (.update hids _ _ _ _) (.cons (.updateCode hids _ _ _ _) (.cons (.updateCode hids _ _ _ _)
      (.cons (.record ⟨rfl, hids 3⟩) (.cons .resolve (.cons (.assert hids _ _) .nil)))))
  have hstored : ∀ a ∈ (({ config := lax } : Engine Rat).run ops).1,
      a.refusesConfidence = false := by
    decide +kernel
  have hstored' : ∀ a ∈ (({ config := strict } : Engine Rat).run ops').1,
      a.refusesConfidence = false := by
    decide +kernel
  obtain ⟨hanswers, hruns⟩ := run_confidences hlax hstrict rfl hops hstored hstored'
  have hrun := hruns ops.length
  exact ⟨hlax, hstrict, rfl, hops, hstored, hstored', hanswers,
    hrun.filed.trans (by decide +kernel)⟩

end Engine

end TernaryBelief
