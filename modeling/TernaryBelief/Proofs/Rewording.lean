import Mathlib.Data.Set.Function
import TernaryBelief.Proofs.Correspondence

/-!
# Other names and negated values

A run may be reworded: every name in it is replaced by another one, every value by another one, and
new records get other identifiers. If different names stay different and what is unknown stays
unknown, the reworded run has the reworded answers and leads to the reworded engine
(`Engine.Fresh.run_reworded`). There are two wordings of interest.

* To exchange affirming and denying is a symmetry of the engine (`Engine.run_negated`): nothing in
  detection, classification, processing or scoring favours the one or the other.
* Names only serve to tell beliefs apart (`Engine.run_renamed`): neither their order nor their text
  matters, nor that one of them is empty.

## Main definitions

* `Wording`, with `Wording.negation` and `Wording.ofNames`;
* `Op.reworded`, `Answer.reworded`: requests and answers in other words;
* `Engine.Reworded`: one engine is another one in other words.
-/

namespace TernaryBelief

variable {α : Type}

/-! ## Wordings -/

/-- Other words for names, values and identifiers. Values that are told apart
stay so, and the unknown is kept. -/
structure Wording where
  name : String → String
  value : Trit → Trit
  ident : Uuid → Uuid
  value_injective : Function.Injective value
  isUnknown_value (v : Trit) : (value v).isUnknown = v.isUnknown

namespace Wording

/-- Affirming and denying change places; names stay. -/
def negation (newId : Uuid → Uuid) : Wording where
  name name := name
  value v := -v
  ident := newId
  value_injective := Function.Involutive.injective Trit.neg_neg
  isUnknown_value := Trit.isUnknown_neg

/-- Names are replaced; values stay. -/
def ofNames (r : String → String) (newId : Uuid → Uuid) : Wording where
  name := r
  value := id
  ident := newId
  value_injective := Function.injective_id
  isUnknown_value _ := rfl

/-- The code of a value in other words. An integer that codes no value stays as it is. -/
def code (w : Wording) (n : Int) : Int := ((Trit.ofInt? n).map fun v => (w.value v).toInt).getD n

end Wording

section Reworded

variable (w : Wording)

def Observation.reworded (o : Observation) : Observation := ⟨w.name o.name, w.value o.value⟩

def Contradiction.reworded (c : Contradiction) : Contradiction :=
  { c with
    standing := c.standing.reworded w, incoming := c.incoming.reworded w, id := w.ident c.id }

def Belief.reworded (b : Belief) : Belief :=
  { b with name := w.name b.name, value := w.value b.value }

def Outcome.reworded (o : Outcome α) : Outcome α :=
  { o with id := w.ident o.id, proposed := w.value o.proposed }

def Report.reworded (r : Report α) : Report α :=
  { r with outcomes := r.outcomes.map (Outcome.reworded w) }

/-- The answer in other words: identifiers, and the values that a
report proposes. All else stays. -/
def Answer.reworded : Answer α → Answer α
  | filed u => filed (w.ident u)
  | report r => report (r.reworded w)
  | a => a

/-- The request in other words. Confidences stay, and an evaluator is asked the same. -/
def Op.reworded : Op → Op
  | .network (.update ids name value confidence) =>
    .network (.update (w.ident ∘ ids) (w.name name) (w.value value) confidence)
  | .network (.updateCode ids name code confidence) =>
    .network (.updateCode (w.ident ∘ ids) (w.name name) (w.code code) confidence)
  | .network (.assert ids name value) =>
    .network (.assert (w.ident ∘ ids) (w.name name) (w.value value))
  | .network (.record c) => .network (.record (c.reworded w))
  | .network .resolve => .network .resolve
  | .evaluator op => .evaluator op

end Reworded

/-- The names that a request uses. -/
def Op.names : Op → List String
  | .network (.update _ name _ _) => [name]
  | .network (.updateCode _ name _ _) => [name]
  | .network (.assert _ name _) => [name]
  | .network (.record c) => [c.standing.name, c.incoming.name]
  | .network .resolve => []
  | .evaluator _ => []

/-- One engine is the other one in other words, in the same orders; the names that may be
looked up are those of a set. -/
structure Engine.Reworded (w : Wording) (S : Set String) (e e' : Engine α) : Prop where
  config : e'.config = e.config
  evaluator : e'.evaluator = e.evaluator
  beliefs : e'.network.beliefs.toList = e.network.beliefs.toList.map (Belief.reworded w)
  /-- The keys of the one index are the words for those of the other. -/
  index (name' : String) (i : Nat) : e'.network.index[name']? = some i ↔
    ∃ name, w.name name = name' ∧ e.network.index[name]? = some i
  active : e'.ledger.active = e.ledger.active.map (Contradiction.reworded w)
  resolved : e'.ledger.resolved = e.ledger.resolved.map (Contradiction.reworded w)
  filed : e'.ledger.filed = e.ledger.filed
  /-- What a pass would process now, in that order. -/
  pending : e'.ledger.pending = e.ledger.pending.map (Contradiction.reworded w)
  belief? : ∀ name ∈ S, e'.belief? (w.name name) = (e.belief? name).map (Belief.reworded w)
  /-- So every score is the same. -/
  snapshot : e'.snapshot = e.snapshot
  distribution : e'.distribution = e.distribution
  substrate : e'.substrate = e.substrate

/-! ## A wording as a translation -/

namespace Wording

variable {w : Wording} {S : Set String}

/-- The wording, for names of a set in which different names stay different. -/
def translation (w : Wording) (S : Set String) (hS : Set.InjOn w.name S) : Translation where
  name name name' := name ∈ S ∧ name' = w.name name
  value := w.value
  id u u' := u' = w.ident u
  confidence := Eq
  name_eq_iff := by
    rintro a _ b _ ⟨ha, rfl⟩ ⟨hb, rfl⟩
    exact (hS.eq_iff ha hb).symm
  value_injective := w.value_injective
  isUnknown_value := w.isUnknown_value

theorem ofInt_code (w : Wording) (n : Int) :
    Trit.ofInt (w.code n) = (Trit.ofInt n).map w.value := by
  cases hn : Trit.ofInt? n with
  | some v =>
    have hcode : w.code n = (w.value v).toInt := by
      simp only [code, hn, Option.map_some, Option.getD_some]
    have hread : Trit.ofInt n = .ok v := by simp only [Trit.ofInt, hn]
    rw [hcode, hread, Trit.ofInt_toInt]
    rfl
  | none =>
    -- both runs are told the same integer, and refuse it alike
    have hcode : w.code n = n := by simp only [code, hn, Option.map_none, Option.getD_none]
    have hread : Trit.ofInt n = .error (.notATrit n) := by simp only [Trit.ofInt, hn]
    rw [hcode, hread]
    rfl

variable {hS : Set.InjOn w.name S}

theorem eq_reworded_of_observation {o o' : Observation}
    (h : o.Corresponds (w.translation S hS) o') : o' = o.reworded w := by
  obtain ⟨⟨-, hname⟩, hvalue⟩ := h
  cases o'
  simp_all [Observation.reworded, translation]

theorem eq_reworded_of_belief {b b' : Belief} (h : b.Corresponds (w.translation S hS) b') :
    b' = b.reworded w := by
  obtain ⟨⟨⟨-, hname⟩, hvalue⟩, hconfidence, hrevision⟩ := h
  cases b'
  simp_all [Belief.reworded, Belief.observation, translation]

theorem eq_reworded_of_record {c c' : Contradiction}
    (h : c.Corresponds (w.translation S hS) c') : c' = c.reworded w := by
  have hstanding := eq_reworded_of_observation h.standing
  have hincoming := eq_reworded_of_observation h.incoming
  obtain ⟨⟨-, -, hseverity⟩, hid, hsequence, hcontext, hattempts⟩ := h
  rcases c' with ⟨⟨standing', incoming', severity'⟩, id', sequence', context', attempts'⟩
  simp_all [Contradiction.reworded, translation]

theorem eq_reworded_of_outcome {o o' : Outcome α} (h : o.Corresponds (w.translation S hS) o') :
    o' = o.reworded w := by
  obtain ⟨hid, hseverity, hstrategy, hproposed, hcost⟩ := h
  cases o'
  simp_all [Outcome.reworded, translation]

/-- Where each corresponds to each, the one list is the other one in other words. -/
theorem eq_map_of_forall₂ {β : Type} {P : β → β → Prop} {f : β → β} (hf : ∀ x y, P x y → y = f x)
    {xs ys : List β} (h : List.Forall₂ P xs ys) : ys = xs.map f := by
  rw [map_eq_of_forall₂ (g := id) (fun x y hxy => (hf x y hxy).symm) h, List.map_id]

theorem eq_map_of_rel {β : Type} {P : β → β → Prop} {f : β → β} (hf : ∀ x y, P x y → y = f x)
    {x y : Option β} (h : Option.Rel P x y) : y = x.map f := by
  rw [map_eq_of_rel (g := id) (fun x y hxy => (hf x y hxy).symm) h, Option.map_id, id]

theorem eq_reworded_of_answer {a a' : Answer α} (h : a.Corresponds (w.translation S hS) a') :
    a' = a.reworded w := by
  cases h with
  | @report r r' h =>
    have houtcomes := eq_map_of_forall₂ (fun _ _ ho => eq_reworded_of_outcome ho) h.outcomes
    obtain ⟨hresolved, hcost, hdelta, hpreserved, -⟩ := h
    cases r'
    simp_all [Answer.reworded, Report.reworded]
  | filed h => exact congrArg Answer.filed h
  | _ => rfl

theorem treats_self {c : Config} (x : Float) : c.Treats (w.translation S hS) c x x := by
  cases hx : c.accept x with
  | ok stored =>
    obtain ⟨rfl, -⟩ := Config.accept_eq_ok_iff.mp hx
    exact .stored hx hx rfl
  | error reason => exact .refused hx hx

/-- A request that uses names of the set corresponds to the same request in other words. -/
theorem corresponds_reworded {op : Op} (hop : ∀ name ∈ op.names, name ∈ S) (c : Config) :
    op.Corresponds (w.translation S hS) c c (op.reworded w) := by
  have hword {name : String} (hname : name ∈ S) : (w.translation S hS).name name (w.name name) :=
    ⟨hname, rfl⟩
  match op with
  | .network (.update ids name value x) =>
    have hname := hword (hop name List.mem_cons_self)
    exact .update (fun _ => rfl) hname value (treats_self x)
  | .network (.updateCode ids name code x) =>
    have hname := hword (hop name List.mem_cons_self)
    exact .updateCode (fun _ => rfl) hname (w.ofInt_code code) fun _ _ => treats_self x
  | .network (.assert ids name value) =>
    have hname := hword (hop name List.mem_cons_self)
    exact .assert (fun _ => rfl) hname value (treats_self _)
  | .network (.record r) =>
    have hstanding := hword (hop r.standing.name List.mem_cons_self)
    have hincoming := hword (hop r.incoming.name (List.mem_cons_of_mem _ List.mem_cons_self))
    have hconflict : r.toConflict.Corresponds (w.translation S hS) (r.reworded w).toConflict :=
      ⟨⟨hstanding, rfl⟩, ⟨hincoming, rfl⟩, rfl⟩
    exact .record ⟨hconflict, rfl, rfl, rfl, rfl⟩
  | .network .resolve => exact .resolve
  | .evaluator op => exact .evaluator op

end Wording

/-! ## Reworded runs -/

namespace Engine

variable {e e' : Engine α} {w : Wording} {S : Set String}

/-- Where the beliefs are reworded in their order, so are the keys of an index that is in step. -/
theorem index_of_map_beliefs {n n' : Network} (h : n.Indexed) (h' : n'.Indexed)
    (hbeliefs : n'.beliefs.toList = n.beliefs.toList.map (Belief.reworded w)) (name' : String)
    (i : Nat) :
    n'.index[name']? = some i ↔ ∃ name, w.name name = name' ∧ n.index[name]? = some i := by
  have hname : n'.beliefs[i]?.map Belief.name = (n.beliefs[i]?.map Belief.name).map w.name := by
    rw [← Array.getElem?_toList, ← Array.getElem?_toList, hbeliefs, List.getElem?_map,
      Option.map_map, Option.map_map]
    rfl
  rw [h' name' i, hname, Option.map_eq_some_iff]
  simp only [h _ i]
  exact ⟨fun ⟨name, hi, hw⟩ => ⟨name, hw, hi⟩, fun ⟨name, hw, hi⟩ => ⟨name, hi, hw⟩⟩

theorem Corresponds.reworded {hS : Set.InjOn w.name S} (h : e.Corresponds (w.translation S hS) e')
    (hconfig : e'.config = e.config) : e.Reworded w S e' := by
  have hbeliefs := Wording.eq_map_of_forall₂
    (fun _ _ hb => Wording.eq_reworded_of_belief hb) h.network.beliefs
  have hrecords {cs cs' : List Contradiction}
      (hcs : List.Forall₂ (Contradiction.Corresponds (w.translation S hS)) cs cs') :
      cs' = cs.map (Contradiction.reworded w) :=
    Wording.eq_map_of_forall₂ (fun _ _ hc => Wording.eq_reworded_of_record hc) hcs
  refine ⟨hconfig, h.evaluator, hbeliefs, ?index, hrecords h.active, hrecords h.resolved, h.filed,
    hrecords h.pending, ?belief, h.snapshot, h.distribution, h.substrate⟩
  case index => exact index_of_map_beliefs h.network.indexed h.network.indexed' hbeliefs
  case belief =>
    intro name hname
    have hword : (w.translation S hS).name name (w.name name) := ⟨hname, rfl⟩
    exact Wording.eq_map_of_rel (fun _ _ hb => Wording.eq_reworded_of_belief hb)
      (h.network.find? hword)

variable [Scalar α]

/-- **A reworded run** has the reworded answers, and leads to the reworded engine. -/
theorem Fresh.run_reworded (h : e.Fresh) (hS : Set.InjOn w.name S) {ops : List Op}
    (hops : ∀ op ∈ ops, ∀ name ∈ op.names, name ∈ S) :
    (e.run (ops.map (Op.reworded w))).1 = (e.run ops).1.map (Answer.reworded w) ∧
      Reworded w S (e.run ops).2 (e.run (ops.map (Op.reworded w))).2 := by
  -- one engine is asked twice, so it starts out corresponding to itself
  have hrequests : List.Forall₂ (Op.Corresponds (w.translation S hS) e.config e.config) ops
      (ops.map (Op.reworded w)) := by
    rw [List.forall₂_map_right_iff, List.forall₂_same]
    exact fun op hop => Wording.corresponds_reworded (hops op hop) e.config
  obtain ⟨hanswers, hrun⟩ := (h.corresponds h rfl rfl).run hrequests
  refine ⟨Wording.eq_map_of_forall₂ (fun _ _ ha => Wording.eq_reworded_of_answer ha) hanswers,
    hrun.reworded ?_⟩
  rw [run_config, run_config]

/-- The same holds at every moment of the run. -/
theorem Fresh.run_take_reworded (h : e.Fresh) (hS : Set.InjOn w.name S) {ops : List Op}
    (hops : ∀ op ∈ ops, ∀ name ∈ op.names, name ∈ S) (n : Nat) :
    Reworded w S (e.run (ops.take n)).2 (e.run ((ops.map (Op.reworded w)).take n)).2 := by
  rw [← List.map_take]
  exact (h.run_reworded hS fun op hop => hops op (List.mem_of_mem_take hop)).2

/-! ## Negated values -/

/-- **Affirming and denying are on a par.** If every value that is asserted or recorded is
negated, and records get new identifiers in the same order, then every answer is the same but for
the proposed values, which are negated, and these identifiers. At every moment the two engines
hold the same beliefs and records in the same orders, with the values negated, and show the same
scores. -/
theorem run_negated (h : e.Fresh) (newId : Uuid → Uuid) (ops : List Op) :
    let w := Wording.negation newId
    (e.run (ops.map (Op.reworded w))).1 = (e.run ops).1.map (Answer.reworded w) ∧
    ∀ n, Reworded w Set.univ (e.run (ops.take n)).2
      (e.run ((ops.map (Op.reworded w)).take n)).2 := by
  intro w
  have hS : Set.InjOn w.name Set.univ := fun _ _ _ _ hname => hname
  have hops : ∀ op ∈ ops, ∀ name ∈ op.names, name ∈ Set.univ := fun _ _ name _ => Set.mem_univ name
  exact ⟨(h.run_reworded hS hops).1, h.run_take_reworded hS hops⟩

/-- Two names come to disagree, a code says no value, and a record comes in whose severity calls
for its certain side. After a pass there is an unknown side. -/
def bothSides : List Op :=
  let foreign : Contradiction :=
    { standing := ⟨"d", .unknown⟩, incoming := ⟨"d", .no⟩, severity := .medium, id := Uuid.ofNat 7 }
  [.network (.update Uuid.ofNat "a" .yes 1.0), .network (.updateCode Uuid.ofNat "b" (-1) 0.5),
    .network (.updateCode Uuid.ofNat "b" 2 0.5), .network (.record foreign), .network .resolve,
    .network (.assert Uuid.ofNat "a" .unknown)]

theorem run_negated_bothSides :
    let w := Wording.negation id
    Fresh ({} : Engine Rat) ∧
    (({} : Engine Rat).run (bothSides.map (Op.reworded w))).1 =
      (({} : Engine Rat).run bothSides).1.map (Answer.reworded w) ∧
    (({} : Engine Rat).run (bothSides.map (Op.reworded w))).2.ledger.filed = 3 ∧
    (({} : Engine Rat).run (bothSides.map (Op.reworded w))).2.ledger.active.map
      (fun c => (c.sequence, c.standing.value, c.incoming.value)) = [(3, .yes, .unknown)] := by
  intro w
  obtain ⟨hanswers, hruns⟩ := run_negated (.blank : Fresh ({} : Engine Rat)) id bothSides
  have hrun := hruns bothSides.length
  exact ⟨.blank, hanswers, hrun.filed.trans (by decide +kernel),
    (congrArg _ hrun.active).trans (by decide +kernel)⟩

/-! ## Other names -/

omit [Scalar α] in
/-- The identifiers and proposed values of an answer do not depend on the names. -/
theorem reworded_ofNames (r : String → String) (newId : Uuid → Uuid) (a : Answer α) :
    a.reworded (.ofNames r newId) = a.reworded (.ofNames (fun name => name) newId) := by
  cases a <;> rfl

/-- **Names matter only up to equality.** If the names that a run uses are replaced so that
different ones stay different, and records get new identifiers in the same order, then every
answer is the same but for these identifiers. At every moment the two engines hold the same
beliefs and records in the same orders under the other names, what is looked up under a name in
the one is found under its other name in the other, and all scores are the same. -/
theorem run_renamed (h : e.Fresh) (r : String → String) (newId : Uuid → Uuid) {S : Set String}
    (hr : Set.InjOn r S) {ops : List Op} (hops : ∀ op ∈ ops, ∀ name ∈ op.names, name ∈ S) :
    let w := Wording.ofNames r newId
    (e.run (ops.map (Op.reworded w))).1 =
      (e.run ops).1.map (Answer.reworded (.ofNames (fun name => name) newId)) ∧
    ∀ n, Reworded w S (e.run (ops.take n)).2 (e.run ((ops.map (Op.reworded w)).take n)).2 ∧
      ∀ name ∈ S,
        (e.run ((ops.map (Op.reworded w)).take n)).2.value? (r name) =
          (e.run (ops.take n)).2.value? name ∧
        (e.run ((ops.map (Op.reworded w)).take n)).2.confidence? (r name) =
          (e.run (ops.take n)).2.confidence? name := by
  intro w
  refine ⟨?answers, fun n => ?state⟩
  case answers =>
    rw [(h.run_reworded (w := w) hr hops).1]
    exact List.map_congr_left fun a _ => reworded_ofNames r newId a
  case state =>
    have hstate := h.run_take_reworded (w := w) hr hops n
    refine ⟨hstate, fun name hname => ?_⟩
    have hbelief := hstate.belief? name hname
    -- other names leave the value and the confidence of a belief as they are
    constructor
    · rw [value?, value?]
      exact (congrArg (Option.map Belief.value) hbelief).trans (Option.map_map ..)
    · rw [confidence?, confidence?]
      exact (congrArg (Option.map Belief.confidence) hbelief).trans (Option.map_map ..)

/-- Two names change places, of which one is empty, and the third one becomes longer. -/
def otherNames (name : String) : String :=
  if name = "" then "aa" else if name = "aa" then "" else name ++ name

/-- Three names, of which one is looked up only. -/
def threeNames : List Op :=
  [.network (.update Uuid.ofNat "" .yes 1.0), .network (.update Uuid.ofNat "aa" .no 0.5),
    .network .resolve, .network (.update Uuid.ofNat "" .unknown 0.25)]

theorem run_renamed_threeNames :
    let w := Wording.ofNames otherNames id
    let S : Set String := {name | name ∈ ["", "aa", "b"]}
    Fresh ({} : Engine Rat) ∧ Set.InjOn otherNames S ∧
    (∀ op ∈ threeNames, ∀ name ∈ op.names, name ∈ S) ∧
    (({} : Engine Rat).run (threeNames.map (Op.reworded w))).2.value? "aa" = some .unknown ∧
    (({} : Engine Rat).run (threeNames.map (Op.reworded w))).2.confidence? "" = some 0.5 ∧
    (({} : Engine Rat).run (threeNames.map (Op.reworded w))).2.value? "bb" = none := by
  intro w S
  have hinj : Set.InjOn otherNames S := by
    have hall : ∀ a ∈ ["", "aa", "b"], ∀ b ∈ ["", "aa", "b"],
        otherNames a = otherNames b → a = b := by
      decide +kernel
    exact fun a ha b hb => hall a ha b hb
  have hnames : ∀ op ∈ threeNames, ∀ name ∈ op.names, name ∈ S := by
    simp [threeNames, Op.names, S]
  obtain ⟨-, hruns⟩ := run_renamed (.blank : Fresh ({} : Engine Rat)) otherNames id hinj hnames
  have hmem : ∀ name ∈ ["", "aa", "b"], name ∈ S := fun name hname => hname
  obtain ⟨-, hlookup⟩ := hruns threeNames.length
  refine ⟨.blank, hinj, hnames, ?_, ?_, ?_⟩
  · exact (hlookup "" (hmem "" (by decide))).1
  · exact (hlookup "aa" (hmem "aa" (by decide))).2
  · exact (hlookup "b" (hmem "b" (by decide))).1

end Engine

end TernaryBelief
