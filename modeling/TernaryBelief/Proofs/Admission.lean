import TernaryBelief.Proofs.Disagreement
import TernaryBelief.Proofs.Refusal

/-!
# Which confidences are admitted

A confidence comes in with a request, or the engine supplies its default. The default is checked
once, when the engine is made, and every confidence that is to be stored is checked again; the first
check also asks for a finite number. The two checks agree (`Config.valid_iff`): if confidences are
restricted, nothing that lies between 0 and 1 is infinite or no number, and if they are not, the
second check admits everything. So an assertion that leaves the confidence to the engine is never
refused, whatever the engine has been through.

What is stored is what was supplied. Over a whole run, the confidence in a name is the last one that
was supplied for it and admitted, and it reaches the network unchanged (`Engine.Fresh.run_admits`).

## Main definitions

* `Op.supplied?`: the name and the confidence of a request that asserts something;
* `Config.admits`: the confidence may be stored;
* `Engine.Admits`: what an engine makes of confidences, the stored ones and those that come.
-/

namespace TernaryBelief

variable {α : Type}

/-! ## The two checks -/

/-- What lies between 0 and 1 is finite, and so it is a number. -/
theorem finite_of_inUnit {x : Float} (h : inUnit x = true) : x.isNaN = false ∧ x.isInf = false := by
  have hfinite : x.toModel.unpack.isFinite = true := by
    by_contra hnot
    rw [inUnit_of_not_finite (Bool.eq_false_iff.mpr hnot)] at h
    exact Bool.false_ne_true h
  show x.toModel.unpack.isNaN = false ∧ x.toModel.unpack.isInf = false
  cases hx : x.toModel.unpack with
  | zero s => exact ⟨rfl, rfl⟩
  | finite s m q hm => exact ⟨rfl, rfl⟩
  | notANumber =>
    rw [hx] at hfinite
    exact absurd hfinite Bool.false_ne_true
  | infinity s =>
    rw [hx] at hfinite
    exact absurd hfinite Bool.false_ne_true

namespace Config

/-- The confidence may be stored. -/
def admits (c : Config) (confidence : Float) : Bool := !c.strict || inUnit confidence

theorem accept_eq (c : Config) (x : Float) :
    c.accept x = if c.admits x then .ok x else .error (.confidenceOutOfRange x) := by
  unfold accept admits
  cases c.strict <;> cases inUnit x <;> rfl

theorem admits_of_lax {c : Config} (h : c.strict = false) (x : Float) : c.admits x = true := by
  rw [admits, h]
  rfl

theorem inUnit_of_admits {c : Config} (h : c.strict = true) {x : Float} (hx : c.admits x = true) :
    inUnit x = true := by
  rwa [admits, h] at hx

/-- A configuration is valid exactly if its default confidence is finite and may be stored. -/
theorem valid_iff {c : Config} :
    c.Valid ↔ c.defaultConfidence.isFinite = true ∧ c.admits c.defaultConfidence = true := by
  unfold Valid fault? admits
  cases c.defaultConfidence.isFinite <;> cases c.strict <;>
    cases inUnit c.defaultConfidence <;> simp

theorem valid_default : ({} : Config).Valid := by decide +kernel

end Config

/-! ## What requests supply -/

/-- The name that a request asserts and the confidence that comes with it, which may be the
default. A code that cannot be read asserts nothing. -/
def Op.supplied? (c : Config) : Op → Option (String × Float)
  | .network (.update _ name _ confidence) => some (name, confidence)
  | .network (.updateCode _ name code confidence) =>
    (Trit.ofInt? code).map fun _ => (name, confidence)
  | .network (.assert _ name _) => some (name, c.defaultConfidence)
  | _ => none

/-- The name of an assertion, with its confidence. -/
def Assertion.held (a : Assertion) : String × Float := (a.name, a.confidence)

/-- What requests leave as the confidence in a name: what was supplied for
it last, of what is admitted. -/
def Config.lastSupplied? (c : Config) (ops : List Op) (name : String) : Option Float :=
  (((ops.filterMap (Op.supplied? c)).filter fun s => c.admits s.2).filter fun s =>
    s.1 = name).getLast?.map Prod.snd

namespace Engine

/-- The assertion that an effect writes. -/
theorem written?_of_effect {e : Engine α} {op : Op} {ids : IdSource} {name : String} {value : Trit}
    {confidence : Float} (h : e.effect op = e.effectOfUpdate ids name value confidence) :
    (e.written? op).map Assertion.held =
      (some (name, confidence)).filter fun s => e.config.admits s.2 := by
  rw [written?, h, effectOfUpdate, Config.accept_eq]
  by_cases hadmits : e.config.admits confidence = true
  · simp [Option.filter, hadmits, Assertion.held]
  · simp [Option.filter, hadmits]

/-- A request writes the confidence that it supplies, if that is admitted. -/
theorem map_held_written? (e : Engine α) (op : Op) :
    (e.written? op).map Assertion.held =
      (op.supplied? e.config).filter fun s => e.config.admits s.2 := by
  match op with
  | .network (.update ids name value confidence) => exact written?_of_effect rfl
  | .network (.assert ids name value) => exact written?_of_effect rfl
  | .network (.updateCode ids name code confidence) =>
    cases hcode : Trit.ofInt? code with
    | none =>
      have heffect : e.effect (.network (.updateCode ids name code confidence)) =
          .refusal (.notATrit code) := by
        simp only [effect, Trit.ofInt, hcode]
      simp [written?, heffect, Op.supplied?, hcode]
    | some value =>
      have heffect : e.effect (.network (.updateCode ids name code confidence)) =
          e.effectOfUpdate ids name value confidence := by
        simp only [effect, Trit.ofInt, hcode]
      rw [written?_of_effect heffect, Op.supplied?, hcode]
      rfl
  | .network (.record c) => rfl
  | .network .resolve => rfl
  | .evaluator op => rfl

/-- What is written passes the check. -/
theorem admits_of_written {e : Engine α} {op : Op} {a : Assertion} (h : e.written? op = some a) :
    e.config.admits a.confidence = true := by
  have hheld := e.map_held_written? op
  rw [h, Option.map_some] at hheld
  exact (Option.filter_eq_some_iff.mp hheld.symm).2

variable [Scalar α]

/-- **A run writes what its requests supply**, as far as that is admitted, without any change. -/
theorem map_held_writes (e : Engine α) (ops : List Op) :
    (e.writes ops).map Assertion.held =
      (ops.filterMap (Op.supplied? e.config)).filter fun s => e.config.admits s.2 := by
  induction ops generalizing e with
  | nil => rfl
  | cons op ops ih =>
    have hrest := ih (e.step op).2
    have hhere := e.map_held_written? op
    rw [step_config] at hrest
    rw [writes_cons, List.map_append, hrest, ← Option.toList_map, hhere]
    cases hop : op.supplied? e.config with
    | none => rw [List.filterMap_cons_none hop]; rfl
    | some s =>
      rw [List.filterMap_cons_some hop, List.filter_cons]
      cases hadmits : e.config.admits s.2 <;> simp [Option.filter, hadmits]

end Engine

/-! ## What is stored -/

/-- If all confidences have a property, they still do after an assertion whose confidence has it. -/
theorem Network.forall_confidence_write {P : Float → Prop} {n : Network}
    (h : ∀ b ∈ n.beliefs, P b.confidence) {a : Assertion} (ha : P a.confidence) :
    ∀ b ∈ (n.write a).beliefs, P b.confidence := by
  intro b hb
  cases hi : n.index[a.name]? with
  | none =>
    rw [write_of_not_indexed hi, Array.mem_push] at hb
    rcases hb with hold | rfl
    · exact h b hold
    · exact ha
  | some i =>
    -- a belief is what it was, or it has been overwritten
    rw [write_of_index hi, Array.mem_iff_getElem?] at hb
    obtain ⟨j, hj⟩ := hb
    rw [Array.getElem?_modify] at hj
    split at hj
    · obtain ⟨old, -, rfl⟩ := Option.map_eq_some_iff.mp hj
      exact ha
    · exact h b (Array.mem_of_getElem? hj)

namespace Engine

variable {e : Engine α}

theorem Fresh.valid (h : e.Fresh) : e.config.Valid := by
  cases h with
  | blank => exact Config.valid_default
  | ofEvaluator v => exact Config.valid_default
  | ofConfig h =>
    obtain ⟨hvalid, rfl⟩ := ofConfig_eq_ok_iff.mp h
    exact hvalid

/-- What an engine makes of confidences. -/
structure Admits (e : Engine α) : Prop where
  /-- The check that the default has passed is the one that every confidence is put to. -/
  default : e.config.defaultConfidence.isFinite = true ∧
    e.config.accept e.config.defaultConfidence = .ok e.config.defaultConfidence
  /-- If the confidence is left to the engine, nothing is refused. -/
  assert (ids : IdSource) (name : String) (value : Trit) :
    ∃ count after b, e.assert ids name value = .ok (count, after) ∧
      after.belief? name = some b ∧ b.value = value ∧ b.confidence = e.config.defaultConfidence
  strict : e.config.strict = true → ∀ b ∈ e.network.beliefs,
    ((0.0 : Float) ≤ b.confidence ∧ b.confidence ≤ 1.0) ∧ b.confidence.isNaN = false ∧
      b.confidence.isInf = false
  lax : e.config.strict = false → ∀ ids name value confidence,
    ∃ count after b, e.update ids name value confidence = .ok (count, after) ∧
      after.belief? name = some b ∧ b.value = value ∧ b.confidence = confidence
  /-- To give the value by its code makes no difference, and any other
  code is refused for what it is. -/
  code (ids : IdSource) (name : String) (confidence : Float) :
    (∀ value : Trit, e.updateCode ids name value.toInt confidence =
      e.update ids name value confidence) ∧
    ∀ n ∉ [-1, 0, 1], e.updateCode ids name n confidence = .error (.notATrit n)

variable [Scalar α]

theorem Reachable.valid (h : e.Reachable) : e.config.Valid := by
  induction h with
  | fresh h => exact h.valid
  | step _ op ih => rwa [step_config]

/-- Every stored confidence has passed the check. -/
theorem Reachable.admits_confidence (h : e.Reachable) :
    ∀ b ∈ e.network.beliefs, e.config.admits b.confidence = true := by
  induction h with
  | fresh h =>
    rw [h.empty.1]
    intro b hb
    exact absurd hb (Array.not_mem_empty b)
  | @step e _ op ih =>
    rw [step_config]
    cases hop : e.written? op with
    | none => rwa [step_network_of_not_written hop]
    | some a =>
      rw [step_network_of_written hop]
      exact Network.forall_confidence_write (P := fun x => e.config.admits x = true) ih
        (admits_of_written hop)

theorem Reachable.admits (h : e.Reachable) : e.Admits := by
  obtain ⟨hfinite, hdefault⟩ := Config.valid_iff.mp h.valid
  have haccept {x : Float} (hx : e.config.admits x = true) : e.config.accept x = .ok x := by
    rw [Config.accept_eq, if_pos hx]
  refine ⟨⟨hfinite, haccept hdefault⟩, ?assert, ?strict, ?lax, ?code⟩
  case assert =>
    exact fun ids name value => believes_of_accept h.indexed (haccept hdefault) ids name value
  case strict =>
    intro hstrict b hb
    have hunit := Config.inUnit_of_admits hstrict (h.admits_confidence b hb)
    exact ⟨inUnit_eq_true_iff.mp hunit, finite_of_inUnit hunit⟩
  case lax =>
    intro hlax ids name value confidence
    have haccepted := haccept (Config.admits_of_lax hlax confidence)
    exact believes_of_accept h.indexed haccepted ids name value
  case code =>
    intro ids name confidence
    refine ⟨fun value => updateCode_of_read (Trit.ofInt_toInt value), fun n hn => ?_⟩
    exact updateCode_of_unread (Trit.ofInt_eq_error_iff.mpr ⟨rfl, hn⟩)

/-- **What an engine makes of confidences**, after any requests to a new one. The default is
admitted; if confidences are restricted, every stored one lies between 0 and 1; if they are not,
none is refused. Whatever is stored in a name was supplied for it last, of what was admitted. -/
theorem Fresh.run_admits (h : e.Fresh) (ops : List Op) :
    (e.run ops).2.config = e.config ∧ (e.run ops).2.Admits ∧
    ∀ name, (e.run ops).2.confidence? name = e.config.lastSupplied? ops name := by
  refine ⟨e.run_config ops, (Reachable.run (.fresh h) ops).admits, fun name => ?_⟩
  have hfind : (e.run ops).2.belief? name = Assertion.last? (e.writes ops) name := by
    rw [belief?, run_network, h.empty.1, Network.find?_foldl_write]
  have hheld : (Assertion.of (e.writes ops) name).map Assertion.held =
      ((e.writes ops).map Assertion.held).filter fun s => s.1 = name := by
    rw [List.filter_map]
    rfl
  rw [confidence?, hfind, Assertion.last?, Option.map_map, Config.lastSupplied?, ← map_held_writes,
    ← hheld, List.getLast?_map, Option.map_map]
  rfl

/-- Confidences are restricted, and the default one is the least. -/
def leastConfident : Config := { defaultConfidence := -0.0, strict := true }

/-- Two names are supplied with confidences at the ends of the interval, with one beyond
it, and with what is no number. -/
def confidencesOfAllKinds : List Op :=
  let ids : IdSource := Uuid.ofNat
  [.network (.update ids "a" .yes 1.0), .network (.assert ids "b" .no),
    .network (.update ids "a" .no 1.5), .network .resolve,
    .network (.updateCode ids "b" 1 (0.0 / 0.0)),
    .network (.updateCode ids "a" 7 0.5)]

/-- The negative zero is stored as it is, and what lies outside is not stored. -/
theorem run_admits_confidencesOfAllKinds :
    (ofConfig leastConfident : Except Rejection (Engine Rat)) = .ok { config := leastConfident } ∧
    (({ config := leastConfident } : Engine Rat).run confidencesOfAllKinds).2.confidence? "a" =
      some 1.0 ∧
    (({ config := leastConfident } : Engine Rat).run confidencesOfAllKinds).2.confidence? "b" =
      some (-0.0) ∧
    (∀ b ∈
      (({ config := leastConfident } : Engine Rat).run confidencesOfAllKinds).2.network.beliefs,
      (0.0 : Float) ≤ b.confidence ∧ b.confidence ≤ 1.0) ∧
    ∃ count after, (({ config := leastConfident } : Engine Rat).run confidencesOfAllKinds).2.assert
      Uuid.ofNat "a" .unknown = .ok (count, after) := by
  have hmade : (ofConfig leastConfident : Except Rejection (Engine Rat)) =
      .ok { config := leastConfident } :=
    ofConfig_eq_ok_iff.mpr ⟨by decide +kernel, rfl⟩
  obtain ⟨hconfig, hadmits, hlast⟩ := Fresh.run_admits (.ofConfig hmade) confidencesOfAllKinds
  refine ⟨hmade, (hlast "a").trans ?_, (hlast "b").trans ?_, ?_, ?_⟩
  · decide +kernel
  · decide +kernel
  · exact fun b hb => (hadmits.strict (by rw [hconfig]; rfl) b hb).1
  · obtain ⟨count, after, -, hassert, -⟩ := hadmits.assert Uuid.ofNat "a" .unknown
    exact ⟨count, after, hassert⟩

end Engine

end TernaryBelief
