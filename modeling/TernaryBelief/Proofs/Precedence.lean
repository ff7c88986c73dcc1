import Mathlib.Data.Set.List
import TernaryBelief.Proofs.History

/-!
# What is refused first

A chain can be called with integer codes for its premises and with tags for its operations. Codes
are read before tags, and tags before the premises are looked at. So of several faults a call is
refused for one: for the first code that codes no truth value, else for the first tag that names no
connective, also if its operation would find no premise, else for the want of a premise. A call
without a fault runs the chain that it stands for (`Evaluator.reads_inOrder`).

## Main definitions

* `Explains`: a reader refuses what a partial reader cannot read, and says what that was;
* `Evaluator.Call`: a call, and the steps that it takes in place;
* `Evaluator.ReadsTags`, `Evaluator.ReadsCodes`: what such a call comes to.
-/

namespace TernaryBelief

/-! ## Reading a list -/

section

variable {ι β ε : Type} {read : ι → Except ε β} {read? : ι → Option β} {refuse : ι → ε}

/-- What `read?` cannot read, `read` refuses. -/
def Explains (read : ι → Except ε β) (read? : ι → Option β) (refuse : ι → ε) : Prop :=
  ∀ x, read x = (read? x).elim (.error (refuse x)) .ok

theorem mapM_cons_error {x : ι} {xs : List ι} {reason : ε} (h : read x = .error reason) :
    (x :: xs).mapM read = .error reason := by
  rw [List.mapM_cons, h]
  rfl

theorem mapM_cons_ok {x : ι} {xs : List ι} {y : β} (h : read x = .ok y) :
    (x :: xs).mapM read = (xs.mapM read).map (y :: ·) := by
  rw [List.mapM_cons, h]
  cases xs.mapM read <;> rfl

/-- A list is refused for its first element that cannot be read. -/
theorem Explains.mapM_eq_error (h : Explains read read? refuse) {xs : List ι} {x : ι}
    (hx : xs.find? (fun x => (read? x).isNone) = some x) : xs.mapM read = .error (refuse x) := by
  induction xs with
  | nil => cases hx
  | cons z zs ih =>
    have hread := h z
    cases hz : read? z with
    | none =>
      rw [hz] at hread
      rw [List.find?_cons_of_pos (by rw [hz]; rfl)] at hx
      cases hx
      exact mapM_cons_error hread
    | some y =>
      -- what is refused stands behind an element that can be read
      rw [hz] at hread
      rw [List.find?_cons_of_neg (by rw [hz]; exact Bool.false_ne_true)] at hx
      rw [mapM_cons_ok hread, ih hx]
      rfl

/-- A list of which every element can be read is read element by element. -/
theorem Explains.mapM_eq_ok (h : Explains read read? refuse) {xs : List ι} {ys : List β}
    (hxs : xs.map read? = ys.map some) : xs.mapM read = .ok ys := by
  induction xs generalizing ys with
  | nil =>
    cases ys with
    | nil => rfl
    | cons y ys => cases hxs
  | cons x xs ih =>
    cases ys with
    | nil => cases hxs
    | cons y ys =>
      rw [List.map_cons, List.map_cons, List.cons.injEq] at hxs
      obtain ⟨hx, hrest⟩ := hxs
      have hread := h x
      rw [hx] at hread
      rw [mapM_cons_ok hread, ih hrest]
      rfl

theorem exists_map_eq_map_some {xs : List ι} (h : ∀ x ∈ xs, (read? x).isSome) :
    ∃ ys : List β, xs.map read? = ys.map some := by
  have hrange : xs.map read? ∈ Set.range (List.map some) := by
    rw [Set.range_list_map]
    intro y? hy
    obtain ⟨x, hx, rfl⟩ := List.mem_map.mp hy
    obtain ⟨y, hy⟩ := Option.isSome_iff_exists.mp (h x hx)
    exact ⟨y, hy.symm⟩
  obtain ⟨ys, hys⟩ := hrange
  exact ⟨ys, hys.symm⟩

end

theorem Connective.explains_ofTag : Explains ofTag ofTag? .unknownOperator := by
  intro t
  unfold ofTag
  cases ofTag? t <;> rfl

namespace Trit

theorem explains_ofInt : Explains ofInt ofInt? .notATrit := by
  intro n
  unfold ofInt
  cases ofInt? n <;> rfl

theorem isNone_ofInt? (n : Int) : (ofInt? n).isNone = decide (n ∉ [-1, 0, 1]) := by
  have herror : (ofInt? n).isNone = true ↔ ofInt n = .error (.notATrit n) := by
    rw [explains_ofInt n]
    cases ofInt? n with
    | none => exact ⟨fun _ => rfl, fun _ => rfl⟩
    | some t => exact ⟨fun h => absurd h Bool.false_ne_true, fun h => by cases h⟩
  rw [Bool.eq_iff_iff, herror, ofInt_eq_error_iff, decide_eq_true_eq]
  exact and_iff_right rfl

/-- Codes that can all be read are the codes of truth values. -/
theorem exists_eq_map_toInt {codes : List Int} (h : ∀ n ∈ codes, n ∈ [-1, 0, 1]) :
    ∃ premises : List Trit, codes = premises.map toInt := by
  have hrange : codes ∈ Set.range (List.map toInt) := by
    rw [Set.range_list_map]
    intro n hn
    have hn := h n hn
    simp only [List.mem_cons, List.not_mem_nil, or_false] at hn
    rcases hn with rfl | rfl | rfl
    · exact ⟨no, rfl⟩
    · exact ⟨unknown, rfl⟩
    · exact ⟨yes, rfl⟩
  obtain ⟨premises, hpremises⟩ := hrange
  exact ⟨premises, hpremises.symm⟩

end Trit

/-! ## Calls -/

namespace Evaluator

variable {α : Type} [Scalar α]

/-- A call of an evaluator: what it comes to, and the steps that it takes in place. -/
structure Call (α : Type) where
  outcome : Evaluator α → Except Rejection (Conclusion α × Evaluator α)
  steps : Procedure (Evaluator α) Rejection (Conclusion α)
  implements : steps.Implements outcome

namespace Call

def chain (premises : List Trit) (operations : List Connective) : Call α where
  outcome v := v.runChain premises operations
  steps := Steps.runChain premises operations
  implements := Steps.runChain_implements premises operations

def tagged (premises : List Trit) (tags : List String) : Call α where
  outcome v := v.runTagged premises tags
  steps := Steps.runTagged premises tags
  implements := Steps.runTagged_implements premises tags

def codes (codes : List Int) (tags : List String) : Call α where
  outcome v := v.runCodes codes tags
  steps := Steps.runCodes codes tags
  implements := Steps.runCodes_implements codes tags

/-- The call fails for this reason, and the evaluator is as before: its history, its count of
oppositions and its mean uncertainty. -/
structure Refuses (call : Call α) (v : Evaluator α) (reason : Rejection) : Prop where
  outcome : call.outcome v = .error reason
  inPlace : call.steps.runFrom v = (.error reason, v)

/-- The calls succeed with the same conclusion, and leave the same evaluator. -/
structure Agrees (call call' : Call α) (v : Evaluator α) : Prop where
  outcome : ∃ c w, call.outcome v = .ok (c, w) ∧ call'.outcome v = .ok (c, w)
  inPlace : call.steps.runFrom v = call'.steps.runFrom v

omit [Scalar α] in
theorem refuses {call : Call α} {v : Evaluator α} {reason : Rejection}
    (h : call.outcome v = .error reason) : call.Refuses v reason where
  outcome := h
  inPlace := by
    rw [call.implements v, h]
    rfl

omit [Scalar α] in
theorem agrees {call call' : Call α} {v : Evaluator α} (h : call.outcome v = call'.outcome v)
    (hok : ∃ r, call'.outcome v = .ok r) : call.Agrees call' v where
  outcome := by
    obtain ⟨⟨c, w⟩, hr⟩ := hok
    exact ⟨c, w, h.trans hr, hr⟩
  inPlace := by rw [call.implements v, call'.implements v, h]

end Call

/-- What a call comes to that has these premises, and its operations by tags. -/
structure ReadsTags (call : Call α) (premises : List Trit) (tags : List String) (v : Evaluator α) :
    Prop where
  /-- The first tag that names no connective is refused as it was given, wherever it stands
  and whatever the premises are. -/
  unknown (t : String) : tags.find? (fun t => (Connective.ofTag? t).isNone) = some t →
    call.Refuses v (.unknownOperator t)
  noPremises : (∀ t ∈ tags, (Connective.ofTag? t).isSome) → premises = [] →
    call.Refuses v .noPremises
  runs : (∀ t ∈ tags, (Connective.ofTag? t).isSome) → premises ≠ [] → ∃ operations,
    tags.map Connective.ofTag? = operations.map some ∧ call.Agrees (.chain premises operations) v

/-- What a call comes to that has its premises by codes, and its operations by tags. -/
structure ReadsCodes (codes : List Int) (tags : List String) (v : Evaluator α) : Prop where
  /-- The first code that codes no truth value is refused, whatever the tags are. -/
  unread (n : Int) : codes.find? (fun n => decide (n ∉ [-1, 0, 1])) = some n →
    (Call.codes codes tags).Refuses v (.notATrit n)
  read : (∀ n ∈ codes, n ∈ [-1, 0, 1]) → ∃ premises : List Trit,
    codes = premises.map Trit.toInt ∧ ReadsTags (.codes codes tags) premises tags v

theorem runTagged_of_unknown (v : Evaluator α) (premises : List Trit) {tags : List String}
    {t : String}
    (h : tags.find? (fun t => (Connective.ofTag? t).isNone) = some t) :
    v.runTagged premises tags = .error (.unknownOperator t) := by
  rw [runTagged, Connective.explains_ofTag.mapM_eq_error h]
  rfl

theorem runTagged_of_map (v : Evaluator α) (premises : List Trit) {tags : List String}
    {operations : List Connective} (h : tags.map Connective.ofTag? = operations.map some) :
    v.runTagged premises tags = v.runChain premises operations := by
  rw [runTagged, Connective.explains_ofTag.mapM_eq_ok h]
  rfl

/-- A call that comes to what the tagged chain with these premises comes
to reads its tags as that does. -/
theorem readsTags {call : Call α} {premises : List Trit} {tags : List String} {v : Evaluator α}
    (h : call.outcome v = v.runTagged premises tags) : ReadsTags call premises tags v where
  unknown t ht := Call.refuses (h.trans (v.runTagged_of_unknown premises ht))
  noPremises htags hpremises := by
    obtain ⟨operations, hoperations⟩ := exists_map_eq_map_some htags
    subst hpremises
    exact Call.refuses (h.trans (v.runTagged_of_map [] hoperations))
  runs htags hpremises := by
    obtain ⟨operations, hoperations⟩ := exists_map_eq_map_some htags
    obtain ⟨first, rest, rfl⟩ := List.exists_cons_of_ne_nil hpremises
    exact ⟨operations, hoperations,
      Call.agrees (h.trans (v.runTagged_of_map _ hoperations)) ⟨_, rfl⟩⟩

theorem runCodes_of_unread (v : Evaluator α) {codes : List Int} (tags : List String) {n : Int}
    (h : codes.find? (fun n => decide (n ∉ [-1, 0, 1])) = some n) :
    v.runCodes codes tags = .error (.notATrit n) := by
  simp only [← Trit.isNone_ofInt?] at h
  rw [runCodes, Trit.explains_ofInt.mapM_eq_error h]
  rfl

theorem runCodes_map_toInt (v : Evaluator α) (premises : List Trit) (tags : List String) :
    v.runCodes (premises.map Trit.toInt) tags = v.runTagged premises tags := by
  have hread : (premises.map Trit.toInt).map Trit.ofInt? = premises.map some := by
    rw [List.map_map]
    exact List.map_congr_left fun t _ => t.ofInt?_toInt
  rw [runCodes, Trit.explains_ofInt.mapM_eq_ok hread]
  rfl

/-- **Codes are read before tags, and tags before premises are looked at.** -/
theorem reads_inOrder (v : Evaluator α) :
    (∀ premises tags, ReadsTags (.tagged premises tags) premises tags v) ∧
    ∀ codes tags, ReadsCodes codes tags v := by
  constructor
  · intro premises tags
    exact readsTags rfl
  · intro codes tags
    refine ⟨fun n hn => Call.refuses (v.runCodes_of_unread tags hn), fun hcodes => ?_⟩
    -- once the codes are read, it is the tagged chain of what they code
    obtain ⟨premises, rfl⟩ := Trit.exists_eq_map_toInt hcodes
    exact ⟨premises, rfl, readsTags (v.runCodes_map_toInt premises tags)⟩

/-- Two codes that code nothing and a tag that names nothing; and such a tag that finds no
premise, behind one that names a connective. -/
example : ({} : Evaluator Rat).runCodes [1, 2, -5] ["nor"] = .error (.notATrit 2) ∧
    ({} : Evaluator Rat).runCodes [] [" or", "Nor "] = .error (.unknownOperator "Nor ") := by
  decide +kernel

end Evaluator

end TernaryBelief
