import Mathlib.Algebra.Ring.Nat
import Mathlib.Data.List.Nodup
import TernaryBelief.Engine
import TernaryBelief.Proofs.Processing

/-!
# Where the active records are routed

The distribution of the active records is counted up record by record, into entries that come up
with the first record of a severity. What is counted in the end is told by the tally of the active
records (`Engine.getElem?_distribution`), so the entries add up to all records, and neither the
order of the records nor anything but their severities makes a difference
(`Distribution.toList_ofList_perm`). The routing reads an absent entry as zero, so it is told by two
of the tallies (`Engine.routed`), also for the records of all severities that are handed to an
engine from outside.
-/

namespace TernaryBelief

variable {α : Type}

/-! ## Entries of a distribution -/

namespace Severity

theorem compare_eq_lt {s t : Severity} : compare s t = .lt ↔ s < t := Nat.compare_eq_lt

/-- Every member of a list has one of the severities. -/
theorem sum_count (ss : List Severity) : (all.map fun s => ss.count s).sum = ss.length := by
  induction ss with
  | nil => rfl
  | cons s ss ih =>
    simp only [all, List.map_cons, List.map_nil, List.sum_cons, List.sum_nil, List.length_cons]
      at ih ⊢
    cases s <;> simp only [List.count_cons, beq_iff_eq, reduceCtorEq, if_true, if_false] <;> omega

end Severity

namespace Distribution

/-- The entries of a distribution, by ascending severity, can be looked up one by one. -/
theorem toList_eq (d : Distribution) :
    d.toList = Severity.all.filterMap fun s => d[s]?.map (s, ·) := by
  have hleft : d.toList.Pairwise fun a b => a.1 < b.1 :=
    Std.TreeMap.ordered_keys_toList.imp Severity.compare_eq_lt.mp
  have hall : Severity.all.Pairwise (· < ·) := by decide
  have hright : (Severity.all.filterMap fun s => d[s]?.map (s, ·)).Pairwise
      fun a b => a.1 < b.1 := by
    refine hall.filterMap _ fun s t hst a ha b hb => ?_
    obtain ⟨m, -, rfl⟩ := Option.map_eq_some_iff.mp ha
    obtain ⟨n, -, rfl⟩ := Option.map_eq_some_iff.mp hb
    exact hst
  have hne {a b : Severity × Nat} (h : a.1 < b.1) : a ≠ b := by
    rintro rfl
    exact Nat.lt_irrefl _ h
  -- both lists ascend strictly, so it is enough that they have the same members
  refine List.Perm.eq_of_pairwise (fun a b _ _ hab hba => ?_) hleft hright ?_
  · exact absurd (Nat.lt_trans hab hba) (Nat.lt_irrefl _)
  · rw [List.perm_ext_iff_of_nodup (hleft.imp hne) (hright.imp hne)]
    rintro ⟨s, n⟩
    have hs : s ∈ Severity.all := by cases s <;> decide
    rw [Std.TreeMap.mem_toList_iff_getElem?_eq_some, List.mem_filterMap]
    constructor
    · intro hn
      exact ⟨s, hs, by rw [hn]; rfl⟩
    · rintro ⟨t, -, ht⟩
      obtain ⟨m, hm, heq⟩ := Option.map_eq_some_iff.mp ht
      cases heq
      exact hm

/-- The entries add up to what is counted of all severities, as an absent entry counts nothing. -/
theorem sum_toList (d : Distribution) :
    (d.toList.map Prod.snd).sum = (Severity.all.map d.count).sum := by
  rw [toList_eq, List.map_filterMap]
  induction Severity.all with
  | nil => rfl
  | cons s ss ih =>
    rw [List.map_cons, List.sum_cons, ← ih, count]
    cases h : d[s]? with
    | none => rw [List.filterMap_cons_none (by rw [h]; rfl), Option.getD_none, Nat.zero_add]
    | some n =>
      rw [List.filterMap_cons_some (by rw [h]; rfl), List.sum_cons]
      rfl

theorem sum_toList_ofList (ss : List Severity) :
    ((ofList ss).toList.map Prod.snd).sum = ss.length := by
  rw [sum_toList, List.map_congr_left fun s _ => count_ofList ss s, Severity.sum_count]

theorem toList_ofList_perm {ss ts : List Severity} (h : ss.Perm ts) :
    (ofList ss).toList = (ofList ts).toList := by
  rw [toList_eq, toList_eq]
  refine List.filterMap_congr fun s _ => ?_
  rw [getElem?_ofList, getElem?_ofList, h.count_eq]
  simp only [h.mem_iff]

end Distribution

/-! ## Routing -/

namespace Substrate

/-- The soft records are looked at before the hard ones, and no others are. -/
theorem route_cases (d : Distribution) :
    (route d = chemical ∧ 4 ≤ d.count .soft) ∨
    (route d = quantum ∧ d.count .soft < 4 ∧ 1 ≤ d.count .hard) ∨
    (route d = electronic ∧ d.count .soft < 4 ∧ d.count .hard = 0) := by
  unfold route
  split
  · next hsoft => exact .inl ⟨rfl, hsoft⟩
  · next hsoft =>
    split
    · next hhard => exact .inr (.inl ⟨rfl, Nat.lt_of_not_le hsoft, hhard⟩)
    · next hhard => exact .inr (.inr ⟨rfl, Nat.lt_of_not_le hsoft, Nat.eq_zero_of_not_pos hhard⟩)

theorem route_eq_chemical_iff (d : Distribution) : route d = chemical ↔ 4 ≤ d.count .soft := by
  rcases route_cases d with ⟨h, hsoft⟩ | ⟨h, hsoft, -⟩ | ⟨h, hsoft, -⟩
  · exact iff_of_true h hsoft
  · exact iff_of_false (by rw [h]; decide) (Nat.not_le.mpr hsoft)
  · exact iff_of_false (by rw [h]; decide) (Nat.not_le.mpr hsoft)

theorem route_eq_quantum_iff (d : Distribution) :
    route d = quantum ↔ d.count .soft < 4 ∧ 1 ≤ d.count .hard := by
  rcases route_cases d with ⟨h, hsoft⟩ | ⟨h, hboth⟩ | ⟨h, -, hhard⟩
  · exact iff_of_false (by rw [h]; decide) fun hboth => absurd hsoft (Nat.not_le.mpr hboth.1)
  · exact iff_of_true h hboth
  · exact iff_of_false (by rw [h]; decide) fun hboth => absurd hhard (Nat.ne_of_gt hboth.2)

theorem route_eq_electronic_iff (d : Distribution) :
    route d = electronic ↔ d.count .soft < 4 ∧ d.count .hard = 0 := by
  rcases route_cases d with ⟨h, hsoft⟩ | ⟨h, -, hhard⟩ | ⟨h, hboth⟩
  · exact iff_of_false (by rw [h]; decide) fun hboth => absurd hsoft (Nat.not_le.mpr hboth.1)
  · exact iff_of_false (by rw [h]; decide) fun hboth => absurd hboth.2 (Nat.ne_of_gt hhard)
  · exact iff_of_true h hboth

end Substrate

namespace Engine

open Contradiction (tally)

theorem count_distribution (e : Engine α) (s : Severity) :
    e.distribution.count s = tally e.ledger.active s := by
  rw [distribution, Distribution.count_ofList, Contradiction.tally_eq_count]

/-- A severity has an entry if there is a record with it, and the entry
is the number of these records. -/
theorem getElem?_distribution (e : Engine α) (s : Severity) :
    e.distribution[s]? =
      if tally e.ledger.active s = 0 then none else some (tally e.ledger.active s) := by
  rw [distribution, Distribution.getElem?_ofList, Contradiction.tally_eq_count]
  simp only [List.count_eq_zero, ite_not]

/-- The distribution of the active records agrees with these, and the
routing with the distribution. -/
structure Routed (e : Engine α) : Prop where
  /-- Each severity is mapped to the number of active records with it;
  one without records is absent. -/
  lookup (s : Severity) : e.distribution[s]? =
    if tally e.ledger.active s = 0 then none else some (tally e.ledger.active s)
  total : (e.distribution.toList.map Prod.snd).sum = e.ledger.active.length
  /-- The entries do not depend on the order of filing. -/
  reordered (e' : Engine α) : e'.ledger.active.Perm e.ledger.active →
    e'.distribution.toList = e.distribution.toList
  chemical : e.substrate = .chemical ↔ 4 ≤ tally e.ledger.active .soft
  quantum : e.substrate = .quantum ↔
    tally e.ledger.active .soft < 4 ∧ 1 ≤ tally e.ledger.active .hard
  electronic : e.substrate = .electronic ↔
    tally e.ledger.active .soft < 4 ∧ tally e.ledger.active .hard = 0
  /-- Records of medium severity and critical ones do not count, however many there are. -/
  unheeded : (∀ c ∈ e.ledger.active, c.severity = .medium ∨ c.severity = .critical) →
    e.substrate = .electronic
  /-- Only the severities matter: not what else is said in a record, as its identifier or its
  remark, not the order of the records, and nothing in the engine apart from them. -/
  severitiesOnly (e' : Engine α) :
    (e'.ledger.active.map fun c => c.severity).Perm (e.ledger.active.map fun c => c.severity) →
    e'.substrate = e.substrate

theorem substrate_congr {e e' : Engine α} (h : (e'.ledger.active.map fun c => c.severity).Perm
    (e.ledger.active.map fun c => c.severity)) : e'.substrate = e.substrate := by
  have hcount (s : Severity) : e'.distribution.count s = e.distribution.count s := by
    rw [count_distribution, count_distribution, Contradiction.tally_eq_count,
      Contradiction.tally_eq_count, h.count_eq]
  rw [substrate, substrate, Substrate.route, Substrate.route, hcount, hcount]

theorem routed (e : Engine α) : e.Routed := by
  have hchemical := Substrate.route_eq_chemical_iff e.distribution
  have hquantum := Substrate.route_eq_quantum_iff e.distribution
  have helectronic := Substrate.route_eq_electronic_iff e.distribution
  simp only [count_distribution] at hchemical hquantum helectronic
  refine ⟨e.getElem?_distribution, ?total, ?reordered, hchemical, hquantum, helectronic, ?unheeded,
    fun e' h => substrate_congr h⟩
  case total =>
    rw [distribution, Distribution.sum_toList_ofList, List.length_map]
  case reordered =>
    intro e' h
    exact Distribution.toList_ofList_perm (h.map _)
  case unheeded =>
    intro h
    have hsoft : tally e.ledger.active .soft = 0 := Contradiction.tally_eq_zero fun c hc hs => by
      rcases h c hc with hc | hc <;> rw [hc] at hs <;> cases hs
    have hhard : tally e.ledger.active .hard = 0 := Contradiction.tally_eq_zero fun c hc hs => by
      rcases h c hc with hc | hc <;> rw [hc] at hs <;> cases hs
    exact helectronic.mpr ⟨hsoft ▸ Nat.zero_lt_succ 3, hhard⟩

/-- **The distribution and the routing agree with the active records**, in any state of an engine;
right after a pass nothing is counted, and the batch is electronic. -/
theorem distribution_routes [Scalar α] (e : Engine α) :
    e.Routed ∧ e.resolve.2.distribution.toList = [] ∧ e.resolve.2.substrate = .electronic :=
  ⟨e.routed, rfl, rfl⟩

/-- Three soft records are not enough, so the hard one decides; the
critical one is not looked at. -/
example :
    Substrate.route (Distribution.ofList [.soft, .hard, .soft, .critical, .soft]) = .quantum := by
  decide +kernel

end Engine

end TernaryBelief
