import Mathlib.Algebra.Order.Field.Basic
import Mathlib.Algebra.Order.Ring.Rat
import Mathlib.Data.Nat.PSub
import Mathlib.Tactic.GCongr
import Mathlib.Tactic.Positivity
import Mathlib.Tactic.Ring
import TernaryBelief.Proofs.Disagreement
import TernaryBelief.Proofs.Pass

/-!
# Scores in exact arithmetic

The formulas of the scores subtract counts and divide by counts. Here they are read in exact
arithmetic: as long as no more beliefs are unknown than there are, every operation in them is
defined, coherence and preserved information lie between 0 and 1, and enhancement is not negative
(`Snapshot.sound`). Coherence rises with resolved contradictions and falls with active ones
(`Snapshot.coherence_mono`).

A reachable engine looks up each name at one place, so its snapshot counts what it believes, name by
name (`Engine.Reachable.census`), and its scores are sound. A pass turns active contradictions into
resolved ones and leaves the beliefs alone, which is all that the scores see of it
(`Engine.Reachable.scores_sound`).

## Main definitions

* `share?`, `Snapshot.coherence?`, `Snapshot.preserved?`: the scores by
  operations that may be undefined;
* `Snapshot.Sound`: what a score may be relied on for;
* `Engine.Census`: what a snapshot counts;
* `Engine.Relieved`: how the scores respond to a pass.
-/

namespace TernaryBelief

variable {α : Type}

/-! ## Formulas -/

/-- A count as a share of a whole, unless there is no whole. -/
def share? (part whole : Nat) : Option Rat :=
  if whole = 0 then none else some ((part : Rat) / whole)

theorem share?_of_ne {part whole : Nat} (h : whole ≠ 0) :
    share? part whole = some ((part : Rat) / whole) := if_neg h

theorem Scalar.clampUnit_eq (x : Rat) : Scalar.clampUnit x = max 0 (min x 1) := by
  have hzero : (0.0 : Rat) = 0 := by decide +kernel
  have hone : (1.0 : Rat) = 1 := by decide +kernel
  show (if x < (0.0 : Rat) then (0.0 : Rat) else if (1.0 : Rat) < x then 1.0 else x) = _
  rw [hzero, hone]
  split
  · next hneg => rw [max_eq_left ((min_le_left x 1).trans hneg.le)]
  · next hneg =>
    rw [not_lt] at hneg
    split
    · next hone => rw [min_eq_right hone.le, max_eq_right zero_le_one]
    · next hone => rw [min_eq_left (not_lt.mp hone), max_eq_right hneg]

namespace Snapshot

/-- The share of certain beliefs with its bonus and its penalty, before it is cut. -/
def balance (s : Snapshot) : Rat :=
  ((s.beliefs - s.unknown : Nat) : Rat) / s.beliefs + s.resolved / 20 - s.active / 10

/-- The coherence by operations that give nothing where they are not defined: a subtraction of
counts must not fall below zero, and a share must be one of something. -/
def coherence? (s : Snapshot) : Option Rat :=
  if s.beliefs = 0 then some 1
  else do
    let certain ← s.beliefs.psub s.unknown
    let base ← share? certain s.beliefs
    return max 0 (min (base + s.resolved / 20 - s.active / 10) 1)

/-- The preserved information, by the same operations. -/
def preserved? (s : Snapshot) : Option Rat := share? s.unknown (max s.beliefs 1)

theorem coherence_eq (s : Snapshot) :
    (s.coherence : Rat) = if s.beliefs = 0 then 1 else max 0 (min s.balance 1) := by
  have hone : (1.0 : Rat) = 1 := by decide +kernel
  have hbonus : (0.05 : Rat) = 1 / 20 := by decide +kernel
  have hpenalty : (0.1 : Rat) = 1 / 10 := by decide +kernel
  unfold coherence
  split
  · exact hone
  · rw [Scalar.clampUnit_eq]
    show max 0 (min (_ / (s.beliefs : Rat) + (s.resolved : Rat) * (0.05 : Rat)
      - (s.active : Rat) * (0.1 : Rat)) 1) = _
    rw [hbonus, hpenalty, mul_one_div, mul_one_div]
    rfl

theorem enhancement_eq (s : Snapshot) :
    (s.enhancement : Rat) = s.active / 5 + s.resolved / 10 + s.unknown * 3 / 20 := by
  have hactive : (0.2 : Rat) = 1 / 5 := by decide +kernel
  have hresolved : (0.1 : Rat) = 1 / 10 := by decide +kernel
  have hunknown : (0.15 : Rat) = 3 / 20 := by decide +kernel
  show (s.active : Rat) * (0.2 : Rat) + (s.resolved : Rat) * (0.1 : Rat)
    + (s.unknown : Rat) * (0.15 : Rat) = _
  rw [hactive, hresolved, hunknown, mul_one_div, mul_one_div, mul_div_assoc]

theorem preserved_eq (s : Snapshot) :
    (s.preserved : Rat) = s.unknown / ((max s.beliefs 1 : Nat) : Rat) := rfl

/-! ## Soundness -/

/-- **Coherence rises with what is resolved and falls with what is active**, beliefs being equal. -/
theorem coherence_mono {s t : Snapshot} (hbeliefs : s.beliefs = t.beliefs)
    (hunknown : s.unknown = t.unknown) (hactive : t.active ≤ s.active)
    (hresolved : s.resolved ≤ t.resolved) : (s.coherence : Rat) ≤ t.coherence := by
  have hbalance : s.balance ≤ t.balance := by
    unfold balance
    rw [hbeliefs, hunknown]
    gcongr
  rw [coherence_eq, coherence_eq, hbeliefs]
  split
  · exact le_refl 1
  · exact max_le_max_left 0 (min_le_min_right 1 hbalance)

/-- What the scores of a snapshot may be relied on for, read in exact arithmetic. -/
structure Sound (s : Snapshot) : Prop where
  /-- Nothing undefined happens on the way to the scores. -/
  defined : s.coherence? = some s.coherence ∧ s.preserved? = some s.preserved
  coherence : 0 ≤ (s.coherence : Rat) ∧ (s.coherence : Rat) ≤ 1
  /-- Where there are no beliefs, contradictions do not matter. -/
  blank : s.beliefs = 0 → (s.coherence : Rat) = 1
  preserved : 0 ≤ (s.preserved : Rat) ∧ (s.preserved : Rat) ≤ 1
  enhancement : 0 ≤ (s.enhancement : Rat)

theorem coherence?_eq {s : Snapshot} (h : s.unknown ≤ s.beliefs) :
    s.coherence? = some s.coherence := by
  rw [coherence_eq, coherence?]
  split
  · rfl
  · next hbeliefs =>
    rw [Nat.psub_eq_sub h]
    show (share? _ s.beliefs).bind _ = _
    rw [share?_of_ne hbeliefs]
    rfl

theorem sound {s : Snapshot} (h : s.unknown ≤ s.beliefs) : s.Sound where
  defined := by
    have hwhole : max s.beliefs 1 ≠ 0 := by omega
    exact ⟨coherence?_eq h, share?_of_ne hwhole⟩
  coherence := by
    rw [coherence_eq]
    split
    · exact ⟨zero_le_one, le_refl 1⟩
    · exact ⟨le_max_left 0 _, max_le zero_le_one (min_le_right _ 1)⟩
  blank hbeliefs := by rw [coherence_eq, if_pos hbeliefs]
  preserved := by
    have hwhole : (0 : Rat) < ((max s.beliefs 1 : Nat) : Rat) := by
      exact_mod_cast Nat.lt_of_lt_of_le Nat.zero_lt_one (Nat.le_max_right _ _)
    have hpart : (s.unknown : Rat) ≤ ((max s.beliefs 1 : Nat) : Rat) := by
      exact_mod_cast h.trans (Nat.le_max_left _ _)
    rw [preserved_eq]
    exact ⟨div_nonneg s.unknown.cast_nonneg hwhole.le, (div_le_one hwhole).mpr hpart⟩
  enhancement := by
    rw [enhancement_eq]
    positivity

end Snapshot

/-! ## Reachable engines -/

namespace Network

variable {n : Network}

theorem Indexed.find?_of_mem (h : n.Indexed) {b : Belief} (hb : b ∈ n.beliefs.toList) :
    n.find? b.name = some b := by
  obtain ⟨i, hi⟩ := List.mem_iff_getElem?.mp hb
  rw [Array.getElem?_toList] at hi
  have hindex : n.index[b.name]? = some i := (h b.name i).mpr (by rw [hi, Option.map_some])
  rw [find?, hindex, Option.bind_some, hi]

theorem Indexed.isSome_find?_iff (h : n.Indexed) {name : String} :
    (n.find? name).isSome ↔ name ∈ n.names := by
  rw [Option.isSome_iff_exists]
  constructor
  · rintro ⟨b, hb⟩
    obtain ⟨hmem, rfl⟩ := h.mem_of_find? hb
    exact List.mem_map_of_mem (Array.mem_toList_iff.mpr hmem)
  · intro hname
    obtain ⟨b, hb, rfl⟩ := List.mem_map.mp hname
    exact ⟨b, h.find?_of_mem hb⟩

end Network

namespace Engine

/-- What a snapshot counts. -/
structure Census (e : Engine α) : Prop where
  beliefs : e.snapshot.beliefs = e.network.beliefs.size
  unknown : e.snapshot.unknown = e.network.beliefs.toList.countP fun b => b.value = .unknown
  active : e.snapshot.active = e.ledger.active.length
  resolved : e.snapshot.resolved = e.ledger.resolved.length
  unknown_le : e.snapshot.unknown ≤ e.snapshot.beliefs
  /-- Each name that is believed is counted, and counted once. -/
  names : e.network.names.Nodup ∧ (∀ name, name ∈ e.network.names ↔ (e.value? name).isSome) ∧
    e.snapshot.beliefs = e.network.names.length
  /-- It is counted as unknown if that is what is found under the name. -/
  unknownNames : e.snapshot.unknown =
    e.network.names.countP fun name => e.value? name = some .unknown

variable [Scalar α] {e : Engine α}

theorem Reachable.census (h : e.Reachable) : e.Census where
  beliefs := by simp [snapshot, Snapshot.ofValues]
  unknown := by
    simp only [snapshot, Snapshot.ofValues, List.countP_map]
    rfl
  active := rfl
  resolved := rfl
  unknown_le := List.countP_le_length
  names := by
    refine ⟨h.indexed.nodup_names, fun name => ?_, ?_⟩
    · rw [value?, Option.isSome_map, belief?, h.indexed.isSome_find?_iff]
    · simp [snapshot, Snapshot.ofValues, Network.names]
  unknownNames := by
    simp only [snapshot, Snapshot.ofValues, Network.names, List.countP_map]
    refine List.countP_congr fun b hb => ?_
    -- the index leads back from the name to the belief itself
    have hvalue : e.value? b.name = some b.value := by
      rw [value?, belief?, h.indexed.find?_of_mem hb, Option.map_some]
    simp [hvalue, Trit.isUnknown]

/-- How the scores respond to a pass: coherence does not fall, each record that was active counts
a tenth less in the enhancement, and the same information is preserved. -/
structure Relieved (e : Engine α) : Prop where
  coherence : (e.snapshot.coherence : Rat) ≤ e.resolve.2.snapshot.coherence
  enhancement : (e.resolve.2.snapshot.enhancement : Rat) =
    e.snapshot.enhancement - e.ledger.active.length / 10
  preserved : (e.resolve.2.snapshot.preserved : Rat) = e.snapshot.preserved

theorem relieved (e : Engine α) : e.Relieved where
  coherence := by
    rw [snapshot_resolve]
    exact Snapshot.coherence_mono rfl rfl (Nat.zero_le _) (Nat.le_add_right _ _)
  enhancement := by
    have hactive : e.snapshot.active = e.ledger.active.length := rfl
    rw [snapshot_resolve, Snapshot.enhancement_eq, Snapshot.enhancement_eq, hactive]
    push_cast
    ring
  preserved := by
    rw [snapshot_resolve]
    rfl

/-- **The scores of a reachable engine are sound**, and respond to a pass as they should. Of two
snapshots with the same beliefs, the one with no more active and no fewer resolved contradictions
is at least as coherent. -/
theorem Reachable.scores_sound (h : e.Reachable) :
    e.Census ∧ e.snapshot.Sound ∧ e.Relieved ∧
    ∀ s t : Snapshot, s.beliefs = t.beliefs → s.unknown = t.unknown → t.active ≤ s.active →
      s.resolved ≤ t.resolved → (s.coherence : Rat) ≤ t.coherence :=
  ⟨h.census, Snapshot.sound h.census.unknown_le, e.relieved,
    fun _ _ hbeliefs hunknown hactive hresolved =>
      Snapshot.coherence_mono hbeliefs hunknown hactive hresolved⟩

/-- A record comes in before anything is believed. Then values are overwritten, from the
unknown to a certain one and back. -/
def recordFirst : List Op :=
  let ids : IdSource := Uuid.ofNat
  [.network (.record criticalRecord), .network (.update ids "a" .unknown 1.0),
    .network (.update ids "b" .yes 0.5), .network (.update ids "a" .no 1.0),
    .network (.update ids "b" .unknown 0.5)]

theorem scores_sound_recordFirst :
    (({} : Engine Rat).run (recordFirst.take 1)).2.Reachable ∧
    (({} : Engine Rat).run recordFirst).2.Reachable ∧
    (({} : Engine Rat).run (recordFirst.take 1)).2.ledger.active.length = 1 ∧
    ((({} : Engine Rat).run (recordFirst.take 1)).2.snapshot.coherence : Rat) = 1 ∧
    (({} : Engine Rat).run recordFirst).2.snapshot.unknown ≤
      (({} : Engine Rat).run recordFirst).2.snapshot.beliefs ∧
    (({} : Engine Rat).run recordFirst).2.snapshot = ⟨2, 1, 4, 0⟩ ∧
    ((({} : Engine Rat).run recordFirst).2.snapshot.coherence : Rat) ≤
      (({} : Engine Rat).run recordFirst).2.resolve.2.snapshot.coherence := by
  have hstart : (({} : Engine Rat).run (recordFirst.take 1)).2.Reachable :=
    Reachable.run (.fresh .blank) _
  have hend : (({} : Engine Rat).run recordFirst).2.Reachable := Reachable.run (.fresh .blank) _
  obtain ⟨-, hsound, -, -⟩ := hstart.scores_sound
  obtain ⟨hcensus, -, hrelieved, -⟩ := hend.scores_sound
  exact ⟨hstart, hend, rfl, hsound.blank rfl, hcensus.unknown_le, by decide +kernel,
    hrelieved.coherence⟩

end Engine

end TernaryBelief
