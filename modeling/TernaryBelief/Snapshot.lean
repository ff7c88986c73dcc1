import Std.Data.TreeMap
import TernaryBelief.Severity

/-!
# Scores of a network

Scores are computed from four counts alone. The routing of a batch of contradictions looks only at
how many there are of each severity.

## Main definitions

* `Snapshot`, with `Snapshot.coherence`, `Snapshot.enhancement` and `Snapshot.preserved`;
* `Distribution`, with `Distribution.ofList`;
* `Substrate`, with `Substrate.route`.

`Distribution.count_ofList` says that a distribution counts as the list does.
-/

namespace TernaryBelief

/-! ## Counts and scores -/

/-- The counts that scores are computed from. -/
structure Snapshot where
  beliefs : Nat := 0
  /-- Beliefs whose value is unknown. -/
  unknown : Nat := 0
  /-- Contradictions that await resolution. -/
  active : Nat := 0
  /-- Contradictions that have been through a pass. -/
  resolved : Nat := 0
deriving DecidableEq, Repr

namespace Snapshot

/-- The counts for beliefs with the given values. -/
def ofValues (values : List Trit) (active resolved : Nat) : Snapshot :=
  ⟨values.length, values.countP Trit.isUnknown, active, resolved⟩

variable {α : Type} [Scalar α]

/-- The share of certain beliefs, with a bonus for each resolved contradiction and a penalty for
each active one, cut to the interval from 0 to 1. An empty network is fully coherent. Where more
beliefs are unknown than there are, none is taken to be certain; in machine words the difference
would overflow. An engine never comes there (`Engine.Reachable.census`). -/
def coherence (s : Snapshot) : α :=
  if s.beliefs = 0 then 1.0
  else
    let base : α := Scalar.ofCount (s.beliefs - s.unknown) / Scalar.ofCount s.beliefs
    let bonus : α := Scalar.ofCount s.resolved * 0.05
    let penalty : α := Scalar.ofCount s.active * 0.1
    Scalar.clampUnit (base + bonus - penalty)

/-- A weighted count of contradictions and unknown beliefs, without a bound. -/
def enhancement (s : Snapshot) : α :=
  Scalar.ofCount s.active * 0.2 + Scalar.ofCount s.resolved * 0.1 + Scalar.ofCount s.unknown * 0.15

/-- The share of unknown beliefs; zero for an empty network. -/
def preserved (s : Snapshot) : α := Scalar.ofCount s.unknown / Scalar.ofCount (max s.beliefs 1)

end Snapshot

/-! ## Severities in a batch -/

instance : Std.TransOrd Severity := inferInstanceAs (Std.TransCmp (compareOn Severity.rank))

instance : Std.LawfulEqOrd Severity where
  eq_of_compare h := Severity.rank_inj.mp (Std.LawfulEqOrd.eq_of_compare h)

/-- How many members of a batch have each severity. Severities without a member are absent. -/
abbrev Distribution := Std.TreeMap Severity Nat

namespace Distribution

/-- One more member with the given severity. -/
def add (d : Distribution) (s : Severity) : Distribution := d.alter s fun n => some (n.getD 0 + 1)

/-- The distribution of a list of severities. -/
def ofList (ss : List Severity) : Distribution := ss.foldl add {}

def count (d : Distribution) (s : Severity) : Nat := d[s]?.getD 0

theorem getElem?_add (d : Distribution) (s t : Severity) :
    (d.add s)[t]? = if s = t then some (d[t]?.getD 0 + 1) else d[t]? := by
  simp only [add, Std.TreeMap.getElem?_alter, Std.LawfulEqCmp.compare_eq_iff_eq]
  split
  · next h => rw [h]
  · rfl

theorem getElem?_foldl_add (d : Distribution) (ss : List Severity) (t : Severity) :
    (ss.foldl add d)[t]? = if t ∈ ss then some (d[t]?.getD 0 + ss.count t) else d[t]? := by
  induction ss generalizing d with
  | nil => rfl
  | cons s ss ih =>
    rw [List.foldl_cons, ih, getElem?_add]
    by_cases hs : s = t
    · subst hs
      -- `s` is counted here, and maybe once more in the rest
      by_cases hmem : s ∈ ss
      · simp [hmem, Nat.add_assoc, Nat.add_comm 1]
      · simp [hmem, List.count_eq_zero_of_not_mem]
    · simp [hs, Ne.symm hs]

theorem getElem?_ofList (ss : List Severity) (s : Severity) :
    (ofList ss)[s]? = if s ∈ ss then some (ss.count s) else none := by
  rw [ofList, getElem?_foldl_add]
  simp

@[simp] theorem count_ofList (ss : List Severity) (s : Severity) :
    (ofList ss).count s = ss.count s := by
  rw [count, getElem?_ofList]
  split
  · rfl
  · next h => rw [List.count_eq_zero_of_not_mem h]; rfl

end Distribution

/-! ## Routing -/

/-- Where a batch of contradictions is processed. -/
inductive Substrate where
  | chemical
  | quantum
  | electronic
deriving DecidableEq, Repr

namespace Substrate

def name : Substrate → String
  | chemical => "chemical"
  | quantum => "quantum"
  | electronic => "electronic"

/-- More than three soft contradictions are routed to the chemical substrate; failing that, any hard
one routes the batch to the quantum substrate, and else it is electronic. -/
def route (d : Distribution) : Substrate :=
  if 3 < d.count .soft then chemical else if 0 < d.count .hard then quantum else electronic

end Substrate

end TernaryBelief
