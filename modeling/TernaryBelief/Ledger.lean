import TernaryBelief.Strategy

/-!
# The ledger of contradictions

Contradictions are filed in the order in which they come up and await resolution. A resolution pass
settles all of them, the most severe first and equally severe ones in the order of filing, and
reports what it did.

## Main definitions

* `Ledger`, with `Ledger.fileAll` and `Ledger.file`;
* `Contradiction.bySeverity`: a batch in the order of processing;
* `Ledger.pending`, `Ledger.settle`: what a pass processes, and what it leaves;
* `Outcome`, `Report`: the account of a pass.
-/

namespace TernaryBelief

/-! ## Filing -/

/-- The contradictions of an engine. -/
structure Ledger where
  /-- Those that await resolution, in the order of filing. -/
  active : List Contradiction := []
  /-- Those that have been through a pass, in the order of processing. -/
  resolved : List Contradiction := []
  /-- How many have been filed in all. -/
  filed : Nat := 0
deriving DecidableEq, Repr

namespace Ledger

instance : Inhabited Ledger := ⟨{}⟩

/-- Records under consecutive sequence numbers, the first of them after the given one. -/
def numbered (last : Nat) (cs : List Contradiction) : List Contradiction :=
  cs.mapIdx fun i c => { c with sequence := last + 1 + i }

/-- Files records one after the other, under the next sequence numbers. -/
def fileAll (l : Ledger) (cs : List Contradiction) : Ledger :=
  { l with active := l.active ++ numbered l.filed cs, filed := l.filed + cs.length }

def file (l : Ledger) (c : Contradiction) : Ledger := l.fileAll [c]

@[simp] theorem length_numbered (last : Nat) (cs : List Contradiction) :
    (numbered last cs).length = cs.length := List.length_mapIdx

/-- A batch is numbered as its parts are, one after the other. -/
theorem numbered_append (last : Nat) (cs ds : List Contradiction) :
    numbered last (cs ++ ds) = numbered last cs ++ numbered (last + cs.length) ds := by
  have shift (i : Nat) : last + 1 + (i + cs.length) = last + cs.length + 1 + i := by omega
  simp only [numbered, List.mapIdx_append, shift]

/-- What does not read the sequence number does not see the numbering. -/
theorem map_numbered {β : Type} {f : Contradiction → β}
    (hf : ∀ c n, f { c with sequence := n } = f c) (last : Nat) (cs : List Contradiction) :
    (numbered last cs).map f = cs.map f := by
  apply List.ext_getElem?
  intro i
  simp only [numbered, List.getElem?_map, List.getElem?_mapIdx, Option.map_map, Function.comp_def,
    hf]

@[simp] theorem fileAll_nil (l : Ledger) : l.fileAll [] = l := by
  simp [fileAll, numbered]

/-- Filing a batch is filing its parts one after the other. -/
theorem fileAll_append (l : Ledger) (cs ds : List Contradiction) :
    l.fileAll (cs ++ ds) = (l.fileAll cs).fileAll ds := by
  simp only [fileAll, numbered_append, List.append_assoc, List.length_append, Nat.add_assoc]

end Ledger

/-! ## Order of processing -/

namespace Contradiction

/-- A batch with the most severe records first; equally severe ones keep their order. -/
def bySeverity (batch : List Contradiction) : List Contradiction :=
  batch.mergeSort fun c d => decide (d.severity ≤ c.severity)

/-- The record after one more pass. -/
def attempted (c : Contradiction) : Contradiction := { c with attempts := c.attempts + 1 }

end Contradiction

/-! ## Reports -/

variable {α : Type}

/-- What happened to one contradiction in a pass. -/
structure Outcome (α : Type) where
  id : Uuid
  severity : Severity
  strategy : Strategy
  /-- The value that the strategy proposes. The network is not told. -/
  proposed : Trit
  cost : α
deriving DecidableEq, Repr

/-- What a pass did. -/
structure Report (α : Type) where
  /-- How many contradictions were settled. -/
  resolved : Nat
  cost : α
  /-- The change of the evaluator's damped mean uncertainty over the pass. -/
  delta : α
  /-- The share of unknown beliefs after the pass. -/
  preserved : α
  /-- What happened to each, in the order of processing. -/
  outcomes : List (Outcome α)
deriving DecidableEq, Repr

namespace Report

/-- The pass had nothing to do. -/
def isEmpty (r : Report α) : Bool := r.resolved == 0

/-- The greatest severity among the outcomes. -/
def maxSeverity (r : Report α) : Option Severity := (r.outcomes.map Outcome.severity).max?

end Report

/-! ## A pass -/

variable [Scalar α]

/-- The outcome for one contradiction: its severity chooses the strategy. -/
def Outcome.ofContradiction (c : Contradiction) : Outcome α :=
  let strategy := Strategy.forSeverity c.severity
  let resolution : Resolution α := strategy.apply c.toConflict
  ⟨c.id, c.severity, strategy, resolution.value, resolution.cost⟩

/-- The costs of outcomes, summed in their order from zero. -/
def Outcome.totalCost (os : List (Outcome α)) : α := os.foldl (fun sum o => sum + o.cost) 0.0

namespace Ledger

def pending (l : Ledger) : List Contradiction := Contradiction.bySeverity l.active

/-- The ledger after all active contradictions are settled: nothing is active, and each
settled record has one attempt more. -/
def settle (l : Ledger) : Ledger :=
  { l with active := [], resolved := l.resolved ++ l.pending.map Contradiction.attempted }

end Ledger

end TernaryBelief
