import TernaryBelief.Severity
import TernaryBelief.Uuid

/-!
# Conflicts and their records

Two observations are in conflict if their values differ. A `Conflict` is what detection says about
two observations; a `Contradiction` is the record of a conflict, with an identifier and what happens
to the record afterwards.

## Main definitions

* `Observation`, `Conflict`, and `SeverityPolicy.detect`;
* `Contradiction`, with `Contradiction.ofConflict`, `withContext`, `escalate` and `same`.
-/

namespace TernaryBelief

/-- A name with the value observed for it. -/
structure Observation where
  name : String
  value : Trit
deriving DecidableEq, Repr

/-- A disagreement of two observations. -/
structure Conflict where
  /-- What stood before. -/
  standing : Observation
  /-- What came in. -/
  incoming : Observation
  severity : Severity
deriving DecidableEq, Repr

/-- The conflict of an incoming observation with a standing one: there is one if the values differ,
whatever the names, and the policy says how severe it is. -/
def SeverityPolicy.detect (p : SeverityPolicy) (standing incoming : Observation) :
    Option Conflict :=
  if standing.value = incoming.value then none
  else some ⟨standing, incoming, p.classify standing.value incoming.value⟩

namespace Conflict

/-- One of the two observations bears the name. -/
def involves (c : Conflict) (name : String) : Bool :=
  c.standing.name == name || c.incoming.name == name

/-- The certain value among the two, the standing one before the incoming one. -/
def certainValue (c : Conflict) : Option Trit :=
  if c.standing.value.isCertain then some c.standing.value
  else if c.incoming.value.isCertain then some c.incoming.value
  else none

end Conflict

/-- The record of a conflict. -/
structure Contradiction extends Conflict where
  /-- Tells the record from all others. -/
  id : Uuid
  /-- The place in the order of filing, from one on; zero until the record is filed. -/
  sequence : Nat := 0
  /-- A remark. -/
  context : String := ""
  /-- How often the record has been through a resolution pass. A counter of 32 bits would overflow
  after `2 ^ 32 - 1` attempts, while this number goes on. No record goes through two passes, so only
  one that is handed in with that many attempts gets there (`Engine.Fresh.run_bounded`). -/
  attempts : Nat := 0
deriving DecidableEq, Repr

namespace Contradiction

/-- The record of a conflict, not yet filed. -/
def ofConflict (id : Uuid) (c : Conflict) : Contradiction := { toConflict := c, id := id }

def withContext (c : Contradiction) (context : String) : Contradiction :=
  { c with context := context }

/-- The record with at least the given severity. -/
def escalate (c : Contradiction) (s : Severity) : Contradiction :=
  { c with severity := max c.severity s }

/-- The two records have one identifier, whatever else they say. -/
def same (c d : Contradiction) : Bool := c.id == d.id

end Contradiction

end TernaryBelief
