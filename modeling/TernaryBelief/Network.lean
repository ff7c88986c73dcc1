import Std.Data.TreeMap
import TernaryBelief.Conflict

/-!
# The network of beliefs

A network keeps one belief for each name, in the order in which the names first came up. A later
assertion of a name overwrites its value and confidence and counts as a revision. An index finds the
place of a name without a search.

## Main definitions

* `Belief`, with `Belief.overwrite`;
* `Network`, with `Network.find?`, `Network.insert` and `Network.conflicts`;
* `Network.Indexed`: the index agrees with the beliefs.
-/

namespace TernaryBelief

/-- A named value with the confidence in it. -/
structure Belief where
  name : String
  value : Trit
  confidence : Float
  /-- How often the belief has been overwritten. A counter of 32 bits would overflow after
  `2 ^ 32 - 1` times, while this number goes on; a run of fewer requests stays below
  (`Engine.Fresh.run_bounded`). -/
  revision : Nat := 0
deriving DecidableEq

namespace Belief

/-- What the belief says, without the confidence. -/
def observation (b : Belief) : Observation := ⟨b.name, b.value⟩

/-- The belief with another value and another confidence. -/
def overwrite (b : Belief) (value : Trit) (confidence : Float) : Belief :=
  { b with value := value, confidence := confidence, revision := b.revision + 1 }

end Belief

/-- Beliefs in the order of their first assertion, and the place of each name among them. -/
structure Network where
  beliefs : Array Belief := #[]
  index : Std.TreeMap String Nat := {}

namespace Network

instance : Inhabited Network := ⟨{}⟩

def find? (n : Network) (name : String) : Option Belief :=
  n.index[name]?.bind (n.beliefs[·]?)

/-- Asserts a value for a name: a known name is overwritten, a new one comes last. -/
def insert (n : Network) (name : String) (value : Trit) (confidence : Float) : Network :=
  match n.index[name]? with
  | some i => { n with beliefs := n.beliefs.modify i (·.overwrite value confidence) }
  | none =>
    { beliefs := n.beliefs.push { name, value, confidence }
      index := n.index.insert name n.beliefs.size }

/-- The conflicts of an observation with the beliefs of other names, in the order of the beliefs. -/
def conflicts (p : SeverityPolicy) (n : Network) (incoming : Observation) : List Conflict :=
  (n.beliefs.toList.filter fun b => b.name ≠ incoming.name).filterMap fun b =>
    p.detect b.observation incoming

/-- The index maps a name to a place exactly if the belief at that place bears the name. -/
def Indexed (n : Network) : Prop :=
  ∀ (name : String) (i : Nat), n.index[name]? = some i ↔ (n.beliefs[i]?.map Belief.name) = some name

end Network

end TernaryBelief
