import TernaryBelief.Proofs.Disagreement
import TernaryBelief.Proofs.RoundTrip

/-!
# Texts keep what is finite

Of the data that an engine takes and gives, a text keeps a value exactly if all its numbers are
finite (`RoundTrips`). This takes a reader that reads every finite number back from its numeral, bit
for bit, and it is the only thing that is asked of the reader. An engine that does not restrict
confidences takes any number for one, so it may come to hold a belief whose own text nobody reads
back; apart from this its texts are safe (`data_roundTrips`).

## Main definitions

* `RoundTrips`: what texts of a type keep;
* `DataRoundTrips`: the types of data, one by one, and what is left out of a text.
-/

namespace TernaryBelief

open Json (NumberReader)
open Json.Coded (encode read write)

/-! ## From documents to texts -/

/-- The texts of a type keep exactly the values whose numbers are finite. In range are the values
whose counts fit their sizes. -/
structure RoundTrips (τ : Type) [Json.Coded τ] (InRange AllFinite : τ → Prop) : Prop where
  /-- A value is read back from its own text, with every field,
  exactly if its numbers are finite. -/
  read_write {x : τ} : InRange x → (read (write x) = some x ↔ AllFinite x)
  /-- Otherwise its text is refused. -/
  refused {x : τ} : ¬ AllFinite x → read (write x) = (none : Option τ)
  /-- Whatever a text is read as can be read back. -/
  again {s : String} {x : τ} : read s = some x → read (write x) = some x
  /-- No text is read as a value that could not be read back. -/
  kept {s : String} {x : τ} : read s = some x → AllFinite x ∧ InRange x

variable {τ : Type} [Json.Coded τ] {Kept InRange AllFinite : τ → Prop}

theorem Keeps.read_write (h : Keeps τ Kept) {x y : τ} :
    read (write x) = some y ↔ Kept x ∧ y = x := by
  unfold Json.Coded.read Json.Coded.write
  rw [Json.parse_render, Option.bind_some]
  exact h.read

theorem Keeps.kept_of_read (h : Keeps τ Kept) {s : String} {x : τ} (hx : read s = some x) :
    Kept x := by
  obtain ⟨v, -, hv⟩ := Option.bind_eq_some_iff.mp hx
  exact h.kept hv

theorem Keeps.roundTrips (h : Keeps τ fun x => AllFinite x ∧ InRange x) :
    RoundTrips τ InRange AllFinite where
  read_write hx := by
    rw [h.read_write]
    exact ⟨fun hkept => hkept.1.1, fun hfinite => ⟨⟨hfinite, hx⟩, rfl⟩⟩
  refused hx := by
    rw [Option.eq_none_iff_forall_ne_some]
    intro y hy
    exact hx (h.read_write.mp hy).1.1
  again hx := h.read_write.mpr ⟨h.kept_of_read hx, rfl⟩
  kept := h.kept_of_read

/-! ## What is left out -/

theorem slots?_remark_eq_none_iff {c : Contradiction} :
    (encode c).slots? ["context"] = some [none] ↔ c.context = "" :=
  Json.slots?_eq_none_iff (by split <;> simp) (by split <;> rfl)

theorem slots?_outcomes_eq_none_iff [NumberReader] {r : Report Float} :
    (encode r).slots? ["outcomes"] = some [none] ↔ r.outcomes = [] := by
  rw [← List.isEmpty_iff]
  exact Json.slots?_eq_none_iff (by split <;> simp) (by split <;> rfl)

/-! ## Confidences that are not finite -/

/-- The confidence of a belief has a document only if it is finite. -/
theorem slots?_confidence [NumberReader] {b : Belief} (h : b.confidence.isFinite = false) :
    (encode b).slots? ["confidence"] = some [some .null] := by
  have hnull : encode b.confidence = Json.Value.null := if_neg (by rw [h]; exact Bool.false_ne_true)
  rw [← hnull]
  exact Json.slots?_record _ (by simp)

namespace Engine

variable {α : Type} {e : Engine α}

/-- Without a restriction an engine takes any confidence, and believes it. -/
theorem update_of_lax (hlax : e.config.strict = false) (hindex : e.network.Indexed) (ids : IdSource)
    (name : String) (value : Trit) (confidence : Float) :
    ∃ count after b, e.update ids name value confidence = .ok (count, after) ∧
      after.belief? name = some b ∧ b.confidence = confidence := by
  have haccept : e.config.accept confidence = .ok confidence :=
    Config.accept_eq_ok_iff.mpr ⟨rfl, fun h => absurd (hlax.symm.trans h) Bool.false_ne_true⟩
  obtain ⟨count, after, b, hupdate, hb, -, hconfidence⟩ :=
    believes_of_accept hindex haccept ids name value
  exact ⟨count, after, b, hupdate, hb, hconfidence⟩

end Engine

/-! ## All of the data -/

/-- What texts keep of the data that engines take and give. -/
structure DataRoundTrips (α : Type) [Scalar α] [NumberReader] : Prop where
  belief : RoundTrips Belief (fun b => b.revision < Json.bound32)
    fun b => b.confidence.isFinite = true
  policy : RoundTrips SeverityPolicy (fun _ => True) fun _ => True
  config : RoundTrips Config (fun _ => True) fun c => c.defaultConfidence.isFinite = true
  contradiction : RoundTrips Contradiction
    (fun c => c.sequence < Json.bound64 ∧ c.attempts < Json.bound32) fun _ => True
  step : RoundTrips (Step Float) (fun _ => True) fun s => s.uncertainty.isFinite = true
  resolution : RoundTrips (Resolution Float) (fun _ => True) fun r => r.cost.isFinite = true
  outcome : RoundTrips (Outcome Float) (fun _ => True) fun o => o.cost.isFinite = true
  report : RoundTrips (Report Float) (fun r => r.resolved < Json.bound64) Report.AllFinite
  snapshot : RoundTrips Snapshot Snapshot.InRange fun _ => True
  /-- A remark is left out exactly if it is empty. -/
  remark (c : Contradiction) : (encode c).slots? ["context"] = some [none] ↔ c.context = ""
  /-- The outcomes are left out exactly if there are none. -/
  outcomes (r : Report Float) : (encode r).slots? ["outcomes"] = some [none] ↔ r.outcomes = []
  /-- An engine that does not restrict confidences takes one that is not finite, and the text of the
  belief that it then holds has a null in its place and is refused. -/
  lax {e : Engine α} (he : e.Reachable) (hlax : e.config.strict = false) (ids : IdSource)
    (name : String) (value : Trit) {confidence : Float} (hinfinite : confidence.isFinite = false) :
    ∃ count after b, e.update ids name value confidence = .ok (count, after) ∧
      after.belief? name = some b ∧ b.confidence = confidence ∧
      (encode b).slots? ["confidence"] = some [some .null] ∧
      read (write b) = (none : Option Belief)

/-- **Texts keep exactly what is finite**, by any reader that is exact. Every value of the data of
an engine whose counts fit is read back from its text, in all of its fields, if and only if its
numbers are finite; an empty remark and an empty list of outcomes, which are not written, come
back empty. Whatever a text is read as, is read back from its own text. -/
theorem data_roundTrips [reader : NumberReader] (hreader : reader.Exact) (α : Type) [Scalar α] :
    DataRoundTrips α where
  belief := (keeps_belief hreader).roundTrips
  policy := Keeps.roundTrips (by simpa using keeps_policy)
  config := Keeps.roundTrips (by simpa using keeps_config hreader)
  contradiction := Keeps.roundTrips (by simpa using keeps_contradiction)
  step := Keeps.roundTrips (by simpa using keeps_step hreader)
  resolution := Keeps.roundTrips (by simpa using keeps_resolution hreader)
  outcome := Keeps.roundTrips (by simpa using keeps_outcome hreader)
  report := (keeps_report hreader).roundTrips
  snapshot := Keeps.roundTrips (by simpa using keeps_snapshot)
  remark _ := slots?_remark_eq_none_iff
  outcomes _ := slots?_outcomes_eq_none_iff
  lax he hlax ids name value confidence hinfinite := by
    obtain ⟨count, after, b, hupdate, hb, rfl⟩ :=
      Engine.update_of_lax hlax he.indexed ids name value confidence
    refine ⟨count, after, b, hupdate, hb, rfl, slots?_confidence hinfinite, ?_⟩
    exact (keeps_belief hreader).roundTrips.refused (by rw [hinfinite]; exact Bool.false_ne_true)

/-- Not a number. -/
def notANumber : Float := 0.0 / 0.0

/-- A belief that is held with a confidence of three quarters. -/
def probable : Belief := { name := "sky", value := .yes, confidence := 0.75, revision := 1 }

/-- The record of a conflict on which nobody remarked, the last that can be filed. -/
def unremarked : Contradiction :=
  { standing := ⟨"sky", .yes⟩, incoming := ⟨"sea", .unknown⟩, severity := .medium, id := .ofNat 7,
    sequence := Json.bound64 - 1 }

/-- By the reader that takes the nearest number, a belief held with three quarters is read back,
and so is a record without a remark. A belief held with what is no number is not. -/
theorem data_roundTrips_unremarked :
    letI := NumberReader.nearest
    NumberReader.nearest.Exact ∧ read (write probable) = some probable ∧
    unremarked.context = "" ∧ read (write unremarked) = some unremarked ∧
    ∃ count after b,
      ({} : Engine Rat).update Uuid.ofNat "sky" .yes notANumber = .ok (count, after) ∧
      after.belief? "sky" = some b ∧ b.confidence = notANumber ∧
      (encode b).slots? ["confidence"] = some [some .null] ∧
      read (write b) = (none : Option Belief) := by
  let _ := NumberReader.nearest
  have hkept := data_roundTrips NumberReader.exact_nearest Rat
  refine ⟨NumberReader.exact_nearest, ?finite, rfl, ?remark, ?infinite⟩
  case finite => exact (hkept.belief.read_write (by decide +kernel)).mpr (by decide +kernel)
  case remark => exact (hkept.contradiction.read_write (by decide +kernel)).mpr trivial
  case infinite => exact hkept.lax (.fresh .blank) rfl Uuid.ofNat "sky" .yes (by decide +kernel)

end TernaryBelief
