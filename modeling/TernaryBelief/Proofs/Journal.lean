import Mathlib.Data.List.Basic
import TernaryBelief.Proofs.Effect
import TernaryBelief.Proofs.Processing

/-!
# A ledger keeps what its journal brings in

Whatever records come in, under whatever identifiers and sequence numbers, the ledger loses none,
repeats none and alters none but for the sequence number given on filing and the attempt counted by
the one pass that processes it.

Two forms of this law are given. From any ledger on, the `account` of a ledger, that is, what would
be resolved if a pass were made now, only grows by the records that come in
(`account_foldl_enter_perm`). From an empty ledger on, the journal cut at its passes says what
stands where and in which order (`Ledger.Follows`, `Engine.run_follows`).
-/

namespace TernaryBelief

open Contradiction (attempted settled bySeverity)

namespace Ledger

/-! ## Numbers given on filing -/

theorem map_sequence_numbered (last : Nat) (cs : List Contradiction) :
    ((numbered last cs).map fun c => c.sequence) = List.range' (last + 1) cs.length := by
  apply List.ext_getElem?
  intro i
  simp only [numbered, List.getElem?_map, List.getElem?_mapIdx, Option.map_map]
  rcases Nat.lt_or_ge i cs.length with hi | hi
  · rw [List.getElem?_range' hi, List.getElem?_eq_getElem hi, Option.map_some, Nat.one_mul]
    rfl
  · rw [List.getElem?_eq_none hi, List.getElem?_eq_none (by simpa using hi), Option.map_none]

/-! ## The account of a ledger -/

/-- What would be resolved if a pass were made now, apart from the order. -/
def account (l : Ledger) : List Contradiction := l.resolved ++ l.active.map attempted

theorem account_settle_perm (l : Ledger) : l.settle.account.Perm l.account := by
  simp only [account, settle, List.map_nil, List.append_nil]
  exact ((Contradiction.bySeverity_perm l.active).map attempted).append_left l.resolved

theorem account_fileAll (l : Ledger) (cs : List Contradiction) :
    (l.fileAll cs).account = l.account ++ (numbered l.filed cs).map attempted := by
  simp only [account, fileAll, List.map_append, List.append_assoc]

theorem filed_enter (l : Ledger) (x : Entry) :
    (l.enter x).filed = l.filed + x.records.length := by
  cases x <;> rfl

theorem account_enter_perm (l : Ledger) (x : Entry) :
    (l.enter x).account.Perm (l.account ++ (numbered l.filed x.records).map attempted) := by
  cases x with
  | filed batch => rw [enter, account_fileAll, Entry.records]
  | pass => simpa [enter, Entry.records, numbered] using l.account_settle_perm

theorem filed_foldl_enter (l : Ledger) (j : List Entry) :
    (j.foldl enter l).filed = l.filed + (j.flatMap Entry.records).length := by
  induction j generalizing l with
  | nil => rfl
  | cons x j ih =>
    rw [List.foldl_cons, ih, filed_enter, List.flatMap_cons, List.length_append, Nat.add_assoc]

/-- **Conservation.** Passes or no passes, a ledger accounts for what it accounted for before and
for the records that came in since, each numbered in the order of filing. -/
theorem account_foldl_enter_perm (l : Ledger) (j : List Entry) :
    (j.foldl enter l).account.Perm
      (l.account ++ (numbered l.filed (j.flatMap Entry.records)).map attempted) := by
  -- on the journal, for all ledgers: the rest is numbered on from what `x` leaves
  induction j generalizing l with
  | nil => simp [numbered]
  | cons x j ih =>
    rw [List.foldl_cons, List.flatMap_cons, numbered_append, List.map_append, ← List.append_assoc]
    refine (ih (l.enter x)).trans ?_
    rw [filed_enter]
    exact (l.account_enter_perm x).append_right _

/-- Each sequence number up to the number of filings is borne by exactly one record. -/
def Complete (l : Ledger) : Prop :=
  ((l.active ++ l.resolved).map fun c => c.sequence).Perm (List.range' 1 l.filed)

theorem map_sequence_attempted (cs : List Contradiction) :
    ((cs.map attempted).map fun c => c.sequence) = cs.map fun c => c.sequence := by
  rw [List.map_map]
  rfl

theorem complete_iff {l : Ledger} :
    l.Complete ↔ (l.account.map fun c => c.sequence).Perm (List.range' 1 l.filed) := by
  have hcomm : (l.account.map fun c => c.sequence).Perm
      ((l.active ++ l.resolved).map fun c => c.sequence) := by
    simp only [account, List.map_append, map_sequence_attempted]
    exact List.perm_append_comm
  exact ⟨hcomm.trans, hcomm.symm.trans⟩

theorem complete_empty : ({} : Ledger).Complete := List.Perm.refl _

theorem Complete.enter {l : Ledger} (h : l.Complete) (x : Entry) : (l.enter x).Complete := by
  rw [complete_iff] at *
  -- the records that come in take the numbers after `l.filed`
  refine ((l.account_enter_perm x).map _).trans ?_
  rw [List.map_append, map_sequence_attempted, map_sequence_numbered, filed_enter,
    ← List.range'_append_1, Nat.add_comm 1]
  exact h.append_right _

theorem Complete.foldl_enter {l : Ledger} (h : l.Complete) (j : List Entry) :
    (j.foldl Ledger.enter l).Complete := by
  induction j generalizing l with
  | nil => exact h
  | cons x j ih => exact ih (h.enter x)

end Ledger

/-! ## Sections of a journal -/

/-- A journal cut at its passes. -/
structure Sections where
  /-- One section for each pass: the records that came in since the pass before it. -/
  closed : List (List Contradiction) := []
  /-- The records that came in since the last pass. -/
  current : List Contradiction := []

namespace Sections

/-- All records, in the order in which they came in. -/
def all (s : Sections) : List Contradiction := s.closed.flatten ++ s.current

/-- A batch is numbered on from the records before it and joins the current section; a pass closes
that section. -/
def enter (s : Sections) : Entry → Sections
  | .filed batch => { s with current := s.current ++ Ledger.numbered s.all.length batch }
  | .pass => { closed := s.closed ++ [s.current] }

def ofJournal (j : List Entry) : Sections := j.foldl enter {}

theorem all_enter (s : Sections) (x : Entry) :
    (s.enter x).all = s.all ++ Ledger.numbered s.all.length x.records := by
  cases x with
  | filed batch => simp only [enter, all, Entry.records, List.append_assoc]
  | pass => simp [enter, all, Entry.records, Ledger.numbered]

theorem all_foldl_enter (s : Sections) (j : List Entry) :
    (j.foldl enter s).all =
      s.all ++ Ledger.numbered s.all.length (j.flatMap Entry.records) := by
  induction j generalizing s with
  | nil => simp [Ledger.numbered]
  | cons x j ih =>
    rw [List.foldl_cons, ih, all_enter, List.flatMap_cons, Ledger.numbered_append,
      List.length_append, Ledger.length_numbered, List.append_assoc]

theorem length_closed_foldl_enter (s : Sections) (j : List Entry) :
    (j.foldl enter s).closed.length = s.closed.length + j.countP Entry.isPass := by
  induction j generalizing s with
  | nil => rfl
  | cons x j ih =>
    rw [List.foldl_cons, ih, List.countP_cons]
    cases x with
    | filed batch => simp [enter, Entry.isPass]
    | pass => simp [enter, Entry.isPass]; omega

/-- The ledger that the sections describe: the closed ones are settled, one after the other. -/
def ledger (s : Sections) : Ledger where
  active := s.current
  resolved := s.closed.flatMap settled
  filed := s.all.length

/-- The records are numbered from one on. -/
def Numbered (s : Sections) : Prop :=
  (s.all.map fun c => c.sequence) = List.range' 1 s.all.length

theorem Numbered.enter {s : Sections} (h : s.Numbered) (x : Entry) : (s.enter x).Numbered := by
  unfold Numbered at *
  rw [all_enter, List.map_append, h, Ledger.map_sequence_numbered, List.length_append,
    Ledger.length_numbered, Nat.add_comm s.all.length 1, List.range'_append_1]

theorem Numbered.current_pairwise {s : Sections} (h : s.Numbered) :
    s.current.Pairwise fun c d => c.sequence < d.sequence := by
  -- it is a part of all records, and these are numbered in order
  have hall : (s.all.map fun c => c.sequence).Pairwise (· < ·) := h ▸ List.pairwise_lt_range'
  have hsub : s.current.Sublist s.all := List.sublist_append_right _ _
  exact (List.pairwise_map.mp hall).sublist hsub

/-- What an entry does to the ledger, it does to the sections that describe it. -/
theorem Numbered.ledger_enter {s : Sections} (h : s.Numbered) (x : Entry) :
    s.ledger.enter x = (s.enter x).ledger := by
  cases x with
  | filed batch =>
    have hall := s.all_enter (.filed batch)
    simp only [Entry.records] at hall
    simp only [ledger, Ledger.enter, Ledger.fileAll, hall, List.length_append,
      Ledger.length_numbered]
    rfl
  | pass =>
    have hall := s.all_enter .pass
    simp only [Entry.records, Ledger.numbered, List.mapIdx_nil, List.append_nil] at hall
    -- the one place where the order of the current section matters
    have hsettled := Contradiction.map_attempted_bySeverity h.current_pairwise
    simp only [ledger, Ledger.enter, Ledger.settle, Ledger.pending, hall, hsettled]
    simp [Sections.enter]

theorem Numbered.ledger_foldl_enter {s : Sections} (h : s.Numbered) (j : List Entry) :
    j.foldl Ledger.enter s.ledger = (j.foldl Sections.enter s).ledger := by
  -- the numbering is the invariant: without it a pass need not settle by sequence number
  induction j generalizing s with
  | nil => rfl
  | cons x j ih => rw [List.foldl_cons, List.foldl_cons, h.ledger_enter, ih (h.enter x)]

end Sections

/-! ## The law of a run -/

/-- What a ledger that was empty at first owes to its journal. -/
structure Ledger.Follows (l : Ledger) (j : List Entry) : Prop where
  /-- The sections hold what came in, in that order: the `i`-th record, counted from one, has the
  sequence number `i`, and is otherwise as it came in. -/
  log : (Sections.ofJournal j).all =
    (j.flatMap Entry.records).mapIdx fun i c => { c with sequence := i + 1 }
  /-- There is a closed section for each pass. -/
  cuts : (Sections.ofJournal j).closed.length = j.countP Entry.isPass
  filed : l.filed = (j.flatMap Entry.records).length
  /-- What came in after the last pass is active, in the order of filing. -/
  active : l.active = (Sections.ofJournal j).current
  /-- The closed sections are resolved, one after the other. In each of them the records stand by
  severity and then by sequence number; their attempts have gone up by one, and nothing else. -/
  resolved : l.resolved = (Sections.ofJournal j).closed.flatMap fun records =>
    (records.mergeSort Contradiction.before).map fun c => { c with attempts := c.attempts + 1 }
  /-- So each record that came in is either active or resolved, and that once. -/
  complete : l.Complete

theorem Ledger.follows_foldl_enter (j : List Entry) : (j.foldl Ledger.enter {}).Follows j := by
  have hstart : ({} : Sections).Numbered := rfl
  have hledger : j.foldl Ledger.enter {} = (Sections.ofJournal j).ledger :=
    hstart.ledger_foldl_enter j
  have hall : (Sections.ofJournal j).all = Ledger.numbered 0 (j.flatMap Entry.records) :=
    Sections.all_foldl_enter {} j
  exact
    { log := by simp only [hall, Ledger.numbered, Nat.zero_add, Nat.add_comm 1]
      cuts := by simpa [Sections.ofJournal] using Sections.length_closed_foldl_enter {} j
      filed := by rw [Ledger.filed_foldl_enter, Nat.zero_add]
      active := by rw [hledger, Sections.ledger]
      resolved := by
        rw [hledger, Sections.ledger]
        rfl
      complete := Ledger.complete_empty.foldl_enter j }

namespace Engine

variable {α : Type} [Scalar α]

/-- Of a reachable engine, every record that was ever filed is either active or resolved. -/
theorem Reachable.complete {e : Engine α} (h : e.Reachable) : e.ledger.Complete := by
  induction h with
  | fresh h =>
    rw [h.empty.2]
    exact Ledger.complete_empty
  | step _ op ih =>
    rw [step_ledger]
    exact ih.enter _

/-- **The law of a run.** Whatever is asked of a new engine, and whatever records are handed to
it, its ledger follows the journal of the run: nothing is lost, repeated or altered, and each pass
settles its section by severity and sequence number. -/
theorem run_follows {e : Engine α} (h : e.Fresh) (ops : List Op) :
    (e.run ops).2.ledger.Follows (e.journal ops) := by
  rw [run_ledger, h.empty.2]
  exact Ledger.follows_foldl_enter (e.journal ops)

/-- Two names come to disagree, a critical record comes in that has been through five passes, one
more is made, and the same record comes in once more. -/
def mixedRequests : List Op :=
  let ids : IdSource := Uuid.ofNat
  let foreign : Contradiction :=
    { standing := ⟨"a", .yes⟩, incoming := ⟨"a", .no⟩, severity := .critical, id := Uuid.ofNat 0
      sequence := 99, context := "sensor", attempts := 5 }
  [.network (.update ids "a" .yes 1.0), .network (.update ids "b" .no 0.5),
    .network (.record foreign), .network .resolve, .network (.record foreign)]

theorem run_follows_mixedRequests :
    Fresh ({} : Engine Rat) ∧
    (({} : Engine Rat).run mixedRequests).2.ledger.Follows
      (({} : Engine Rat).journal mixedRequests) ∧
    (({} : Engine Rat).run mixedRequests).2.ledger.filed = 3 ∧
    (({} : Engine Rat).run mixedRequests).2.ledger.resolved.map
      (fun c => (c.sequence, c.attempts)) = [(2, 6), (1, 1)] ∧
    (({} : Engine Rat).run mixedRequests).2.ledger.active.map
      (fun c => (c.sequence, c.attempts)) = [(3, 5)] := by
  have h : (({} : Engine Rat).run mixedRequests).2.ledger.Follows _ :=
    run_follows .blank mixedRequests
  have hsorted : ∀ records ∈ (Sections.ofJournal (({} : Engine Rat).journal mixedRequests)).closed,
      records.Pairwise fun c d => c.sequence < d.sequence := by decide +kernel
  have hgroups := List.flatMap_congr fun records hrecords =>
    Contradiction.settled_eq_flatMap (hsorted records hrecords)
  exact ⟨.blank, h, h.filed.trans (by decide +kernel),
    (congrArg _ (h.resolved.trans hgroups)).trans (by decide +kernel),
    (congrArg _ h.active).trans (by decide +kernel)⟩

end Engine

end TernaryBelief
