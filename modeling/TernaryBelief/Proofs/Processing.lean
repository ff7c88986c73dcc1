import Mathlib.Data.List.Pairwise
import Mathlib.Data.List.Nodup
import TernaryBelief.Ledger

/-!
# The order in which a pass processes a batch

A pass sorts its batch by severity alone and relies on the sort being stable. Here the result is
said without the sort: it is the critical records, then the hard, the medium and the soft ones, each
group in the order of the batch. If the batch comes in the order of its sequence numbers, that is
the order by descending severity and, within one severity, by ascending sequence number.

## Main definitions

* `Contradiction.tally`: how many records of a batch have each severity;
* `Contradiction.before`: severity first, then sequence number;
* `Contradiction.settled`: a batch as a pass leaves it.

## Main statements

* `Contradiction.bySeverity_eq_flatMap`: the groups, one after the other;
* `Contradiction.map_severity_bySeverity`: of severities alone, a pass
  sees how many there are of each;
* `Contradiction.map_attempted_bySeverity`: what a pass makes of a batch in filing order.
-/

namespace TernaryBelief

namespace Severity

theorem le_iff {a b : Severity} : a ≤ b ↔ a.rank ≤ b.rank := Iff.rfl

theorem lt_iff {a b : Severity} : a < b ↔ a.rank < b.rank := Iff.rfl

/-- So many of each severity, the most severe ones first. -/
def ranked (counts : Severity → Nat) : List Severity :=
  all.reverse.flatMap fun s => List.replicate (counts s) s

end Severity

namespace Contradiction

/-! ## Groups of one severity -/

theorem bySeverity_perm (batch : List Contradiction) : (bySeverity batch).Perm batch :=
  List.mergeSort_perm batch _

private theorem severity_trans (a b c : Contradiction)
    (hab : decide (b.severity ≤ a.severity) = true)
    (hbc : decide (c.severity ≤ b.severity) = true) : decide (c.severity ≤ a.severity) = true := by
  simp only [decide_eq_true_eq, Severity.le_iff] at *
  omega

private theorem severity_total (a b : Contradiction) :
    (decide (b.severity ≤ a.severity) || decide (a.severity ≤ b.severity)) = true := by
  simp only [Bool.or_eq_true, decide_eq_true_eq, Severity.le_iff]
  omega

/-- No record is processed before a more severe one. -/
theorem bySeverity_pairwise (batch : List Contradiction) :
    (bySeverity batch).Pairwise fun c d => d.severity ≤ c.severity := by
  have h := List.pairwise_mergeSort severity_trans severity_total batch
  exact h.imp fun hcd => of_decide_eq_true hcd

/-- Records of one severity keep their order. -/
theorem filter_bySeverity (batch : List Contradiction) (s : Severity) :
    ((bySeverity batch).filter fun c => c.severity = s) = batch.filter fun c => c.severity = s := by
  -- the group is in order already, so stability keeps it as a sublist, and no more records have
  -- this severity after sorting than before
  have hgroup : (batch.filter fun c => c.severity = s).Pairwise
      fun c d => decide (d.severity ≤ c.severity) = true := by
    apply List.pairwise_of_forall_mem_list
    intro c hc d hd
    simp only [List.mem_filter, decide_eq_true_eq] at hc hd
    simp only [decide_eq_true_eq, Severity.le_iff, hc.2, hd.2, Nat.le_refl]
  have hsub := List.sublist_mergeSort severity_trans severity_total hgroup List.filter_sublist
  have hsub' := hsub.filter fun c => decide (c.severity = s)
  rw [List.filter_filter, List.filter_congr fun c _ => Bool.and_self _] at hsub'
  have hlength := ((bySeverity_perm batch).filter fun c => decide (c.severity = s)).length_eq
  exact (hsub'.eq_of_length hlength.symm).symm

/-- A list by descending severity is its groups, one after the other. -/
theorem eq_flatMap_of_pairwise {l : List Contradiction}
    (h : l.Pairwise fun c d => d.severity ≤ c.severity) :
    l = Severity.all.reverse.flatMap fun s => l.filter fun c => c.severity = s := by
  induction l with
  | nil => rfl
  | cons c l ih =>
    rw [List.pairwise_cons] at h
    have hnone (t : Severity) (ht : c.severity.rank < t.rank) :
        (l.filter fun d => d.severity = t) = [] := by
      simp only [List.filter_eq_nil_iff, decide_eq_true_eq]
      rintro d hd rfl
      exact absurd (Severity.le_iff.mp (h.1 d hd)) (by omega)
    have hl := ih h.2
    simp only [Severity.all, List.reverse_cons, List.reverse_nil, List.nil_append, List.cons_append,
      List.flatMap_cons, List.flatMap_nil, List.append_nil, List.filter_cons] at hl ⊢
    -- the groups above the severity of `c` are empty, so `c` comes first
    cases hc : c.severity with
    | critical => simpa using hl
    | hard =>
      have h₁ := hnone .critical (by simp [hc, Severity.rank])
      simpa [h₁] using hl
    | medium =>
      have h₁ := hnone .critical (by simp [hc, Severity.rank])
      have h₂ := hnone .hard (by simp [hc, Severity.rank])
      simpa [h₁, h₂] using hl
    | soft =>
      have h₁ := hnone .critical (by simp [hc, Severity.rank])
      have h₂ := hnone .hard (by simp [hc, Severity.rank])
      have h₃ := hnone .medium (by simp [hc, Severity.rank])
      simpa [h₁, h₂, h₃] using hl

/-- **A batch is processed group by group**, the most severe group first, each in the order of the
batch. -/
theorem bySeverity_eq_flatMap (batch : List Contradiction) :
    bySeverity batch =
      Severity.all.reverse.flatMap fun s => batch.filter fun c => c.severity = s := by
  rw [eq_flatMap_of_pairwise (bySeverity_pairwise batch)]
  simp only [filter_bySeverity]

/-! ## Severities alone -/

/-- How many records of a batch have a severity. -/
def tally (batch : List Contradiction) (s : Severity) : Nat :=
  batch.countP fun c => c.severity = s

theorem tally_eq_count (batch : List Contradiction) (s : Severity) :
    tally batch s = (batch.map fun c => c.severity).count s := by
  rw [List.count, List.countP_map]
  rfl

theorem tally_eq_zero {batch : List Contradiction} {s : Severity}
    (h : ∀ c ∈ batch, c.severity ≠ s) : tally batch s = 0 :=
  List.countP_eq_zero.mpr fun c hc hs => h c hc (of_decide_eq_true hs)

theorem map_severity_filter (batch : List Contradiction) (s : Severity) :
    ((batch.filter fun c => c.severity = s).map fun c => c.severity) =
      List.replicate (tally batch s) s := by
  rw [List.eq_replicate_iff, List.length_map, tally, List.countP_eq_length_filter]
  refine ⟨rfl, fun t ht => ?_⟩
  obtain ⟨c, hc, rfl⟩ := List.mem_map.mp ht
  exact of_decide_eq_true (List.mem_filter.mp hc).2

/-- In the order of processing, the severities of a batch are told by how many there are of each. -/
theorem map_severity_bySeverity (batch : List Contradiction) :
    ((bySeverity batch).map fun c => c.severity) = Severity.ranked (tally batch) := by
  rw [bySeverity_eq_flatMap, List.map_flatMap, Severity.ranked]
  simp only [map_severity_filter]

/-! ## Severity and sequence number -/

/-- `c` is the more severe record, or they are equally severe and `c` does not have the greater
sequence number. -/
def before (c d : Contradiction) : Bool :=
  decide (d.severity < c.severity) ||
    (decide (c.severity = d.severity) && decide (c.sequence ≤ d.sequence))

theorem before_iff {c d : Contradiction} :
    c.before d = true ↔ d.severity.rank < c.severity.rank ∨
      c.severity.rank = d.severity.rank ∧ c.sequence ≤ d.sequence := by
  simp only [before, Bool.or_eq_true, Bool.and_eq_true, decide_eq_true_eq, Severity.lt_iff,
    Severity.rank_inj]

/-- A batch as a pass leaves it: by descending severity and, within one severity, by ascending
sequence number. Each record has one attempt more and is otherwise what it was. -/
def settled (batch : List Contradiction) : List Contradiction :=
  (batch.mergeSort before).map fun c => { c with attempts := c.attempts + 1 }

theorem mergeSort_before_pairwise (batch : List Contradiction) :
    (batch.mergeSort before).Pairwise fun c d => c.before d = true := by
  apply List.pairwise_mergeSort
  · intro a b c hab hbc
    rw [before_iff] at *
    omega
  · intro a b
    rw [Bool.or_eq_true, before_iff, before_iff]
    omega

/-- Records in filing order are processed by severity and sequence number. -/
theorem bySeverity_pairwise_before {batch : List Contradiction}
    (h : batch.Pairwise fun c d => c.sequence < d.sequence) :
    (bySeverity batch).Pairwise fun c d => c.before d = true := by
  rw [bySeverity_eq_flatMap, List.pairwise_flatMap]
  constructor
  · -- within a group the order is that of the batch
    intro s _
    refine (h.filter _).imp_of_mem ?_
    intro c d hc hd hcd
    simp only [List.mem_filter, decide_eq_true_eq] at hc hd
    rw [before_iff, hc.2, hd.2]
    exact .inr ⟨rfl, Nat.le_of_lt hcd⟩
  · -- and the groups come by descending severity
    have hdesc : Severity.all.reverse.Pairwise fun s t => t.rank < s.rank := by decide
    refine hdesc.imp ?_
    intro s t hst c hc d hd
    simp only [List.mem_filter, decide_eq_true_eq] at hc hd
    rw [before_iff, hc.2, hd.2]
    exact .inl hst

/-- **What a pass makes of a batch in filing order** is the settled batch. -/
theorem map_attempted_bySeverity {batch : List Contradiction}
    (h : batch.Pairwise fun c d => c.sequence < d.sequence) :
    (bySeverity batch).map attempted = settled batch := by
  have hnodup : (batch.map fun c => c.sequence).Nodup :=
    List.pairwise_map.mpr (h.imp fun hcd => Nat.ne_of_lt hcd)
  -- two records that may stand in either order have one sequence number, so they are one record
  have hanti : ∀ c d, c ∈ bySeverity batch → d ∈ batch.mergeSort before →
      c.before d = true → d.before c = true → c = d := by
    intro c d hc hd hcd hdc
    rw [before_iff] at hcd hdc
    have hc' := (bySeverity_perm batch).mem_iff.mp hc
    have hd' := (List.mergeSort_perm batch before).mem_iff.mp hd
    exact List.inj_on_of_nodup_map hnodup hc' hd' (by omega)
  have hperm : (bySeverity batch).Perm (batch.mergeSort before) :=
    (bySeverity_perm batch).trans (List.mergeSort_perm batch before).symm
  have heq : bySeverity batch = batch.mergeSort before :=
    List.Perm.eq_of_pairwise hanti (bySeverity_pairwise_before h) (mergeSort_before_pairwise batch)
      hperm
  rw [heq]
  rfl

/-- Said without a sort, the settled batch is its groups with one attempt more for each record. -/
theorem settled_eq_flatMap {batch : List Contradiction}
    (h : batch.Pairwise fun c d => c.sequence < d.sequence) :
    settled batch = (Severity.all.reverse.flatMap fun s =>
      batch.filter fun c => c.severity = s).map attempted := by
  rw [← map_attempted_bySeverity h, bySeverity_eq_flatMap]

end Contradiction

end TernaryBelief
