import TernaryBelief.Proofs.Composition

/-!
# Chains and their duals

Negation turns the order of the truth values around, so it exchanges conjunction and disjunction
(`Connective.apply_dual`). It keeps the unknown, so it does not touch the uncertainty. Hence a chain
of negated premises, with conjunctions and disjunctions exchanged, goes through the negated values
of the chain, fails if the chain fails, and comes to the negated result with the same uncertainty,
in whatever numbers this is counted (`Evaluator.runChain_dual`).

The implication is no part of this: what is dual to it is not among the connectives.
-/

namespace TernaryBelief

variable {α : Type}

/-! ## Connectives -/

namespace Connective

/-- Conjunction and disjunction are exchanged. The implication has no dual and is left alone. -/
def dual : Connective → Connective
  | and => or
  | or => and
  | not => not
  | implies => implies

@[simp] theorem dual_dual (op : Connective) : op.dual.dual = op := by cases op <;> rfl

/-- **The laws of De Morgan**, for one operation. -/
theorem apply_dual {op : Connective} (h : op ≠ implies) (a b : Trit) :
    op.dual.apply (-a) (-b) = -op.apply a b := by
  cases op with
  | and => cases a <;> cases b <;> rfl
  | or => cases a <;> cases b <;> rfl
  | not => rfl
  | implies => exact absurd rfl h

/-- No connective is dual to the implication. -/
theorem not_exists_dual_implies :
    ¬ ∃ op : Connective, ∀ a b : Trit, op.apply (-a) (-b) = -implies.apply a b := by
  rintro ⟨op, h⟩
  have hno := h .no .no
  have hunknown := h .unknown .no
  have hyes := h .yes .yes
  cases op <;> revert hno hunknown hyes <;> decide

end Connective

open Connective (dual)

theorem Trit.uncertainty_neg [Scalar α] (t : Trit) : ((-t).uncertainty : α) = t.uncertainty := by
  rw [uncertainty, uncertainty, isUnknown_neg]

/-- The opposite result, which is as certain. -/
def Conclusion.negated (c : Conclusion α) : Conclusion α := ⟨-c.result, c.uncertainty⟩

/-! ## Chains -/

namespace Chain

variable {links : List (Connective × Trit)} {premises : List Trit} {operations : List Connective}

/-- The dual operation with the negated right operand. -/
def mirror (link : Connective × Trit) : Connective × Trit := (link.1.dual, -link.2)

theorem trace_mirror (h : ∀ link ∈ links, link.1 ≠ .implies) (a : Trit) :
    trace (-a) (links.map mirror) = (trace a links).map (-·) := by
  induction links generalizing a with
  | nil => rfl
  | cons link links ih =>
    obtain ⟨op, b⟩ := link
    have hop := Connective.apply_dual (h (op, b) List.mem_cons_self) a b
    have hrest := ih (fun link hlink => h link (List.mem_cons_of_mem _ hlink)) (op.apply a b)
    rw [List.map_cons, mirror, trace, trace, List.map_cons, hop, hrest]

variable [Scalar α]

theorem advance_mirror {link : Connective × Trit} (h : link.1 ≠ .implies) (c : Conclusion α) :
    advance c.negated (mirror link) = (advance c link).negated := by
  simp only [advance, mirror, Conclusion.negated, Connective.apply_dual h, Trit.uncertainty_neg]

theorem conclude_mirror (h : ∀ link ∈ links, link.1 ≠ .implies) (a : Trit) :
    conclude (α := α) (-a) (links.map mirror) = (conclude a links).negated := by
  have hfold (c : Conclusion α) :
      (links.map mirror).foldl advance c.negated = (links.foldl advance c).negated := by
    induction links generalizing c with
    | nil => rfl
    | cons link links ih =>
      rw [List.map_cons, List.foldl_cons, List.foldl_cons,
        advance_mirror (h link List.mem_cons_self),
        ih fun link hlink => h link (List.mem_cons_of_mem _ hlink)]
  exact hfold ⟨a, 0.0⟩

theorem zip_mirror (operations : List Connective) (rest : List Trit) :
    (operations.map dual).zip (rest.map (-·)) = (operations.zip rest).map mirror :=
  List.zip_map

theorem ne_implies_of_mem_zip (h : .implies ∉ operations) {rest : List Trit}
    {link : Connective × Trit} (hlink : link ∈ operations.zip rest) : link.1 ≠ .implies := by
  intro himplies
  exact h (himplies ▸ (List.of_mem_zip hlink).1)

/-- A chain fails if its dual does, and else it comes to the opposite. -/
theorem run_dual (h : .implies ∉ operations) (premises : List Trit) :
    run (α := α) (premises.map (-·)) (operations.map dual) =
      (run premises operations).map Conclusion.negated := by
  cases premises with
  | nil => rfl
  | cons first rest =>
    rw [List.map_cons, run, run, zip_mirror, conclude_mirror fun _ => ne_implies_of_mem_zip h]
    rfl

omit [Scalar α] in
theorem running_dual (h : .implies ∉ operations) (premises : List Trit) :
    running (premises.map (-·)) (operations.map dual) = (running premises operations).map (-·) := by
  cases premises with
  | nil => rfl
  | cons first rest =>
    rw [List.map_cons, running, running, zip_mirror, trace_mirror fun _ => ne_implies_of_mem_zip h]

end Chain

/-! ## Evaluators -/

namespace Evaluator

variable [Scalar α] {premises : List Trit} {operations : List Connective}

/-- The evaluator `v` is given a chain, and `w` its dual. -/
structure Mirrors (premises : List Trit) (operations : List Connective) (v w : Evaluator α) :
    Prop where
  /-- The one call fails exactly when the other does, which is when there is no premise. -/
  refused (reason : Rejection) :
    (w.runChain (premises.map (-·)) (operations.map dual) = .error reason ↔
      v.runChain premises operations = .error reason) ∧
    (v.runChain premises operations = .error reason ↔ premises = [] ∧ reason = .noPremises)
  concluded : premises ≠ [] → ∃ c v' w', v.runChain premises operations = .ok (c, v') ∧
    w.runChain (premises.map (-·)) (operations.map dual) = .ok (⟨-c.result, c.uncertainty⟩, w')
  /-- Every value on the way is negated. -/
  running : Chain.running (premises.map (-·)) (operations.map dual) =
    (Chain.running premises operations).map (-·)
  /-- The values on the way are those that the operations so far come to. -/
  reached : ∀ i < (Chain.running premises operations).length, ∃ c v' w',
    v.runChain premises (operations.take (i + 1)) = .ok (c, v') ∧
    w.runChain (premises.map (-·)) ((operations.map dual).take (i + 1)) =
      .ok (⟨-c.result, c.uncertainty⟩, w') ∧
    (Chain.running premises operations)[i]? = some c.result

theorem runChain_eq_error_iff (v : Evaluator α) {reason : Rejection} :
    v.runChain premises operations = .error reason ↔ premises = [] ∧ reason = .noPremises := by
  cases premises with
  | nil =>
    constructor
    · intro h
      cases h
      exact ⟨rfl, rfl⟩
    · rintro ⟨-, rfl⟩
      rfl
  | cons first rest =>
    exact iff_of_false (fun h => by cases h) fun h => List.cons_ne_nil _ _ h.1

theorem exists_runChain_dual (h : .implies ∉ operations) (v w : Evaluator α)
    (hpremises : premises ≠ []) :
    ∃ c v' w', v.runChain premises operations = .ok (c, v') ∧
      w.runChain (premises.map (-·)) (operations.map dual) =
        .ok (⟨-c.result, c.uncertainty⟩, w') := by
  have hdual := Chain.run_dual (α := α) h premises
  cases premises with
  | nil => exact absurd rfl hpremises
  | cons first rest =>
    obtain ⟨w', hw⟩ := exists_runChain hdual w
    exact ⟨_, _, w', rfl, hw⟩

/-- **The dual of a chain comes to the opposite, as certainly**, if no
implication is among its operations. -/
theorem runChain_dual (h : .implies ∉ operations) (premises : List Trit) (v w : Evaluator α) :
    Mirrors premises operations v w where
  refused reason := by
    refine ⟨?_, v.runChain_eq_error_iff⟩
    rw [runChain_eq_error_iff, runChain_eq_error_iff, List.map_eq_nil_iff]
  concluded := exists_runChain_dual h v w
  running := Chain.running_dual h premises
  reached i hi := by
    have hpremises : premises ≠ [] := by
      rintro rfl
      exact Nat.not_lt_zero i hi
    have htake : .implies ∉ operations.take (i + 1) := fun hmem => h (List.mem_of_mem_take hmem)
    obtain ⟨c, v', w', hv, hw⟩ := exists_runChain_dual htake v w hpremises
    obtain ⟨c', v'', hv', hvalue⟩ := v.reached premises operations i hi
    rw [hv] at hv'
    cases hv'
    exact ⟨c, v', w', hv, by rwa [← List.map_take], hvalue⟩

/-- Five operations, of which three find a premise; the negation ignores the one that it takes. -/
theorem runChain_dual_fiveOperations :
    .implies ∉ ([.and, .not, .or, .and, .or] : List Connective) ∧
    (∃ v', ({} : Evaluator Float).runChain [.yes, .unknown, .no, .yes]
      [.and, .not, .or, .and, .or] = .ok (⟨.yes, 2.0⟩, v')) ∧
    ∃ w', ({} : Evaluator Float).runChain [.no, .unknown, .yes, .no]
      [.or, .not, .and, .or, .and] = .ok (⟨.no, 2.0⟩, w') := by
  have hops : .implies ∉ ([.and, .not, .or, .and, .or] : List Connective) := by decide
  have hconclude : Chain.run (α := Float) [.yes, .unknown, .no, .yes] [.and, .not, .or, .and, .or] =
      .ok ⟨.yes, 2.0⟩ := by decide +kernel
  obtain ⟨c, v', w', hv, hw⟩ :=
    (runChain_dual (α := Float) hops [.yes, .unknown, .no, .yes] {} {}).concluded
      (List.cons_ne_nil _ _)
  have hc : c = ⟨.yes, 2.0⟩ := Except.ok.inj ((run_of_runChain hv).symm.trans hconclude)
  subst hc
  exact ⟨hops, ⟨v', hv⟩, w', hw⟩

end Evaluator

end TernaryBelief
