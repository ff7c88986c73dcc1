import TernaryBelief.Proofs.Information

/-!
# Chains in parts

A chain with more operations than premises to take, or with more premises than operations, ends
where the shorter list does; what is left over of the longer one is not looked at. What a chain
comes to can be read off its running values (`Chain.conclude_eq`): the result is the last of them,
and the uncertainty counts the unknown ones. So a chain can be cut in two anywhere, the second part
starting from the result of the first, and the uncertainties of the parts add up
(`Evaluator.runChain_composes`).

Both are said of exact numbers, and of machine numbers as long as these count exactly.
-/

namespace TernaryBelief

variable {α : Type}

namespace Chain

variable {premises premises' : List Trit} {operations operations' : List Connective}

/-- How many operations are applied. Each of them takes a premise, and
the first premise is not taken. -/
def applied (premises : List Trit) (operations : List Connective) : Nat :=
  min operations.length (premises.length - 1)

/-! ## Running values -/

/-- The running values of a chain are those of its first part, and
those of the rest from there on. -/
theorem trace_append (a : Trit) (links links' : List (Connective × Trit)) :
    trace a (links ++ links') = trace a links ++ trace ((trace a links).getLastD a) links' := by
  induction links generalizing a with
  | nil => rfl
  | cons link links ih =>
    obtain ⟨op, next⟩ := link
    simp only [List.cons_append, trace, ih, List.getLastD_cons]

/-- What is certain adds nothing to a count, and what is unknown adds one. -/
theorem ofCount_add_uncertainty [Scalar α] {bound n : Nat} (h : Scalar.Counts α bound)
    (hn : n + 1 ≤ bound) (t : Trit) :
    (Scalar.ofCount n : α) + t.uncertainty = Scalar.ofCount (n + [t].countP Trit.isUnknown) := by
  have hcertain : (Scalar.ofCount n : α) + 0.0 = Scalar.ofCount (n + 0) := by
    rw [h.zero]
    exact h.add (Nat.le_of_succ_le hn)
  have hunknown : (Scalar.ofCount n : α) + 1.0 = Scalar.ofCount (n + 1) := by
    rw [h.one]
    exact h.add hn
  cases t with
  | no => exact hcertain
  | unknown => exact hunknown
  | yes => exact hcertain

/-- **The conclusion is read off the running values.** -/
theorem conclude_eq [Scalar α] {bound : Nat} (h : Scalar.Counts α bound) (first : Trit)
    {links : List (Connective × Trit)} (hlinks : links.length ≤ bound) :
    (conclude first links : Conclusion α) =
      ⟨(trace first links).getLastD first,
        Scalar.ofCount ((trace first links).countP Trit.isUnknown)⟩ := by
  -- from the end, as the last operation is applied to what the others have come to
  induction links using List.reverseRecOn with
  | nil => exact congrArg _ h.zero
  | append_singleton links link ih =>
    obtain ⟨op, next⟩ := link
    rw [List.length_append, List.length_singleton] at hlinks
    have hcount : (trace first links).countP Trit.isUnknown + 1 ≤ bound := by
      have hle := List.countP_le_length (p := Trit.isUnknown) (l := trace first links)
      rw [length_trace] at hle
      omega
    have hadvance : (conclude first (links ++ [(op, next)]) : Conclusion α) =
        advance (conclude first links) (op, next) := List.foldl_concat _ _ _ _
    rw [hadvance, ih (Nat.le_of_succ_le hlinks), trace_append, trace, trace, List.getLastD_concat,
      List.countP_append, advance]
    simp only [ofCount_add_uncertainty h hcount]

/-- The last running value of a chain is that of its second part, if this has one. -/
theorem getLastD_append (a : Trit) (xs ys : List Trit) :
    (xs ++ ys).getLastD a = ys.getLastD (xs.getLastD a) := by
  rw [List.getLastD_eq_getLast?, List.getLastD_eq_getLast?, List.getLastD_eq_getLast?,
    List.getLast?_append]
  cases ys.getLast? <;> rfl

/-- The second part of a chain starts from the result of the first, and the uncertainties add up. -/
theorem conclude_append [Scalar α] {bound : Nat} (h : Scalar.Counts α bound) (first : Trit)
    {links links' : List (Connective × Trit)} (hlinks : (links ++ links').length ≤ bound) :
    (conclude first (links ++ links') : Conclusion α) =
      ⟨(conclude (α := α) (conclude (α := α) first links).result links').result,
        (conclude first links).uncertainty +
          (conclude (conclude (α := α) first links).result links').uncertainty⟩ := by
  have hparts := hlinks
  rw [List.length_append] at hparts
  have hcount := List.countP_le_length (p := Trit.isUnknown) (l := trace first (links ++ links'))
  rw [length_trace, trace_append, List.countP_append] at hcount
  rw [conclude_eq h first hlinks, conclude_eq h first (Nat.le_of_add_right_le hparts),
    conclude_eq h _ (Nat.le_of_add_left_le hparts), trace_append, getLastD_append,
    List.countP_append, h.add (hcount.trans hlinks)]

/-! ## What is used -/

theorem zip_take_applied (first : Trit) (rest : List Trit) (operations : List Connective) :
    operations.zip rest =
      (operations.take (applied (first :: rest) operations)).zip
        (rest.take (applied (first :: rest) operations)) :=
  List.zip_eq_zip_take_min

/-- A chain comes to the same if what it does not use is cut off. -/
theorem run_take [Scalar α] (premises : List Trit) (operations : List Connective) :
    (run (premises.take (applied premises operations + 1))
      (operations.take (applied premises operations)) : Except Rejection (Conclusion α)) =
      run premises operations := by
  cases premises with
  | nil => rfl
  | cons first rest => rw [List.take_succ_cons, run, run, ← zip_take_applied]

/-- Two chains with the same premises and operations, as far as these are used, come to the same. -/
theorem run_congr [Scalar α]
    (hpremises : premises'.take (applied premises operations + 1) =
      premises.take (applied premises operations + 1))
    (hoperations : operations'.take (applied premises operations) =
      operations.take (applied premises operations))
    (happlied : applied premises' operations' = applied premises operations) :
    (run premises' operations' : Except Rejection (Conclusion α)) = run premises operations := by
  rw [← run_take premises', happlied, hpremises, hoperations, run_take]

theorem length_running (premises : List Trit) (operations : List Connective) :
    (running premises operations).length = applied premises operations := by
  cases premises with
  | nil => exact (Nat.min_zero _).symm
  | cons first rest =>
    rw [running, length_trace, List.length_zip]
    rfl

/-- A list of operations is cut where a first part of them has taken its premises. -/
theorem zip_append_drop {ops₁ ops₂ : List Connective} {rest : List Trit}
    (h : ops₁.length ≤ rest.length) :
    (ops₁ ++ ops₂).zip rest =
      ops₁.zip (rest.take ops₁.length) ++ ops₂.zip (rest.drop ops₁.length) := by
  have hlength : ops₁.length = (rest.take ops₁.length).length := by
    rw [List.length_take, Nat.min_eq_left h]
  conv_lhs => rw [← List.take_append_drop ops₁.length rest]
  exact List.zip_append hlength

end Chain

/-! ## Evaluators -/

namespace Evaluator

open Chain (applied running)

variable [Scalar α]

theorem runChain_cons (v : Evaluator α) (first : Trit) (rest : List Trit)
    (operations : List Connective) :
    v.runChain (first :: rest) operations =
      .ok (Chain.conclude first (operations.zip rest),
        { v with history := v.history ++ [⟨first :: rest, operations,
            (Chain.conclude (α := α) first (operations.zip rest)).result,
            (Chain.conclude first (operations.zip rest)).uncertainty⟩] }) := rfl

/-- The call is answered by the conclusion, and records nothing that has a part in it. -/
theorem map_fst_runChain (v : Evaluator α) (premises : List Trit) (operations : List Connective) :
    (v.runChain premises operations).map Prod.fst = Chain.run premises operations := by
  cases premises with
  | nil => rfl
  | cons first rest => rfl

theorem exists_runChain {premises : List Trit} {operations : List Connective} {c : Conclusion α}
    (h : Chain.run premises operations = .ok c) (v : Evaluator α) :
    ∃ v', v.runChain premises operations = .ok (c, v') := by
  rw [runChain, h]
  exact ⟨_, rfl⟩

theorem run_of_runChain {premises : List Trit} {operations : List Connective} {c : Conclusion α}
    {v v' : Evaluator α} (h : v.runChain premises operations = .ok (c, v')) :
    Chain.run premises operations = .ok c := by
  rw [← v.map_fst_runChain, h]
  rfl

/-- A call looks at nothing beyond the operations that are applied and
the premises that these take. -/
structure Truncates (v : Evaluator α) (premises : List Trit) (operations : List Connective) :
    Prop where
  /-- Any evaluator comes to the same if the rest is cut off. -/
  cut (w : Evaluator α) :
    (w.runChain (premises.take (applied premises operations + 1))
      (operations.take (applied premises operations))).map Prod.fst =
      (v.runChain premises operations).map Prod.fst
  /-- Any evaluator comes to the same if the rest is another one, of
  which nothing is applied either. -/
  same (w : Evaluator α) (premises' : List Trit) (operations' : List Connective) :
    premises'.take (applied premises operations + 1) =
      premises.take (applied premises operations + 1) →
    operations'.take (applied premises operations) =
      operations.take (applied premises operations) →
    applied premises' operations' = applied premises operations →
    (w.runChain premises' operations').map Prod.fst = (v.runChain premises operations).map Prod.fst

/-- What a call comes to in parts. -/
structure Composes (v : Evaluator α) (premises : List Trit) (operations : List Connective) :
    Prop where
  /-- The uncertainty is the number of unknown values among the running ones, of which there is
  one for each operation that is applied. -/
  counted : ∃ c v', v.runChain premises operations = .ok (c, v') ∧
    c.uncertainty = Scalar.ofCount ((running premises operations).countP Trit.isUnknown) ∧
    (running premises operations).length = applied premises operations ∧
    (running premises operations).countP Trit.isUnknown ≤ applied premises operations
  /-- The running values are those that the operations so far come to. -/
  reached : ∀ i < applied premises operations, ∃ c v',
    v.runChain premises (operations.take (i + 1)) = .ok (c, v') ∧
      (running premises operations)[i]? = some c.result
  /-- The chain can be cut wherever the operations before the cut have premises to take. -/
  split (ops₁ ops₂ : List Connective) : operations = ops₁ ++ ops₂ →
    ops₁.length ≤ premises.length - 1 → ∀ w₁ w₂ : Evaluator α, ∃ c₁ w₁' c₂ w₂',
      w₁.runChain (premises.take (ops₁.length + 1)) ops₁ = .ok (c₁, w₁') ∧
      w₂.runChain (c₁.result :: premises.drop (ops₁.length + 1)) ops₂ = .ok (c₂, w₂') ∧
      ∃ v', v.runChain premises operations =
        .ok (⟨c₂.result, c₁.uncertainty + c₂.uncertainty⟩, v')

theorem truncates (v : Evaluator α) (premises : List Trit) (operations : List Connective) :
    v.Truncates premises operations where
  cut w := by rw [map_fst_runChain, map_fst_runChain, Chain.run_take]
  same w premises' operations' hpremises hoperations happlied := by
    rw [map_fst_runChain, map_fst_runChain, Chain.run_congr hpremises hoperations happlied]

theorem composes {bound : Nat} (h : Scalar.Counts α bound) (v : Evaluator α) {premises : List Trit}
    (hpremises : premises ≠ []) {operations : List Connective}
    (hbound : applied premises operations ≤ bound) : v.Composes premises operations where
  counted := by
    have hlength := Chain.length_running premises operations
    have hle := List.countP_le_length (p := Trit.isUnknown) (l := running premises operations)
    rw [hlength] at hle
    cases premises with
    | nil => exact absurd rfl hpremises
    | cons first rest =>
      have hlinks : (operations.zip rest).length ≤ bound := by rwa [List.length_zip]
      exact ⟨_, _, rfl, congrArg Conclusion.uncertainty (Chain.conclude_eq h first hlinks), hlength,
        hle⟩
  reached i hi := v.reached premises operations i (by rwa [Chain.length_running])
  split ops₁ ops₂ hops hle w₁ w₂ := by
    subst hops
    cases premises with
    | nil => exact absurd rfl hpremises
    | cons first rest =>
      have hzip : (ops₁ ++ ops₂).zip rest = _ := Chain.zip_append_drop hle
      have hlinks : ((ops₁ ++ ops₂).zip rest).length ≤ bound := by rwa [List.length_zip]
      rw [hzip] at hlinks
      refine ⟨_, _, _, _, rfl, rfl, ?_⟩
      rw [runChain_cons, hzip, Chain.conclude_append h first hlinks]
      exact ⟨_, rfl⟩

/-- **A chain can be cut anywhere.** -/
theorem runChain_composes {premises : List Trit} (h : premises ≠ [])
    (operations : List Connective) :
    (∀ v : Evaluator Rat, v.Truncates premises operations ∧ v.Composes premises operations) ∧
    ∀ v : Evaluator Float, v.Truncates premises operations ∧
      (applied premises operations ≤ 2 ^ 53 → v.Composes premises operations) :=
  ⟨fun v => ⟨v.truncates premises operations,
      composes (Scalar.counts_rat _) v h (Nat.le_refl _)⟩,
    fun v => ⟨v.truncates premises operations, composes Scalar.counts_float v h⟩⟩

/-- Of six operations four find a premise; the first two are cut off, and one of them
ignores the premise that it takes. -/
theorem runChain_composes_fourApplied :
    ([.yes, .unknown, .no, .unknown, .yes] : List Trit) ≠ [] ∧
    applied [.yes, .unknown, .no, .unknown, .yes] [.and, .not, .or, .implies, .and, .not] = 4 ∧
    (({} : Evaluator Float).runChain [.yes, .unknown, .no] [.and, .not]).map Prod.fst =
      .ok ⟨.unknown, 2.0⟩ ∧
    (({} : Evaluator Float).runChain [.unknown, .unknown, .yes] [.or, .implies, .and, .not]).map
      Prod.fst = .ok ⟨.yes, 1.0⟩ ∧
    ∃ v', ({} : Evaluator Float).runChain [.yes, .unknown, .no, .unknown, .yes]
      [.and, .not, .or, .implies, .and, .not] = .ok (⟨.yes, 2.0 + 1.0⟩, v') := by
  have hne : ([.yes, .unknown, .no, .unknown, .yes] : List Trit) ≠ [] := List.cons_ne_nil _ _
  have happlied : applied [.yes, .unknown, .no, .unknown, .yes]
      [.and, .not, .or, .implies, .and, .not] = 4 := by decide
  have hfirst : (Chain.conclude .yes [(.and, .unknown), (.not, .no)] : Conclusion Float) =
      ⟨.unknown, 2.0⟩ := by decide +kernel
  have hsecond : (Chain.conclude .unknown [(.or, .unknown), (.implies, .yes)] : Conclusion Float) =
      ⟨.yes, 1.0⟩ := by decide +kernel
  obtain ⟨-, hcomposes⟩ :=
    (runChain_composes hne [.and, .not, .or, .implies, .and, .not]).2 {}
  obtain ⟨c₁, w₁, c₂, w₂, hleft, hright, hwhole⟩ :=
    (hcomposes (by rw [happlied]; decide)).split [.and, .not] [.or, .implies, .and, .not] rfl
      (by decide) {} {}
  -- the parts are evaluated, and their conclusions are put into that of the whole
  have hc₁ : c₁ = ⟨.unknown, 2.0⟩ :=
    (congrArg Prod.fst (Except.ok.inj hleft)).symm.trans hfirst
  subst hc₁
  have hc₂ : c₂ = ⟨.yes, 1.0⟩ :=
    (congrArg Prod.fst (Except.ok.inj hright)).symm.trans hsecond
  subst hc₂
  exact ⟨hne, happlied, congrArg Except.ok hfirst, congrArg Except.ok hsecond, hwhole⟩

end Evaluator

end TernaryBelief
