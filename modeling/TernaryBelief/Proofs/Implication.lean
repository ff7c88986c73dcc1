import TernaryBelief.Proofs.Composition

/-!
# Chains without implication

The implication treats its operands differently, but it comes to the greater one of the negated left
operand and the right operand (`Trit.implies_eq_max`). So an implication in a chain can be restated
by two operations: a negation, whose right operand is not looked at, and a disjunction.

A chain that is rewritten in this way comes to the same result. On its way it goes through the
negated left operand of each implication, and this is unknown where the left operand is; so the
uncertainty grows by the number of implications from the unknown
(`Evaluator.runChain_withoutImplication`).

## Main definitions

* `Chain.links`, `Chain.course`: the operations that are applied, and the
  values that the chain goes through;
* `Chain.restate`, `Chain.eliminate`: one link, and all links of a chain, without implication;
* `Chain.withoutImplication`: the premises and operations of the rewritten chain;
* `Chain.openImplications`: how many implications are applied to the unknown.
-/

namespace TernaryBelief

variable {α : Type}

theorem Trit.implies_eq_max (a b : Trit) : a.implies b = max (-a) b := by
  cases a <;> cases b <;> rfl

namespace Chain

/-! ## Links and values -/

/-- The operations of a chain that are applied, each with the premise that it takes. -/
def links (premises : List Trit) (operations : List Connective) : List (Connective × Trit) :=
  operations.zip premises.tail

/-- The values that a chain goes through, from its first premise on: before each operation that is
applied the left operand of it, and in the end the result. -/
def course (premises : List Trit) (operations : List Connective) : List Trit :=
  premises.take 1 ++ running premises operations

@[simp] theorem links_nil (operations : List Connective) : links [] operations = [] :=
  List.zip_nil_right

theorem length_links (premises : List Trit) (operations : List Connective) :
    (links premises operations).length = applied premises operations := by
  rw [links, List.length_zip, List.length_tail, applied]

theorem exists_left_of_trace {a : Trit} {ls : List (Connective × Trit)} {i : Nat}
    {link : Connective × Trit} (h : ls[i]? = some link) :
    ∃ left, (a :: trace a ls)[i]? = some left ∧
      (trace a ls)[i]? = some (link.1.apply left link.2) := by
  induction ls generalizing a i with
  | nil => cases h
  | cons l ls ih =>
    cases i with
    | zero =>
      cases h
      exact ⟨a, rfl, rfl⟩
    | succ i => exact ih h

/-- Each operation that is applied takes the value that the chain has gone
to, and comes to the next one. -/
theorem exists_left_of_links {premises : List Trit} {operations : List Connective} {i : Nat}
    {link : Connective × Trit} (h : (links premises operations)[i]? = some link) :
    ∃ left, (course premises operations)[i]? = some left ∧
      (running premises operations)[i]? = some (link.1.apply left link.2) := by
  cases premises with
  | nil => simp at h
  | cons first rest => exact exists_left_of_trace h

/-- The result of a chain is the last of its running values, whatever it counts with. -/
theorem result_conclude [Scalar α] (first : Trit) (ls : List (Connective × Trit)) :
    (conclude (α := α) first ls).result = (trace first ls).getLastD first := by
  have hfold (c : Conclusion α) :
      (ls.foldl advance c).result = (trace c.result ls).getLastD c.result := by
    induction ls generalizing c with
    | nil => rfl
    | cons l ls ih =>
      rw [List.foldl_cons, ih, trace, List.getLastD_cons]
      rfl
  exact hfold ⟨first, 0.0⟩

/-! ## One link -/

/-- An implication is restated by a negation, with any right operand, and a disjunction; any
other operation stays as it is. -/
def restate (filler : Trit) : Connective × Trit → List (Connective × Trit)
  | (.implies, b) => [(.not, filler), (.or, b)]
  | link => [link]

/-- The link is an implication, and its left operand is unknown. -/
def isOpen (x : (Connective × Trit) × Trit) : Bool := x.1.1 == .implies && x.2.isUnknown

variable (filler : Trit) (fillers : Nat → Trit)

theorem ne_implies_of_mem_restate {link link' : Connective × Trit}
    (h : link' ∈ restate filler link) : link'.1 ≠ .implies := by
  obtain ⟨op, b⟩ := link
  cases op with
  | implies =>
    simp only [restate, List.mem_cons, List.not_mem_nil, or_false] at h
    rcases h with rfl | rfl <;> simp
  | and | or | not =>
    simp only [restate, List.mem_singleton] at h
    subst h
    simp

/-- In the end, a restated link has come to what the link comes to. -/
theorem getLastD_trace_restate (a : Trit) (link : Connective × Trit) :
    (trace a (restate filler link)).getLastD a = link.1.apply a link.2 := by
  obtain ⟨op, b⟩ := link
  cases op with
  | implies => exact (a.implies_eq_max b).symm
  | and => rfl
  | or => rfl
  | not => rfl

/-- On its way, a restated implication goes through the negated left operand. -/
theorem countP_trace_restate (a : Trit) (link : Connective × Trit) :
    (trace a (restate filler link)).countP Trit.isUnknown =
      [link.1.apply a link.2].countP Trit.isUnknown + [(link, a)].countP isOpen := by
  obtain ⟨op, b⟩ := link
  cases op with
  | implies =>
    have htrace : trace a (restate filler (.implies, b)) = [-a, a.implies b] := by
      rw [a.implies_eq_max b]
      rfl
    have hopen : isOpen ((.implies, b), a) = (-a).isUnknown := by
      rw [Trit.isUnknown_neg]
      rfl
    rw [htrace, List.countP_cons, List.countP_cons (p := isOpen), hopen, List.countP_nil,
      Nat.zero_add]
    rfl
  | and => rfl
  | or => rfl
  | not => rfl

/-! ## All links -/

/-- The links of a chain without implication; there is a filler for each place. -/
def eliminate (ls : List (Connective × Trit)) : List (Connective × Trit) :=
  (ls.mapIdx fun i link => restate (fillers i) link).flatten

theorem eliminate_cons (link : Connective × Trit) (ls : List (Connective × Trit)) :
    eliminate fillers (link :: ls) =
      restate (fillers 0) link ++ eliminate (fun i => fillers (i + 1)) ls := by
  rw [eliminate, List.mapIdx_cons, List.flatten_cons]
  rfl

theorem ne_implies_of_mem_eliminate {ls : List (Connective × Trit)} {link : Connective × Trit}
    (h : link ∈ eliminate fillers ls) : link.1 ≠ .implies := by
  obtain ⟨l, hl, hlink⟩ := List.mem_flatten.mp h
  obtain ⟨i, hi, rfl⟩ := List.mem_mapIdx.mp hl
  exact ne_implies_of_mem_restate _ hlink

theorem getLastD_trace_eliminate (a : Trit) (ls : List (Connective × Trit)) :
    (trace a (eliminate fillers ls)).getLastD a = (trace a ls).getLastD a := by
  induction ls generalizing a fillers with
  | nil => rfl
  | cons link ls ih =>
    rw [eliminate_cons, trace_append, getLastD_append, getLastD_trace_restate, ih, trace,
      List.getLastD_cons]

theorem countP_trace_eliminate (a : Trit) (ls : List (Connective × Trit)) :
    (trace a (eliminate fillers ls)).countP Trit.isUnknown =
      (trace a ls).countP Trit.isUnknown + (ls.zip (a :: trace a ls)).countP isOpen := by
  induction ls generalizing a fillers with
  | nil => rfl
  | cons link ls ih =>
    -- the first link has its own part in each of the three counts
    have hvalues : trace a (link :: ls) =
        [link.1.apply a link.2] ++ trace (link.1.apply a link.2) ls := rfl
    have hopen : (link :: ls).zip (a :: trace a (link :: ls)) =
        [(link, a)] ++ ls.zip (link.1.apply a link.2 :: trace (link.1.apply a link.2) ls) := rfl
    rw [eliminate_cons, trace_append, List.countP_append, getLastD_trace_restate, ih,
      countP_trace_restate, hopen, hvalues, List.countP_append, List.countP_append]
    omega

theorem length_le_eliminate (ls : List (Connective × Trit)) :
    ls.length ≤ (eliminate fillers ls).length := by
  induction ls generalizing fillers with
  | nil => exact Nat.le_refl 0
  | cons link ls ih =>
    have hlink : 1 ≤ (restate (fillers 0) link).length := by
      obtain ⟨op, b⟩ := link
      cases op <;> exact Nat.le_add_left 1 _
    rw [eliminate_cons, List.length_cons, List.length_append]
    have hle := ih fun i => fillers (i + 1)
    omega

/-! ## Premises and operations -/

/-- How many implications are applied whose left operand is unknown. -/
def openImplications (premises : List Trit) (operations : List Connective) : Nat :=
  ((links premises operations).zip (course premises operations)).countP isOpen

/-- The premises and the operations of a chain, with its links rewritten. What is left over of
premises or operations, and is not applied, stays at the end. -/
def withoutImplication (premises : List Trit) (operations : List Connective) :
    List Trit × List Connective :=
  let rewritten := eliminate fillers (links premises operations)
  (premises.take 1 ++ (rewritten.map Prod.snd ++ premises.drop (operations.length + 1)),
    rewritten.map Prod.fst ++ operations.drop (premises.length - 1))

theorem links_withoutImplication (premises : List Trit) (operations : List Connective) :
    links (withoutImplication fillers premises operations).1
      (withoutImplication fillers premises operations).2 =
      eliminate fillers (links premises operations) := by
  cases premises with
  | nil => simp [withoutImplication, eliminate]
  | cons first rest =>
    -- what is left over is left over on one side only
    have hleft : (operations.drop rest.length).zip (rest.drop operations.length) = [] := by
      rcases Nat.le_total operations.length rest.length with h | h
      · simp [List.drop_eq_nil_of_le h]
      · simp [List.drop_eq_nil_of_le h]
    generalize hrewritten : eliminate fillers (links (first :: rest) operations) = rewritten
    have hzip : (rewritten.map Prod.fst ++ operations.drop rest.length).zip
        (rewritten.map Prod.snd ++ rest.drop operations.length) = rewritten := by
      rw [List.zip_append (by simp), hleft, List.append_nil, List.zip_map', List.map_id']
    rw [withoutImplication, hrewritten]
    exact hzip

/-- A rewritten chain starts from the same premise and has the rewritten links. -/
theorem run_withoutImplication [Scalar α] (first : Trit) (rest : List Trit)
    (operations : List Connective) :
    (run (withoutImplication fillers (first :: rest) operations).1
      (withoutImplication fillers (first :: rest) operations).2 : Except Rejection (Conclusion α)) =
      .ok (conclude first (eliminate fillers (links (first :: rest) operations))) := by
  rw [← links_withoutImplication]
  rfl

end Chain

/-! ## Evaluators -/

namespace Evaluator

open Chain (applied course eliminate links openImplications running withoutImplication)

variable [Scalar α] {fillers : Nat → Trit} {premises : List Trit} {operations : List Connective}

/-- The evaluator `v` is given a chain, and `w` the chain without implication. -/
structure Eliminates (fillers : Nat → Trit) (premises : List Trit) (operations : List Connective)
    (v w : Evaluator α) : Prop where
  /-- What is applied is what was applied, rewritten. -/
  rewritten : links (withoutImplication fillers premises operations).1
    (withoutImplication fillers premises operations).2 =
      eliminate fillers (links premises operations)
  /-- No implication is applied any more. -/
  eliminated : ∀ link ∈ eliminate fillers (links premises operations), link.1 ≠ .implies
  /-- An implication that was applied has come to a negation and a disjunction. -/
  restated (i : Nat) (b : Trit) : (links premises operations)[i]? = some (.implies, b) →
    ∃ left, (course premises operations)[i]? = some left ∧
      (running premises operations)[i]? = some (max (-left) b)
  refused : premises = [] → v.runChain premises operations = .error .noPremises ∧
    w.runChain (withoutImplication fillers premises operations).1
      (withoutImplication fillers premises operations).2 = .error .noPremises
  /-- The result is the same. -/
  concluded : premises ≠ [] → ∃ c v' d w', v.runChain premises operations = .ok (c, v') ∧
    w.runChain (withoutImplication fillers premises operations).1
      (withoutImplication fillers premises operations).2 = .ok (d, w') ∧ d.result = c.result

/-- The uncertainty is larger by the number of implications from the unknown. -/
def Exceeds (fillers : Nat → Trit) (premises : List Trit) (operations : List Connective)
    (v w : Evaluator α) : Prop :=
  ∀ c v' d w', v.runChain premises operations = .ok (c, v') →
    w.runChain (withoutImplication fillers premises operations).1
      (withoutImplication fillers premises operations).2 = .ok (d, w') →
    d.uncertainty = c.uncertainty + Scalar.ofCount (openImplications premises operations)

theorem eliminates (v w : Evaluator α) : Eliminates fillers premises operations v w where
  rewritten := Chain.links_withoutImplication fillers premises operations
  eliminated _ := Chain.ne_implies_of_mem_eliminate fillers
  restated i b h := by
    obtain ⟨left, hleft, hvalue⟩ := Chain.exists_left_of_links h
    refine ⟨left, hleft, ?_⟩
    rw [hvalue, ← left.implies_eq_max b]
    rfl
  refused := by
    rintro rfl
    refine ⟨rfl, ?_⟩
    rw [withoutImplication, Chain.links_nil]
    rfl
  concluded hpremises := by
    cases premises with
    | nil => exact absurd rfl hpremises
    | cons first rest =>
      obtain ⟨w', hw⟩ :=
        exists_runChain (Chain.run_withoutImplication fillers first rest operations) w
      refine ⟨_, _, _, w', rfl, hw, ?_⟩
      rw [Chain.result_conclude, Chain.getLastD_trace_eliminate, ← Chain.result_conclude (α := α)]
      rfl

theorem exceeds {bound : Nat} (h : Scalar.Counts α bound)
    (hbound : applied (withoutImplication fillers premises operations).1
      (withoutImplication fillers premises operations).2 ≤ bound) (v w : Evaluator α) :
    Exceeds fillers premises operations v w := by
  intro c v' d w' hv hw
  rw [← Chain.length_links, Chain.links_withoutImplication] at hbound
  cases premises with
  | nil => cases hv
  | cons first rest =>
    have hc : Chain.conclude first (links (first :: rest) operations) = c :=
      Except.ok.inj (run_of_runChain hv)
    have hd : Chain.conclude first (eliminate fillers (links (first :: rest) operations)) = d :=
      Except.ok.inj
        ((Chain.run_withoutImplication fillers first rest operations).symm.trans
          (run_of_runChain hw))
    -- what the rewritten chain counts is within the bound, so both parts of it are
    have hlinks := (Chain.length_le_eliminate fillers _).trans hbound
    have hcount := List.countP_le_length (p := Trit.isUnknown)
      (l := Chain.trace first (eliminate fillers (links (first :: rest) operations)))
    rw [Chain.length_trace, Chain.countP_trace_eliminate] at hcount
    rw [← hc, ← hd, Chain.conclude_eq h first hbound, Chain.conclude_eq h first hlinks,
      Chain.countP_trace_eliminate]
    exact (h.add (hcount.trans hbound)).symm

/-- **Implication can be eliminated from every chain**, whatever the right operands
that the negations are given. -/
theorem runChain_withoutImplication (fillers : Nat → Trit) (premises : List Trit)
    (operations : List Connective) :
    (∀ (α : Type) [Scalar α] (v w : Evaluator α), Eliminates fillers premises operations v w) ∧
    (∀ v w : Evaluator Rat, Exceeds fillers premises operations v w) ∧
    ∀ v w : Evaluator Float,
      applied (withoutImplication fillers premises operations).1
        (withoutImplication fillers premises operations).2 ≤ 2 ^ 53 →
      Exceeds fillers premises operations v w :=
  ⟨fun _ _ v w => eliminates v w, fun v w => exceeds (Scalar.counts_rat _) (Nat.le_refl _) v w,
    fun v w hbound => exceeds Scalar.counts_float hbound v w⟩

/-- Of three implications the second one is applied to the unknown,
and the last one is not applied. -/
example :
    Chain.withoutImplication (fun _ => .yes) [.yes, .unknown, .no] [.implies, .implies, .implies] =
      ([.yes, .yes, .unknown, .yes, .no], [.not, .or, .not, .or, .implies]) ∧
    Chain.run [.yes, .unknown, .no] [.implies, .implies, .implies] =
      .ok (⟨.unknown, 2⟩ : Conclusion Rat) ∧
    Chain.run [.yes, .yes, .unknown, .yes, .no] [.not, .or, .not, .or, .implies] =
      .ok (⟨.unknown, 3⟩ : Conclusion Rat) ∧
    openImplications [.yes, .unknown, .no] [.implies, .implies, .implies] = 1 := by
  decide +kernel

end Evaluator

end TernaryBelief
