import TernaryBelief.Proofs.MachineCounts

/-!
# Learning more

Of two truth values the second says more than the first if it is equal to it, or if the first is
unknown (`Trit.Learns`). All connectives follow this order, the implication too, which treats its
operands differently, and so do chains, in every running value. So what a chain concludes with
certainty stands when unknown premises become known, and the uncertainty can only become less,
counted exactly or by the machine (`Evaluator.runChain_learns`).
-/

namespace TernaryBelief

/-! ## Values and connectives -/

namespace Trit

/-- Where `a` was known, `b` may have been learned: the unknown may become
anything, and what is certain is kept. -/
def Learns (a b : Trit) : Prop := a = .unknown ∨ a = b

instance : DecidableRel Learns := fun _ _ => inferInstanceAs (Decidable (_ ∨ _))

variable {a b : Trit}

theorem Learns.eq_of_certain (h : a.Learns b) (ha : a.isCertain = true) : b = a := by
  rcases h with rfl | rfl
  · exact absurd ha (by decide)
  · rfl

/-- An unknown value comes from an unknown value. -/
theorem Learns.isUnknown (h : a.Learns b) (hb : b.isUnknown = true) : a.isUnknown = true := by
  rcases h with rfl | rfl
  · rfl
  · exact hb

end Trit

open Trit (Learns)
open Binary64

/-- From more, a connective concludes more. -/
theorem Connective.apply_learns (op : Connective) {a a' b b' : Trit} (ha : a.Learns a')
    (hb : b.Learns b') : (op.apply a b).Learns (op.apply a' b') := by
  cases op <;> cases a <;> cases a' <;> revert ha <;> cases b <;> cases b' <;> revert hb <;> decide

/-! ## Chains -/

/-- The same operation with a right operand of which more is known. -/
structure Chain.LinkLearns (l l' : Connective × Trit) : Prop where
  operation : l.1 = l'.1
  operand : l.2.Learns l'.2

namespace Chain

variable {p q : List Trit} {links links' : List (Connective × Trit)} {a a' : Trit}

theorem zip_learns (h : List.Forall₂ Learns p q) (ops : List Connective) :
    List.Forall₂ LinkLearns (ops.zip p) (ops.zip q) := by
  induction h generalizing ops with
  | nil => simp only [List.zip_nil_right, List.Forall₂.nil]
  | cons hab _ ih =>
    cases ops with
    | nil => exact .nil
    | cons op ops => exact .cons ⟨rfl, hab⟩ (ih ops)

theorem trace_learns (ha : a.Learns a') (h : List.Forall₂ LinkLearns links links') :
    List.Forall₂ Learns (trace a links) (trace a' links') := by
  induction h generalizing a a' with
  | nil => exact .nil
  | @cons l l' _ _ hl _ ih =>
    obtain ⟨op, b⟩ := l
    obtain ⟨op', b'⟩ := l'
    obtain ⟨rfl, hb⟩ := hl
    have hab := op.apply_learns ha hb
    exact .cons hab (ih hab)

variable {α : Type} [Scalar α]

/-- The trace shows the value that is reached after each operation. -/
theorem getElem?_trace (c : Conclusion α) (links : List (Connective × Trit)) {i : Nat}
    (hi : i < links.length) :
    (trace c.result links)[i]? = some ((links.take (i + 1)).foldl advance c).result := by
  induction links generalizing c i with
  | nil => exact absurd hi (Nat.not_lt_zero i)
  | cons link links ih =>
    cases i with
    | zero => rfl
    | succ i => exact ih (advance c link) (Nat.lt_of_succ_lt_succ hi)

/-- Learning takes a chain to a conclusion that says more, and whose uncertainty stands in any
relation that learning keeps in every summand. -/
theorem conclude_learns {le : α → α → Prop} (hzero : le 0.0 0.0)
    (hadd : ∀ {x y : α} {s t : Trit}, le y x → s.Learns t →
      le (y + t.uncertainty) (x + s.uncertainty))
    (ha : a.Learns a') (h : List.Forall₂ LinkLearns links links') :
    (conclude (α := α) a links).result.Learns (conclude (α := α) a' links').result ∧
      le (conclude a' links').uncertainty (conclude a links).uncertainty := by
  -- both parts of the statement are kept from one link to the next, whatever the chain starts from
  have hfold (c c' : Conclusion α) (hc : c.result.Learns c'.result)
      (hle : le c'.uncertainty c.uncertainty) :
      (links.foldl advance c).result.Learns (links'.foldl advance c').result ∧
        le (links'.foldl advance c').uncertainty (links.foldl advance c).uncertainty := by
    induction h generalizing c c' with
    | nil => exact ⟨hc, hle⟩
    | @cons l l' _ _ hl _ ih =>
      obtain ⟨op, b⟩ := l
      obtain ⟨op', b'⟩ := l'
      obtain ⟨rfl, hb⟩ := hl
      have hresult := op.apply_learns hc hb
      exact ih (advance c (op, b)) (advance c' (op, b')) hresult (hadd hle hresult)
  exact hfold ⟨a, 0.0⟩ ⟨a', 0.0⟩ ha hzero

theorem length_trace (a : Trit) (links : List (Connective × Trit)) :
    (trace a links).length = links.length := by
  induction links generalizing a with
  | nil => rfl
  | cons link links ih => exact congrArg Nat.succ (ih _)

/-- The running values of a chain with these premises and operations. -/
def running : List Trit → List Connective → List Trit
  | [], _ => []
  | first :: rest, ops => trace first (ops.zip rest)

theorem running_learns (h : List.Forall₂ Learns p q) (ops : List Connective) :
    List.Forall₂ Learns (running p ops) (running q ops) := by
  cases h with
  | nil => exact .nil
  | cons ha hrest => exact trace_learns ha (zip_learns hrest ops)

theorem zip_take (ops : List Connective) (rest : List Trit) (n : Nat) :
    (ops.take n).zip rest = (ops.zip rest).take n := by
  induction n generalizing ops rest with
  | zero => rfl
  | succ n ih =>
    cases ops with
    | nil => rfl
    | cons op ops =>
      cases rest with
      | nil => rfl
      | cons next rest => exact congrArg ((op, next) :: ·) (ih ops rest)

/-- A running value is what the operations so far come to by themselves. -/
theorem getElem?_running {first : Trit} {rest : List Trit} {ops : List Connective} {i : Nat}
    (hi : i < (running (first :: rest) ops).length) :
    (running (first :: rest) ops)[i]? =
      some (conclude (α := α) first ((ops.take (i + 1)).zip rest)).result := by
  rw [running, length_trace] at hi
  rw [zip_take]
  exact getElem?_trace (α := α) ⟨first, 0.0⟩ (ops.zip rest) hi

end Chain

/-! ## Evaluators -/

namespace Evaluator

variable {α : Type} [Scalar α]

/-- Two evaluators run a chain with these operations, the first with the premises `p`, and the
second with the premises `q`, of which more is known. -/
structure Overtakes [LE α] (p q : List Trit) (ops : List Connective) (v w : Evaluator α) :
    Prop where
  refused : p = [] →
    v.runChain p ops = .error .noPremises ∧ w.runChain q ops = .error .noPremises
  /-- A certain conclusion stands, and the uncertainty does not grow. -/
  concluded : p ≠ [] → ∃ c v' d w',
    v.runChain p ops = .ok (c, v') ∧ w.runChain q ops = .ok (d, w') ∧
      (c.result.isCertain = true → d.result = c.result) ∧ d.uncertainty ≤ c.uncertainty
  /-- After each operation, the second running value is the first, unless that is unknown. -/
  running : List.Forall₂ Learns (Chain.running p ops) (Chain.running q ops)
  /-- The running values are those that the operations so far come to. -/
  reached : ∀ r ∈ [p, q], ∀ i < (Chain.running r ops).length, ∃ c v',
    v.runChain r (ops.take (i + 1)) = .ok (c, v') ∧ (Chain.running r ops)[i]? = some c.result

theorem reached (v : Evaluator α) (p : List Trit) (ops : List Connective) :
    ∀ i < (Chain.running p ops).length, ∃ c v',
      v.runChain p (ops.take (i + 1)) = .ok (c, v') ∧
        (Chain.running p ops)[i]? = some c.result := by
  intro i hi
  cases p with
  | nil => exact absurd hi (Nat.not_lt_zero i)
  | cons first rest => exact ⟨_, _, rfl, Chain.getElem?_running hi⟩

/-- It is enough that uncertainties stand in a relation that implies their order and that
learning keeps in every summand. -/
theorem overtakes [LE α] {R : α → α → Prop} (hle : ∀ {x y : α}, R y x → y ≤ x) (hzero : R 0.0 0.0)
    (hadd : ∀ {x y : α} {s t : Trit}, R y x → s.Learns t →
      R (y + t.uncertainty) (x + s.uncertainty))
    {p q : List Trit} (h : List.Forall₂ Learns p q) (ops : List Connective) (v w : Evaluator α) :
    Overtakes p q ops v w where
  refused := by
    rintro rfl
    cases h
    exact ⟨rfl, rfl⟩
  concluded hp := by
    cases h with
    | nil => exact absurd rfl hp
    | cons ha hrest =>
      obtain ⟨hresult, hbefore⟩ :=
        Chain.conclude_learns hzero hadd ha (Chain.zip_learns hrest ops)
      exact ⟨_, _, _, _, rfl, rfl, hresult.eq_of_certain, hle hbefore⟩
  running := Chain.running_learns h ops
  reached r _ := v.reached r ops

/-- Counted by the machine, both uncertainties stay where it counts, and
the order is that of the codes. -/
theorem bits_add_uncertainty {x y : Float} {s t : Trit}
    (h : bits y ≤ bits x ∧ bits x ≤ countBound) (hst : s.Learns t) :
    bits (y + t.uncertainty) ≤ bits (x + s.uncertainty) ∧
      bits (x + s.uncertainty) ≤ countBound := by
  have hbound : countBound < infinity := by decide
  have hone : one < infinity := by decide
  have hmono : bits (t.uncertainty : Float) ≤ bits (s.uncertainty : Float) := by
    rw [bits_uncertainty, bits_uncertainty]
    split
    · next ht => rw [if_pos (hst.isUnknown ht)]
    · exact Nat.zero_le _
  exact ⟨bits_add_mono h.1 hmono (h.2.trans_lt hbound) ((bits_uncertainty_le s).trans_lt hone),
    bits_add_le hbound hone nearest_countBound h.2 (bits_uncertainty_le s)⟩

theorem uncertainty_le {s t : Trit} (hst : s.Learns t) :
    (t.uncertainty : Rat) ≤ s.uncertainty := by
  unfold Trit.uncertainty
  split
  · next ht => rw [if_pos (hst.isUnknown ht)]
  · split <;> decide +kernel

/-- **A certain conclusion is not overturned by learning an unknown premise.** -/
theorem runChain_learns {p q : List Trit} (h : List.Forall₂ Learns p q) (ops : List Connective) :
    (∀ v w : Evaluator Rat, Overtakes p q ops v w) ∧
      ∀ v w : Evaluator Float, Overtakes p q ops v w :=
  ⟨fun v w => overtakes (R := fun y x => y ≤ x) id (le_refl _)
      (fun hle hst => add_le_add hle (uncertainty_le hst)) h ops v w,
    fun v w => overtakes (R := fun y x => bits y ≤ bits x ∧ bits x ≤ countBound)
      (fun hle => le_of_bits (hle.2.trans_lt (by decide)) hle.1)
      ⟨Nat.le_refl _, bits_zero.trans_le (Nat.zero_le _)⟩ bits_add_uncertainty h ops v w⟩

/-- Two unknown premises become known, and the conclusion stands: the one is joined with a denial,
and what the other says does not matter to an implication from a denial. -/
theorem runChain_learns_twoPremises :
    List.Forall₂ Learns [.unknown, .no, .unknown, .yes] [.yes, .no, .no, .yes] ∧
      Overtakes (α := Float) [.unknown, .no, .unknown, .yes] [.yes, .no, .no, .yes]
        [.and, .implies, .not, .or] {} {} ∧
      Chain.running [.unknown, .no, .unknown, .yes] [.and, .implies, .not, .or] =
        [.no, .yes, .no] := by
  have h : List.Forall₂ Learns [.unknown, .no, .unknown, .yes] [.yes, .no, .no, .yes] := by decide
  exact ⟨h, (runChain_learns h [.and, .implies, .not, .or]).2 {} {}, by decide⟩

end Evaluator

end TernaryBelief
