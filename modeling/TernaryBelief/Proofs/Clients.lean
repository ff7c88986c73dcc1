import Mathlib.Algebra.BigOperators.Group.Finset.Piecewise
import Mathlib.Data.Fintype.Basic
import TernaryBelief.Proofs.Calls

/-!
# Clients of one engine

Several clients share an engine, each with its own calls, and the calls take turns in any order. The
answers, scattered over the clients, still account for everything (`SharedEngine.run_accounts`):
what was found or handed in is reported to one client, in one report, or it is active. An assertion
that is made with a pass finds its contradictions in its own report, since no other call comes in
between.
-/

namespace TernaryBelief

variable {α ρ κ : Type} [Scalar α]

namespace SharedEngine

/-! ## The clients' accounts -/

/-- The answers to one client. -/
def answersTo [DecidableEq κ] (s : SharedEngine α) (calls : List (κ × ClientCall α ρ)) (k : κ) :
    List (SharedAnswer α ρ) :=
  (((calls.map Prod.fst).zip (s.runCalls (calls.map Prod.snd)).1).filter fun x => x.1 = k).map
    Prod.snd

theorem length_runCalls (s : SharedEngine α) (calls : List (ClientCall α ρ)) :
    (s.runCalls calls).1.length = calls.length := by
  induction calls generalizing s with
  | nil => rfl
  | cons c calls ih => exact congrArg Nat.succ (ih (s.step c.op).2)

/-- What is summed over the clients is summed over all answers. -/
theorem sum_answersTo [Fintype κ] [DecidableEq κ] (s : SharedEngine α)
    (calls : List (κ × ClientCall α ρ)) (f : SharedAnswer α ρ → Nat) :
    ∑ k, ((s.answersTo calls k).map f).sum =
      ((s.runCalls (calls.map Prod.snd)).1.map f).sum := by
  have hsum (xs : List (κ × SharedAnswer α ρ)) :
      ∑ k, (((xs.filter fun x => x.1 = k).map Prod.snd).map f).sum =
        ((xs.map Prod.snd).map f).sum := by
    induction xs with
    | nil => simp
    | cons x xs ih =>
      -- the first answer is counted for its own client only
      have hfirst (k : κ) : ((((x :: xs).filter fun x => x.1 = k).map Prod.snd).map f).sum =
          (if x.1 = k then f x.2 else 0) +
            (((xs.filter fun x => x.1 = k).map Prod.snd).map f).sum := by
        by_cases hk : x.1 = k <;> simp [hk]
      simp only [hfirst, Finset.sum_add_distrib, ih, Finset.sum_ite_eq, Finset.mem_univ, if_true,
        List.map_cons, List.sum_cons]
  have hlength : (s.runCalls (calls.map Prod.snd)).1.length ≤ (calls.map Prod.fst).length := by
    rw [length_runCalls, List.length_map, List.length_map]
  rw [← List.map_snd_zip hlength, ← hsum]
  rfl

omit [Scalar α] in
/-- What the answers say was settled is what the reports among them say. -/
theorem sum_settled (answers : List (SharedAnswer α ρ)) :
    (answers.map SharedAnswer.settled).sum = ((reports answers).map Report.resolved).sum := by
  induction answers with
  | nil => rfl
  | cons a answers ih =>
    rw [List.map_cons, List.sum_cons, ih]
    cases h : a.report? <;> simp [SharedAnswer.settled, reports, h]

end SharedEngine

/-- A record has one place: it is active and in no report, or it has its outcome in one report and
is not active; and it is there once. -/
inductive PlacedOnce (reports : List (Report α)) (active : List Contradiction) (c : Contradiction) :
    Prop
  | active {n : Nat} (hactive : { c with sequence := n } ∈ active)
      (honce : (active.map fun d => d.id).count c.id = 1) (hreports : ∀ r ∈ reports, c.id ∉ r.ids)
  | reported {before after : List (Report α)} {r : Report α}
    (hsplit : reports = before ++ r :: after)
      (houtcome : Outcome.ofContradiction c ∈ r.outcomes) (honce : r.ids.count c.id = 1)
      (hothers : ∀ r' ∈ before ++ after, c.id ∉ r'.ids) (hactive : c.id ∉ active.map fun d => d.id)

/-- Where no identifier occurs twice, what has a place has one place. -/
theorem PlacedOnce.of_nodup {reports : List (Report α)} {active : List Contradiction}
    {c : Contradiction}
    (hnodup : (reports.flatMap Report.ids ++ active.map fun d => d.id).Nodup)
    (hplace : (∃ r ∈ reports, Outcome.ofContradiction c ∈ r.outcomes) ∨
      ∃ n, { c with sequence := n } ∈ active) :
    PlacedOnce reports active c := by
  obtain ⟨hreported, hactive, hdisjoint⟩ := List.nodup_append'.mp hnodup
  rcases hplace with ⟨r, hr, houtcome⟩ | ⟨n, hn⟩
  · have hid : c.id ∈ r.ids := List.mem_map_of_mem (f := Outcome.id) houtcome
    have hnot : c.id ∉ active.map fun d => d.id :=
      hdisjoint (List.mem_flatMap.mpr ⟨r, hr, hid⟩)
    -- the other reports stand before it and after it
    obtain ⟨before, after, rfl⟩ := List.append_of_mem hr
    rw [List.flatMap_append, List.flatMap_cons] at hreported
    obtain ⟨-, hrest, hbefore⟩ := List.nodup_append'.mp hreported
    obtain ⟨hids, -, hafter⟩ := List.nodup_append'.mp hrest
    refine .reported rfl houtcome (List.count_eq_one_of_mem hids hid) ?_ hnot
    intro r' hr' hid'
    rcases List.mem_append.mp hr' with hin | hin
    · exact hbefore (List.mem_flatMap.mpr ⟨r', hin, hid'⟩) (List.mem_append_left _ hid)
    · exact hafter hid (List.mem_flatMap.mpr ⟨r', hin, hid'⟩)
  · have hid : c.id ∈ active.map fun d => d.id := List.mem_map_of_mem (f := fun d => d.id) hn
    refine .active hn (List.count_eq_one_of_mem hactive hid) ?_
    intro r hr hidr
    exact hdisjoint (List.mem_flatMap.mpr ⟨r, hr, hidr⟩) hid

namespace SharedEngine

/-- An assertion with a pass, if it is the next call: what it finds is in its own report, and
nothing stays active. If it is refused, nothing happens. -/
structure SettlesAtOnce (s : SharedEngine α) (ids : IdSource) (name : String) (value : Trit)
    (confidence : Float) (ρ : Type) : Prop where
  accepted (stored : Float) : s.engine.config.accept confidence = .ok stored →
    ∃ report after,
      s.step (.updateAndResolve ids name value confidence : SharedOp α ρ) =
        (.foundAndReport (s.engine.findings ids ⟨name, value⟩).length report, { engine := after }) ∧
      ((s.engine.findings ids ⟨name, value⟩).map Outcome.ofContradiction).Subperm
        report.outcomes ∧
      after.ledger.active = []
  refused (reason : Rejection) : s.engine.config.accept confidence = .error reason →
    s.step (.updateAndResolve ids name value confidence : SharedOp α ρ) =
      (.failed (.rejected reason), s)

theorem settlesAtOnce (e : Engine α) (ids : IdSource) (name : String) (value : Trit)
    (confidence : Float) :
    ({ engine := e } : SharedEngine α).SettlesAtOnce ids name value confidence ρ := by
  have hstep := step_updateAndResolve (ρ := ρ) e ids name value confidence
  constructor
  case refused =>
    intro reason hc
    rw [hstep]
    simp only at hc
    rw [hc]
  case accepted =>
    intro stored hc
    simp only at hc
    rw [hc] at hstep
    refine ⟨_, _, hstep, ?_, rfl⟩
    -- what is found is filed last, and the pass is over all that is active
    rw [← Ledger.map_numbered (f := Outcome.ofContradiction) (fun _ _ => rfl) e.ledger.filed]
    have hactive := (Contradiction.bySeverity_perm (e.ledger.fileAll
      (e.findings ids ⟨name, value⟩)).active).symm.map (Outcome.ofContradiction (α := α))
    exact ((List.sublist_append_right _ _).map _).subperm.trans hactive.subperm

/-- What the answers to several clients account for, and what stands at the end. -/
structure Accounts [Fintype κ] [DecidableEq κ] (s : SharedEngine α)
    (calls : List (κ × ClientCall α ρ)) : Prop where
  /-- What assertions were said to cause, and what visits handed in, is reported or active. -/
  balance :
    ∑ k, ((s.answersTo calls k).map SharedAnswer.counted).sum +
        (s.handed (calls.map Prod.snd)).length =
      ∑ k, ((s.answersTo calls k).map SharedAnswer.settled).sum +
        (s.runCalls (calls.map Prod.snd)).2.engine.ledger.active.length
  /-- Nothing else is reported or active. -/
  identifiers : ((reports (s.runCalls (calls.map Prod.snd)).1).flatMap Report.ids ++
      (s.runCalls (calls.map Prod.snd)).2.engine.ledger.active.map fun c => c.id).Perm
    ((s.files (calls.map Prod.snd)).map fun c => c.id)
  places : ((s.files (calls.map Prod.snd)).map fun c => c.id).Nodup →
    ∀ c ∈ s.files (calls.map Prod.snd),
      PlacedOnce (reports (s.runCalls (calls.map Prod.snd)).1)
        (s.runCalls (calls.map Prod.snd)).2.engine.ledger.active c
  /-- No call comes between an assertion and the pass that is made with it. -/
  atOnce (ids : IdSource) (name : String) (value : Trit) (confidence : Float) :
    (s.runCalls (calls.map Prod.snd)).2.SettlesAtOnce ids name value confidence ρ

/-- **Whatever the clients call and however their calls take turns**, from a new engine on: the
answers to all of them, together with what is still active, account for every record that came
in. -/
theorem run_accounts [Fintype κ] [DecidableEq κ] {e : Engine α} (h : e.Fresh)
    (calls : List (κ × ClientCall α ρ)) : ({ engine := e } : SharedEngine α).Accounts calls := by
  obtain ⟨hengine, hreports, hcounted, hfiles⟩ := comes e (calls.map Prod.snd)
  have hids := h.ids_perm (({ engine := e } : SharedEngine α).requests (calls.map Prod.snd))
  rw [hfiles] at hids
  constructor
  case balance =>
    rw [sum_answersTo, sum_answersTo, hcounted, sum_settled, hreports, hengine]
    exact h.balance _
  case identifiers =>
    rw [hreports, hengine]
    exact hids
  case places =>
    intro hnodup c hc
    rw [hreports, hengine]
    rw [← hfiles] at hc
    exact PlacedOnce.of_nodup (hids.nodup_iff.mpr hnodup) (h.place _ hc)
  case atOnce =>
    rw [hengine]
    exact settlesAtOnce _

/-- Two clients in turn: they assert, one of them hands a record in, and both make passes. -/
def turns : List (Fin 2 × ClientCall Rat Nat) :=
  let ids (call : Nat) : IdSource := fun i => Uuid.ofNat (10 * call + i)
  let foreign : Contradiction :=
    { standing := ⟨"a", .yes⟩, incoming := ⟨"a", .no⟩, severity := .critical, id := Uuid.ofNat 99 }
  [(0, .update (ids 0) "a" .yes 1.0), (1, .updateAndResolve (ids 1) "b" .no 0.5),
    (0, .record (fun _ => [foreign]) fun e => e.ledger.active.length), (1, .snapshot),
    (0, .updateAndResolve (ids 2) "c" .unknown 1.0), (1, .update (ids 3) "a" .no 1.0)]

theorem run_accounts_turns :
    let s : SharedEngine Rat := {}
    Engine.Fresh s.engine ∧ s.Accounts turns ∧
    ∑ k, ((s.answersTo turns k).map SharedAnswer.counted).sum = 4 ∧
    (s.handed (turns.map Prod.snd)).length = 1 ∧
    ∑ k, ((s.answersTo turns k).map SharedAnswer.settled).sum = 4 ∧
    ∀ c ∈ s.files (turns.map Prod.snd),
      PlacedOnce (reports (s.runCalls (turns.map Prod.snd)).1)
        (s.runCalls (turns.map Prod.snd)).2.engine.ledger.active c := by
  intro s
  have haccounts : s.Accounts turns := run_accounts .blank turns
  have hcounted : ∑ k, ((s.answersTo turns k).map SharedAnswer.counted).sum = 4 := by
    decide +kernel
  have hhanded : (s.handed (turns.map Prod.snd)).length = 1 := by decide +kernel
  have hactive : (s.runCalls (turns.map Prod.snd)).2.engine.ledger.active.length = 1 := by
    decide +kernel
  refine ⟨.blank, haccounts, hcounted, hhanded, ?_, haccounts.places (by decide +kernel)⟩
  have hbalance := haccounts.balance
  rw [hcounted, hhanded, hactive] at hbalance
  exact (Nat.add_right_cancel hbalance).symm

end SharedEngine

end TernaryBelief
