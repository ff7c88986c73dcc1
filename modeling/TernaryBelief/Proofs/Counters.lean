import Mathlib.Algebra.Order.BigOperators.Group.List
import Mathlib.Data.Nat.Choose.Basic
import TernaryBelief.Proofs.Detection
import TernaryBelief.Proofs.Independence
import TernaryBelief.Proofs.LastWriter

/-!
# How far the counters of a run get

An assertion is compared with the names that came up before it, and there are no more of these than
there were accepted assertions. So the `k`-th accepted assertion files at most `k - 1` records, and
a run files at most quadratically many, apart from those that it is handed
(`Engine.Fresh.filed_run_le`). All other counters grow by one at a time or are bounded by the number
of filings; only the attempts of a record that comes from elsewhere start from any number. Hence a
run of fewer than `2 ^ 32` requests keeps every counter within its width
(`Engine.Fresh.run_bounded`).

## Main definitions

* `Engine.Fits`, `Evaluator.Fits`: every counter is within its width;
* `Engine.Bounded`: how far the counters get in a run.
-/

namespace TernaryBelief

variable {α : Type}

/-- An observation is in conflict with each other name at most once. -/
theorem Network.length_conflicts_le (p : SeverityPolicy) (n : Network) (incoming : Observation) :
    (n.conflicts p incoming).length ≤ n.names.length := by
  rw [names, List.length_map]
  exact (List.length_filterMap_le _ _).trans (List.length_filter_le _ _)

/-- There are no more names than there were assertions. -/
theorem Network.length_names_le (ws : List Assertion) :
    (ws.map Assertion.name).eraseDups.length ≤ ws.length := by
  have hnodup : (ws.map Assertion.name).eraseDups.Nodup := by
    rw [← names_foldl_write]
    exact (indexed_foldl_write indexed_empty ws).nodup_names
  have hsubset : (ws.map Assertion.name).eraseDups ⊆ ws.map Assertion.name :=
    fun _ hname => List.mem_eraseDups.mp hname
  calc
    (ws.map Assertion.name).eraseDups.length
        ≤ (ws.map Assertion.name).length := (hnodup.subperm hsubset).length_le
    _ = ws.length := List.length_map _

namespace Engine

variable [Scalar α] {e : Engine α}

/-! ## What is filed -/

theorem filed_step_of_found {op : Op} {count : Nat} (h : (e.step op).1 = .found count) :
    (e.step op).2.ledger.filed = e.ledger.filed + count := by
  rw [← filed_step, h]
  rfl

/-- An accepted assertion has no more conflicts than there are names. -/
theorem count_le_length_names {op : Op} {count : Nat} (h : (e.step op).1 = .found count) :
    count ≤ e.network.names.length := by
  obtain ⟨a, ha⟩ := Option.isSome_iff_exists.mp (written?_isSome_iff.mpr ⟨count, h⟩)
  rw [step_eq_perform] at h
  unfold written? at ha
  cases heffect : e.effect op with
  | assertion ids b =>
    rw [heffect] at h
    obtain rfl := Answer.found.inj h
    rw [findings, List.length_mapIdx]
    exact Network.length_conflicts_le _ _ _
  | _ => simp [heffect] at ha

/-- What is not an accepted assertion files the record that it hands in, if it hands one in. -/
theorem filed_step_of_not_written {op : Op} (h : e.written? op = none) :
    (e.step op).2.ledger.filed = e.ledger.filed + if op.isRecord then 1 else 0 := by
  cases hop : op.isRecord with
  | true =>
    match op with
    | .network (.record c) => rfl
  | false =>
    have hfiling := e.effect_ne_filing hop
    rw [step_eq_perform]
    unfold written? at h
    cases heffect : e.effect op with
    | assertion ids a => simp [heffect] at h
    | filing c => exact absurd heffect (hfiling c)
    | _ => rfl

theorem Fresh.refines_run (h : e.Fresh) (ops : List Op) :
    (e.run ops).2.network.Refines (e.writes ops) := by
  rw [run_network, h.empty.1]
  exact Network.refines_foldl_write (e.writes ops)

/-- An accepted assertion has no more conflicts than names came up in the assertions before it. -/
theorem Fresh.count_le (h : e.Fresh) {before : List Op} {op : Op} {count : Nat}
    (hfound : ((e.run before).2.step op).1 = .found count) :
    count ≤ ((e.writes before).map Assertion.name).eraseDups.length := by
  rw [← (h.refines_run before).names]
  exact count_le_length_names hfound

/-- **A run files at most quadratically many records**, in the number of accepted assertions,
besides those that are handed in. -/
theorem Fresh.filed_run_le (h : e.Fresh) (ops : List Op) :
    (e.run ops).2.ledger.filed ≤ (e.writes ops).length.choose 2 + ops.countP Op.isRecord := by
  -- from the end, since the last request is compared with what all others have written
  induction ops using List.reverseRecOn with
  | nil => simp [run, h.empty.2]
  | append_singleton ops op ih =>
    have hrun : (e.run (ops ++ [op])).2 = ((e.run ops).2.step op).2 := by
      rw [run_append]
      rfl
    have hwrites : e.writes (ops ++ [op]) =
        e.writes ops ++ ((e.run ops).2.written? op).toList := by
      rw [writes_append, writes_cons]
      exact congrArg _ (List.append_nil _)
    rw [hrun, hwrites, List.countP_append, List.countP_singleton]
    cases hwritten : (e.run ops).2.written? op with
    | none =>
      rw [filed_step_of_not_written hwritten, Option.toList_none, List.append_nil, ← Nat.add_assoc]
      exact Nat.add_le_add_right ih _
    | some a =>
      obtain ⟨count, hfound⟩ := written?_isSome_iff.mp (Option.isSome_of_eq_some hwritten)
      have hcount : count ≤ (e.writes ops).length :=
        (h.count_le hfound).trans (Network.length_names_le _)
      have hchoose : ((e.writes ops).length + 1).choose 2 =
          (e.writes ops).length + (e.writes ops).length.choose 2 := by
        rw [Nat.choose_succ_succ', Nat.choose_one_right]
      rw [filed_step_of_found hfound, Option.toList_some, List.length_append,
        List.length_singleton, hchoose]
      omega

/-! ## Attempts -/

/-- A record comes in without attempts, unless it comes from elsewhere. -/
theorem attempts_of_mem_journal {ops : List Op} {c : Contradiction}
    (hc : c ∈ (e.journal ops).flatMap Entry.records) :
    c.attempts = 0 ∨ .network (.record c) ∈ ops := by
  induction ops generalizing e with
  | nil => cases hc
  | cons op ops ih =>
    rw [journal_cons, List.flatMap_cons, List.mem_append] at hc
    rcases hc with hhere | hlater
    · cases hop : op.isRecord with
      | false => exact .inl (detected_of_mem_entry hop c hhere).2
      | true =>
        match op with
        | .network (.record d) =>
          obtain rfl := List.mem_singleton.mp hhere
          exact .inr List.mem_cons_self
    · exact (ih hlater).imp_right (List.mem_cons_of_mem _)

/-- No record is attempted more than once after it came in. -/
theorem Fresh.attempts_le (h : e.Fresh) {ops : List Op} {bound : Nat} (hbound : 0 < bound)
    (hrecords : ∀ c, .network (.record c) ∈ ops → c.attempts < bound) :
    ∀ c ∈ (e.run ops).2.ledger.active ++ (e.run ops).2.ledger.resolved, c.attempts ≤ bound := by
  have haccount : ∀ c ∈ (e.run ops).2.ledger.account, c.attempts ≤ bound := by
    intro c hc
    obtain ⟨d, hd, rfl⟩ := List.mem_map.mp ((h.account_perm ops).mem_iff.mp hc)
    -- numbering leaves the attempts as they came in
    obtain ⟨x, hx, hdx⟩ := Ledger.mem_numbered hd
    have hattempts : d.attempts = x.attempts := by rw [hdx]
    have hlt : x.attempts < bound := by
      rcases attempts_of_mem_journal hx with hzero | hrecord
      · rwa [hzero]
      · exact hrecords x hrecord
    show d.attempts + 1 ≤ bound
    rwa [hattempts]
  intro c hc
  rcases List.mem_append.mp hc with hactive | hresolved
  · -- an active record is accounted for with the attempt that a pass would count
    have hmem : c.attempted ∈ (e.run ops).2.ledger.account :=
      List.mem_append_right _ (List.mem_map_of_mem hactive)
    exact Nat.le_of_succ_le (haccount _ hmem)
  · exact haccount c (List.mem_append_left _ hresolved)

end Engine

/-! ## Widths -/

/-- The counters of an evaluator are within their widths. -/
structure Evaluator.Fits (v : Evaluator α) : Prop where
  contradictions : v.contradictions < 2 ^ 64
  history : v.history.length < 2 ^ 64

/-- The counters of an engine are within their widths, apart from those of its evaluator. -/
structure Engine.Fits (e : Engine α) : Prop where
  filed : e.ledger.filed < 2 ^ 64
  active : e.ledger.active.length < 2 ^ 64
  resolved : e.ledger.resolved.length < 2 ^ 64
  attempts : ∀ c ∈ e.ledger.active ++ e.ledger.resolved, c.attempts < 2 ^ 32
  revisions : ∀ b ∈ e.network.beliefs, b.revision < 2 ^ 32

/-- No request adds more than one step to a history, or more than one opposition to their count. -/
theorem Evaluator.run_le [Scalar α] (v : Evaluator α) (ops : List EvaluatorOp) :
    (v.run ops).2.contradictions ≤ v.contradictions + ops.length ∧
      (v.run ops).2.history.length ≤ v.history.length + ops.length := by
  rw [run_contradictions, run_history, List.length_append]
  exact ⟨Nat.add_le_add_left List.countP_le_length _,
    Nat.add_le_add_left (List.length_filterMap_le _ _) _⟩

theorem Evaluator.fits_run [Scalar α] {ops : List EvaluatorOp} (h : ops.length < 2 ^ 64) :
    (({} : Evaluator α).run ops).2.Fits := by
  obtain ⟨hcontradictions, hhistory⟩ := run_le ({} : Evaluator α) ops
  rw [Nat.zero_add] at hcontradictions
  have hempty : ({} : Evaluator α).history.length = 0 := rfl
  rw [hempty, Nat.zero_add] at hhistory
  exact ⟨hcontradictions.trans_lt h, hhistory.trans_lt h⟩

namespace Engine

variable [Scalar α] {e : Engine α}

/-- How far the counters get in a run. -/
structure Bounded (e : Engine α) (ops : List Op) : Prop where
  /-- An accepted assertion files as many records as it is answered: at most one for each name
  that came up before it, and there are no more of these names than there were accepted
  assertions. -/
  assertion (before after : List Op) (op : Op) (count : Nat) : ops = before ++ op :: after →
    ((e.run before).2.step op).1 = .found count →
      ((e.run before).2.step op).2.ledger.filed = (e.run before).2.ledger.filed + count ∧
      count ≤ ((e.writes before).map Assertion.name).eraseDups.length ∧
      ((e.writes before).map Assertion.name).eraseDups.length ≤ (e.writes before).length
  filed : (e.run ops).2.ledger.filed ≤
    ops.length * (ops.length - 1) / 2 + ops.countP Op.isRecord
  /-- At every moment of the run. -/
  fits (k : Nat) : (e.run (ops.take k)).2.Fits
  reports : ∀ r ∈ Answer.reports (e.run ops).1, r.resolved < 2 ^ 64
  /-- What the evaluator was asked before counts as well. -/
  evaluator (earlier : List EvaluatorOp) : e.evaluator = (({} : Evaluator α).run earlier).2 →
    earlier.length + ops.length < 2 ^ 64 → ∀ k, (e.run (ops.take k)).2.evaluator.Fits

/-- As many records as a short run can file are within the width of their number. -/
theorem filings_lt {n r : Nat} (hn : n < 2 ^ 32) (hr : r ≤ n) : n.choose 2 + r < 2 ^ 64 := by
  calc
    n.choose 2 + r ≤ n.choose 2 + n := Nat.add_le_add_left hr _
    _ = (n + 1).choose 2 := by rw [Nat.choose_succ_succ', Nat.choose_one_right, Nat.add_comm]
    _ ≤ (2 ^ 32).choose 2 := Nat.choose_le_choose 2 hn
    _ < 2 ^ 64 := by rw [Nat.choose_two_right]; decide

theorem Fresh.filed_run_le_choose (h : e.Fresh) (ops : List Op) :
    (e.run ops).2.ledger.filed ≤ ops.length.choose 2 + ops.countP Op.isRecord :=
  (h.filed_run_le ops).trans
    (Nat.add_le_add_right (Nat.choose_le_choose 2 (e.length_writes_le ops)) _)

theorem Fresh.fits_run (h : e.Fresh) {ops : List Op} (hlength : ops.length < 2 ^ 32)
    (hrecords : ∀ c, .network (.record c) ∈ ops → c.attempts < 2 ^ 32 - 1) :
    (e.run ops).2.Fits := by
  have hfiled : (e.run ops).2.ledger.filed < 2 ^ 64 :=
    (h.filed_run_le_choose ops).trans_lt (filings_lt hlength List.countP_le_length)
  have hcomplete := ((Reachable.fresh h).run ops).complete.length_eq
  exact
    { filed := hfiled
      active := by omega
      resolved := by omega
      attempts := by
        intro c hc
        have hle := h.attempts_le (by decide) hrecords c hc
        omega
      revisions := by
        intro b hb
        have hlt := revision_lt (h.refines_run ops) hb
        have hle := e.length_writes_le ops
        omega }

theorem Fresh.resolved_le (h : e.Fresh) {ops : List Op} {r : Report α}
    (hr : r ∈ Answer.reports (e.run ops).1) : r.resolved ≤ (e.run ops).2.ledger.filed := by
  have hsum : r.resolved ≤ ((Answer.reports (e.run ops).1).map Report.resolved).sum :=
    List.le_sum_of_mem (List.mem_map_of_mem hr)
  have hfiled := e.filed_run ops
  have hbalance := h.balance ops
  omega

/-- **No counter overflows in a run of fewer than `2 ^ 32` requests** to a new engine, if each
record that is handed in has room for one more attempt. -/
theorem Fresh.run_bounded (h : e.Fresh) {ops : List Op} (hlength : ops.length < 2 ^ 32)
    (hrecords : ∀ c, .network (.record c) ∈ ops → c.attempts < 2 ^ 32 - 1) : Bounded e ops where
  assertion := by
    rintro before after op count - hfound
    exact ⟨filed_step_of_found hfound, h.count_le hfound, Network.length_names_le _⟩
  filed := by
    rw [← Nat.choose_two_right]
    exact h.filed_run_le_choose ops
  fits k := by
    refine h.fits_run ?_ fun c hc => hrecords c (List.mem_of_mem_take hc)
    exact (List.length_take_le' k ops).trans_lt hlength
  reports r hr := (h.resolved_le hr).trans_lt (h.fits_run hlength hrecords).filed
  evaluator := by
    intro earlier hearlier hroom k
    have hrequests : (Op.evaluatorRequests (ops.take k)).length ≤ ops.length :=
      (List.length_filterMap_le _ _).trans (List.length_take_le' k ops)
    have hall : (e.run (ops.take k)).2.evaluator =
        (({} : Evaluator α).run (earlier ++ Op.evaluatorRequests (ops.take k))).2 := by
      rw [run_evaluator, hearlier, Evaluator.run_append]
    rw [hall]
    apply Evaluator.fits_run
    rw [List.length_append]
    omega

/-- A record comes in with as many attempts as it may have, two names come to disagree, and the
evaluator is shown an opposition. -/
def lastAttempt : List Op :=
  let ids : IdSource := Uuid.ofNat
  [.network (.record { criticalRecord with attempts := 2 ^ 32 - 2 }),
    .network (.update ids "a" .yes 1.0), .network (.update ids "b" .no 0.5),
    .evaluator (.contradicts .yes .no), .network .resolve, .network (.assert ids "c" .no)]

theorem run_bounded_lastAttempt :
    Fresh ({} : Engine Rat) ∧ lastAttempt.length < 2 ^ 32 ∧
    (∀ c, .network (.record c) ∈ lastAttempt → c.attempts < 2 ^ 32 - 1) ∧
    Bounded ({} : Engine Rat) lastAttempt ∧
    (({} : Engine Rat).run (lastAttempt.take 4)).2.ledger.active.map (fun c => c.attempts) =
      [2 ^ 32 - 2, 0] ∧
    (({} : Engine Rat).run (lastAttempt.take 5)).2.Fits ∧
    (({} : Engine Rat).run lastAttempt).2.ledger.filed ≤ 6 * 5 / 2 + 1 ∧
    (({} : Engine Rat).run lastAttempt).2.evaluator.Fits := by
  have hlength : lastAttempt.length < 2 ^ 32 := by decide
  have hrecords : ∀ c, .network (.record c) ∈ lastAttempt → c.attempts < 2 ^ 32 - 1 := by
    intro c hc
    simp only [lastAttempt, List.mem_cons, Op.network.injEq, NetworkOp.record.injEq, reduceCtorEq,
      List.not_mem_nil, or_false] at hc
    rw [hc]
    decide
  have hbounded : Bounded ({} : Engine Rat) lastAttempt := Fresh.blank.run_bounded hlength hrecords
  exact ⟨.blank, hlength, hrecords, hbounded, by decide +kernel, hbounded.fits 5,
    hbounded.filed, hbounded.evaluator [] rfl (by decide) 6⟩

end Engine

end TernaryBelief
