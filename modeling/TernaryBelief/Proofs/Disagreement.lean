import TernaryBelief.Proofs.LastWriter
import TernaryBelief.Proofs.Processing

/-!
# No live disagreement is missed

Conflicts are looked for when a belief is asserted, and only with the beliefs of that moment. Still,
of any two beliefs that disagree at the end of a run the ledger holds a record: when the one of them
that was asserted last was asserted, the other had its present value already. That moment
(`LastWrite`) is what the argument turns on: the record is filed there (`Engine.active_of_written`),
both values stay as they are from there on, and no later request takes a record away.
-/

namespace TernaryBelief

/-! ## Records stay -/

namespace Ledger

/-- Some active record is about the conflict. -/
def Active (l : Ledger) (k : Conflict) : Prop := ∃ c ∈ l.active, c.toConflict = k

/-- Some record, active or resolved, is about the conflict. -/
def Recorded (l : Ledger) (k : Conflict) : Prop := ∃ c ∈ l.active ++ l.resolved, c.toConflict = k

variable {l : Ledger} {k : Conflict}

theorem Active.recorded (h : l.Active k) : l.Recorded k := by
  obtain ⟨c, hc, hk⟩ := h
  exact ⟨c, List.mem_append_left _ hc, hk⟩

theorem map_toConflict_numbered (last : Nat) (cs : List Contradiction) :
    (numbered last cs).map Contradiction.toConflict = cs.map Contradiction.toConflict :=
  map_numbered (fun _ _ => rfl) last cs

theorem active_fileAll {cs : List Contradiction} (h : k ∈ cs.map Contradiction.toConflict) :
    (l.fileAll cs).Active k := by
  rw [← map_toConflict_numbered l.filed, List.mem_map] at h
  obtain ⟨c, hc, hk⟩ := h
  exact ⟨c, List.mem_append_right _ hc, hk⟩

theorem Active.enter (h : l.Active k) {x : Entry} (hx : x.isPass = false) :
    (l.enter x).Active k := by
  obtain ⟨c, hc, hk⟩ := h
  cases x with
  | filed batch => exact ⟨c, List.mem_append_left _ hc, hk⟩
  | pass => cases hx

theorem Recorded.enter (h : l.Recorded k) (x : Entry) : (l.enter x).Recorded k := by
  obtain ⟨c, hc, hk⟩ := h
  rcases List.mem_append.mp hc with hactive | hresolved
  · cases x with
    | filed batch => exact ⟨c, by simp [Ledger.enter, fileAll, hactive], hk⟩
    | pass =>
      -- a pass moves the record and counts an attempt, which is not part of the conflict
      have hpending : c ∈ l.pending := (Contradiction.bySeverity_perm l.active).mem_iff.mpr hactive
      refine ⟨c.attempted, ?_, hk⟩
      simp only [Ledger.enter, settle, List.nil_append, List.mem_append, List.mem_map]
      exact .inr ⟨c, hpending, rfl⟩
  · cases x with
    | filed batch => exact ⟨c, List.mem_append_right _ hresolved, hk⟩
    | pass => exact ⟨c, by simp [Ledger.enter, settle, hresolved], hk⟩

theorem Active.foldl_enter (h : l.Active k) {j : List Entry} (hj : ∀ x ∈ j, x.isPass = false) :
    (j.foldl Ledger.enter l).Active k := by
  induction j generalizing l with
  | nil => exact h
  | cons x j ih =>
    rw [List.forall_mem_cons] at hj
    exact ih (h.enter hj.1) hj.2

theorem Recorded.foldl_enter (h : l.Recorded k) (j : List Entry) :
    (j.foldl Ledger.enter l).Recorded k := by
  induction j generalizing l with
  | nil => exact h
  | cons x j ih => exact ih (h.enter x)

end Ledger

/-! ## Values stay -/

namespace Network

variable {n : Network}

theorem Indexed.find?_foldl_write_of_ne (h : n.Indexed) {name : String} {ws : List Assertion}
    (hws : ∀ a ∈ ws, a.name ≠ name) : (ws.foldl Network.write n).find? name = n.find? name := by
  induction ws generalizing n with
  | nil => rfl
  | cons a ws ih =>
    rw [List.forall_mem_cons] at hws
    rw [List.foldl_cons, ih (h.write a) hws.2, h.find?_write, if_neg hws.1]

theorem Indexed.mem_of_find? (h : n.Indexed) {name : String} {b : Belief}
    (hb : n.find? name = some b) : b ∈ n.beliefs ∧ b.name = name := by
  cases hi : n.index[name]? with
  | none => simp [find?_of_not_indexed hi] at hb
  | some i =>
    obtain ⟨b', hb', hname, hfind⟩ := h.find?_of_index hi
    obtain rfl := Option.some.inj (hfind.symm.trans hb)
    exact ⟨Array.mem_of_getElem? hb', hname⟩

theorem mem_conflicts_of_ne {p : SeverityPolicy} {b : Belief} {incoming : Observation}
    (hb : b ∈ n.beliefs) (hname : b.name ≠ incoming.name) (hvalue : b.value ≠ incoming.value) :
    ⟨b.observation, incoming, p.classify b.value incoming.value⟩ ∈ n.conflicts p incoming := by
  simp only [conflicts, List.mem_filterMap, List.mem_filter]
  refine ⟨b, ⟨Array.mem_toList_iff.mpr hb, by simpa using hname⟩, ?_⟩
  exact if_neg hvalue

end Network

namespace Engine

variable {α : Type} [Scalar α] {e : Engine α}

theorem Reachable.indexed (h : e.Reachable) : e.network.Indexed := by
  induction h with
  | fresh h =>
    rw [h.empty.1]
    exact Network.indexed_empty
  | @step e _ op ih =>
    cases hop : e.written? op with
    | none => rwa [step_network_of_not_written hop]
    | some a =>
      rw [step_network_of_written hop]
      exact ih.write a

/-! ## The last assertion of some names -/

/-- The last accepted assertion in a run whose name is among those in question: the requests before
it, the request itself and those after it. -/
structure LastWrite (e : Engine α) (ops : List Op) (among : String → Prop)
    (pre : List Op) (op : Op) (post : List Op) (a : Assertion) : Prop where
  split : ops = pre ++ op :: post
  written : (e.run pre).2.written? op = some a
  named : among a.name
  last : ∀ b ∈ ((e.run pre).2.step op).2.writes post, ¬ among b.name

theorem exists_lastWrite {ops : List Op} {among : String → Prop}
    (h : ∃ a ∈ e.writes ops, among a.name) :
    ∃ pre op post a, e.LastWrite ops among pre op post a := by
  induction ops generalizing e with
  | nil => simp [writes, trace] at h
  | cons op ops ih =>
    -- a later assertion of such a name, if there is one, goes before the first request
    by_cases hlater : ∃ a ∈ (e.step op).2.writes ops, among a.name
    · obtain ⟨pre, op', post, a, hl⟩ := ih hlater
      exact ⟨op :: pre, op', post, a, by rw [hl.split]; rfl, hl.written, hl.named, hl.last⟩
    · obtain ⟨a, ha, hname⟩ := h
      rw [writes_cons, List.mem_append] at ha
      rcases ha with hhere | hthere
      · refine ⟨[], op, ops, a, rfl, Option.mem_toList.mp hhere, hname, ?_⟩
        intro b hb hb'
        exact hlater ⟨b, hb, hb'⟩
      · exact absurd ⟨a, hthere, hname⟩ hlater

theorem LastWrite.run_eq {ops pre post : List Op} {op : Op} {among : String → Prop} {a : Assertion}
    (hl : e.LastWrite ops among pre op post a) :
    (e.run ops).2 = (((e.run pre).2.step op).2.run post).2 := by
  rw [hl.split, run_append]
  rfl

/-- After that assertion no name in question changes its belief. -/
theorem LastWrite.belief?_eq {ops pre post : List Op} {op : Op} {among : String → Prop}
    {a : Assertion} (hl : e.LastWrite ops among pre op post a) (h : e.Reachable) {name : String}
    (hname : among name) :
    (e.run ops).2.belief? name = ((e.run pre).2.network.write a).find? name := by
  have hmet := (h.run pre).indexed
  -- the requests after `op` write other names only
  rw [hl.run_eq, belief?, run_network, step_network_of_written hl.written]
  apply (hmet.write a).find?_foldl_write_of_ne
  rintro b hb rfl
  exact hl.last b hb hname

/-! ## Disagreements -/

/-- An accepted assertion is filed against every belief of another name and another value. -/
theorem active_of_written {op : Op} {a : Assertion} (ha : e.written? op = some a) {b : Belief}
    (hb : b ∈ e.network.beliefs) (hname : b.name ≠ a.name) (hvalue : b.value ≠ a.value) :
    (e.step op).2.ledger.Active
      ⟨b.observation, a.observation, e.config.policy.classify b.value a.value⟩ := by
  rw [step_ledger]
  unfold written? at ha
  cases he : e.effect op with
  | assertion ids a' =>
    simp only [he, Option.some.injEq] at ha
    subst ha
    simp only [entry, he, Ledger.enter]
    apply Ledger.active_fileAll
    have hmem : ⟨b.observation, a'.observation, e.config.policy.classify b.value a'.value⟩ ∈
        e.network.conflicts e.config.policy a'.observation :=
      Network.mem_conflicts_of_ne hb hname hvalue
    obtain ⟨i, hi, hget⟩ := List.mem_iff_getElem.mp hmem
    rw [List.mem_map]
    refine ⟨.ofConflict (ids i) (e.network.conflicts e.config.policy a'.observation)[i], ?_, hget⟩
    exact List.mem_mapIdx.mpr ⟨i, hi, rfl⟩
  | _ => simp [he] at ha

/-- At the end of a run it is on record that `new` disagrees with `old`, where `new` is what the
last accepted assertion of either name said; and if no pass was made after it, the record is
active. -/
def Noted (e : Engine α) (ops : List Op) (old new : Observation) : Prop :=
  let final := (e.run ops).2
  let conflict : Conflict := ⟨old, new, final.config.policy.classify old.value new.value⟩
  ∃ pre op post a,
    e.LastWrite ops (fun name => name = old.name ∨ name = new.name) pre op post a ∧
    a.observation = new ∧ final.ledger.Recorded conflict ∧
    ((∀ later ∈ post, later.isPass = false) → final.ledger.Active conflict)

/-- If the last assertion of either name was about `n`, then it is `n` that disagrees with `m`. -/
theorem LastWrite.noted {ops pre post : List Op} {op : Op} {a : Assertion} {m n : String}
    {vm vn : Trit} (hl : e.LastWrite ops (fun name => name = m ∨ name = n) pre op post a)
    (h : e.Reachable) (hlast : a.name = n) (hmn : m ≠ n)
    (hm : (e.run ops).2.value? m = some vm) (hn : (e.run ops).2.value? n = some vn)
    (hv : vm ≠ vn) : e.Noted ops ⟨m, vm⟩ ⟨n, vn⟩ := by
  have hmet := (h.run pre).indexed
  subst hlast
  simp only [value?, Option.map_eq_some_iff] at hm hn
  -- `a` said what is believed of its name at the end
  obtain ⟨bn, hbn, rfl⟩ := hn
  rw [hl.belief?_eq h (.inr rfl), hmet.find?_write, if_pos rfl] at hbn
  have hsaid : bn.value = a.value := by
    rw [← Option.some.inj hbn]
    cases (e.run pre).2.network.find? a.name <;> rfl
  -- and met the other belief as it is at the end
  obtain ⟨bm, hbm, rfl⟩ := hm
  rw [hl.belief?_eq h (.inl rfl), hmet.find?_write, if_neg (Ne.symm hmn)] at hbm
  obtain ⟨hmem, rfl⟩ := hmet.mem_of_find? hbm
  rw [hsaid] at hv ⊢
  have hactive := active_of_written hl.written hmem hmn hv
  refine ⟨pre, op, post, a, hl, rfl, ?_, ?_⟩
  · rw [hl.run_eq, run_ledger, run_config, step_config]
    exact hactive.recorded.foldl_enter _
  · intro hpost
    -- no pass in `post` means no pass in its journal
    rw [hl.run_eq, run_ledger, run_config, step_config]
    apply hactive.foldl_enter
    intro x hx
    have hmap := List.mem_map_of_mem (f := Entry.isPass) hx
    rw [map_isPass_journal, List.mem_map] at hmap
    obtain ⟨later, hlater, heq⟩ := hmap
    rw [← heq]
    exact hpost later hlater

/-- **No live disagreement is missed.** Whenever two beliefs disagree after a run of requests to a
new engine, this is on record: whichever of them was asserted last is noted as disagreeing with
the other. -/
theorem run_noted {e : Engine α} (h : e.Fresh) (ops : List Op) {m n : String} (hmn : m ≠ n)
    {vm vn : Trit} (hm : (e.run ops).2.value? m = some vm)
    (hn : (e.run ops).2.value? n = some vn) (hv : vm ≠ vn) :
    e.Noted ops ⟨m, vm⟩ ⟨n, vn⟩ ∨ e.Noted ops ⟨n, vn⟩ ⟨m, vm⟩ := by
  -- `m` is believed at the end, so it was asserted, and one of the two names was asserted last
  have hwritten : ∃ a ∈ e.writes ops, a.name = m ∨ a.name = n := by
    have hsome : ((e.run ops).2.belief? m).isSome := by
      rw [← Option.isSome_map (f := Belief.value)]
      exact Option.isSome_of_mem hm
    rw [belief?, run_network, h.empty.1, Network.find?_foldl_write,
      Assertion.last?_isSome_iff] at hsome
    obtain ⟨a, ha, hname⟩ := hsome
    exact ⟨a, ha, .inl hname⟩
  have hlast : ∃ pre op post a,
      e.LastWrite ops (fun name => name = m ∨ name = n) pre op post a := exists_lastWrite hwritten
  obtain ⟨pre, op, post, a, hl⟩ := hlast
  rcases hl.named with hlast | hlast
  · right
    simp only [or_comm (a := _ = m)] at hl
    exact hl.noted (.fresh h) hlast hmn.symm hn hm hv.symm
  · left
    exact hl.noted (.fresh h) hlast hmn hm hn hv

/-- Of two names that disagree, one is brought to agree after a pass and then flips back. -/
def flipBack : List Op :=
  let ids : IdSource := Uuid.ofNat
  [.network (.update ids "a" .yes 1.0), .network (.update ids "b" .no 0.5), .network .resolve,
    .network (.update ids "a" .no 1.0), .network (.update ids "a" .yes 0.25)]

theorem run_noted_flipBack :
    Fresh ({} : Engine Rat) ∧
    (({} : Engine Rat).run flipBack).2.value? "a" = some .yes ∧
    (({} : Engine Rat).run flipBack).2.value? "b" = some .no ∧
    (({} : Engine Rat).Noted flipBack ⟨"a", .yes⟩ ⟨"b", .no⟩ ∨
      ({} : Engine Rat).Noted flipBack ⟨"b", .no⟩ ⟨"a", .yes⟩) := by
  have ha : (({} : Engine Rat).run flipBack).2.value? "a" = some .yes := rfl
  have hb : (({} : Engine Rat).run flipBack).2.value? "b" = some .no := rfl
  exact ⟨.blank, ha, hb, run_noted .blank flipBack (by decide) ha hb (by decide)⟩

end Engine

end TernaryBelief
