import Mathlib.Data.List.Induction
import Mathlib.Data.List.Nodup
import TernaryBelief.Proofs.Effect

/-!
# The last assertion of a name wins

A network holds the same beliefs twice over: in an array, in the order of first assertion, and
behind an index by name. The two stay in step (`Network.Indexed`), so that the network is a map from
names in which the last assertion of a name wins, with a count of the assertions and with the order
of the first ones (`Network.Refines`, `Engine.run_refines`).
-/

namespace TernaryBelief

/-! ## The map that the network stands for -/

namespace Assertion

/-- What an assertion makes of the belief with its name, if there is one yet. -/
def believe (a : Assertion) : Option Belief → Belief
  | some b => b.overwrite a.value a.confidence
  | none => ⟨a.name, a.value, a.confidence, 0⟩

/-- Those of a list of assertions that bear the name. -/
def of (ws : List Assertion) (name : String) : List Assertion := ws.filter fun a => a.name = name

/-- What a list of assertions leaves of a name: the value and the confidence of the last one that
bears the name, and how many came before it. -/
def last? (ws : List Assertion) (name : String) : Option Belief :=
  (of ws name).getLast?.map fun a => ⟨name, a.value, a.confidence, (of ws name).length - 1⟩

theorem of_concat (ws : List Assertion) (a : Assertion) (name : String) :
    of (ws ++ [a]) name = if a.name = name then of ws name ++ [a] else of ws name := by
  by_cases h : a.name = name <;> simp [of, List.filter_append, h]

theorem last?_concat (ws : List Assertion) (a : Assertion) (name : String) :
    last? (ws ++ [a]) name =
      if a.name = name then some (a.believe (last? ws name)) else last? ws name := by
  unfold last?
  rw [of_concat]
  by_cases h : a.name = name
  · subst h
    simp only [if_true, List.getLast?_concat, Option.map_some, List.length_append,
      List.length_singleton, Nat.add_sub_cancel, Option.some.injEq]
    rcases List.eq_nil_or_concat (of ws a.name) with hnil | ⟨bs, b, hb⟩
    · simp [hnil, believe]
    · simp [hb, believe, Belief.overwrite]
  · simp only [if_neg h]

theorem last?_isSome_iff (ws : List Assertion) (name : String) :
    (last? ws name).isSome ↔ ∃ a ∈ ws, a.name = name := by
  simp [last?, of]

end Assertion

namespace Network

variable {n : Network}

/-- The names of the beliefs, in the order of the beliefs. -/
def names (n : Network) : List String := n.beliefs.toList.map Belief.name

theorem getElem?_names (n : Network) (i : Nat) :
    n.names[i]? = n.beliefs[i]?.map Belief.name := by
  simp [names]

/-! ## The index stays in step -/

theorem indexed_empty : ({} : Network).Indexed := by
  intro name i
  simp

theorem Indexed.mem_names_iff (h : n.Indexed) {name : String} :
    name ∈ n.names ↔ ∃ i, n.index[name]? = some i := by
  rw [List.mem_iff_getElem?]
  constructor
  · rintro ⟨i, hi⟩
    exact ⟨i, (h name i).mpr (by rw [← getElem?_names, hi])⟩
  · rintro ⟨i, hi⟩
    exact ⟨i, by rw [getElem?_names, (h name i).mp hi]⟩

/-- A name has one place only, so no two beliefs share a name. -/
theorem Indexed.nodup_names (h : n.Indexed) : n.names.Nodup := by
  rw [List.nodup_iff_getElem?_ne_getElem?]
  intro i j hij hj heq
  -- the index would have to lead to both places
  have hi : i < n.names.length := by omega
  rw [List.getElem?_eq_getElem hi] at heq
  have h₁ := (h _ i).mpr (by rw [← getElem?_names, List.getElem?_eq_getElem hi])
  have h₂ := (h _ j).mpr (by rw [← getElem?_names, ← heq])
  have := Option.some.inj (h₁.symm.trans h₂)
  omega

theorem Indexed.find?_of_index (h : n.Indexed) {name : String} {i : Nat}
    (hi : n.index[name]? = some i) :
    ∃ b, n.beliefs[i]? = some b ∧ b.name = name ∧ n.find? name = some b := by
  have hname := (h name i).mp hi
  cases hb : n.beliefs[i]? with
  | none => simp [hb] at hname
  | some b =>
    refine ⟨b, rfl, by simpa [hb] using hname, ?_⟩
    simp [find?, hi, hb]

theorem find?_of_not_indexed {name : String} (hi : n.index[name]? = none) :
    n.find? name = none := by
  simp [find?, hi]

/-! ## One assertion -/

theorem write_of_index {a : Assertion} {i : Nat} (hi : n.index[a.name]? = some i) :
    n.write a = { n with beliefs := n.beliefs.modify i (·.overwrite a.value a.confidence) } := by
  simp only [write, insert, hi]

theorem write_of_not_indexed {a : Assertion} (hi : n.index[a.name]? = none) :
    n.write a =
      { beliefs := n.beliefs.push ⟨a.name, a.value, a.confidence, 0⟩
        index := n.index.insert a.name n.beliefs.size } := by
  simp only [write, insert, hi]

theorem getElem?_modify_name (beliefs : Array Belief) (i j : Nat) (v : Trit) (c : Float) :
    (beliefs.modify i (·.overwrite v c))[j]?.map Belief.name = beliefs[j]?.map Belief.name := by
  rw [Array.getElem?_modify]
  split
  · rw [Option.map_map]
    rfl
  · rfl

theorem getElem?_index_insert (index : Std.TreeMap String Nat) (k name : String) (i : Nat) :
    (index.insert k i)[name]? = if k = name then some i else index[name]? := by
  simp only [Std.TreeMap.getElem?_insert, Std.LawfulEqCmp.compare_eq_iff_eq]

theorem Indexed.write (h : n.Indexed) (a : Assertion) : (n.write a).Indexed := by
  intro name j
  cases hi : n.index[a.name]? with
  | some i =>
    rw [write_of_index hi, getElem?_modify_name]
    exact h name j
  | none =>
    rw [write_of_not_indexed hi, getElem?_index_insert, Array.getElem?_push]
    have hname := h name j
    by_cases hk : a.name = name
    · -- the new name: it stands at the new place, and stood nowhere before
      subst hk
      rw [hi] at hname
      by_cases hj : j = n.beliefs.size
      · simp [hj]
      · simp [hj, ← hname, Ne.symm hj]
    · by_cases hj : j = n.beliefs.size
      · subst hj
        simpa [hk] using hname
      · simpa [hk, hj] using hname

/-- An assertion touches the belief with its name and no other. -/
theorem Indexed.find?_write (h : n.Indexed) (a : Assertion) (name : String) :
    (n.write a).find? name =
      if a.name = name then some (a.believe (n.find? name)) else n.find? name := by
  cases hi : n.index[a.name]? with
  | some i =>
    -- a known name: the belief at its place is overwritten
    obtain ⟨b, hb, -, hfind⟩ := h.find?_of_index hi
    rw [write_of_index hi]
    by_cases hk : a.name = name
    · subst hk
      simp [find?, hi, Array.getElem?_modify, hb, Assertion.believe]
    · simp only [hk, if_false]
      unfold find?
      cases hj : n.index[name]? with
      | none => rfl
      | some j =>
        -- two names do not share a place
        have hij : i ≠ j := by
          rintro rfl
          have h₁ := (h a.name i).mp hi
          have h₂ := (h name i).mp hj
          exact hk (Option.some.inj (h₁.symm.trans h₂))
        simp [Array.getElem?_modify, hij]
  | none =>
    -- a new name: a belief is added at the end, and the places before it stay as they are
    rw [write_of_not_indexed hi]
    by_cases hk : a.name = name
    · subst hk
      simp [find?, hi, Assertion.believe]
    · simp only [hk, if_false]
      unfold find?
      simp only [getElem?_index_insert, hk, if_false]
      cases hj : n.index[name]? with
      | none => rfl
      | some j =>
        obtain ⟨b, hb, -, -⟩ := h.find?_of_index hj
        have hlt : j < n.beliefs.size := (Array.getElem?_eq_some_iff.mp hb).1
        simp [Array.getElem?_push, Nat.ne_of_lt hlt]

/-- A new name comes last, a known one keeps its place. -/
theorem Indexed.names_write (h : n.Indexed) (a : Assertion) :
    (n.write a).names = if a.name ∈ n.names then n.names else n.names ++ [a.name] := by
  cases hi : n.index[a.name]? with
  | some i =>
    rw [if_pos (h.mem_names_iff.mpr ⟨i, hi⟩), write_of_index hi]
    apply List.ext_getElem?
    intro j
    rw [getElem?_names, getElem?_names, getElem?_modify_name]
  | none =>
    have hnone : a.name ∉ n.names := by
      rw [h.mem_names_iff, hi]
      simp
    rw [if_neg hnone, write_of_not_indexed hi]
    simp [names]

/-! ## Lists of assertions -/

/-- The network stands for the map in which the last assertion of a name wins. -/
structure Refines (n : Network) (ws : List Assertion) : Prop where
  /-- The index leads from a name to the belief that bears it, and nowhere else. -/
  indexed (name : String) (i : Nat) :
    n.index[name]? = some i ↔ ∃ h : i < n.beliefs.size, n.beliefs[i].name = name
  distinct : n.names.Nodup
  find? (name : String) : n.find? name = Assertion.last? ws name
  /-- The beliefs stand in the order in which their names first came up. -/
  names : n.names = (ws.map Assertion.name).eraseDups

theorem Indexed.iff_lt (h : n.Indexed) (name : String) (i : Nat) :
    n.index[name]? = some i ↔ ∃ h : i < n.beliefs.size, n.beliefs[i].name = name := by
  rw [h name i, Option.map_eq_some_iff]
  constructor
  · rintro ⟨b, hb, hname⟩
    obtain ⟨hi, rfl⟩ := Array.getElem?_eq_some_iff.mp hb
    exact ⟨hi, hname⟩
  · rintro ⟨hi, hname⟩
    exact ⟨_, Array.getElem?_eq_getElem hi, hname⟩

theorem indexed_foldl_write (h : n.Indexed) (ws : List Assertion) :
    (ws.foldl write n).Indexed := by
  induction ws generalizing n with
  | nil => exact h
  | cons a ws ih => exact ih (h.write a)

theorem find?_foldl_write (ws : List Assertion) (name : String) :
    (ws.foldl write {}).find? name = Assertion.last? ws name := by
  -- from the end, since the last assertion of the name decides
  induction ws using List.reverseRecOn with
  | nil => rfl
  | append_singleton ws a ih =>
    rw [List.foldl_concat, (indexed_foldl_write indexed_empty ws).find?_write, ih,
      Assertion.last?_concat]

/-- A last element counts if it has not come up before. -/
theorem eraseDups_concat (names : List String) (k : String) :
    (names ++ [k]).eraseDups = if k ∈ names.eraseDups then names.eraseDups
      else names.eraseDups ++ [k] := by
  have hone : [k].eraseDups = [k] := rfl
  rw [List.eraseDups_append]
  by_cases h : k ∈ names <;> simp [List.removeAll, h, hone]

theorem names_foldl_write (ws : List Assertion) :
    (ws.foldl write {}).names = (ws.map Assertion.name).eraseDups := by
  induction ws using List.reverseRecOn with
  | nil => rfl
  | append_singleton ws a ih =>
    rw [List.foldl_concat, (indexed_foldl_write indexed_empty ws).names_write, ih,
      List.map_append, List.map_singleton, eraseDups_concat]

theorem refines_foldl_write (ws : List Assertion) : (ws.foldl write {}).Refines ws :=
  have h := indexed_foldl_write indexed_empty ws
  ⟨h.iff_lt, h.nodup_names, find?_foldl_write ws, names_foldl_write ws⟩

end Network

namespace Engine

variable {α : Type}

/-- An assertion that is accepted is believed, with the confidence that was given. -/
theorem believes_of_accept {e : Engine α} (hindex : e.network.Indexed) {confidence : Float}
    (haccept : e.config.accept confidence = .ok confidence) (ids : IdSource) (name : String)
    (value : Trit) :
    ∃ count after b, e.update ids name value confidence = .ok (count, after) ∧
      after.belief? name = some b ∧ b.value = value ∧ b.confidence = confidence := by
  let found := e.findings ids ⟨name, value⟩
  let after := { e with
    ledger := e.ledger.fileAll found
    network := e.network.write ⟨name, value, confidence⟩ }
  have hupdate : e.update ids name value confidence = .ok (found.length, after) := by
    rw [update, haccept]
    rfl
  have hfind : after.belief? name = some (Assertion.believe _ _) :=
    (hindex.find?_write ⟨name, value, confidence⟩ name).trans (if_pos rfl)
  refine ⟨found.length, after, _, hupdate, hfind, ?_, ?_⟩ <;> cases e.network.find? name <;> rfl

/-! ## The network of a run -/

variable [Scalar α]

theorem length_writes_le (e : Engine α) (ops : List Op) : (e.writes ops).length ≤ ops.length := by
  induction ops generalizing e with
  | nil => simp [writes, trace]
  | cons op ops ih =>
    rw [writes_cons, List.length_append, List.length_cons]
    have htail := ih (e.step op).2
    have hhead : (e.written? op).toList.length ≤ 1 := by cases e.written? op <;> simp
    omega

/-- A belief has been revised less often than requests were made. -/
theorem revision_lt {n : Network} {ws : List Assertion} (h : n.Refines ws) {b : Belief}
    (hb : b ∈ n.beliefs) : b.revision < ws.length := by
  -- the belief is found by its name, so it is what the assertions of that name leave
  obtain ⟨i, hi, rfl⟩ := Array.mem_iff_getElem.mp hb
  have hindex := (h.indexed n.beliefs[i].name i).mpr ⟨hi, rfl⟩
  have hfind : n.find? n.beliefs[i].name = some n.beliefs[i] := by
    simp [Network.find?, hindex]
  rw [h.find?, Assertion.last?, Option.map_eq_some_iff] at hfind
  obtain ⟨a, ha, hbelief⟩ := hfind
  have hpos : 0 < (Assertion.of ws n.beliefs[i].name).length :=
    List.length_pos_of_mem (List.mem_of_getLast? ha)
  have hle : (Assertion.of ws n.beliefs[i].name).length ≤ ws.length := List.length_filter_le _ _
  rw [← hbelief]
  dsimp only
  omega

/-- **The last accepted assertion of a name wins.** After any requests to a new engine, its network
stands for the map that the accepted assertions make: a name is believed if and only if one of them
bears it, no belief has been revised as often as there were requests, and no request that is not
answered by a count of contradictions touches the network. -/
theorem run_refines {e : Engine α} (h : e.Fresh) (ops : List Op) :
    (e.run ops).2.network.Refines (e.writes ops) ∧
    (∀ name, ((e.run ops).2.belief? name).isSome ↔ ∃ a ∈ e.writes ops, a.name = name) ∧
    (∀ b ∈ (e.run ops).2.network.beliefs, b.revision < ops.length) ∧
    ∀ op, (∀ count, ((e.run ops).2.step op).1 ≠ .found count) →
      ((e.run ops).2.step op).2.network = (e.run ops).2.network := by
  have hrefines : (e.run ops).2.network.Refines (e.writes ops) := by
    rw [run_network, h.empty.1]
    exact Network.refines_foldl_write (e.writes ops)
  refine ⟨hrefines, ?_, ?_, ?_⟩
  · intro name
    rw [belief?, hrefines.find?, Assertion.last?_isSome_iff]
  · intro b hb
    exact Nat.lt_of_lt_of_le (revision_lt hrefines hb) (e.length_writes_le ops)
  · intro op hop
    exact step_network_of_not_written (by
      rw [← Option.not_isSome_iff_eq_none, written?_isSome_iff, not_exists]
      exact hop)

/-- One name is asserted twice, with requests of other kinds in
between. The empty text is a name. -/
def reassertion : List Op :=
  let ids : IdSource := Uuid.ofNat
  [.network (.update ids "" .yes 1.0), .network (.update ids "b" .unknown 0.5),
    .network (.updateCode ids "" 7 1.0), .network .resolve,
    .evaluator (.contradicts .yes .no), .network (.assert ids "" .no)]

theorem run_refines_reassertion :
    Fresh ({} : Engine Rat) ∧
    (({} : Engine Rat).run reassertion).2.belief? "" = some ⟨"", .no, 1.0, 1⟩ ∧
    (({} : Engine Rat).run reassertion).2.network.names = ["", "b"] := by
  have h : (({} : Engine Rat).run reassertion).2.network.Refines _ :=
    (run_refines .blank reassertion).1
  refine ⟨.blank, (h.find? "").trans ?_, h.names.trans ?_⟩
  · rfl
  · decide +kernel

end Engine

end TernaryBelief
