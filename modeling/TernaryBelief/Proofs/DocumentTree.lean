import TernaryBelief.Json.Value
import TernaryBelief.Proofs.DocumentText

/-!
# Documents read back

The tokens of a document take the machine from a state that waits for a value to the one that has
read it, within any containers (`Json.State.reads_tokens`). As the text of a document keeps its
tokens apart, every document is read back from its text (`Json.parse_render`).
-/

namespace TernaryBelief.Json

/-! ## Induction on documents -/

/-- What a document inherits from its parts holds of all documents. -/
@[elab_as_elim]
theorem Value.induction {P : Value → Prop} (null : P .null) (bool : ∀ b, P (.bool b))
    (number : ∀ n, P (.number n)) (text : ∀ s, P (.text s))
    (array : ∀ vs, (∀ v ∈ vs, P v) → P (.array vs))
    (object : ∀ ms, (∀ m ∈ ms, P m.2) → P (.object ms)) (v : Value) : P v := by
  match v with
  | .null => exact null
  | .bool b => exact bool b
  | .number n => exact number n
  | .text s => exact text s
  | .array vs => exact array vs fun v hv => induction null bool number text array object v
  | .object ms => exact object ms fun m hm => induction null bool number text array object m.2
termination_by v
decreasing_by
  · have hlt := List.sizeOf_lt_of_mem hv
    simp only [Value.array.sizeOf_spec]
    omega
  · have hlt := List.sizeOf_lt_of_mem hm
    obtain ⟨k, v⟩ := m
    simp only [Value.object.sizeOf_spec, Prod.mk.sizeOf_spec] at hlt ⊢
    omega

/-! ## Tokens that stay apart -/

theorem separated_append_cons {xs ys : List Token} {u : Token} (hu : u.ends = true)
    (hxs : Separated xs) (hys : Separated (u :: ys)) : Separated (xs ++ u :: ys) := by
  refine List.isChain_append.mpr ⟨hxs, hys, fun _ _ w hw _ => ?_⟩
  cases hw
  exact hu

theorem separated_cons {t : Token} {ts : List Token} (ht : ∀ n, t ≠ .number n)
    (h : Separated ts) : Separated (t :: ts) :=
  List.isChain_cons.mpr ⟨fun _ _ ⟨n, hn⟩ => absurd hn (ht n), h⟩

theorem separated_elementTokens {vs : List Value} (h : ∀ v ∈ vs, Separated v.tokens) :
    Separated (elementTokens vs) := by
  induction vs with
  | nil => exact .nil
  | cons v vs ih =>
    have hv := h v List.mem_cons_self
    have hvs := ih fun w hw => h w (List.mem_cons_of_mem v hw)
    cases vs with
    | nil => exact hv
    | cons w vs => exact separated_append_cons rfl hv (separated_cons (by simp) hvs)

theorem separated_memberTokens {ms : List (Option String × Value)}
    (h : ∀ m ∈ ms, Separated m.2.tokens) : Separated (memberTokens ms) := by
  induction ms with
  | nil => exact .nil
  | cons m ms ih =>
    obtain ⟨k, v⟩ := m
    have hv := h (k, v) List.mem_cons_self
    have hms := ih fun w hw => h w (List.mem_cons_of_mem (k, v) hw)
    cases ms with
    | nil => exact separated_cons (by simp) (separated_cons (by simp) hv)
    | cons m ms =>
      exact separated_cons (by simp) (separated_cons (by simp)
        (separated_append_cons rfl hv (separated_cons (by simp) hms)))

theorem Value.separated_tokens (v : Value) : Separated v.tokens := by
  induction v using Value.induction with
  | null => exact .singleton _
  | bool b => exact .singleton _
  | number n => exact .singleton _
  | text s => exact .singleton _
  | array vs ih =>
    exact separated_cons (by simp)
      (separated_append_cons rfl (separated_elementTokens ih) (.singleton _))
  | object ms ih =>
    exact separated_cons (by simp)
      (separated_append_cons rfl (separated_memberTokens ih) (.singleton _))

/-! ## Runs of the machine -/

namespace State

theorem foldlM_of_step {s s' : State} {t : Token} (h : s.step t = some s') (ts : List Token) :
    (t :: ts).foldlM step s = ts.foldlM step s' := by
  rw [List.foldlM_cons, h]
  rfl

/-- The machine reads these tokens as this value, within any containers and before any tokens. -/
def Reads (ts : List Token) (v : Value) : Prop :=
  ∀ frames rest, (ts ++ rest).foldlM step ⟨.value, frames⟩ = rest.foldlM step ⟨.after v, frames⟩

variable {v : Value} {vs : List Value} {k : Option String} {ms : List (Option String × Value)}

/-- The rest of an array, from an element on. -/
theorem foldlM_elementTokens (h : ∀ w ∈ v :: vs, Reads w.tokens w) (before : List Value)
    (frames : List Frame) (rest : List Token) :
    (elementTokens (v :: vs) ++ Token.closeArray :: rest).foldlM step
        ⟨.value, .array before :: frames⟩ =
      rest.foldlM step ⟨.after (.array (before.reverse ++ v :: vs)), frames⟩ := by
  have hv := h v List.mem_cons_self
  induction vs generalizing v before with
  | nil =>
    rw [elementTokens, hv, foldlM_of_step rfl, List.reverse_cons]
  | cons w vs ih =>
    have hvs : ∀ u ∈ w :: vs, Reads u.tokens u := fun u hu => h u (List.mem_cons_of_mem v hu)
    rw [elementTokens, List.append_assoc, hv, List.cons_append, foldlM_of_step rfl,
      ih hvs (v :: before) (hvs w List.mem_cons_self), List.reverse_cons, List.append_assoc]
    rfl

/-- The rest of an object, from a key on. -/
theorem foldlM_memberTokens (h : ∀ m ∈ (k, v) :: ms, Reads m.2.tokens m.2)
    (before : List (Option String × Value)) (frames : List Frame) (rest : List Token) :
    (memberTokens ((k, v) :: ms) ++ Token.closeObject :: rest).foldlM step ⟨.key before, frames⟩ =
      rest.foldlM step ⟨.after (.object (before.reverse ++ (k, v) :: ms)), frames⟩ := by
  have hv : Reads v.tokens v := h (k, v) List.mem_cons_self
  induction ms generalizing k v before with
  | nil =>
    rw [memberTokens, List.cons_append, foldlM_of_step rfl, List.cons_append, foldlM_of_step rfl,
      hv, foldlM_of_step rfl, List.reverse_cons]
  | cons m ms ih =>
    obtain ⟨k', w⟩ := m
    have hms : ∀ m ∈ (k', w) :: ms, Reads m.2.tokens m.2 :=
      fun m hm => h m (List.mem_cons_of_mem (k, v) hm)
    rw [memberTokens, List.cons_append, foldlM_of_step rfl, List.cons_append, foldlM_of_step rfl,
      List.append_assoc, hv, List.cons_append, foldlM_of_step rfl,
      ih hms ((k, v) :: before) (hms (k', w) List.mem_cons_self), List.reverse_cons,
      List.append_assoc]
    rfl

/-- A document starts with a token that does not end an array. -/
theorem exists_tokens_eq_cons (v : Value) : ∃ t ts, v.tokens = t :: ts ∧ t ≠ .closeArray := by
  cases v with
  | null => exact ⟨_, _, rfl, by simp⟩
  | bool b => exact ⟨_, _, rfl, by simp⟩
  | number n => exact ⟨_, _, rfl, by simp⟩
  | text s => exact ⟨_, _, rfl, by simp⟩
  | array vs => exact ⟨_, _, rfl, by simp⟩
  | object ms => exact ⟨_, _, rfl, by simp⟩

theorem exists_elementTokens_eq_cons (v : Value) (vs : List Value) :
    ∃ t ts, elementTokens (v :: vs) = t :: ts ∧ t ≠ .closeArray := by
  obtain ⟨t, ts, hv, ht⟩ := exists_tokens_eq_cons v
  cases vs with
  | nil => exact ⟨t, ts, by rw [elementTokens, hv], ht⟩
  | cons w vs => exact ⟨t, _, by rw [elementTokens, hv, List.cons_append], ht⟩

/-- The first element of an array is read as any value within it. -/
theorem step_element {t : Token} (ht : t ≠ .closeArray) (frames : List Frame) :
    step ⟨.element, frames⟩ t = step ⟨.value, .array [] :: frames⟩ t := by
  cases t with
  | closeArray => exact absurd rfl ht
  | _ => rfl

theorem reads_array (h : ∀ v ∈ vs, Reads v.tokens v) :
    Reads (Value.array vs).tokens (.array vs) := by
  intro frames rest
  rw [Value.tokens, List.cons_append, foldlM_of_step rfl, List.append_assoc, List.singleton_append]
  cases vs with
  | nil => rfl
  | cons v vs =>
    -- the machine waits for an element or the end of the array, and no element starts with that end
    obtain ⟨t, ts, htokens, ht⟩ := exists_elementTokens_eq_cons v vs
    have hrest := foldlM_elementTokens h [] frames rest
    rw [htokens, List.cons_append, List.foldlM_cons] at hrest
    rw [htokens, List.cons_append, List.foldlM_cons, step_element ht]
    exact hrest

theorem reads_object (h : ∀ m ∈ ms, Reads m.2.tokens m.2) :
    Reads (Value.object ms).tokens (.object ms) := by
  intro frames rest
  rw [Value.tokens, List.cons_append, foldlM_of_step rfl, List.append_assoc, List.singleton_append]
  cases ms with
  | nil => rfl
  | cons m ms =>
    -- the first key of an object leads to the same state as any later one
    obtain ⟨k, v⟩ := m
    refine Eq.trans ?_ (foldlM_memberTokens h [] frames rest)
    cases ms <;> rfl

/-- **The tokens of a document are read as that document.** -/
theorem reads_tokens (v : Value) : Reads v.tokens v := by
  induction v using Value.induction with
  | null => exact fun _ _ => rfl
  | bool b => exact fun _ _ => rfl
  | number n => exact fun _ _ => rfl
  | text s => exact fun _ _ => rfl
  | array vs ih => exact reads_array ih
  | object ms ih => exact reads_object ih

end State

/-- **A document is read back from its text.** -/
theorem parse_render (v : Value) : parse v.render = some v := by
  have hmachine := State.reads_tokens v [] []
  rw [List.append_nil, List.foldlM_nil] at hmachine
  rw [parse, Value.render, String.toList_ofList, tokens_flatMap v.separated_tokens]
  simp only [List.reverse_nil, List.nil_append, Option.bind_some, Value.ofTokens?]
  rw [hmachine]
  rfl

end TernaryBelief.Json
