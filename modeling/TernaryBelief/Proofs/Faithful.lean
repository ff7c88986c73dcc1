import TernaryBelief.Documents
import TernaryBelief.Proofs.DecimalReading
import TernaryBelief.Proofs.DocumentTree

/-!
# Faithful documents

Documents of a type are faithful if they keep exactly the values with a certain property: such a
value is read back, for any other nothing is read back, and whatever a document is read as has the
property (`Json.Faithful`). Truth values, names and identifiers are all kept, and counts if they are
below a bound. Numbers are kept if they are finite, by a reader that is exact. Lists and records are
faithful if their parts are.

## Main definitions

* `Json.Faithful`: which values documents keep;
* `Json.NumberReader.Exact`: no finite number is lost by a reader, and `Json.NumberReader.nearest`,
  which is such a reader.
-/

namespace TernaryBelief

namespace Json

/-- Documents keep exactly the values with this property. -/
structure Faithful {τ : Type} (encode : τ → Value) (decode : Value → Option τ) (Kept : τ → Prop) :
    Prop where
  /-- What is read from the document of a value is that value, and only kept values are read. -/
  read {x y : τ} : decode (encode x) = some y ↔ Kept x ∧ y = x
  /-- Whatever a document is read as is kept. -/
  kept {v : Value} {x : τ} : decode v = some x → Kept x

variable {τ : Type} {encode : τ → Value} {decode : Value → Option τ} {Kept : τ → Prop}

/-- Where everything is read back, everything is kept. -/
theorem Faithful.of_total (h : ∀ x, decode (encode x) = some x) :
    Faithful encode decode fun _ => True where
  read {x y} := by
    rw [h x, Option.some.injEq, true_and, eq_comm]
  kept _ := trivial

/-! ## Simple data -/

theorem faithful_bool : Faithful (Coded.encode (τ := Bool)) Coded.decode fun _ => True :=
  .of_total fun _ => rfl

theorem faithful_string : Faithful (Coded.encode (τ := String)) Coded.decode fun _ => True :=
  .of_total fun _ => rfl

/-- A reader is exact if it reads every finite number back, bit for bit, from the numeral that
documents have for it, and takes no numeral for a number that is not finite. -/
structure NumberReader.Exact (reader : NumberReader) : Prop where
  readsBack {x : Float} : x.isFinite = true → reader.number? (Layout.scientific.numeral x) = some x
  finite {n : Numeral} {x : Float} : reader.number? n = some x → x.isFinite = true

/-- The reader that takes the nearest number. -/
@[reducible]
def NumberReader.nearest : NumberReader where
  number? := Numeral.nearest?

theorem NumberReader.exact_nearest : NumberReader.nearest.Exact where
  readsBack := Layout.nearest?_numeral _
  finite := Numeral.isFinite_of_nearest?

theorem faithful_float [reader : NumberReader] (hreader : reader.Exact) :
    Faithful (Coded.encode (τ := Float)) Coded.decode fun x => x.isFinite = true where
  read {x y} := by
    show Coded.decode (if x.isFinite then .number (Layout.scientific.numeral x) else .null) = _ ↔ _
    by_cases hx : x.isFinite = true
    · rw [if_pos hx]
      show reader.number? (Layout.scientific.numeral x) = some y ↔ _
      rw [hreader.readsBack hx, Option.some.injEq, eq_comm, and_iff_right hx]
    · rw [if_neg hx]
      exact ⟨fun h => (nomatch h), fun h => absurd h.1 hx⟩
  kept {v x} h := by
    cases v with
    | number n => exact hreader.finite h
    | _ => cases h

theorem faithful_nat (bound : Nat) : Faithful encodeNat (decodeNat bound) (· < bound) where
  read {n m} := by
    have hint : decodeInt (encodeNat n) = some (.ofNat n) := Numeral.toInt?_ofInt n
    simp only [decodeNat, hint]
    split
    · next hn => rw [Option.some.injEq, eq_comm, and_iff_right hn]
    · next hn => exact ⟨fun h => (nomatch h), fun h => absurd h.1 hn⟩
  kept {v n} h := by
    unfold decodeNat at h
    split at h
    · split at h
      · next hn =>
        cases h
        exact hn
      · cases h
    · cases h

/-- Names are told apart by the reader of a list that has them all. -/
theorem faithful_name {all : List τ} {name : τ → String}
    (h : ∀ x, (all.find? fun y => name y == name x) = some x) :
    Faithful (fun x => .text (some (name x))) (decodeName all name) fun _ => True :=
  .of_total h

theorem mapM_map {α β : Type} {f : α → β} {g : β → Option α} (h : ∀ x, g (f x) = some x)
    (xs : List α) : (xs.map f).mapM g = some xs := by
  induction xs with
  | nil => rfl
  | cons x xs ih =>
    rw [List.map_cons, List.mapM_cons, h x, ih]
    rfl

theorem Faithful.list (h : Faithful encode decode Kept) :
    Faithful (fun xs : List τ => .array (xs.map encode))
      (fun
        | .array vs => vs.mapM decode
        | _ => none)
      fun xs => ∀ x ∈ xs, Kept x where
  read {xs ys} := by
    show (xs.map encode).mapM decode = some ys ↔ _
    -- a list is read to its end only if each of its elements is
    induction xs generalizing ys with
    | nil => simp [eq_comm]
    | cons x xs ih =>
      simp only [List.map_cons, List.mapM_cons, Option.bind_eq_bind, Option.bind_eq_some_iff,
        h.read, ih, Option.pure_def, Option.some.injEq, List.forall_mem_cons]
      constructor
      · rintro ⟨_, ⟨hx, rfl⟩, _, ⟨hxs, rfl⟩, rfl⟩
        exact ⟨⟨hx, hxs⟩, rfl⟩
      · rintro ⟨⟨hx, hxs⟩, rfl⟩
        exact ⟨x, ⟨hx, rfl⟩, xs, ⟨hxs, rfl⟩, rfl⟩
  kept {v xs} hv := by
    cases v with
    | array vs =>
      have hvs : vs.mapM decode = some xs := hv
      clear hv
      induction vs generalizing xs with
      | nil =>
        cases hvs
        exact fun x hx => absurd hx List.not_mem_nil
      | cons v vs ih =>
        simp only [List.mapM_cons, Option.bind_eq_bind, Option.bind_eq_some_iff, Option.pure_def,
          Option.some.injEq] at hvs
        obtain ⟨x, hx, xs, hxs, rfl⟩ := hvs
        exact List.forall_mem_cons.mpr ⟨h.kept hx, ih hxs⟩
    | _ => cases hv

/-! ## Records -/

variable {fields : List (String × Value)}

theorem countP_record (n : String) :
    (fields.map fun f => (some f.1, f.2)).countP (fun m => m.1 == some n) =
      (fields.map Prod.fst).count n := by
  rw [List.countP_map, List.count, List.countP_map]
  rfl

theorem lookup_record (n : String) :
    (fields.map fun f => (some f.1, f.2)).lookup (some n) = fields.lookup n := by
  induction fields with
  | nil => rfl
  | cons f fields ih =>
    rw [List.map_cons, List.lookup, List.lookup, ih]
    rfl

/-- The fields of a record are found under their names, if none of them is given twice. -/
theorem slots?_record_eq (names : List String) :
    (Value.record fields).slots? names =
      if ∀ n ∈ names, (fields.map Prod.fst).count n ≤ 1 then
        some (names.map fun n => fields.lookup n)
      else none := by
  have hkeys : (fields.map fun f => (some f.1, f.2)).all (fun m => m.1.isSome) = true := by
    rw [List.all_map, List.all_eq_true]
    exact fun _ _ => rfl
  simp only [Value.record, Value.slots?, hkeys, countP_record, lookup_record, Bool.true_and,
    List.all_eq_true, decide_eq_true_eq]

theorem slots?_record (names : List String) (h : (fields.map Prod.fst).Nodup) :
    (Value.record fields).slots? names = some (names.map fun n => fields.lookup n) := by
  rw [slots?_record_eq, if_pos fun n _ => List.nodup_iff_count_le_one.mp h n]

/-- A record in which a field is given unless a condition holds. -/
theorem slots?_eq_none_iff {n : String} {v : Value} {p : Prop} [Decidable p]
    (h : (fields.map Prod.fst).Nodup) (hlookup : fields.lookup n = if p then none else some v) :
    (Value.record fields).slots? [n] = some [none] ↔ p := by
  rw [slots?_record [n] h, List.map_singleton, hlookup]
  split <;> simp_all

theorem Faithful.required (h : Faithful encode decode Kept) {x y : τ} :
    required decode (some (encode x)) = some y ↔ Kept x ∧ y = x := h.read

theorem Faithful.kept_of_required (h : Faithful encode decode Kept) {slot : Option Value} {x : τ}
    (hx : Json.required decode slot = some x) : Kept x := by
  cases slot with
  | none => cases hx
  | some v => exact h.kept hx

theorem Faithful.optional (h : Faithful encode decode Kept) {default x y : τ} :
    optional default decode (some (encode x)) = some y ↔ Kept x ∧ y = x := h.read

theorem Faithful.kept_of_optional (h : Faithful encode decode Kept) {default : τ}
    (hdefault : Kept default) {slot : Option Value} {x : τ}
    (hx : Json.optional default decode slot = some x) : Kept x := by
  cases slot with
  | none =>
    cases hx
    exact hdefault
  | some v => exact h.kept hx

/-- A field that is left out at its default is kept all the same. -/
theorem Faithful.omitted (h : Faithful encode decode Kept) {default x y : τ}
    (hdefault : Kept default) {p : Prop} [Decidable p] (hp : p → x = default) :
    Json.optional default decode (if p then none else some (encode x)) = some y ↔
      Kept x ∧ y = x := by
  split
  · next hx =>
    rw [hp hx]
    exact ⟨fun hy => ⟨hdefault, (Option.some.inj hy).symm⟩, fun hy => congrArg some hy.2.symm⟩
  · exact h.read

end Json

/-! ## Identifiers -/

namespace Uuid

theorem hexDigit?_digitChar (d : Fin 16) : hexDigit? (Nat.digitChar d.val) = some d := by
  revert d
  decide

theorem ofDigits?_map (u : Uuid) :
    ofDigits? (u.digits.toList.map fun (d : Fin 16) => Nat.digitChar d.val) = some u := by
  rw [ofDigits?, Json.mapM_map hexDigit?_digitChar]
  show (if h : u.digits.toList.length = 32 then _ else none) = _
  rw [dif_pos u.digits.length_toList]
  rfl

/-- Groups are found between the hyphens. -/
theorem ungroup?_append {a b c d e : List Char} (ha : a.length = 8) (hb : b.length = 4)
    (hc : c.length = 4) (hd : d.length = 4) (he : e.length = 12) :
    ungroup? (a ++ '-' :: b ++ '-' :: c ++ '-' :: d ++ '-' :: e) =
      some (a ++ b ++ c ++ d ++ e) := by
  have hlength : (a ++ '-' :: b ++ '-' :: c ++ '-' :: d ++ '-' :: e).length = 36 := by
    simp [ha, hb, hc, hd, he]
  have hhyphens : [8, 13, 18, 23].all
      (fun i => (a ++ '-' :: b ++ '-' :: c ++ '-' :: d ++ '-' :: e)[i]? == some '-') = true := by
    simp [List.getElem?_append, ha, hb, hc, hd, List.getElem?_cons]
  rw [ungroup?, if_pos ⟨hlength, hhyphens⟩]
  simp [List.drop_append, ha, hb, hc, hd, List.drop_of_length_le]

theorem ungroup?_groups {ds : List Char} (h : ds.length = 32) :
    ungroup? (ds.take 8 ++ '-' :: (ds.drop 8).take 4 ++ '-' :: (ds.drop 12).take 4 ++
      '-' :: (ds.drop 16).take 4 ++ '-' :: ds.drop 20) = some ds := by
  have hstep (n : Nat) : ds.take n ++ (ds.drop n).take 4 = ds.take (n + 4) := List.take_add.symm
  rw [ungroup?_append (by simp [h]) (by simp [h]) (by simp [h]) (by simp [h]) (by simp [h]),
    hstep 8, hstep 12, hstep 16, List.take_append_drop]

/-- **An identifier is read back from its text.** -/
theorem ofText?_text (u : Uuid) : ofText? u.text = some u := by
  have hlength : (u.digits.toList.map fun (d : Fin 16) => Nat.digitChar d.val).length = 32 := by
    rw [List.length_map]
    exact u.digits.length_toList
  have hungroup : ungroup? u.chars = some _ := ungroup?_groups hlength
  have hchars : u.chars.length = 36 := by
    simp only [ungroup?] at hungroup
    split at hungroup
    · next h => exact h.1
    · cases hungroup
  have hunwrap : unwrap u.chars = u.chars := by
    rw [unwrap, if_neg (by rw [hchars]; simp), if_neg (by rw [hchars]; simp)]
  simp only [ofText?, text, String.toList_ofList]
  rw [if_neg (by rw [hchars]; decide), hunwrap, hungroup]
  exact u.ofDigits?_map

end Uuid

end TernaryBelief
