import Mathlib.Data.List.DropRight
import Mathlib.Data.List.Forall2
import TernaryBelief.Connective

/-!
# How a connective may be spelled

A text names a connective if it is the tag of that connective up to the case of ASCII letters, with
blanks around it. There is no other way: no blank inside, no letter beyond ASCII whose capital is an
ASCII letter, nothing missing and nothing added. What names no connective is refused as it was given
(`Connective.settledBySpelling`).

## Main definitions

* `Text.SameLetter`: two characters are equal up to the case of an ASCII letter;
* `Connective.SpelledBy`: the text spells the connective;
* `Connective.SettledBySpelling`: what a text is read as is settled by what it spells.
-/

namespace TernaryBelief

namespace Text

/-! ## Blanks around a text -/

def Blank (cs : List Char) : Prop := ∀ c ∈ cs, isBlank c = true

/-- The characters of a text that are no blanks. -/
def solid (cs : List Char) : List Char := cs.filter fun c => !isBlank c

theorem solid_append (cs ds : List Char) : solid (cs ++ ds) = solid cs ++ solid ds :=
  List.filter_append cs ds

theorem solid_eq_nil_iff {cs : List Char} : solid cs = [] ↔ Blank cs := by
  simp [solid, Blank, List.filter_eq_nil_iff]

theorem solid_eq_self {cs : List Char} (h : ∀ c ∈ cs, isBlank c = false) : solid cs = cs :=
  List.filter_eq_self.mpr fun c hc => by rw [h c hc]; rfl

theorem trim_eq (cs : List Char) : trim cs = (cs.dropWhile isBlank).rdropWhile isBlank := rfl

/-- What is trimmed off a text are blanks at its ends. -/
theorem exists_eq_trim (cs : List Char) : ∃ l r, cs = l ++ trim cs ++ r ∧ Blank l ∧ Blank r := by
  refine ⟨cs.takeWhile isBlank, (cs.dropWhile isBlank).rtakeWhile isBlank, ?eq, ?left, ?right⟩
  case eq =>
    calc cs
      _ = cs.takeWhile isBlank ++ cs.dropWhile isBlank := List.takeWhile_append_dropWhile.symm
      _ = cs.takeWhile isBlank ++
          (trim cs ++ (cs.dropWhile isBlank).rtakeWhile isBlank) := by
        rw [trim_eq, List.rdropWhile_append_rtakeWhile]
      _ = _ := (List.append_assoc ..).symm
  case left => exact fun c hc => List.mem_takeWhile_imp hc
  case right => exact fun c hc => List.mem_rtakeWhile_imp hc

/-- Blanks at the ends are all trimmed off, however many there are and
also if there is nothing else. -/
theorem trim_pad {l r : List Char} (hl : Blank l) (hr : Blank r) (cs : List Char) :
    trim (l ++ cs ++ r) = trim cs := by
  have hback (ds : List Char) : (ds ++ r).rdropWhile isBlank = ds.rdropWhile isBlank := by
    rw [List.rdropWhile, List.reverse_append,
      List.dropWhile_append_of_pos fun c hc => hr c (List.mem_reverse.mp hc), List.rdropWhile]
  rw [trim_eq, trim_eq, List.append_assoc, List.dropWhile_append_of_pos hl, List.dropWhile_append]
  split
  case isTrue hnil =>
    rw [List.dropWhile_eq_nil_iff.mpr hr, List.isEmpty_iff.mp hnil]
  case isFalse => exact hback _

theorem trim_eq_self {cs : List Char} (h : ∀ c ∈ cs, isBlank c = false) : trim cs = cs := by
  have hfront : cs.dropWhile isBlank = cs := List.dropWhile_eq_self_iff.mpr fun hpos => by
    simp [h _ (List.getElem_mem hpos)]
  rw [trim_eq, hfront]
  exact List.rdropWhile_eq_self_iff.mpr fun hne => by simp [h _ (List.getLast_mem hne)]

/-! ## The case of a letter -/

/-- The characters are equal up to the case of an ASCII letter: they are the same, or
one is the capital of the other. -/
def SameLetter (c d : Char) : Prop :=
  c = d ∨ ∃ i < 26, (c.toNat = 97 + i ∧ d.toNat = 65 + i) ∨ (c.toNat = 65 + i ∧ d.toNat = 97 + i)

theorem toNat_toUpper (c : Char) :
    c.toUpper.toNat = if 97 ≤ c.toNat ∧ c.toNat ≤ 122 then c.toNat - 32 else c.toNat := by
  have hlower : (c.val ≥ 'a'.val ∧ c.val ≤ 'z'.val) ↔ 97 ≤ c.toNat ∧ c.toNat ≤ 122 := by
    simp only [UInt32.le_iff_toNat_le, ge_iff_le]
    rfl
  delta Char.toUpper
  split
  case isTrue h =>
    -- the distance to the capital is added as a word, and the sum wraps around
    have hval : (c.val + ('A'.val - 'a'.val)).toNat = (c.toNat + (2 ^ 32 - 32)) % 2 ^ 32 :=
      UInt32.toNat_add _ _
    have hrange := hlower.mp h
    rw [if_pos hrange]
    show (c.val + ('A'.val - 'a'.val)).toNat = _
    rw [hval]
    omega
  case isFalse h => rw [if_neg (mt hlower.mpr h)]

theorem sameLetter_iff {c d : Char} : SameLetter c d ↔ c.toUpper = d.toUpper := by
  rw [← Char.toNat_inj, toNat_toUpper, toNat_toUpper, SameLetter, ← Char.toNat_inj]
  constructor
  · rintro (h | ⟨i, hi, h | h⟩)
    · rw [h]
    · rw [if_pos (by omega), if_neg (by omega)]
      omega
    · rw [if_neg (by omega), if_pos (by omega)]
      omega
  · intro h
    by_cases hcd : c.toNat = d.toNat
    · exact .inl hcd
    · split at h <;> split at h
      · omega
      · exact .inr ⟨c.toNat - 97, by omega⟩
      · exact .inr ⟨c.toNat - 65, by omega⟩
      · omega

theorem isBlank_toUpper (c : Char) : isBlank c.toUpper = isBlank c := by
  simp only [isBlank, blankRanges, List.any_cons, List.any_nil, toNat_toUpper]
  split
  · -- neither the letter nor its capital lies in one of the ranges
    grind
  · rfl

theorem forall₂_sameLetter_iff {cs ds : List Char} :
    List.Forall₂ SameLetter cs ds ↔ cs.map Char.toUpper = ds.map Char.toUpper := by
  simp only [← List.forall₂_eq_eq_eq, List.forall₂_map_left_iff, List.forall₂_map_right_iff]
  exact ⟨fun h => h.imp fun _ _ => sameLetter_iff.mp, fun h => h.imp fun _ _ => sameLetter_iff.mpr⟩

theorem trim_map_toUpper (cs : List Char) :
    trim (cs.map Char.toUpper) = (trim cs).map Char.toUpper := by
  have hblank : isBlank ∘ Char.toUpper = isBlank := funext isBlank_toUpper
  simp only [trim, List.dropWhile_map, hblank, ← List.map_reverse]

/-- What begins with a character that is no blank does not begin in the blanks in front. -/
theorem sublist_of_blank_append {x : Char} {xs l m : List Char} (hx : isBlank x = false)
    (hl : Blank l)
    (h : (x :: xs).Sublist (l ++ m)) : (x :: xs).Sublist m := by
  induction l with
  | nil => exact h
  | cons b l ih =>
    obtain ⟨hb, hl⟩ := List.forall_mem_cons.mp hl
    have hne : x ≠ b := fun heq => by rw [heq, hb] at hx; cases hx
    exact ih hl (h.of_cons_of_ne hne)

end Text

namespace Connective

/-! ## Spellings -/

/-- The text is the tag of the connective up to the case of ASCII letters, with blanks around it. -/
def SpelledBy (op : Connective) (s : String) : Prop :=
  ∃ l m r, s.toList = l ++ m ++ r ∧ Text.Blank l ∧ Text.Blank r ∧
    List.Forall₂ Text.SameLetter m op.tag.toList

theorem map_toUpper_tag (op : Connective) : op.tag.toList.map Char.toUpper = op.tag.toList := by
  cases op <;> decide

theorem isBlank_tag (op : Connective) : ∀ c ∈ op.tag.toList, Text.isBlank c = false := by
  cases op <;> simp [tag, Text.isBlank, Text.blankRanges]

theorem toNat_tag_lt (op : Connective) : ∀ c ∈ op.tag.toList, c.toNat < 128 := by
  cases op <;> simp [tag]

theorem sameLetter_tag_iff {op : Connective} {m : List Char} :
    List.Forall₂ Text.SameLetter m op.tag.toList ↔ m.map Char.toUpper = op.tag.toList := by
  rw [Text.forall₂_sameLetter_iff, map_toUpper_tag]

theorem isBlank_of_sameLetter_tag {op : Connective} {m : List Char}
    (h : List.Forall₂ Text.SameLetter m op.tag.toList) : ∀ c ∈ m, Text.isBlank c = false := by
  intro c hc
  rw [← Text.isBlank_toUpper]
  exact op.isBlank_tag _ (sameLetter_tag_iff.mp h ▸ List.mem_map_of_mem hc)

/-- No tag stands inside another one. -/
theorem eq_of_tag_infix {op op' : Connective} (h : op.tag.toList <:+: op'.tag.toList) :
    op = op' := by
  cases op <;> cases op' <;> simp [tag, List.infix_cons_iff] at h ⊢

theorem ofTag?_eq_some_iff {s : String} {op : Connective} :
    ofTag? s = some op ↔ (Text.trim s.toList).map Char.toUpper = op.tag.toList := by
  constructor
  · intro h
    have hop := List.find?_some h
    exact (beq_iff_eq.mp hop).symm
  · intro h
    rw [ofTag?, h]
    cases op <;> decide

/-- A text is read as the connective that it spells. -/
theorem ofTag?_iff_spelledBy {s : String} {op : Connective} :
    ofTag? s = some op ↔ op.SpelledBy s := by
  rw [ofTag?_eq_some_iff]
  constructor
  · intro h
    obtain ⟨l, r, hs, hl, hr⟩ := Text.exists_eq_trim s.toList
    exact ⟨l, Text.trim s.toList, r, hs, hl, hr, sameLetter_tag_iff.mpr h⟩
  · rintro ⟨l, m, r, hs, hl, hr, hm⟩
    rw [hs, Text.trim_pad hl hr, Text.trim_eq_self (isBlank_of_sameLetter_tag hm),
      sameLetter_tag_iff.mp hm]

/-- A dotless i is no letter of a tag, though its capital is. -/
example : ofTag? "\t iMplies\u2028" = some implies ∧ ofTag? "\u0131mplies" = none ∧
    ofTag? "o r" = none := by
  decide +kernel

theorem ofTag_eq_ok_iff {s : String} {op : Connective} : ofTag s = .ok op ↔ op.SpelledBy s := by
  rw [← ofTag?_iff_spelledBy, ofTag]
  cases ofTag? s <;> simp

theorem ofTag_eq_error_iff {s : String} {reason : Rejection} :
    ofTag s = .error reason ↔
      reason = .unknownOperator s ∧ ∀ op : Connective, ¬ op.SpelledBy s := by
  simp only [← ofTag?_iff_spelledBy, ofTag]
  cases ofTag? s <;> simp [eq_comm]

theorem ofTag_eq_error {s : String} (h : ∀ op : Connective, ¬ op.SpelledBy s) :
    ofTag s = .error (.unknownOperator s) :=
  ofTag_eq_error_iff.mpr ⟨rfl, h⟩

namespace SpelledBy

variable {op op' : Connective} {s : String}

theorem unique (h : op.SpelledBy s) (h' : op'.SpelledBy s) : op = op' :=
  Option.some.inj ((ofTag?_iff_spelledBy.mpr h).symm.trans (ofTag?_iff_spelledBy.mpr h'))

/-- The characters that are no blanks make up the tag. -/
theorem solid_eq (h : op.SpelledBy s) : (Text.solid s.toList).map Char.toUpper = op.tag.toList := by
  obtain ⟨l, m, r, hs, hl, hr, hm⟩ := h
  rw [hs, Text.solid_append, Text.solid_append, Text.solid_eq_nil_iff.mpr hl,
    Text.solid_eq_nil_iff.mpr hr, List.nil_append, List.append_nil,
    Text.solid_eq_self (isBlank_of_sameLetter_tag hm), sameLetter_tag_iff.mp hm]

/-- Blanks around a text do not change what it spells. -/
theorem pad_iff {l r : List Char} {t : String} (hl : Text.Blank l) (hr : Text.Blank r)
    (ht : t.toList = l ++ s.toList ++ r) : op.SpelledBy t ↔ op.SpelledBy s := by
  rw [← ofTag?_iff_spelledBy, ← ofTag?_iff_spelledBy, ofTag?_eq_some_iff, ofTag?_eq_some_iff, ht,
    Text.trim_pad hl hr]

/-- The case of the letters does not change what a text spells. -/
theorem recase_iff {t : String} (h : List.Forall₂ Text.SameLetter t.toList s.toList) :
    op.SpelledBy t ↔ op.SpelledBy s := by
  rw [← ofTag?_iff_spelledBy, ← ofTag?_iff_spelledBy, ofTag?_eq_some_iff, ofTag?_eq_some_iff,
    ← Text.trim_map_toUpper, ← Text.trim_map_toUpper, Text.forall₂_sameLetter_iff.mp h]

theorem not_blank (hs : Text.Blank s.toList) : ¬ op.SpelledBy s := by
  intro h
  have htag := h.solid_eq
  rw [Text.solid_eq_nil_iff.mpr hs] at htag
  cases op <;> cases htag

/-- A blank that follows and precedes characters that are none stands in no spelling. -/
theorem not_parted {x b y : Char} (hx : Text.isBlank x = false) (hb : Text.isBlank b = true)
    (hy : Text.isBlank y = false) (hs : [x, b, y].Sublist s.toList) : ¬ op.SpelledBy s := by
  rintro ⟨l, m, r, hlmr, hl, hr, hm⟩
  rw [hlmr, List.append_assoc] at hs
  -- all three stand in the middle: `x` is not in front of it, and `y` is not behind it
  have hmr : [x, b, y].Sublist (m ++ r) := Text.sublist_of_blank_append hx hl hs
  have hrm : [y, b, x].Sublist (r.reverse ++ m.reverse) := by
    rw [← List.reverse_append]
    exact hmr.reverse
  have hrev : [y, b, x].Sublist m.reverse :=
    Text.sublist_of_blank_append hy (fun c hc => hr c (List.mem_reverse.mp hc)) hrm
  have hmem : b ∈ m := List.mem_reverse.mp (hrev.subset (by simp))
  rw [isBlank_of_sameLetter_tag hm b hmem] at hb
  cases hb

/-- A character beyond ASCII that is no blank stands in no spelling. -/
theorem not_foreign {c : Char} (hc : c ∈ s.toList) (hblank : Text.isBlank c = false)
    (hcode : 128 ≤ c.toNat) : ¬ op.SpelledBy s := by
  intro h
  have hsolid : c ∈ Text.solid s.toList := List.mem_filter.mpr ⟨hc, by rw [hblank]; rfl⟩
  have htag : c.toUpper ∈ op.tag.toList := h.solid_eq ▸ List.mem_map_of_mem hsolid
  have hupper : c.toUpper.toNat = c.toNat := by
    rw [Text.toNat_toUpper, if_neg (by omega)]
  have hlow := op.toNat_tag_lt _ htag
  omega

/-- Nothing but blanks can be added around a spelling. -/
theorem not_extended {l r : List Char} {t : String} (h : op.SpelledBy s)
    (hlr : ¬ Text.Blank (l ++ r))
    (ht : t.toList = l ++ s.toList ++ r) : ¬ op'.SpelledBy t := by
  intro h'
  have hsolid := h'.solid_eq
  rw [ht, Text.solid_append, Text.solid_append, List.map_append, List.map_append,
    h.solid_eq] at hsolid
  -- the one tag stands inside the other, so it is the same and leaves room for blanks only
  obtain rfl : op = op' := eq_of_tag_infix ⟨_, _, hsolid⟩
  have hlength := congrArg List.length hsolid
  simp only [List.length_append, List.length_map] at hlength
  have hnil : Text.solid (l ++ r) = [] := by
    rw [Text.solid_append, ← List.length_eq_zero_iff, List.length_append]
    omega
  exact hlr (Text.solid_eq_nil_iff.mp hnil)

end SpelledBy

/-- What a text is read as is settled by what it spells. -/
structure SettledBySpelling (s : String) : Prop where
  accepted (op : Connective) : ofTag s = .ok op ↔ op.SpelledBy s
  unique (op op' : Connective) : op.SpelledBy s → op'.SpelledBy s → op = op'
  /-- A text that spells none is refused, with its blanks and letters as they are. -/
  refused (reason : Rejection) :
    ofTag s = .error reason ↔ reason = .unknownOperator s ∧ ∀ op : Connective, ¬ op.SpelledBy s
  tag (op : Connective) : s = op.tag → ofTag s = .ok op
  padded (l r : List Char) (t : String) :
    Text.Blank l → Text.Blank r → t.toList = l ++ s.toList ++ r →
    ∀ op, ofTag t = .ok op ↔ ofTag s = .ok op
  recased (t : String) : List.Forall₂ Text.SameLetter t.toList s.toList → ∀ op,
    ofTag t = .ok op ↔ ofTag s = .ok op
  blank : Text.Blank s.toList → ofTag s = .error (.unknownOperator s)
  /-- There is no blank inside a spelling. -/
  parted (x b y : Char) : Text.isBlank x = false → Text.isBlank b = true → Text.isBlank y = false →
    [x, b, y].Sublist s.toList → ofTag s = .error (.unknownOperator s)
  /-- No letter beyond ASCII stands for one of ASCII. -/
  foreign (c : Char) : c ∈ s.toList → Text.isBlank c = false → 128 ≤ c.toNat →
    ofTag s = .error (.unknownOperator s)
  /-- A spelling with more than blanks added around it spells nothing. -/
  extended (op : Connective) (l r : List Char) (t : String) :
    op.SpelledBy s → ¬ Text.Blank (l ++ r) →
    t.toList = l ++ s.toList ++ r → ofTag t = .error (.unknownOperator t)

/-- **A text names a connective exactly if it is the tag up to case, with blanks around it.** -/
theorem settledBySpelling (s : String) : SettledBySpelling s where
  accepted _ := ofTag_eq_ok_iff
  unique _ _ h h' := h.unique h'
  refused _ := ofTag_eq_error_iff
  tag op := by
    rintro rfl
    exact ofTag_eq_ok_iff.mpr (ofTag?_iff_spelledBy.mp op.ofTag?_tag)
  padded l r t hl hr ht op := by
    rw [ofTag_eq_ok_iff, ofTag_eq_ok_iff, SpelledBy.pad_iff hl hr ht]
  recased t ht op := by
    rw [ofTag_eq_ok_iff, ofTag_eq_ok_iff, SpelledBy.recase_iff ht]
  blank hs := ofTag_eq_error fun _ => SpelledBy.not_blank hs
  parted x b y hx hb hy hs := ofTag_eq_error fun _ => SpelledBy.not_parted hx hb hy hs
  foreign c hc hblank hcode := ofTag_eq_error fun _ => SpelledBy.not_foreign hc hblank hcode
  extended _ _ _ _ h hlr ht := ofTag_eq_error fun _ => SpelledBy.not_extended h hlr ht

end Connective

end TernaryBelief
