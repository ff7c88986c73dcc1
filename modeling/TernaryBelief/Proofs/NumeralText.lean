import Mathlib.Data.List.Basic
import TernaryBelief.Json.Token

/-!
# Numerals read back

The text of a numeral has its digits before the point, where the first is a zero only if it is the
only one, then perhaps a point with digits, and perhaps an exponent with its sign. Each part is read
up to a character that cannot belong to it, so a numeral that is followed by the end of the text, by
a comma or by a closing bracket is read back as it was (`Json.number?_text`).

## Main definitions

* `Json.Delimited`: what may follow a numeral.
-/

namespace TernaryBelief

/-! ## Digits of a numeral -/

namespace Numeral

variable (s p : Nat)

theorem length_padded : (padded s p).length = max (p + 1) (Nat.toDigits 10 s).length := by
  rw [padded, List.length_append, List.length_replicate]
  omega

theorem whole_append_fraction : whole s p ++ fraction s p = padded s p :=
  List.take_append_drop _ _

theorem length_whole : (whole s p).length = max 1 ((Nat.toDigits 10 s).length - p) := by
  rw [whole, List.length_take, length_padded]
  omega

theorem length_fraction : (fraction s p).length = p := by
  rw [fraction, List.length_drop, length_padded]
  omega

theorem isDigit_padded : ∀ c ∈ padded s p, c.isDigit = true := by
  intro c hc
  rcases List.mem_append.mp hc with hc | hc
  · rw [List.eq_of_mem_replicate hc]
    rfl
  · exact Nat.isDigit_of_mem_toDigits (by decide) (by decide) hc

theorem isDigit_whole : ∀ c ∈ whole s p, c.isDigit = true :=
  fun c hc => isDigit_padded s p c (List.mem_of_mem_take hc)

theorem isDigit_fraction : ∀ c ∈ fraction s p, c.isDigit = true :=
  fun c hc => isDigit_padded s p c (List.mem_of_mem_drop hc)

theorem ofDigitChars_whole_append_fraction :
    Nat.ofDigitChars 10 (whole s p ++ fraction s p) 0 = s := by
  rw [whole_append_fraction, padded, Nat.ofDigitChars_append, Nat.ofDigitChars_replicate_zero,
    Nat.mul_zero, Nat.ofDigitChars_ten_toDigits]

/-- A number that is not zero starts with another digit. -/
theorem head?_toDigits {n : Nat} (hn : 0 < n) : (Nat.toDigits 10 n).head? ≠ some '0' := by
  induction n using Nat.strongRecOn with
  | ind n ih =>
    rcases Nat.lt_or_ge n 10 with hlt | hge
    · rw [Nat.toDigits_of_lt_base hlt, List.head?_cons, ne_eq, Option.some.injEq,
        Nat.digitChar_eq_zero]
      exact Nat.ne_of_gt hn
    · rw [Nat.toDigits_of_base_le (by decide) hge,
        List.head?_append_of_ne_nil _ Nat.toDigits_ne_nil]
      exact ih (n / 10) (by omega) (by omega)

/-- The digits before the point start with a zero only if it is the only one. -/
theorem whole_canonical :
    ¬ (whole s p = [] ∨ ((whole s p).head? = some '0' ∧ (whole s p).length ≠ 1)) := by
  have hlength := length_whole s p
  rintro (hnil | ⟨hzero, hlong⟩)
  · rw [hnil, List.length_nil] at hlength
    omega
  · -- more than one digit before the point leaves no room for zeros in front
    have hpadding : p + 1 - (Nat.toDigits 10 s).length = 0 := by omega
    have hpos : 0 < s := by
      rcases Nat.eq_zero_or_pos s with rfl | hpos
      · rw [Nat.toDigits_zero, List.length_singleton] at hlength
        omega
      · exact hpos
    have hpadded : padded s p = Nat.toDigits 10 s := by
      rw [padded, hpadding]
      rfl
    rw [whole, hpadded, List.head?_take] at hzero
    split at hzero
    · exact absurd hzero (by decide)
    · exact head?_toDigits hpos hzero

theorem digits_eq :
    digits s p = whole s p ++ if p = 0 then [] else '.' :: fraction s p := by
  rw [digits]
  split
  · next hzero =>
    have hnil : fraction s p = [] := List.eq_nil_of_length_eq_zero (by rw [length_fraction, hzero])
    rw [← whole_append_fraction, hnil]
  · rfl

/-- The parts of a numeral's text. -/
theorem text_eq (negative : Bool) (e : Option Int) :
    text ⟨negative, s, p, e⟩ = (if negative then ['-'] else []) ++ (whole s p ++
      ((if p = 0 then [] else '.' :: fraction s p) ++ exponentText e)) := by
  simp only [text, digits_eq, List.append_assoc]

theorem exists_whole_eq_cons : ∃ c cs, whole s p = c :: cs ∧ c.isDigit = true := by
  have hlength := length_whole s p
  have hdigit := isDigit_whole s p
  cases hwhole : whole s p with
  | nil =>
    rw [hwhole, List.length_nil] at hlength
    omega
  | cons c cs => exact ⟨c, cs, rfl, hdigit c (hwhole ▸ List.mem_cons_self)⟩

end Numeral

/-! ## Parts of a text -/

namespace Json

/-- What may follow a numeral in a document: nothing, a comma or a closing bracket. -/
def Delimited (rest : List Char) : Prop := ∀ c ∈ rest.head?, c = ',' ∨ c = ']' ∨ c = '}'

variable {rest : List Char}

theorem digits_append {ds : List Char} (hds : ∀ c ∈ ds, c.isDigit = true)
    (hrest : ∀ c ∈ rest.head?, c.isDigit = false) : digits (ds ++ rest) = (ds, rest) := by
  have hstop : rest.takeWhile Char.isDigit = [] ∧ rest.dropWhile Char.isDigit = rest := by
    cases rest with
    | nil => exact ⟨rfl, rfl⟩
    | cons c rest =>
      have hc := hrest c rfl
      exact ⟨List.takeWhile_cons_of_neg (by rw [hc]; decide),
        List.dropWhile_cons_of_neg (by rw [hc]; decide)⟩
  rw [digits, List.takeWhile_append_of_pos hds, List.dropWhile_append_of_pos hds, hstop.1, hstop.2,
    List.append_nil]

theorem Delimited.isDigit (h : Delimited rest) : ∀ c ∈ rest.head?, c.isDigit = false := by
  intro c hc
  rcases h c hc with rfl | rfl | rfl <;> rfl

/-- The first character of an exponent, or of what follows it. -/
theorem head?_exponentText (h : Delimited rest) (e : Option Int) :
    ∀ c ∈ (Numeral.exponentText e ++ rest).head?, c = 'e' ∨ c = ',' ∨ c = ']' ∨ c = '}' := by
  intro c hc
  match e with
  | none => exact .inr (h c hc)
  | some (.ofNat n) => exact .inl (Option.some.inj hc).symm
  | some (.negSucc n) => exact .inl (Option.some.inj hc).symm

theorem fraction?_append (h : Delimited rest) (s p : Nat) (e : Option Int) :
    fraction? ((if p = 0 then [] else '.' :: Numeral.fraction s p) ++
        (Numeral.exponentText e ++ rest)) =
      some (Numeral.fraction s p, Numeral.exponentText e ++ rest) := by
  have hhead := head?_exponentText h e
  split
  · next hzero =>
    have hnil : Numeral.fraction s p = [] :=
      List.eq_nil_of_length_eq_zero (by rw [Numeral.length_fraction, hzero])
    rw [hnil, List.nil_append]
    generalize Numeral.exponentText e ++ rest = cs at hhead
    unfold fraction?
    split
    · exact absurd (hhead '.' rfl) (by decide)
    · rfl
  · next hpos =>
    have hend : ∀ c ∈ (Numeral.exponentText e ++ rest).head?, c.isDigit = false := by
      intro c hc
      rcases hhead c hc with rfl | rfl | rfl | rfl <;> rfl
    have hdigits := digits_append (Numeral.isDigit_fraction s p) hend
    have hne : Numeral.fraction s p ≠ [] := by
      intro hnil
      have hlength := Numeral.length_fraction s p
      rw [hnil] at hlength
      exact hpos hlength.symm
    rw [List.cons_append, fraction?, hdigits, if_neg hne]

theorem exponent?_append (h : Delimited rest) (e : Option Int) :
    exponent? (Numeral.exponentText e ++ rest) = some (e, rest) := by
  have hdigits (n : Nat) : digits (Nat.toDigits 10 n ++ rest) = (Nat.toDigits 10 n, rest) :=
    digits_append (fun c hc => Nat.isDigit_of_mem_toDigits (by decide) (by decide) hc) h.isDigit
  match e with
  | none =>
    have hmark : ¬ (rest.head? = some 'e' ∨ rest.head? = some 'E') := by
      rintro (he | he) <;> exact absurd (h _ he) (by decide)
    exact if_neg hmark
  | some (.ofNat n) =>
    simp only [Numeral.exponentText, List.cons_append, exponent?, List.head?_cons, List.tail_cons,
      true_or, if_true, sign, hdigits, Nat.toDigits_ne_nil, if_false, Nat.ofDigitChars_ten_toDigits,
      Bool.false_eq_true]
    rfl
  | some (.negSucc n) =>
    simp only [Numeral.exponentText, List.cons_append, exponent?, List.head?_cons, List.tail_cons,
      true_or, if_true, sign, hdigits, Nat.toDigits_ne_nil, if_false, Nat.ofDigitChars_ten_toDigits]
    rfl

/-- A text without a sign in front has none taken away. -/
theorem minus_append (s p : Nat) (negative : Bool) (cs : List Char) :
    minus ((if negative then ['-'] else []) ++ (Numeral.whole s p ++ cs)) =
      (negative, Numeral.whole s p ++ cs) := by
  cases negative with
  | true => rfl
  | false =>
    obtain ⟨c, ds, hwhole, hdigit⟩ := Numeral.exists_whole_eq_cons s p
    show minus (Numeral.whole s p ++ cs) = _
    rw [hwhole, List.cons_append]
    unfold minus
    split
    · next heq =>
      rw [(List.cons.inj heq).1] at hdigit
      exact absurd hdigit (by decide)
    · rfl

/-- **The text of a numeral is read back.** -/
theorem number?_text (n : Numeral) (h : Delimited rest) :
    number? (n.text ++ rest) = some (n, rest) := by
  obtain ⟨negative, s, p, e⟩ := n
  have hpoint : ∀ c ∈ ((if p = 0 then [] else '.' :: Numeral.fraction s p) ++
      (Numeral.exponentText e ++ rest)).head?, c.isDigit = false := by
    split
    · intro c hc
      rcases head?_exponentText h e c hc with rfl | rfl | rfl | rfl <;> rfl
    · rintro c ⟨⟩
      rfl
  rw [Numeral.text_eq, List.append_assoc, List.append_assoc, List.append_assoc, number?,
    minus_append]
  simp only [digits_append (Numeral.isDigit_whole s p) hpoint, Numeral.whole_canonical, if_false,
    fraction?_append h, exponent?_append h, Option.bind_eq_bind, Option.bind_some,
    Numeral.ofDigitChars_whole_append_fraction, Numeral.length_fraction]

end Json

end TernaryBelief
