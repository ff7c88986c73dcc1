import Mathlib.Data.List.Chain
import Mathlib.Tactic.SplitIfs
import TernaryBelief.Proofs.NumeralText

/-!
# Texts and tokens read back

A character between quotation marks is written as one piece, which stands for it, so a quoted text
is read back (`Json.scanText_quote`). What is written for a token starts with characters that no
other token starts with, and no space (`Json.lexeme?_chars`). So the tokens of a text are read back,
if after each numeral comes a token that ends it (`Json.tokens_flatMap`).

## Main definitions

* `Json.Piece.StandsFor`: what a piece of a quoted text is joined as;
* `Json.Separated`: token lists in which no numeral runs on.
-/

namespace TernaryBelief.Json

/-! ## Quoted text -/

/-- Joining reads the piece as the character. -/
def Piece.StandsFor (p : Piece) (c : Char) : Prop :=
  ∀ ds ps, join? ds (p :: ps) = join? (c :: ds) ps

theorem standsFor_char (c : Char) : (Piece.char c).StandsFor c := fun _ _ => rfl

theorem hexValue?_digitChar {d : Nat} (hd : d < 16) : hexValue? (Nat.digitChar d) = some d := by
  revert d
  decide

theorem unit?_hex4 {n : Nat} (hn : n < 65536) :
    unit? (Nat.digitChar (n / 4096 % 16)) (Nat.digitChar (n / 256 % 16))
      (Nat.digitChar (n / 16 % 16)) (Nat.digitChar (n % 16)) = some n := by
  simp only [unit?, hexValue?_digitChar (Nat.mod_lt _ (by decide : 0 < 16)), Option.bind_eq_bind,
    Option.bind_some, Option.pure_def, Option.some.injEq]
  omega

theorem standsFor_unit {c : Char} (hc : c < ' ') : (Piece.unit c.toNat).StandsFor c := by
  have hsmall : c.toNat < 32 := hc
  have htrailing : isTrailing c.toNat = false := by
    rw [isTrailing, decide_eq_false (by omega), Bool.false_and]
  have hleading : isLeading c.toNat = false := by
    rw [isLeading, decide_eq_false (by omega), Bool.false_and]
  intro ds ps
  rw [join?.eq_def]
  simp only [htrailing, hleading, Bool.false_eq_true, if_false, Char.ofNat_toNat]

/-- An escaped character is one piece, which stands for it. -/
theorem scanText_escape (c : Char) (done : List Piece) (rest : List Char) :
    ∃ p : Piece, scanText done (escape c ++ rest) = scanText (p :: done) rest ∧ p.StandsFor c := by
  unfold escape
  split_ifs with hquote hback hb hf hn hr ht hcontrol
  · exact ⟨.char c, by rw [hquote]; rfl, standsFor_char c⟩
  · exact ⟨.char c, by rw [hback]; rfl, standsFor_char c⟩
  · exact ⟨.char c, by rw [hb]; rfl, standsFor_char c⟩
  · exact ⟨.char c, by rw [hf]; rfl, standsFor_char c⟩
  · exact ⟨.char c, by rw [hn]; rfl, standsFor_char c⟩
  · exact ⟨.char c, by rw [hr]; rfl, standsFor_char c⟩
  · exact ⟨.char c, by rw [ht]; rfl, standsFor_char c⟩
  · have hsmall : c.toNat < 32 := hcontrol
    refine ⟨.unit c.toNat, ?_, standsFor_unit hcontrol⟩
    simp only [hex4, List.cons_append, List.nil_append, scanText,
      unit?_hex4 (by omega : c.toNat < 65536)]
  · refine ⟨.char c, ?_, standsFor_char c⟩
    simp [scanText, hquote, hback, hcontrol]

/-- The pieces of a quoted text stand for its characters. -/
theorem scanText_quoted (cs : List Char) (done : List Piece) (rest : List Char) :
    ∃ ps : List Piece, scanText done (cs.flatMap escape ++ '"' :: rest) = some (ps ++ done, rest) ∧
      ∀ ds qs, join? ds (ps ++ qs) = join? (cs ++ ds) qs := by
  -- the scanner keeps the last piece first, so the piece of the first character comes last
  induction cs generalizing done with
  | nil => exact ⟨[], by simp [scanText], fun _ _ => rfl⟩
  | cons c cs ih =>
    obtain ⟨p, hscan, hp⟩ := scanText_escape c done (cs.flatMap escape ++ '"' :: rest)
    obtain ⟨ps, hps, hjoin⟩ := ih (p :: done)
    refine ⟨ps ++ [p], ?_, fun ds qs => ?_⟩
    · rw [List.flatMap_cons, List.append_assoc, hscan, hps, List.append_assoc]
      rfl
    · rw [List.append_assoc, List.singleton_append, hjoin, hp]
      rfl

/-- A quoted text is read back. -/
theorem scanText_quote (cs rest : List Char) :
    ∃ ps : List Piece, scanText [] (cs.flatMap escape ++ '"' :: rest) = some (ps, rest) ∧
      join? [] ps = some cs := by
  obtain ⟨ps, hscan, hjoin⟩ := scanText_quoted cs [] rest
  have hjoined := hjoin [] []
  rw [List.append_nil] at hscan hjoined
  rw [List.append_nil] at hjoined
  exact ⟨ps, hscan, hjoined⟩

/-! ## Tokens -/

/-- A character that a numeral may start with. -/
def StartsNumeral (c : Char) : Prop := c = '-' ∨ c.isDigit = true

theorem StartsNumeral.ne {c d : Char} (hc : StartsNumeral c) (hminus : d ≠ '-')
    (hdigit : d.isDigit = false) : c ≠ d := by
  rintro rfl
  rcases hc with h | h
  · exact hminus h
  · rw [hdigit] at h
    exact Bool.false_ne_true h

theorem exists_text_eq_cons (n : Numeral) : ∃ c cs, n.text = c :: cs ∧ StartsNumeral c := by
  obtain ⟨negative, s, p, e⟩ := n
  rw [Numeral.text_eq]
  cases negative with
  | true => exact ⟨'-', _, rfl, .inl rfl⟩
  | false =>
    obtain ⟨c, cs, hwhole, hdigit⟩ := Numeral.exists_whole_eq_cons s p
    rw [hwhole]
    exact ⟨c, _, rfl, .inr hdigit⟩

/-- Such a character starts no other token. -/
theorem StartsNumeral.lexeme? {c : Char} (hc : StartsNumeral c) (cs : List Char) :
    lexeme? (c :: cs) = (number? (c :: cs)).map fun r => (.number r.1, r.2) := by
  unfold Json.lexeme?
  split
  all_goals first
    | rfl
    | (next heq => exact absurd (List.cons.inj heq).1 (hc.ne (by decide) (by decide)))

theorem StartsNumeral.isSpace {c : Char} (hc : StartsNumeral c) : isSpace c = false := by
  have hne (d : Char) (hminus : d ≠ '-') (hdigit : d.isDigit = false) : (c == d) = false :=
    beq_eq_false_iff_ne.mpr (hc.ne hminus hdigit)
  rw [Json.isSpace, hne ' ' (by decide) (by decide), hne '\t' (by decide) (by decide),
    hne '\n' (by decide) (by decide), hne '\r' (by decide) (by decide)]
  rfl

theorem Token.chars_null : Token.null.chars = ['n', 'u', 'l', 'l'] := by decide +kernel

theorem Token.chars_true : (Token.bool true).chars = ['t', 'r', 'u', 'e'] := by decide +kernel

theorem Token.chars_false : (Token.bool false).chars = ['f', 'a', 'l', 's', 'e'] := by
  decide +kernel

theorem Token.chars_unpaired :
    (Token.text none).chars = ['"', '\\', 'u', 'd', '8', '0', '0', '"'] := by decide +kernel

/-- What is written for a token is read as that token, if no numeral runs on. -/
theorem lexeme?_chars (t : Token) {rest : List Char} (h : ∀ n, t = .number n → Delimited rest) :
    lexeme? (t.chars ++ rest) = some (t, rest) := by
  cases t with
  | null =>
    rw [Token.chars_null]
    rfl
  | bool b =>
    cases b with
    | true =>
      rw [Token.chars_true]
      rfl
    | false =>
      rw [Token.chars_false]
      rfl
  | number n =>
    obtain ⟨c, cs, htext, hc⟩ := exists_text_eq_cons n
    have hnumber := number?_text n (h n rfl)
    rw [htext, List.cons_append] at hnumber
    show lexeme? (n.text ++ rest) = _
    rw [htext, List.cons_append, hc.lexeme?, hnumber]
    rfl
  | text s =>
    cases s with
    | none =>
      rw [Token.chars_unpaired]
      rfl
    | some s =>
      obtain ⟨ps, hscan, hjoin⟩ := scanText_quote s.toList rest
      have hquote : quote s.toList ++ rest = '"' :: (s.toList.flatMap escape ++ '"' :: rest) := by
        rw [quote, List.append_assoc]
        rfl
      show lexeme? (quote s.toList ++ rest) = _
      rw [hquote, lexeme?, hscan]
      simp only [Option.map_some, hjoin, String.ofList_toList]
  | openArray => rfl
  | closeArray => rfl
  | openObject => rfl
  | closeObject => rfl
  | comma => rfl
  | colon => rfl

/-- No token starts with a space. -/
theorem exists_chars_eq_cons (t : Token) : ∃ c cs, t.chars = c :: cs ∧ isSpace c = false := by
  cases t with
  | null => exact ⟨_, _, Token.chars_null, rfl⟩
  | bool b =>
    cases b with
    | true => exact ⟨_, _, Token.chars_true, rfl⟩
    | false => exact ⟨_, _, Token.chars_false, rfl⟩
  | number n =>
    obtain ⟨c, cs, htext, hc⟩ := exists_text_eq_cons n
    exact ⟨c, cs, htext, hc.isSpace⟩
  | text s =>
    cases s with
    | none => exact ⟨_, _, Token.chars_unpaired, rfl⟩
    | some s => exact ⟨'"', _, rfl, rfl⟩
  | openArray => exact ⟨'[', [], rfl, rfl⟩
  | closeArray => exact ⟨']', [], rfl, rfl⟩
  | openObject => exact ⟨'{', [], rfl, rfl⟩
  | closeObject => exact ⟨'}', [], rfl, rfl⟩
  | comma => exact ⟨',', [], rfl, rfl⟩
  | colon => exact ⟨':', [], rfl, rfl⟩

theorem tokens_chars (t : Token) {rest : List Char} (h : ∀ n, t = .number n → Delimited rest)
    (done : List Token) : tokens done (t.chars ++ rest) = tokens (t :: done) rest := by
  obtain ⟨c, cs, hchars, hspace⟩ := exists_chars_eq_cons t
  have hlexeme := lexeme?_chars t h
  rw [hchars, List.cons_append] at hlexeme
  rw [hchars, List.cons_append, tokens, hspace, if_neg Bool.false_ne_true]
  split
  · next heq =>
    rw [hlexeme] at heq
    cases heq
    rfl
  · next heq =>
    rw [hlexeme] at heq
    cases heq

/-- The token ends a numeral before it. -/
def Token.ends : Token → Bool
  | comma => true
  | closeArray => true
  | closeObject => true
  | _ => false

/-- Every numeral is the last token, or a token follows that ends it. -/
def Separated (ts : List Token) : Prop :=
  ts.IsChain fun t u => (∃ n, t = .number n) → u.ends = true

theorem Token.delimited_of_ends {t : Token} (h : t.ends = true) (cs : List Char) :
    Delimited (t.chars ++ cs) := by
  cases t with
  | comma => exact fun c hc => .inl (Option.some.inj hc).symm
  | closeArray => exact fun c hc => .inr (.inl (Option.some.inj hc).symm)
  | closeObject => exact fun c hc => .inr (.inr (Option.some.inj hc).symm)
  | _ => exact absurd h Bool.false_ne_true

/-- Separated tokens are read back. -/
theorem tokens_flatMap {ts : List Token} (h : Separated ts) (done : List Token) :
    tokens done (ts.flatMap Token.chars) = some (done.reverse ++ ts) := by
  induction ts generalizing done with
  | nil =>
    rw [List.flatMap_nil, tokens, List.append_nil]
  | cons t ts ih =>
    have hrest : ∀ n, t = .number n → Delimited (ts.flatMap Token.chars) := by
      rintro n rfl
      cases ts with
      | nil => exact fun c hc => absurd hc (Option.not_mem_none c)
      | cons u us =>
        have hu := (List.isChain_cons_cons.mp h).1 ⟨n, rfl⟩
        rw [List.flatMap_cons]
        exact u.delimited_of_ends hu _
    rw [List.flatMap_cons, tokens_chars t hrest, ih h.tail, List.reverse_cons, List.append_assoc]
    rfl

end TernaryBelief.Json
