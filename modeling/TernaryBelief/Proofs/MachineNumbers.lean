import Mathlib
import TernaryBelief.Binary64

/-!
# The parts of a machine number

A machine number is 64 bits, of which arithmetic sees an unpacked form. Here the two are told in
terms of sign and code: a finite number unpacks to the mantissa and the exponent of its code
(`Binary64.unpack_eq`), the number that is made for a finite code has that code
(`Binary64.code_ofCode`), and a finite number is what its sign and its code say
(`Binary64.ofCode_code`).
-/

namespace TernaryBelief.Binary64

open Float.Model (UnpackedFloat Format)
open Float.Model.UnpackedFloat (Sign unpackMantissa unpackExponent unpackSign packComponents)

/-! ## Fields of a word -/

theorem toNat_unpackMantissa (b : BitVec 64) :
    (@unpackMantissa Format.binary64 b).toNat = b.toNat % 2 ^ 52 := by
  simp only [unpackMantissa, BitVec.toNat_cast, BitVec.extractLsb_toNat, Nat.shiftRight_zero]

theorem toNat_unpackExponent (b : BitVec 64) :
    (@unpackExponent Format.binary64 b).toNat = b.toNat / 2 ^ 52 % 2 ^ 11 := by
  simp only [unpackExponent, BitVec.toNat_cast, BitVec.extractLsb_toNat, Nat.shiftRight_eq_div_pow]

theorem toNat_unpackSign (b : BitVec 64) :
    (@unpackSign Format.binary64 b).toNat = b.toNat / 2 ^ 63 := by
  have hb := b.isLt
  simp only [unpackSign, BitVec.toNat_cast, BitVec.extractLsb_toNat, Nat.shiftRight_eq_div_pow]
  omega

theorem toNat_packComponents (s : Sign) (e : BitVec 11) (m : BitVec 52) :
    (packComponents Format.binary64 s e m).toNat =
      s.toBitVec.toNat * 2 ^ 63 + e.toNat * 2 ^ 52 + m.toNat := by
  have he := e.isLt
  have hm := m.isLt
  simp only [packComponents]
  rw [BitVec.toNat_append, BitVec.toNat_append, ← Nat.shiftLeft_add_eq_or_of_lt he,
    ← Nat.shiftLeft_add_eq_or_of_lt hm, Nat.shiftLeft_eq, Nat.shiftLeft_eq]
  omega

/-! ## Unpacked numbers -/

/-- The sign as arithmetic has it. -/
def signOf (negative : Bool) : Sign := if negative then .negative else .positive

/-- The finite number with a given sign and code, unpacked. -/
def parts (negative : Bool) (c : Nat) : UnpackedFloat :=
  if hc : c = 0 then .zero (signOf negative)
  else .finite (signOf negative) (unpack c).1 (unpack c).2 (unpack_mantissa_pos hc)

theorem isFinite_parts (negative : Bool) (c : Nat) : (parts negative c).isFinite = true := by
  unfold parts
  split <;> rfl

theorem signOf_unpackSign (b : BitVec 64) :
    Sign.ofBitVec (@unpackSign Format.binary64 b) = signOf (decide (2 ^ 63 ≤ b.toNat)) := by
  have hb := b.isLt
  have hsign := toNat_unpackSign b
  unfold Sign.ofBitVec signOf
  by_cases h : 2 ^ 63 ≤ b.toNat
  · have hne : @unpackSign Format.binary64 b ≠ 0#1 := by
      intro hzero
      rw [hzero] at hsign
      simp only [BitVec.toNat_ofNat] at hsign
      omega
    rw [if_neg hne, decide_eq_true h, if_pos rfl]
  · have heq : @unpackSign Format.binary64 b = 0#1 := by
      apply BitVec.eq_of_toNat_eq
      rw [hsign, BitVec.toNat_ofNat]
      omega
    rw [if_pos heq, decide_eq_false h]
    rfl

theorem finite_congr {s s' : Sign} {m m' : Nat} {e e' : Int} {h : 0 < m} {h' : 0 < m'} (hs : s = s')
    (hm : m = m') (he : e = e') : UnpackedFloat.finite s m e h = .finite s' m' e' h' := by
  subst hs hm he
  rfl

theorem eq_iff_toNat {w : Nat} {x y : BitVec w} : x = y ↔ x.toNat = y.toNat :=
  ⟨congrArg BitVec.toNat, BitVec.eq_of_toNat_eq⟩

/-- A word whose code is below infinity unpacks to its parts. -/
theorem unpack_word {b : BitVec 64} (hb : b.toNat % 2 ^ 63 < infinity) :
    UnpackedFloat.unpack Format.binary64 b =
      parts (decide (2 ^ 63 ≤ b.toNat)) (b.toNat % 2 ^ 63) := by
  have hm := toNat_unpackMantissa b
  have he := toNat_unpackExponent b
  have hlt := b.isLt
  simp only [infinity, Nat.pow_eq] at hb
  -- which of the three forms a word has, its exponent field says, and the mantissa field for zero
  have hall : ¬ @unpackExponent Format.binary64 b = -1#11 := by
    rw [eq_iff_toNat, he, show (-1#11 : BitVec 11).toNat = 2047 from rfl]
    omega
  have hzero : @unpackExponent Format.binary64 b = 0#11 ↔ b.toNat % 2 ^ 63 < 2 ^ 52 := by
    rw [eq_iff_toNat, he, show (0#11 : BitVec 11).toNat = 0 from rfl]
    omega
  have hnone : @unpackMantissa Format.binary64 b = 0#52 ↔ b.toNat % 2 ^ 52 = 0 := by
    rw [eq_iff_toNat, hm, show (0#52 : BitVec 52).toNat = 0 from rfl]
  unfold UnpackedFloat.unpack parts
  simp only [hall, if_false, signOf_unpackSign]
  by_cases hsmall : b.toNat % 2 ^ 63 < 2 ^ 52
  · rw [if_pos (hzero.mpr hsmall)]
    by_cases hc : b.toNat % 2 ^ 63 = 0
    · rw [dif_pos (hnone.mpr (by omega)), dif_pos hc]
    · have hunpack := unpack_of_lt hsmall
      rw [dif_neg (fun h => hc (by have := hnone.mp h; omega)), dif_neg hc]
      refine finite_congr rfl ?_ ?_
      · rw [hunpack, hm]
        omega
      · rw [hunpack, hzero.mpr hsmall]
        rfl
  · have hunpack := unpack_of_le (Nat.le_of_not_lt hsmall)
    simp only [Nat.pow_eq] at hunpack
    rw [if_neg (fun h => hsmall (hzero.mp h)), dif_neg (by omega)]
    refine finite_congr rfl ?_ ?_
    · have hbound := (@unpackMantissa Format.binary64 b).isLt
      rw [hunpack, BitVec.toNat_append, ← Nat.shiftLeft_add_eq_or_of_lt hbound, hm]
      show 1 <<< 52 + _ = _
      omega
    · rw [hunpack, he]
      show _ - ((1023 : Int) + 52) = _
      omega

/-- From infinity on, a word is no finite number. -/
theorem isFinite_unpack_word (b : BitVec 64) :
    (UnpackedFloat.unpack Format.binary64 b).isFinite = decide (b.toNat % 2 ^ 63 < infinity) := by
  by_cases hb : b.toNat % 2 ^ 63 < infinity
  · rw [unpack_word hb, isFinite_parts, decide_eq_true hb]
  · have he := toNat_unpackExponent b
    have hlt := b.isLt
    rw [decide_eq_false hb]
    simp only [infinity, Nat.pow_eq] at hb
    have hall : @unpackExponent Format.binary64 b = -1#11 := by
      rw [eq_iff_toNat, he, show (-1#11 : BitVec 11).toNat = 2047 from rfl]
      omega
    unfold UnpackedFloat.unpack
    simp only [hall, if_true]
    split <;> rfl

/-- A finite number is packed into its sign and the code of its mantissa and exponent; if these
are too large, into an infinity. -/
theorem toNat_pack_finite (s : Sign) {m : Nat} {e : Int} (hpos : 0 < m) (hm : m < 2 ^ 53)
    (he : -1074 ≤ e) (hnormal : -1074 < e → 2 ^ 52 ≤ m) :
    (UnpackedFloat.pack Format.binary64 (.finite s m e hpos)).toNat =
      s.toBitVec.toNat * 2 ^ 63 + min (pack m e) infinity := by
  have hbias : e + (Format.binary64.exponentBias : Nat) +
      (Format.binary64.mantissaBitsWithoutImplicit : Nat) = e + 1075 := by
    show e + 1023 + 52 = _
    omega
  simp only [UnpackedFloat.pack, hbias, Format.mantissaBits, pack, infinity, Nat.pow_eq]
  -- from 972 on the exponent field would have to hold 2047, which is that of infinity
  by_cases hlarge : 972 ≤ e
  · rw [if_pos (by show 2 ^ 11 ≤ _; omega), UnpackedFloat.packedInfinity, toNat_packComponents]
    have hle : 2047 * 2 ^ 52 ≤ (e + 1074).toNat * 2 ^ 52 + m := by
      have := hnormal (by omega)
      omega
    have hall : (-1#11 : BitVec 11).toNat = 2047 := rfl
    have hnone : (0 : BitVec 52).toNat = 0 := rfl
    rw [Nat.min_eq_right hle, hall, hnone, Nat.add_zero]
  · have hlt : (e + 1074).toNat * 2 ^ 52 + m ≤ 2047 * 2 ^ 52 := by omega
    rw [if_neg (by show ¬ 2 ^ 11 ≤ _; omega), Nat.min_eq_left hlt]
    by_cases hfull : 2 ^ 52 ≤ m
    · have hlog : m.log2 = 52 := (Nat.log2_eq_iff (by omega)).mpr ⟨hfull, hm⟩
      rw [if_pos (by rw [hlog]), toNat_packComponents, BitVec.toNat_ofNat, BitVec.toNat_ofNat]
      show _ + (e + 1075).toNat % 2 ^ 11 * 2 ^ 52 + m % 2 ^ 52 = _
      omega
    · -- below 53 bits only the least exponent is left
      have hlog : m.log2 < 52 := (Nat.log2_lt (by omega)).mpr (by omega)
      have hleast : e = -1074 := by omega
      rw [if_neg (by omega), toNat_packComponents, BitVec.toNat_ofNat, BitVec.toNat_ofNat]
      show _ + 0 % 2 ^ 11 * 2 ^ 52 + m % 2 ^ 52 = _
      omega

/-- The word that a finite number is packed into. -/
theorem toNat_pack_parts (negative : Bool) {c : Nat} (hc : c < infinity) :
    (UnpackedFloat.pack Format.binary64 (parts negative c)).toNat =
      (if negative then Nat.pow 2 63 else 0) + c := by
  have hsign : (signOf negative).toBitVec.toNat * 2 ^ 63 =
      if negative then Nat.pow 2 63 else 0 := by
    cases negative <;> rfl
  unfold parts
  by_cases hzero : c = 0
  · rw [dif_pos hzero, UnpackedFloat.pack, UnpackedFloat.packedZero, toNat_packComponents, hsign,
      hzero]
    rfl
  · obtain ⟨hm, he, hnormal⟩ := unpack_bounds c
    rw [dif_neg hzero, toNat_pack_finite _ _ hm he hnormal, pack_unpack, hsign,
      Nat.min_eq_left (Nat.le_of_lt hc)]

/-! ## Machine numbers -/

theorem unpack_eq {x : Float} (hx : code x < infinity) :
    x.toModel.unpack = parts (sign x) (code x) := unpack_word hx

/-- A number is finite if its code is below infinity. -/
theorem isFinite_iff {x : Float} : x.isFinite = true ↔ code x < infinity := by
  have hdecide : x.isFinite = decide (code x < infinity) :=
    isFinite_unpack_word x.toModel.toBits.toBitVec
  rw [hdecide, decide_eq_true_eq]

/-- The bits of a sign and a code, as a natural number. -/
def word (negative : Bool) (c : Nat) : Nat := (if negative then Nat.pow 2 63 else 0) + c

theorem word_mod {c : Nat} (negative : Bool) (hc : c < infinity) :
    word negative c % Nat.pow 2 63 = c := by
  simp only [word, infinity, Nat.pow_eq] at *
  split <;> omega

theorem le_word {c : Nat} (negative : Bool) (hc : c < infinity) :
    decide (Nat.pow 2 63 ≤ word negative c) = negative := by
  simp only [word, infinity, Nat.pow_eq] at *
  cases negative <;> simp only [Bool.false_eq_true, if_false, if_true, decide_eq_false_iff_not,
    decide_eq_true_eq] <;> omega

theorem word_sign_code (x : Float) : word (sign x) (code x) = x.toBits.toNat := by
  have hlt := x.toBits.toNat_lt
  simp only [word, sign, code, Nat.pow_eq, decide_eq_true_eq]
  split <;> omega

/-- The number with a given sign and code, which must be finite. -/
theorem toNat_toBits_pack (negative : Bool) {c : Nat} (hc : c < infinity) :
    (Float.ofModel (.pack (parts negative c))).toBits.toNat = word negative c :=
  toNat_pack_parts negative hc

theorem ofCode_eq_pack (negative : Bool) {c : Nat} (hc : c < infinity) :
    ofCode negative c = .ofModel (.pack (parts negative c)) := by
  have hbits : (UInt64.ofNat (word negative c)).toBitVec.toNat = word negative c := by
    show word negative c % 2 ^ 64 = _
    simp only [word, infinity, Nat.pow_eq] at *
    split <;> omega
  have hmod := word_mod negative hc
  have hsign := le_word negative hc
  simp only [Nat.pow_eq] at hmod hsign
  show Float.ofModel (.pack (UnpackedFloat.unpack Format.binary64
    (UInt64.ofNat (word negative c)).toBitVec)) = _
  rw [unpack_word (by rw [hbits, hmod]; exact hc), hbits, hmod, hsign]

theorem code_ofCode (negative : Bool) {c : Nat} (hc : c < infinity) :
    code (ofCode negative c) = c := by
  rw [code, ofCode_eq_pack negative hc, toNat_toBits_pack negative hc, word_mod negative hc]

theorem sign_ofCode (negative : Bool) {c : Nat} (hc : c < infinity) :
    sign (ofCode negative c) = negative := by
  rw [sign, ofCode_eq_pack negative hc, toNat_toBits_pack negative hc, le_word negative hc]

theorem unpack_ofCode (negative : Bool) {c : Nat} (hc : c < infinity) :
    (ofCode negative c).toModel.unpack = parts negative c := by
  have hcode := code_ofCode negative hc
  rw [unpack_eq (by rwa [hcode]), hcode, sign_ofCode negative hc]

theorem isFinite_ofCode (negative : Bool) {c : Nat} (hc : c < infinity) :
    (ofCode negative c).isFinite = true := by
  rwa [isFinite_iff, code_ofCode negative hc]

theorem eq_of_toBits_eq {x y : Float} (h : x.toBits.toNat = y.toBits.toNat) : x = y :=
  Float.toBits_inj.mp (UInt64.toNat_inj.mp h)

/-- **A finite number is what its sign and its code say.** -/
theorem ofCode_code {x : Float} (hx : x.isFinite = true) : ofCode (sign x) (code x) = x := by
  rw [isFinite_iff] at hx
  apply eq_of_toBits_eq
  rw [ofCode_eq_pack _ hx, toNat_toBits_pack _ hx, word_sign_code]

end TernaryBelief.Binary64
