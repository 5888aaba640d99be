import Mathlib
import Rover.Numeric.Binary

/-!
# Doubles and their parts

Everything the proofs know about the doubles of Lean: a double is determined by its parts, which parts a double can
have, and how the parts stand for the unpacked form in which Lean's own model computes. Arithmetic and comparison of
doubles are opened through `unpack_toModel` and closed through `parts_packed`; no proof elsewhere looks at the bits of a
word.
-/

namespace Rover

open Float.Model (UnpackedFloat)
open Float.Model.UnpackedFloat
open Float.Model.Format (binary64)

def signOf (neg : Bool) : Sign := if neg then .negative else .positive

namespace Parts

/-- The unpacked form of the same number. -/
def unpacked : Parts → UnpackedFloat
  | nan => .notANumber
  | infinite neg => .infinity (signOf neg)
  | finite neg m q => if h : m = 0 then .zero (signOf neg) else .finite (signOf neg) m q (Nat.pos_of_ne_zero h)

/-- The parts of doubles: 53 bits, the highest of which is set above the least exponent. -/
def IsDouble : Parts → Prop
  | finite _ m q => m < 2 ^ 53 ∧ -1074 ≤ q ∧ q ≤ 971 ∧ (2 ^ 52 ≤ m ∨ q = -1074)
  | _ => True

/-- The parts that a sign bit, an exponent field and a fraction field make. -/
def ofFields (neg : Bool) (exponent fraction : Nat) : Parts :=
  if exponent = 2047 then if fraction = 0 then infinite neg else nan
  else if exponent = 0 then finite neg fraction (-1074)
  else finite neg (2 ^ 52 + fraction) (exponent - 1075)

theorem ofFields_isDouble {neg : Bool} {exponent fraction : Nat} (he : exponent < 2 ^ 11) (hf : fraction < 2 ^ 52) :
    (ofFields neg exponent fraction).IsDouble := by
  unfold ofFields
  split_ifs with hspecial hzero hsub
  · trivial
  · trivial
  · exact ⟨by omega, by omega, by omega, .inr rfl⟩
  · exact ⟨by omega, by omega, by omega, .inl (by omega)⟩

theorem ofFields_inj {neg neg' : Bool} {e e' f f' : Nat} (hf : f < 2 ^ 52) (hf' : f' < 2 ^ 52)
    (hnan : ofFields neg e f ≠ nan) (h : ofFields neg e f = ofFields neg' e' f') :
    neg = neg' ∧ e = e' ∧ f = f' := by
  unfold ofFields at h hnan
  split_ifs at h hnan <;> grind

end Parts

/-! ### Words -/

/-- The word with these fields. -/
abbrev word (neg : Bool) (exponent : BitVec 11) (fraction : BitVec 52) : BitVec 64 :=
  packComponents binary64 (signOf neg) exponent fraction

theorem toNat_word (neg : Bool) (exponent : BitVec 11) (fraction : BitVec 52) :
    (word neg exponent fraction).toNat = neg.toNat * 2 ^ 63 + exponent.toNat * 2 ^ 52 + fraction.toNat := by
  have hsign : (signOf neg).toBitVec.toNat = neg.toNat := by cases neg <;> rfl
  have hupper : ((signOf neg).toBitVec ++ exponent).toNat = neg.toNat * 2 ^ 11 + exponent.toNat := by
    rw [BitVec.toNat_append, ← Nat.shiftLeft_add_eq_or_of_lt exponent.isLt, hsign, Nat.shiftLeft_eq]
  have hword : (word neg exponent fraction).toNat
      = ((signOf neg).toBitVec ++ exponent).toNat * 2 ^ 52 + fraction.toNat := by
    rw [word, packComponents, BitVec.toNat_append, ← Nat.shiftLeft_add_eq_or_of_lt fraction.isLt, Nat.shiftLeft_eq]
  rw [hword, hupper]
  omega

theorem exists_word (b : BitVec 64) : ∃ neg exponent fraction, b = word neg exponent fraction := by
  refine ⟨b.toNat / 2 ^ 63 == 1, .ofNat 11 (b.toNat / 2 ^ 52), .ofNat 52 b.toNat, ?_⟩
  rw [← BitVec.toNat_inj, toNat_word, BitVec.toNat_ofNat, BitVec.toNat_ofNat]
  have hlt := b.isLt
  rcases (show b.toNat / 2 ^ 63 = 0 ∨ b.toNat / 2 ^ 63 = 1 by omega) with h | h
  · rw [h]
    simp only [Nat.reduceBEq, Bool.toNat_false]
    omega
  · rw [h]
    simp only [BEq.rfl, Bool.toNat_true]
    omega

theorem unpackSign_word (neg : Bool) (exponent : BitVec 11) (fraction : BitVec 52) :
    Sign.ofBitVec (@unpackSign binary64 (word neg exponent fraction)) = signOf neg := by
  have hbit : @unpackSign binary64 (word neg exponent fraction) = (signOf neg).toBitVec := by
    have he := exponent.isLt
    have hf := fraction.isLt
    rw [← BitVec.toNat_inj]
    simp only [unpackSign, BitVec.extractLsb, BitVec.toNat_cast, BitVec.extractLsb'_toNat,
      Nat.shiftRight_eq_div_pow, toNat_word]
    cases neg <;> simp [signOf, Sign.toBitVec] <;> omega
  rw [hbit]
  cases neg <;> rfl

theorem toNat_implicit (m : BitVec 52) : (1#1 ++ m).toNat = 2 ^ 52 + m.toNat := by
  rw [BitVec.toNat_append, ← Nat.shiftLeft_add_eq_or_of_lt m.isLt]
  rfl

theorem unpack_word (neg : Bool) (exponent : BitVec 11) (fraction : BitVec 52) :
    UnpackedFloat.unpack binary64 (word neg exponent fraction)
      = (Parts.ofFields neg exponent.toNat fraction.toNat).unpacked := by
  have hones : exponent = -1#11 ↔ exponent.toNat = 2047 := BitVec.toNat_inj.symm
  have hzeros : exponent = 0#11 ↔ exponent.toNat = 0 := BitVec.toNat_inj.symm
  have hempty : fraction = 0#52 ↔ fraction.toNat = 0 := BitVec.toNat_inj.symm
  unfold UnpackedFloat.unpack Parts.ofFields
  simp only [unpackExponent_packComponents, unpackMantissa_packComponents, unpackSign_word, toNat_implicit]
  by_cases he : exponent = -1#11
  · rw [if_pos he, if_pos (hones.1 he)]
    by_cases hf : fraction = 0#52
    · rw [if_pos hf, if_pos (hempty.1 hf), Parts.unpacked]
    · rw [if_neg hf, if_neg (mt hempty.2 hf), Parts.unpacked]
  · rw [if_neg he, if_neg (mt hones.2 he)]
    by_cases hz : exponent = 0#11
    · rw [if_pos hz, if_pos (hzeros.1 hz)]
      by_cases hf : fraction = 0#52
      · rw [dif_pos hf, Parts.unpacked, dif_pos (hempty.1 hf)]
      · rw [dif_neg hf, Parts.unpacked, dif_neg (mt hempty.2 hf)]
        simp only [hzeros.1 hz]
        rfl
    · rw [if_neg hz, if_neg (mt hzeros.2 hz), Parts.unpacked, dif_neg (by omega)]
      rfl

/-! ### From a double to its parts -/

theorem exists_toBits_eq (x : Float) : ∃ neg exponent fraction, x.toBits.toBitVec = word neg exponent fraction :=
  exists_word _

theorem parts_of_toBits {x : Float} {neg : Bool} {exponent : BitVec 11} {fraction : BitVec 52}
    (h : x.toBits.toBitVec = word neg exponent fraction) :
    parts x = .ofFields neg exponent.toNat fraction.toNat := by
  have hbits : x.toBits.toNat = neg.toNat * 2 ^ 63 + exponent.toNat * 2 ^ 52 + fraction.toNat := by
    rw [← toNat_word, ← h, UInt64.toNat_toBitVec]
  have he := exponent.isLt
  have hf := fraction.isLt
  have hneg : (x.toBits / 9223372036854775808 == 1) = neg := by
    rw [Bool.eq_iff_iff, beq_iff_eq, ← UInt64.toNat_inj, UInt64.toNat_div, hbits]
    change _ / 2 ^ 63 = 1 ↔ _
    cases neg <;> simp <;> omega
  have hexponent : (x.toBits / 4503599627370496 % 2048).toNat = exponent.toNat := by
    rw [UInt64.toNat_mod, UInt64.toNat_div, hbits]
    change _ / 2 ^ 52 % 2 ^ 11 = _
    omega
  have hfraction : (x.toBits % 4503599627370496).toNat = fraction.toNat := by
    rw [UInt64.toNat_mod, hbits]
    change _ % 2 ^ 52 = _
    omega
  simp only [parts, hneg, hexponent, hfraction]
  rfl

/-- The unpacked form in which Lean's model computes is a reading of the parts. -/
theorem unpack_toModel (x : Float) : x.toModel.unpack = (parts x).unpacked := by
  obtain ⟨neg, exponent, fraction, h⟩ := exists_toBits_eq x
  rw [parts_of_toBits h, ← unpack_word, ← h]
  rfl

theorem parts_isDouble (x : Float) : (parts x).IsDouble := by
  obtain ⟨neg, exponent, fraction, h⟩ := exists_toBits_eq x
  rw [parts_of_toBits h]
  exact Parts.ofFields_isDouble exponent.isLt fraction.isLt

theorem toBits_of_nan {x : Float} (h : parts x = .nan) : x.toBits.toBitVec = packedNaN binary64 := by
  obtain ⟨neg, exponent, fraction, hword⟩ := exists_toBits_eq x
  have hvalid := x.toModel.valid.eq_packedNaN
  change @unpackExponent binary64 x.toBits.toBitVec = _ → @unpackMantissa binary64 x.toBits.toBitVec ≠ _ → _ at hvalid
  rw [parts_of_toBits hword, Parts.ofFields] at h
  split_ifs at h with he hf
  apply hvalid
  · rw [hword, unpackExponent_packComponents, ← BitVec.toNat_inj, he]
    rfl
  · rw [hword, unpackMantissa_packComponents]
    intro hzero
    exact hf (congrArg BitVec.toNat hzero)

/-- A double is determined by its parts; there is only one not-a-number. -/
theorem parts_injective : Function.Injective parts := by
  intro x y h
  have hbits : x.toBits.toBitVec = y.toBits.toBitVec := by
    by_cases hnan : parts x = .nan
    · rw [toBits_of_nan hnan, toBits_of_nan (h ▸ hnan)]
    · obtain ⟨neg, exponent, fraction, hx⟩ := exists_toBits_eq x
      obtain ⟨neg', exponent', fraction', hy⟩ := exists_toBits_eq y
      rw [parts_of_toBits hx] at h hnan
      rw [parts_of_toBits hy] at h
      obtain ⟨hneg, he, hf⟩ := Parts.ofFields_inj fraction.isLt fraction'.isLt hnan h
      rw [hx, hy, hneg, BitVec.toNat_inj.1 he, BitVec.toNat_inj.1 hf]
  obtain ⟨⟨b, hb⟩⟩ := x
  obtain ⟨⟨c, hc⟩⟩ := y
  cases UInt64.toBitVec_inj.1 hbits
  rfl

/-! ### From parts to a double -/

/-- The double that Lean's model packs from an unpacked form. -/
def packed (u : UnpackedFloat) : Float := .ofModel (.pack u)

theorem toBits_packed (u : UnpackedFloat) : (packed u).toBits.toBitVec = UnpackedFloat.pack binary64 u := rfl

theorem parts_packed_finite {neg : Bool} {m : Nat} {q : Int} (hm : 0 < m) (h : (Parts.finite neg m q).IsDouble) :
    parts (packed (.finite (signOf neg) m q hm)) = .finite neg m q := by
  obtain ⟨hlt, hlow, hhigh, hnormal⟩ := h
  have hbiased : (q + (binary64.exponentBias : Int) + (binary64.mantissaBitsWithoutImplicit : Int)).toNat
      = (q + 1075).toNat := by
    change (q + 1023 + 52).toNat = _
    omega
  have hfits : ¬ 2 ^ binary64.exponentBits ≤ (q + 1075).toNat + 1 := by
    change ¬ 2048 ≤ (q + 1075).toNat + 1
    omega
  by_cases hbit : 2 ^ 52 ≤ m
  · have hlog : m.log2 + 1 = binary64.mantissaBits := by
      rw [(Nat.log2_eq_iff (Nat.ne_of_gt hm)).2 ⟨hbit, hlt⟩]
      rfl
    have hword : (packed (.finite (signOf neg) m q hm)).toBits.toBitVec
        = word neg (.ofNat 11 (q + 1075).toNat) (.ofNat 52 m) := by
      rw [toBits_packed]
      simp only [UnpackedFloat.pack, hbiased]
      rw [if_neg hfits, if_pos hlog]
    rw [parts_of_toBits hword, BitVec.toNat_ofNat, BitVec.toNat_ofNat, Parts.ofFields, if_neg (by omega),
      if_neg (by omega)]
    congr 1 <;> omega
  · have hlog : ¬ m.log2 + 1 = binary64.mantissaBits := by
      have hlog' := (Nat.log2_lt (Nat.ne_of_gt hm)).2 (by omega : m < 2 ^ 52)
      change ¬ m.log2 + 1 = 53
      omega
    have hword : (packed (.finite (signOf neg) m q hm)).toBits.toBitVec = word neg 0#11 (.ofNat 52 m) := by
      rw [toBits_packed]
      simp only [UnpackedFloat.pack, hbiased]
      rw [if_neg hfits, if_neg hlog]
    rw [parts_of_toBits hword, hnormal.resolve_left hbit]
    change Parts.finite neg (m % 2 ^ 52) (-1074) = _
    rw [Nat.mod_eq_of_lt (by omega)]

theorem parts_packed_overflow {neg : Bool} {m : Nat} {q : Int} (hm : 0 < m) (hq : 972 ≤ q) :
    parts (packed (.finite (signOf neg) m q hm)) = .infinite neg := by
  have hlarge : 2 ^ binary64.exponentBits
      ≤ (q + (binary64.exponentBias : Int) + (binary64.mantissaBitsWithoutImplicit : Int)).toNat + 1 := by
    change 2048 ≤ (q + 1023 + 52).toNat + 1
    omega
  have hword : (packed (.finite (signOf neg) m q hm)).toBits.toBitVec = word neg (-1#11) 0#52 := by
    rw [toBits_packed]
    simp only [UnpackedFloat.pack]
    rw [if_pos hlarge]
    rfl
  rw [parts_of_toBits hword]
  rfl

/-- The sign is one field of the word, and the other two do not depend on it. -/
theorem parts_packed_sign {m : Nat} {q : Int} (hm : 0 < m) :
    ∃ exponent fraction, ∀ neg, parts (packed (.finite (signOf neg) m q hm)) = .ofFields neg exponent fraction := by
  have hword : ∃ exponent fraction, ∀ neg,
      (packed (.finite (signOf neg) m q hm)).toBits.toBitVec = word neg exponent fraction := by
    simp only [toBits_packed, UnpackedFloat.pack]
    split_ifs
    · exact ⟨_, _, fun _ => rfl⟩
    · exact ⟨_, _, fun _ => rfl⟩
    · exact ⟨_, _, fun _ => rfl⟩
  obtain ⟨exponent, fraction, hword⟩ := hword
  exact ⟨exponent.toNat, fraction.toNat, fun neg => parts_of_toBits (hword neg)⟩

theorem parts_packed {p : Parts} (h : p.IsDouble) : parts (packed p.unpacked) = p := by
  cases p with
  | nan => rfl
  | infinite neg => cases neg <;> rfl
  | finite neg m q =>
      by_cases hm : m = 0
      · subst hm
        obtain ⟨-, -, -, hbit | rfl⟩ := h
        · omega
        · cases neg <;> rfl
      · rw [Parts.unpacked, dif_neg hm, parts_packed_finite _ h]

theorem parts_ofBits {b : UInt64} {neg : Bool} {exponent : BitVec 11} {fraction : BitVec 52}
    (h : b.toBitVec = word neg exponent fraction) :
    parts (Float.ofBits b) = .ofFields neg exponent.toNat fraction.toNat := by
  change parts (packed (UnpackedFloat.unpack binary64 b.toBitVec)) = _
  rw [h, unpack_word, parts_packed (Parts.ofFields_isDouble exponent.isLt fraction.isLt)]

theorem parts_ofFields {neg : Bool} {exponent fraction : Nat} (he : exponent < 2 ^ 11) (hf : fraction < 2 ^ 52) :
    parts (ofFields neg exponent fraction) = .ofFields neg exponent fraction := by
  have hexponent : (BitVec.ofNat 11 exponent).toNat = exponent := by
    rw [BitVec.toNat_ofNat, Nat.mod_eq_of_lt he]
  have hfraction : (BitVec.ofNat 52 fraction).toNat = fraction := by
    rw [BitVec.toNat_ofNat, Nat.mod_eq_of_lt hf]
  rw [ofFields, @parts_ofBits _ neg (.ofNat 11 exponent) (.ofNat 52 fraction), hexponent, hfraction]
  rw [← BitVec.toNat_inj, toNat_word, hexponent, hfraction, UInt64.toNat_toBitVec]
  cases neg with
  | false =>
      rw [if_neg (by decide), UInt64.toNat_ofNat', Nat.mod_eq_of_lt (by omega)]
      simp only [Bool.toNat_false]
      omega
  | true =>
      have hsign : (9223372036854775808 : UInt64).toNat = 2 ^ 63 := rfl
      rw [if_pos rfl, UInt64.toNat_add, UInt64.toNat_ofNat', hsign]
      simp only [Bool.toNat_true]
      omega

@[simp] theorem parts_zero (neg : Bool) : parts (ofFields neg 0 0) = .finite neg 0 (-1074) := by
  cases neg <;> rfl

@[simp] theorem parts_infinity (neg : Bool) : parts (infinity neg) = .infinite neg := by
  cases neg <;> rfl

end Rover
