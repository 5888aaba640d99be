import Rover.Proofs.Order
import Rover.Proofs.Rounding

/-!
# Sums of doubles

Lean's model of addition aligns the operands, adds their significands as integers, and rounds by shifting bits out one
at a time. What it computes is the double nearest to the exact sum: shifting out bits is division with rounding, so the
model's rounding is `Format.double.nearest`, and the bounds known of that function hold of sums and differences.
-/

namespace Rover

open Float.Model (UnpackedFloat totalExponent)
open Float.Model.UnpackedFloat
open Float.Model.Format (binary64)

/-! ### Shifting bits out -/

/-- The significand, the last bit shifted out and whether any bit before it was set, of the quotient `num / den`. -/
structure Reads (em : ExtendedMantissa) (num den : Nat) : Prop where
  mantissa : em.mantissa = num / den
  roundBit : em.roundBit = true ↔ den ≤ 2 * (num % den)
  stickyBit : em.stickyBit = true ↔ num % den ≠ 0 ∧ 2 * (num % den) ≠ den

namespace Reads

theorem exact (m : Nat) : Reads (.ofMantissaAndAccuracy m .exact) m 1 where
  mantissa := (Nat.div_one m).symm
  roundBit := by simp [ExtendedMantissa.ofMantissaAndAccuracy, Nat.mod_one]
  stickyBit := by simp [ExtendedMantissa.ofMantissaAndAccuracy, Nat.mod_one]

theorem shiftRightOne {em : ExtendedMantissa} {num den : Nat} (h : Reads em num den) (hden : 0 < den) :
    Reads em.shiftRightOne num (den * 2) := by
  have hmod : num % (den * 2) = num % den + den * (num / den % 2) := Nat.mod_mul
  have hlt := Nat.mod_lt num hden
  refine ⟨?_, ?_, ?_⟩
  · rw [ExtendedMantissa.shiftRightOne, h.mantissa, Nat.div_div_eq_div_mul]
  · simp only [ExtendedMantissa.shiftRightOne, h.mantissa, bne_iff_ne, hmod]
    rcases Nat.mod_two_eq_zero_or_one (num / den) with hbit | hbit <;> rw [hbit] <;> omega
  · simp only [ExtendedMantissa.shiftRightOne, Bool.or_eq_true, h.roundBit, h.stickyBit, hmod]
    rcases Nat.mod_two_eq_zero_or_one (num / den) with hbit | hbit <;> rw [hbit] <;> omega

theorem shiftRight {em : ExtendedMantissa} {num den : Nat} (h : Reads em num den) (hden : 0 < den) (k : Nat) :
    Reads (em >>> k) num (den * 2 ^ k) := by
  change Reads (k.repeat ExtendedMantissa.shiftRightOne em) _ _
  induction k with
  | zero =>
      rw [pow_zero, mul_one]
      exact h
  | succ k ih =>
      rw [Nat.repeat, pow_succ, ← mul_assoc]
      exact ih.shiftRightOne (by positivity)

theorem roundedMantissa {em : ExtendedMantissa} {num den : Nat} (h : Reads em num den) :
    em.roundedMantissa = roundDiv num den := by
  obtain ⟨n, roundBit, stickyBit⟩ := em
  obtain ⟨hn, hround, hsticky⟩ := h
  dsimp only at hn hround hsticky
  subst hn
  simp only [ExtendedMantissa.roundedMantissa, roundDiv]
  cases roundBit <;> cases stickyBit <;>
    simp only [ExtendedMantissa.accuracy, Accuracy.roundToNearestEven, true_iff, Bool.false_eq_true, false_iff] at * <;>
    split_ifs <;> omega

end Reads

/-! ### The model's rounding -/

theorem roundDiv_mul_right {num den c : Nat} (hc : 0 < c) : roundDiv (num * c) (den * c) = roundDiv num den := by
  simp only [roundDiv, Nat.mul_div_mul_right _ _ hc, Nat.mul_mod_mul_right, ← Nat.mul_assoc, Nat.mul_lt_mul_right hc,
    Nat.mul_left_inj hc.ne']

theorem roundDiv_congr {num den num' den' : Nat} (hden : 0 < den) (hden' : 0 < den') (h : num * den' = num' * den) :
    roundDiv num den = roundDiv num' den' := by
  rw [← roundDiv_mul_right hden', ← @roundDiv_mul_right num' den' den hden, h, Nat.mul_comm den]

theorem floorLog2_eq {num den : Nat} (hnum : 0 < num) (hden : 0 < den) {k : Int} (hlow : (2 : ℚ) ^ k ≤ num / den)
    (hhigh : (num / den : ℚ) < 2 ^ (k + 1)) : floorLog2 num den = k := by
  obtain ⟨hlow', hhigh'⟩ := floorLog2_spec hnum hden
  have hle := (zpow_lt_zpow_iff_right₀ (by norm_num : (1 : ℚ) < 2)).1 (hlow'.trans_lt hhigh)
  have hge := (zpow_lt_zpow_iff_right₀ (by norm_num : (1 : ℚ) < 2)).1 (hlow.trans_lt hhigh')
  omega

section Round

variable {m : Nat} {e : Int} (hm : 0 < m)

include hm

theorem floorLog2_scaled : floorLog2 (m <<< e.toNat) (1 <<< (-e).toNat) = (m.log2 : Int) + e := by
  apply floorLog2_eq (shiftLeft_pos hm _) (one_shiftLeft_pos _)
  · rw [shifted_quotient, zpow_add₀ (by norm_num)]
    gcongr
    exact two_zpow_log2_le hm
  · rw [shifted_quotient, show (m.log2 : Int) + e + 1 = m.log2 + 1 + e by ring, zpow_add₀ (by norm_num)]
    gcongr
    exact lt_two_zpow_log2 m

theorem targetExponent_eq_unit : binary64.targetExponent (totalExponent m e)
    = Format.double.unit (m <<< e.toNat) (1 <<< (-e).toNat) := by
  rw [Format.unit, floorLog2_scaled hm]
  change max ((m.log2 : Int) + 1 + e - 53) (-1074) = max ((m.log2 : Int) + e + 1 - 53) (-1074)
  omega

end Round

/-- The first of the two shifts of the model's rounding, after which the significand is rounded. -/
theorem roundedMantissa_eq_roundDiv (m : Nat) (e T : Int) :
    (shiftToExponent (decreaseExponent m e T).1 (decreaseExponent m e T).2 .exact T).1.roundedMantissa
      = roundDiv (m <<< e.toNat <<< (-T).toNat) (1 <<< (-e).toNat <<< T.toNat) := by
  simp only [shiftToExponent, decreaseExponent]
  rw [((Reads.exact _).shiftRight one_pos _).roundedMantissa, one_mul]
  apply roundDiv_congr (by positivity)
  · rw [Nat.shiftLeft_eq, Nat.shiftLeft_eq]
    positivity
  · simp only [Nat.shiftLeft_eq, one_mul, mul_assoc, ← pow_add]
    congr 2
    omega

/-- The second shift: a significand that was rounded up to 54 bits loses the last of them, a zero. -/
theorem shiftToTargetExponent_exact {n : Nat} {u : Int} (hn : n ≤ 2 ^ 53) (hu : -1074 ≤ u) :
    shiftToTargetExponent binary64 n u .exact
      = if n = 2 ^ 53 then (⟨2 ^ 52, false, false⟩, u + 1) else (⟨n, false, false⟩, u) := by
  have htarget : binary64.targetExponent (totalExponent n u) = max ((n.log2 : Int) + 1 + u - 53) (-1074) := rfl
  simp only [shiftToTargetExponent, shiftToExponent, htarget]
  split_ifs with hcarry
  · subst hcarry
    have hshift : (max (((2 ^ 53 : Nat).log2 : Int) + 1 + u - 53) (-1074) - u).toNat = 1 := by
      rw [Nat.log2_two_pow]
      omega
    rw [hshift]
    rfl
  · have hlog : n.log2 ≤ 52 := by
      rcases Nat.eq_zero_or_pos n with rfl | hpos
      · decide
      · exact Nat.lt_succ_iff.1 ((Nat.log2_lt hpos.ne').2 (by omega))
    have hshift : (max ((n.log2 : Int) + 1 + u - 53) (-1074) - u).toNat = 0 := by omega
    rw [hshift, Nat.cast_zero, add_zero]
    rfl

/-- A rounded significand of at most 54 bits with its exponent. -/
def carried (s : Sign) (n : Nat) (u : Int) : UnpackedFloat :=
  if h : n = 0 then .zero s
  else if n = 2 ^ 53 then .finite s (2 ^ 52) (u + 1) (by decide) else .finite s n u (Nat.pos_of_ne_zero h)

theorem totalExponent_decreaseExponent {m : Nat} (hm : 0 < m) (e T : Int) :
    totalExponent (decreaseExponent m e T).1 (decreaseExponent m e T).2 = totalExponent m e := by
  have hlog : (m <<< (e - T).toNat).log2 = m.log2 + (e - T).toNat := by
    have hlow := Nat.log2_self_le hm.ne'
    have hhigh := @Nat.lt_log2_self m
    rw [Nat.shiftLeft_eq, Nat.log2_eq_iff (by positivity)]
    constructor
    · rw [pow_add]
      gcongr
    · rw [show m.log2 + (e - T).toNat + 1 = m.log2 + 1 + (e - T).toNat by omega, pow_add]
      gcongr
  simp only [totalExponent, decreaseExponent, hlog]
  omega

theorem roundWithAccuracy_eq_carried {m n : Nat} {e u : Int} {a : Accuracy} (s : Sign)
    (hround : (shiftToTargetExponent binary64 m e a).1.roundedMantissa = n)
    (hexponent : (shiftToTargetExponent binary64 m e a).2 = u) (hn : n ≤ 2 ^ 53) (hu : -1074 ≤ u) :
    roundWithAccuracy binary64 s m e a = carried s n u := by
  simp only [roundWithAccuracy, hround, hexponent, shiftToTargetExponent_exact hn hu, carried]
  by_cases hcarry : n = 2 ^ 53
  · subst hcarry
    rfl
  · simp only [if_neg hcarry]

theorem round_eq_carried {m : Nat} {e : Int} (hm : 0 < m) (s : Sign) :
    UnpackedFloat.round binary64 s m e
      = carried s (Format.double.round (m <<< e.toNat) (1 <<< (-e).toNat)).1
          (Format.double.unit (m <<< e.toNat) (1 <<< (-e).toNat)) := by
  change roundWithAccuracy binary64 s (decreaseExponent m e (binary64.targetExponent (totalExponent m e))).1
    (decreaseExponent m e (binary64.targetExponent (totalExponent m e))).2 .exact = _
  rw [targetExponent_eq_unit hm]
  apply roundWithAccuracy_eq_carried
  · rw [shiftToTargetExponent, totalExponent_decreaseExponent hm, targetExponent_eq_unit hm,
      roundedMantissa_eq_roundDiv]
    rfl
  · rw [shiftToTargetExponent, totalExponent_decreaseExponent hm, targetExponent_eq_unit hm]
    simp only [shiftToExponent, decreaseExponent]
    omega
  · exact Format.double.round_le_two_pow (shiftLeft_pos hm _) (one_shiftLeft_pos _)
  · exact Format.double.least_le_unit

theorem packed_carried {n : Nat} {u : Int} (neg : Bool) (hn : n ≤ 2 ^ 53) (hu : -1074 ≤ u)
    (hbit : 2 ^ 52 ≤ n ∨ u = -1074) (hlimit : (n.log2 : Int) + u < 1024) :
    packed (carried (signOf neg) n u) = assemble neg n u := by
  apply parts_injective
  obtain ⟨m, q, hparts, hvalue⟩ := parts_assemble neg hn hu hlimit
  have hdouble := parts_isDouble (assemble neg n u)
  rw [hparts] at hdouble ⊢
  -- both sides are doubles of the same value
  suffices hsame : ∃ (m' : Nat) (q' : Int), parts (packed (carried (signOf neg) n u)) = .finite neg m' q' ∧
      (m' * 2 ^ q' : ℚ) = n * 2 ^ u by
    obtain ⟨m', q', hparts', hvalue'⟩ := hsame
    obtain ⟨rfl, rfl⟩ := eq_of_scaled_eq (hparts' ▸ parts_isDouble _) hdouble (hvalue'.trans hvalue.symm)
    exact hparts'
  unfold carried
  split_ifs with hzero hcarry
  · exact ⟨0, -1074, by cases neg <;> rfl, by simp [hzero]⟩
  · subst hcarry
    rw [Nat.log2_two_pow] at hlimit
    refine ⟨2 ^ 52, u + 1, parts_packed_finite _ ⟨by omega, by omega, by omega, .inl le_rfl⟩, ?_⟩
    rw [zpow_add₀ (by norm_num)]
    push_cast
    ring
  · have hlog : 2 ^ 52 ≤ n → n.log2 = 52 := fun h => (Nat.log2_eq_iff hzero).2 ⟨h, by omega⟩
    exact ⟨n, u, parts_packed_finite _ ⟨by omega, by omega, by omega, hbit⟩, rfl⟩

theorem packed_carried_overflow {n : Nat} {u : Int} (neg : Bool) (hn : n ≤ 2 ^ 53) (hbit : 2 ^ 52 ≤ n ∨ u = -1074)
    (hlimit : 1024 ≤ (n.log2 : Int) + u) : packed (carried (signOf neg) n u) = infinity neg := by
  apply parts_injective
  have hpos : n ≠ 0 := by
    rintro rfl
    change (1024 : Int) ≤ 0 + u at hlimit
    omega
  have hlog : n.log2 ≤ 53 := by
    have htop := (Nat.log2_lt hpos).2 (by omega : n < 2 ^ 54)
    omega
  rw [parts_infinity, carried, dif_neg hpos]
  split_ifs with hcarry
  · exact parts_packed_overflow _ (by omega)
  · have hlog : n.log2 = 52 := (Nat.log2_eq_iff hpos).2 ⟨by omega, by omega⟩
    exact parts_packed_overflow _ (by omega)

/-- The rounded significand, once it is packed, is the nearest double. -/
theorem packed_carried_round {num den : Nat} (hnum : 0 < num) (hden : 0 < den) (neg : Bool) :
    packed (carried (signOf neg) (Format.double.round num den).1 (Format.double.unit num den))
      = Format.double.nearest neg num den := by
  have hn := Format.double.round_le_two_pow hnum hden
  have hbit : 2 ^ 52 ≤ (Format.double.round num den).1 ∨ Format.double.unit num den = -1074 := by
    rcases Format.double.unit_eq_least_or_le hnum hden with hleast | hlow
    · exact .inr hleast
    · refine .inl (Format.double.le_round hden ?_)
      refine le_of_eq_of_le ?_ hlow
      rw [Nat.cast_pow, Nat.cast_ofNat, ← zpow_natCast, ← zpow_add₀ (by norm_num)]
      congr 1
      change _ = ((53 : Nat) : Int) + _ - 1
      push_cast
      ring
  rw [Format.nearest, if_neg hnum.ne']
  change _ = if ((Format.double.round num den).1.log2 : Int) + Format.double.unit num den ≥ 1024 then _ else _
  split_ifs with hlimit
  · exact packed_carried_overflow neg hn hbit hlimit
  · exact packed_carried neg hn Format.double.least_le_unit hbit (not_le.1 hlimit)

/-- The model rounds to the nearest double. -/
theorem packed_round {m : Nat} (hm : 0 < m) (neg : Bool) (e : Int) :
    packed (UnpackedFloat.round binary64 (signOf neg) m e)
      = Format.double.nearest neg (m <<< e.toNat) (1 <<< (-e).toNat) := by
  rw [round_eq_carried hm, packed_carried_round (shiftLeft_pos hm _) (one_shiftLeft_pos _)]

/-! ### Values -/

def withSign (neg : Bool) (v : ℚ) : ℚ := if neg then -v else v

/-- The value of a finite double. -/
def value (x : Float) : ℚ :=
  match parts x with
  | .finite neg m q => withSign neg (m * 2 ^ q)
  | _ => 0

theorem value_of_parts {x : Float} {neg : Bool} {m : Nat} {q : Int} (h : parts x = .finite neg m q) :
    value x = withSign neg (m * 2 ^ q) := by
  rw [value, h]

theorem value_zero : value 0.0 = 0 := by
  rw [value_of_parts parts_literal_zero]
  simp [withSign]

/-- The values of a format nearest to a rational number: one, or two if it is zero. -/
def Format.IsNearest (f : Format) (v : ℚ) (x : Float) : Prop :=
  ∃ (neg : Bool) (num den : Nat), 0 < den ∧ withSign neg (num / den) = v ∧ x = f.nearest neg num den

theorem isNearest_normalize (n e : Int) :
    Format.double.IsNearest (n * 2 ^ e) (packed (UnpackedFloat.normalize binary64 n e .positive)) := by
  unfold UnpackedFloat.normalize
  rcases lt_trichotomy n 0 with hneg | rfl | hpos
  · rw [show compare n 0 = .lt from compare_lt_iff_lt.2 hneg]
    obtain ⟨m, rfl⟩ : ∃ m : Nat, n = -m := ⟨(-n).toNat, by omega⟩
    refine ⟨true, _, _, one_shiftLeft_pos _, ?_, packed_round (m := (- -(m : Int)).toNat) (by omega) true e⟩
    rw [shifted_quotient, withSign, if_pos rfl]
    simp
  · exact ⟨false, 0, 1, one_pos, by simp [withSign], rfl⟩
  · rw [show compare n 0 = .gt from compare_gt_iff_gt.2 hpos]
    obtain ⟨m, rfl⟩ : ∃ m : Nat, n = m := ⟨n.toNat, by omega⟩
    refine ⟨false, _, _, one_shiftLeft_pos _, ?_, packed_round (m := (m : Int).toNat) (by omega) false e⟩
    rw [shifted_quotient, withSign, if_neg (by decide)]
    simp

theorem Parts.IsDouble.holds {neg : Bool} {m : Nat} {q : Int} (h : (Parts.finite neg m q).IsDouble) :
    Format.double.Holds (m * 2 ^ q) := by
  obtain ⟨hlt, hlow, hhigh, -⟩ := h
  refine ⟨m, q, rfl, hlt, hlow, ?_⟩
  calc (m * 2 ^ q : ℚ) < 2 ^ (53 : Int) * 2 ^ q := by
        gcongr
        exact_mod_cast hlt
    _ = 2 ^ (53 + q) := by rw [zpow_add₀ (by norm_num)]
    _ ≤ 2 ^ (1024 : Int) := zpow_le_zpow_right₀ (by norm_num) (by omega)

theorem isNearest_self {x : Float} (hx : x.isFinite = true) : Format.double.IsNearest (value x) x := by
  obtain ⟨neg, m, q, h⟩ := isFinite_iff.1 hx
  have hdouble : (Parts.finite neg m q).IsDouble := h ▸ parts_isDouble x
  have hholds := hdouble.holds
  rw [← shifted_quotient] at hholds
  obtain ⟨m', q', hparts, hvalue⟩ := Format.double_fits.nearest_of_holds (one_shiftLeft_pos _) hholds neg
  refine ⟨neg, _, _, one_shiftLeft_pos (-q).toNat, by rw [shifted_quotient, value_of_parts h], ?_⟩
  apply parts_injective
  rw [shifted_quotient] at hvalue
  obtain ⟨rfl, rfl⟩ := eq_of_scaled_eq hdouble (hparts ▸ parts_isDouble _) hvalue.symm
  rw [h, hparts]

theorem packed_unpacked (x : Float) : packed (parts x).unpacked = x :=
  parts_injective (parts_packed (parts_isDouble x))

theorem withSign_decreaseExponent (neg : Bool) (m : Nat) {q e : Int} (h : e ≤ q) :
    (((signOf neg).apply (decreaseExponent m q e).1 : Int) * 2 ^ e : ℚ) = withSign neg (m * 2 ^ q) := by
  have hscale : ((m <<< (q - e).toNat : Nat) * 2 ^ e : ℚ) = m * 2 ^ q := by
    rw [Nat.shiftLeft_eq]
    push_cast
    rw [mul_two_pow_mul_zpow]
    congr 2
    omega
  change (((signOf neg).apply ((m <<< (q - e).toNat : Nat) : Int) : Int) * 2 ^ e : ℚ) = _
  rw [← hscale]
  generalize m <<< (q - e).toNat = n
  cases neg with
  | false => rfl
  | true =>
      change ((-(n : Int) : Int) * 2 ^ e : ℚ) = -(n * 2 ^ e)
      push_cast
      ring

theorem isNearest_zero (s : Sign) : Format.double.IsNearest 0 (packed (.zero s)) := by
  cases s with
  | negative => exact ⟨true, 0, 1, one_pos, by simp [withSign], rfl⟩
  | positive => exact ⟨false, 0, 1, one_pos, by simp [withSign], rfl⟩

theorem unpacked_of_finite {x : Float} {neg : Bool} {m : Nat} {q : Int} (h : parts x = .finite neg m q) :
    (parts x).unpacked = .zero (signOf neg) ∧ value x = 0 ∨
      ∃ hm : 0 < m, (parts x).unpacked = .finite (signOf neg) m q hm := by
  rw [value_of_parts h, h, Parts.unpacked]
  split_ifs with hm
  · exact .inl ⟨rfl, by simp [withSign, hm]⟩
  · exact .inr ⟨Nat.pos_of_ne_zero hm, rfl⟩

/-- A sum of finite doubles is nearest to the exact sum. -/
theorem isNearest_add {x y : Float} (hfx : x.isFinite = true) (hfy : y.isFinite = true) :
    Format.double.IsNearest (value x + value y) (x + y) := by
  obtain ⟨neg, m, q, hx⟩ := isFinite_iff.1 hfx
  obtain ⟨neg', m', q', hy⟩ := isFinite_iff.1 hfy
  have hadd : x + y = packed (UnpackedFloat.add binary64 (parts x).unpacked (parts y).unpacked) := by
    rw [← unpack_toModel, ← unpack_toModel]
    rfl
  rw [hadd]
  rcases unpacked_of_finite hx with ⟨hux, hvx⟩ | ⟨hm, hux⟩ <;> rcases unpacked_of_finite hy with ⟨huy, hvy⟩ | ⟨hm', huy⟩
  · rw [hux, huy, hvx, hvy, add_zero]
    simp only [UnpackedFloat.add]
    split_ifs
    · exact isNearest_zero _
    · exact isNearest_zero _
  · have hsum : UnpackedFloat.add binary64 (parts x).unpacked (parts y).unpacked = (parts y).unpacked := by
      simp only [hux, huy, UnpackedFloat.add]
    rw [hsum, packed_unpacked, hvx, zero_add]
    exact isNearest_self hfy
  · have hsum : UnpackedFloat.add binary64 (parts x).unpacked (parts y).unpacked = (parts x).unpacked := by
      simp only [hux, huy, UnpackedFloat.add]
    rw [hsum, packed_unpacked, hvy, add_zero]
    exact isNearest_self hfx
  · have hvalue : value x + value y
        = (((signOf neg).apply (decreaseExponent m q (min q q')).1
            + (signOf neg').apply (decreaseExponent m' q' (min q q')).1 : Int) : ℚ) * 2 ^ min q q' := by
      rw [value_of_parts hx, value_of_parts hy, ← withSign_decreaseExponent neg m (min_le_left q q'),
        ← withSign_decreaseExponent neg' m' (min_le_right q q'), ← add_mul, ← Int.cast_add]
    rw [hux, huy, hvalue]
    exact isNearest_normalize _ _

theorem value_neg (x : Float) : value (-x) = -value x := by
  rw [value, value, parts_neg]
  cases parts x with
  | nan => exact neg_zero.symm
  | infinite neg => exact neg_zero.symm
  | finite neg m q => cases neg <;> simp [Parts.neg, withSign]

theorem isFinite_neg {x : Float} (h : x.isFinite = true) : (-x).isFinite = true := by
  obtain ⟨neg, m, q, hx⟩ := isFinite_iff.1 h
  exact isFinite_of_parts ((parts_neg x).trans (by rw [hx, Parts.neg]))

theorem isNearest_sub {x y : Float} (hx : x.isFinite = true) (hy : y.isFinite = true) :
    Format.double.IsNearest (value x - value y) (x - y) := by
  rw [← Double.add_neg, sub_eq_add_neg, ← value_neg]
  exact isNearest_add hx (isFinite_neg hy)

/-! ### Order of values -/

theorem scaled_lt_scaled {neg neg' : Bool} {m m' : Nat} {q q' : Int} (h : (Parts.finite neg m q).IsDouble)
    (h' : (Parts.finite neg' m' q').IsDouble) (hq : q < q') : (m * 2 ^ q : ℚ) < m' * 2 ^ q' := by
  -- the larger exponent is not the least one, so its significand has all 53 bits
  have hbit : 2 ^ 52 ≤ m' := h'.2.2.2.resolve_right (by have := h.2.1; omega)
  calc (m * 2 ^ q : ℚ) < (2 ^ 53 : Nat) * 2 ^ q := by
        gcongr
        exact h.1
    _ = (2 ^ 52 : Nat) * 2 ^ (q + 1) := by
        rw [zpow_add₀ (by norm_num)]
        push_cast
        ring
    _ ≤ m' * 2 ^ q' := by
        gcongr
        · norm_num
        · omega

theorem compare_scaled {neg neg' : Bool} {m m' : Nat} {q q' : Int} (h : (Parts.finite neg m q).IsDouble)
    (h' : (Parts.finite neg' m' q').IsDouble) :
    compare (m * 2 ^ q : ℚ) (m' * 2 ^ q') = (compare q q').then (compare m m') := by
  rcases lt_trichotomy q q' with hlt | rfl | hgt
  · rw [compare_lt_iff_lt.2 hlt, compare_lt_iff_lt.2 (scaled_lt_scaled h h' hlt)]
    rfl
  · rw [compare_eq_iff_eq.2 rfl, Ordering.then]
    have hpos : (0 : ℚ) < 2 ^ q := by positivity
    rcases lt_trichotomy m m' with hm | rfl | hm
    · rw [compare_lt_iff_lt.2 hm, compare_lt_iff_lt]
      gcongr
    · rw [compare_eq_iff_eq.2 rfl, compare_eq_iff_eq.2 rfl]
    · rw [compare_gt_iff_gt.2 hm, compare_gt_iff_gt]
      gcongr
  · rw [compare_gt_iff_gt.2 hgt, compare_gt_iff_gt.2 (scaled_lt_scaled h' h hgt)]
    rfl

theorem compare_neg_neg (a b : ℚ) : compare (-a) (-b) = (compare a b).swap := by
  rcases lt_trichotomy a b with h | rfl | h
  · rw [compare_lt_iff_lt.2 h, compare_gt_iff_gt.2 (neg_lt_neg h)]
    rfl
  · rw [compare_eq_iff_eq.2 rfl, compare_eq_iff_eq.2 rfl]
    rfl
  · rw [compare_gt_iff_gt.2 h, compare_lt_iff_lt.2 (neg_lt_neg h)]
    rfl

theorem scaled_pos {m : Nat} (hm : 0 < m) (q : Int) : (0 : ℚ) < m * 2 ^ q := by positivity

/-- Finite doubles compare as their values do. -/
theorem compareDoubles_finite {x y : Float} (hfx : x.isFinite = true) (hfy : y.isFinite = true) :
    compareDoubles x y = some (compare (value x) (value y)) := by
  obtain ⟨neg, m, q, hx⟩ := isFinite_iff.1 hfx
  obtain ⟨neg', m', q', hy⟩ := isFinite_iff.1 hfy
  have hdx : (Parts.finite neg m q).IsDouble := hx ▸ parts_isDouble x
  have hdy : (Parts.finite neg' m' q').IsDouble := hy ▸ parts_isDouble y
  have hvx := value_of_parts hx
  have hvy := value_of_parts hy
  rw [compareDoubles]
  rcases unpacked_of_finite hx with ⟨hux, hzx⟩ | ⟨hm, hux⟩ <;> rcases unpacked_of_finite hy with ⟨huy, hzy⟩ | ⟨hm', huy⟩
  · rw [hux, huy, hzx, hzy]
    rfl
  · have hpos := scaled_pos hm' q'
    rw [hux, huy, hzx, hvy]
    cases neg' with
    | false => exact congrArg some (compare_lt_iff_lt.2 hpos).symm
    | true => exact congrArg some (compare_gt_iff_gt.2 (neg_lt_zero.2 hpos)).symm
  · have hpos := scaled_pos hm q
    rw [hux, huy, hzy, hvx]
    cases neg with
    | false => exact congrArg some (compare_gt_iff_gt.2 hpos).symm
    | true => exact congrArg some (compare_lt_iff_lt.2 (neg_lt_zero.2 hpos)).symm
  · have hpos := scaled_pos hm q
    have hpos' := scaled_pos hm' q'
    rw [hux, huy, hvx, hvy]
    cases neg <;> cases neg'
    · exact congrArg some (compare_scaled hdx hdy).symm
    · exact congrArg some (compare_gt_iff_gt.2 ((neg_lt_zero.2 hpos').trans hpos)).symm
    · exact congrArg some (compare_lt_iff_lt.2 ((neg_lt_zero.2 hpos).trans hpos')).symm
    · refine congrArg some ?_
      change _ = compare (-(m * 2 ^ q : ℚ)) (-(m' * 2 ^ q'))
      rw [compare_neg_neg, compare_scaled hdx hdy]

theorem lt_iff_value {x y : Float} (hx : x.isFinite = true) (hy : y.isFinite = true) : x < y ↔ value x < value y := by
  rw [lt_iff_compare, compareDoubles_finite hx hy, Option.some_inj, compare_lt_iff_lt]

theorem le_iff_value {x y : Float} (hx : x.isFinite = true) (hy : y.isFinite = true) : x ≤ y ↔ value x ≤ value y := by
  rw [le_iff_compare, compareDoubles_finite hx hy, Option.some_inj, Option.some_inj, compare_lt_iff_lt,
    compare_eq_iff_eq, le_iff_lt_or_eq]

theorem beq_iff_compare {x y : Float} : (x == y) = true ↔ compareDoubles x y = some .eq := by
  rw [compareDoubles, ← unpack_toModel, ← unpack_toModel]
  change (x.toModel.unpack.compare y.toModel.unpack == some .eq) = true ↔ _
  simp

theorem withSign_inj {neg neg' : Bool} {v v' : ℚ} (hv : 0 < v) (hv' : 0 ≤ v') (h : withSign neg v = withSign neg' v') :
    neg = neg' ∧ v = v' := by
  cases neg <;> cases neg' <;> simp only [withSign, Bool.false_eq_true, if_true, if_false] at h
  · exact ⟨rfl, h⟩
  · linarith
  · linarith
  · exact ⟨rfl, neg_inj.1 h⟩

/-- Only zeros and not-a-number compare otherwise than by identity. -/
theorem eq_of_beq {x y : Float} {neg : Bool} {m : Nat} {q : Int} (hy : parts y = .finite neg m q) (hm : 0 < m)
    (h : (x == y) = true) : x = y := by
  have hcompare := beq_iff_compare.1 h
  apply parts_injective
  cases hx : parts x with
  | nan =>
      simp only [compareDoubles, hx, hy, Parts.unpacked, dif_neg hm.ne'] at hcompare
      cases neg <;> cases hcompare
  | infinite neg' =>
      simp only [compareDoubles, hx, hy, Parts.unpacked, dif_neg hm.ne'] at hcompare
      cases neg <;> cases neg' <;> cases hcompare
  | finite neg' m' q' =>
      rw [compareDoubles_finite (isFinite_of_parts hx) (isFinite_of_parts hy), Option.some_inj, compare_eq_iff_eq,
        value_of_parts hx, value_of_parts hy] at hcompare
      obtain ⟨rfl, hscaled⟩ := withSign_inj (scaled_pos hm q) (by positivity) hcompare.symm
      obtain ⟨rfl, rfl⟩ := eq_of_scaled_eq (hx ▸ parts_isDouble x) (hy ▸ parts_isDouble y) hscaled.symm
      exact hy.symm

/-! ### Bounds on sums -/

theorem abs_withSign (neg : Bool) {v : ℚ} (hv : 0 ≤ v) : |withSign neg v| = v := by
  cases neg with
  | false => exact abs_of_nonneg hv
  | true => exact (abs_neg v).trans (abs_of_nonneg hv)

theorem Format.IsNearest.bounded {f : Format} {v b : ℚ} {x : Float} (h : f.IsNearest v x) (hf : f.Fits) (hb : f.Holds b)
    (hv : |v| ≤ b) : x.isFinite = true ∧ |value x| ≤ b ∧ (0 ≤ v → 0 ≤ value x) := by
  obtain ⟨neg, num, den, hden, rfl, rfl⟩ := h
  rw [abs_withSign neg (by positivity)] at hv
  obtain ⟨m, q, hparts, hle⟩ := hf.nearest_le hden hb hv neg
  refine ⟨isFinite_of_parts hparts, ?_, ?_⟩
  · rw [value_of_parts hparts, abs_withSign neg (by positivity)]
    exact hle
  · intro hsigned
    cases neg with
    | false =>
        rw [value_of_parts hparts]
        exact (by positivity : (0 : ℚ) ≤ m * 2 ^ q)
    | true =>
        -- a number at least zero with a minus sign is zero
        have hquotient : (num / den : ℚ) = 0 := le_antisymm (neg_nonneg.1 hsigned) (by positivity)
        have hnum : num = 0 := by
          rcases div_eq_zero_iff.1 hquotient with hzero | hzero
          · exact_mod_cast hzero
          · exact absurd hzero (by exact_mod_cast hden.ne')
        rw [hnum, Format.nearest, if_pos rfl, value_of_parts (parts_zero true)]
        simp [withSign]

/-! A number less than half a unit above the greatest double is rounded to a finite one. -/

section Finite

variable {num den : Nat} (hnum : 0 < num) (hden : 0 < den)
  (hbelow : (num / den : ℚ) < (2 ^ 53 - 1 / 2) * 2 ^ (971 : Int))

include hnum hden hbelow

theorem unit_le_last : Format.double.unit num den ≤ 971 := by
  by_contra hlarge
  have hlow := (Format.double.unit_eq_least_or_le hnum hden).resolve_left (by change _ ≠ (-1074 : Int); omega)
  refine absurd (hlow.trans_lt hbelow) (not_lt.2 ?_)
  calc ((2 ^ 53 - 1 / 2) * 2 ^ (971 : Int) : ℚ) ≤ 2 ^ (53 : Int) * 2 ^ (971 : Int) := by
        gcongr
        norm_num
    _ = 2 ^ (1024 : Int) := by rw [← zpow_add₀ (by norm_num), show (53 : Int) + 971 = 1024 by norm_num]
    _ ≤ 2 ^ ((Format.double.precision : Int) + Format.double.unit num den - 1) := by
        refine zpow_le_zpow_right₀ (by norm_num) ?_
        change (1024 : Int) ≤ ((53 : Nat) : Int) + _ - 1
        omega

omit hnum in
theorem round_lt_two_pow (hlast : Format.double.unit num den = 971) : (Format.double.round num den).1 < 2 ^ 53 := by
  refine Nat.lt_of_le_pred (by norm_num) (Format.double.round_le hden ?_)
  rw [hlast, Nat.pred_eq_sub_one, Nat.cast_sub (by norm_num)]
  refine hbelow.trans_eq ?_
  congr 1
  push_cast
  ring

theorem round_lt_limit : ((Format.double.round num den).1 * 2 ^ Format.double.unit num den : ℚ) < 2 ^ (1024 : Int) := by
  rcases (unit_le_last hnum hden hbelow).lt_or_eq with hsmall | hlast
  · have hn : ((Format.double.round num den).1 : ℚ) ≤ 2 ^ (53 : Int) := by
      exact_mod_cast Format.double.round_le_two_pow hnum hden
    calc ((Format.double.round num den).1 * 2 ^ Format.double.unit num den : ℚ)
        ≤ 2 ^ (53 : Int) * 2 ^ (970 : Int) := by
          gcongr
          · norm_num
          · omega
      _ = 2 ^ (1023 : Int) := by rw [← zpow_add₀ (by norm_num), show (53 : Int) + 970 = 1023 by norm_num]
      _ < 2 ^ (1024 : Int) := zpow_lt_zpow_right₀ (by norm_num) (by norm_num)
  · have hn : ((Format.double.round num den).1 : ℚ) < 2 ^ (53 : Int) := by
      exact_mod_cast round_lt_two_pow hden hbelow hlast
    calc ((Format.double.round num den).1 * 2 ^ Format.double.unit num den : ℚ)
        < 2 ^ (53 : Int) * 2 ^ (971 : Int) := by
          rw [hlast]
          gcongr
      _ = 2 ^ (1024 : Int) := by rw [← zpow_add₀ (by norm_num), show (53 : Int) + 971 = 1024 by norm_num]

end Finite

theorem Format.IsNearest.finite {v : ℚ} {x : Float} (h : Format.double.IsNearest v x)
    (hv : |v| < (2 ^ 53 - 1 / 2) * 2 ^ (971 : Int)) : x.isFinite = true := by
  obtain ⟨neg, num, den, hden, rfl, rfl⟩ := h
  rw [abs_withSign neg (by positivity)] at hv
  rcases Nat.eq_zero_or_pos num with rfl | hnum
  · exact isFinite_of_parts (parts_zero neg)
  · obtain ⟨m, q, hparts, -⟩ := Format.double_fits.parts_nearest hden hnum neg (round_lt_limit hnum hden hv)
    exact isFinite_of_parts hparts

end Rover
