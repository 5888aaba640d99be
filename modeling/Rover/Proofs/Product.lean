import Rover.Proofs.Sum

/-!
# Products and quotients of doubles

As it is with sums, Lean's model of a product and of a quotient computes the nearest double to the exact one. The model
rounds the exact significand of a product. Of a quotient it rounds a significand that has been cut off, and keeps how what
was cut off compares with a half; that is as much as rounding needs to know.
-/

namespace Rover

open Float.Model (UnpackedFloat totalExponent)
open Float.Model.UnpackedFloat
open Float.Model.Format (binary64)

/-! ### Rounding a significand that has been cut off -/

theorem Reads.fraction (num : Nat) {den : Nat} (hden : 0 < den) :
    Reads (.ofMantissaAndAccuracy (num / den) (accuracyOfFraction (num % den) den)) num den := by
  unfold accuracyOfFraction
  split_ifs with hzero
  · refine ⟨rfl, ?_, ?_⟩ <;> simp [ExtendedMantissa.ofMantissaAndAccuracy, hzero]
    omega
  · cases hhalf : compare (2 * (num % den)) den with
    | lt =>
        have hlt := compare_lt_iff_lt.1 hhalf
        refine ⟨rfl, ?_, ?_⟩ <;> simp [ExtendedMantissa.ofMantissaAndAccuracy] <;> omega
    | eq =>
        have heq := compare_eq_iff_eq.1 hhalf
        refine ⟨rfl, ?_, ?_⟩ <;> simp [ExtendedMantissa.ofMantissaAndAccuracy] <;> omega
    | gt =>
        have hgt := compare_gt_iff_gt.1 hhalf
        refine ⟨rfl, ?_, ?_⟩ <;> simp [ExtendedMantissa.ofMantissaAndAccuracy] <;> omega

theorem scaled_quotient (num den : Nat) (e : Int) :
    ((num <<< e.toNat : Nat) / (den <<< (-e).toNat : Nat) : ℚ) = num / den * 2 ^ e := by
  have hscale := shifted_quotient num e
  rw [Nat.shiftLeft_eq 1, one_mul] at hscale
  rw [Nat.shiftLeft_eq den, Nat.cast_mul, div_mul_eq_div_div_swap, hscale]
  ring

section CutOff

variable {num den : Nat} {e : Int} (hnum : 0 < num) (hden : 0 < den)
  (he : e ≤ Format.double.unit (num <<< e.toNat) (den <<< (-e).toNat))

include hnum hden he

/-- Cutting off below the last bit that is kept does not change which bit that is. -/
theorem targetExponent_cutOff : binary64.targetExponent (totalExponent (num / den) e)
    = Format.double.unit (num <<< e.toNat) (den <<< (-e).toNat) := by
  have htarget : binary64.targetExponent (totalExponent (num / den) e)
      = max (((num / den).log2 : Int) + 1 + e - 53) (-1074) := rfl
  have hunit : Format.double.unit (num <<< e.toNat) (den <<< (-e).toNat)
      = max (floorLog2 (num <<< e.toNat) (den <<< (-e).toNat) + 1 - 53) (-1074) := rfl
  have hdenQ : (0 : ℚ) < den := by exact_mod_cast hden
  rcases Nat.eq_zero_or_pos (num / den) with hzero | hpos
  · -- nothing is left: the number lies below the bit, so the bit is the last one of the format or below it
    have hless : floorLog2 (num <<< e.toNat) (den <<< (-e).toNat) < e := by
      have hspec := (floorLog2_spec (shiftLeft_pos hnum e.toNat) (shiftLeft_pos hden (-e).toNat)).1
      rw [scaled_quotient] at hspec
      have hone : (num / den : ℚ) < 1 := by
        rw [div_lt_one hdenQ]
        exact_mod_cast (Nat.div_eq_zero_iff_lt hden).1 hzero
      have hbelow : (2 : ℚ) ^ floorLog2 (num <<< e.toNat) (den <<< (-e).toNat) < 2 ^ e := by
        refine hspec.trans_lt ?_
        exact mul_lt_of_lt_one_left (by positivity) hone
      exact (zpow_lt_zpow_iff_right₀ (by norm_num)).1 hbelow
    rw [hunit] at he
    rw [htarget, hunit, hzero, Nat.log2_zero]
    omega
  · have hlog : floorLog2 (num <<< e.toNat) (den <<< (-e).toNat) = ((num / den).log2 : Int) + e := by
      apply floorLog2_eq (shiftLeft_pos hnum _) (shiftLeft_pos hden _)
      · rw [scaled_quotient, zpow_add₀ (by norm_num)]
        gcongr
        calc (2 : ℚ) ^ ((num / den).log2 : Int) ≤ (num / den : Nat) := two_zpow_log2_le hpos
          _ ≤ num / den := Nat.cast_div_le
      · rw [scaled_quotient, show ((num / den).log2 : Int) + e + 1 = (num / den).log2 + 1 + e by ring,
          zpow_add₀ (by norm_num)]
        gcongr
        have hceil : (num : ℚ) / den < (num / den : Nat) + 1 := by
          rw [div_lt_iff₀ hdenQ, mul_comm]
          exact_mod_cast Nat.lt_mul_div_succ num hden
        refine hceil.trans_le ?_
        rw [← Nat.cast_succ, ← Nat.cast_succ, zpow_natCast]
        exact_mod_cast Nat.lt_log2_self
    rw [htarget, hunit, hlog]
    congr 1
    ring

theorem packed_cutOff (neg : Bool) :
    packed (roundWithAccuracy binary64 (signOf neg) (num / den) e (accuracyOfFraction (num % den) den))
      = Format.double.nearest neg (num <<< e.toNat) (den <<< (-e).toNat) := by
  have hnum' := shiftLeft_pos hnum e.toNat
  have hden' := shiftLeft_pos hden (-e).toNat
  rw [← packed_carried_round hnum' hden']
  congr 1
  have htarget := targetExponent_cutOff hnum hden he
  generalize hT : Format.double.unit (num <<< e.toNat) (den <<< (-e).toNat) = T at he htarget ⊢
  apply roundWithAccuracy_eq_carried
  · simp only [shiftToTargetExponent, shiftToExponent, htarget]
    rw [((Reads.fraction num hden).shiftRight hden _).roundedMantissa]
    simp only [Format.round, hT]
    apply roundDiv_congr (by positivity)
    · exact shiftLeft_pos hden' _
    · simp only [Nat.shiftLeft_eq]
      have hexponent : (-e).toNat + T.toNat = e.toNat + (-T).toNat + (T - e).toNat := by omega
      calc num * (den * 2 ^ (-e).toNat * 2 ^ T.toNat) = num * den * 2 ^ ((-e).toNat + T.toNat) := by
            rw [pow_add]
            ring
        _ = num * 2 ^ e.toNat * 2 ^ (-T).toNat * (den * 2 ^ (T - e).toNat) := by
            rw [hexponent, pow_add, pow_add]
            ring
  · simp only [shiftToTargetExponent, shiftToExponent, htarget]
    omega
  · exact Format.double.round_le_two_pow hnum' hden'
  · rw [← hT]
    exact Format.double.least_le_unit

end CutOff

/-! ### Products -/

theorem withSign_mul (neg neg' : Bool) (a b : ℚ) : withSign (neg ^^ neg') (a * b) = withSign neg a * withSign neg' b := by
  cases neg <;> cases neg' <;> simp [withSign]

theorem signOf_mul (neg neg' : Bool) : signOf neg * signOf neg' = signOf (neg ^^ neg') := by
  cases neg <;> cases neg' <;> rfl

/-- A product of finite doubles is nearest to the exact product. -/
theorem isNearest_mul {x y : Float} (hfx : x.isFinite = true) (hfy : y.isFinite = true) :
    Format.double.IsNearest (value x * value y) (x * y) := by
  obtain ⟨neg, m, q, hx⟩ := isFinite_iff.1 hfx
  obtain ⟨neg', m', q', hy⟩ := isFinite_iff.1 hfy
  have hmul : x * y = packed (UnpackedFloat.mul binary64 (parts x).unpacked (parts y).unpacked) := by
    rw [← unpack_toModel, ← unpack_toModel]
    rfl
  rw [hmul]
  rcases unpacked_of_finite hx with ⟨hux, hvx⟩ | ⟨hm, hux⟩ <;> rcases unpacked_of_finite hy with ⟨huy, hvy⟩ | ⟨hm', huy⟩
  · rw [hux, huy, hvx, zero_mul]
    exact isNearest_zero _
  · rw [hux, huy, hvx, zero_mul]
    exact isNearest_zero _
  · rw [hux, huy, hvy, mul_zero]
    exact isNearest_zero _
  · have hpos : 0 < m * m' := Nat.mul_pos hm hm'
    have hbit : q + q' ≤ Format.double.unit ((m * m') <<< (q + q').toNat) (1 <<< (-(q + q')).toNat) := by
      rw [← targetExponent_eq_unit hpos]
      change q + q' ≤ max (((m * m').log2 : Int) + 1 + (q + q') - 53) (-1074)
      obtain ⟨-, hlow, -, hbits⟩ := hx ▸ parts_isDouble x
      obtain ⟨-, hlow', -, hbits'⟩ := hy ▸ parts_isDouble y
      -- a factor with all its bits gives the product at least as many; without any the product is below the format
      have hlarge : 2 ^ 52 ≤ m * m' → 52 ≤ (m * m').log2 := (Nat.le_log2 hpos.ne').2
      rcases hbits with hbits | hbits
      · have := hlarge (hbits.trans (Nat.le_mul_of_pos_right m hm'))
        omega
      · rcases hbits' with hbits' | hbits'
        · have := hlarge (hbits'.trans (Nat.le_mul_of_pos_left m' hm))
          omega
        · omega
    have hround := packed_cutOff hpos one_pos hbit (neg ^^ neg')
    rw [Nat.div_one, Nat.mod_one, show accuracyOfFraction 0 1 = .exact from rfl, ← signOf_mul] at hround
    refine ⟨neg ^^ neg', (m * m') <<< (q + q').toNat, _, one_shiftLeft_pos (-(q + q')).toNat, ?_, ?_⟩
    · rw [shifted_quotient, value_of_parts hx, value_of_parts hy, ← withSign_mul, zpow_add₀ (by norm_num)]
      push_cast
      congr 1
      ring
    · rw [hux, huy]
      exact hround

/-! ### Quotients -/

theorem withSign_div (neg neg' : Bool) (a b : ℚ) : withSign (neg ^^ neg') (a / b) = withSign neg a / withSign neg' b := by
  cases neg <;> cases neg' <;> simp [withSign, neg_div, div_neg]

theorem signOf_div (neg neg' : Bool) : signOf neg / signOf neg' = signOf (neg ^^ neg') := by
  cases neg <;> cases neg' <;> rfl

/-- The model cuts a quotient off at or below the last bit that is kept. -/
theorem cutOff_le_unit {m m' : Nat} (hm : 0 < m) (hm' : 0 < m') {q q' e : Int} (he : e ≤ q - q')
    (htarget : e ≤ binary64.targetExponent (totalExponent m q - totalExponent m' q')) :
    e ≤ Format.double.unit ((m <<< (q - q' - e).toNat) <<< e.toNat) (m' <<< (-e).toNat) := by
  have hpos := shiftLeft_pos hm (q - q' - e).toNat
  have hspec := (floorLog2_spec (shiftLeft_pos hpos e.toNat) (shiftLeft_pos hm' (-e).toNat)).2
  generalize hF : floorLog2 ((m <<< (q - q' - e).toNat) <<< e.toNat) (m' <<< (-e).toNat) = F at hspec
  have hlog : (m.log2 : Int) + q - (m'.log2 + 1 + q') < F + 1 := by
    refine (zpow_lt_zpow_iff_right₀ (by norm_num : (1 : ℚ) < 2)).1 (lt_of_le_of_lt ?_ hspec)
    rw [scaled_quotient, Nat.shiftLeft_eq, Nat.cast_mul]
    calc (2 : ℚ) ^ ((m.log2 : Int) + q - (m'.log2 + 1 + q'))
        = 2 ^ (m.log2 : Int) / 2 ^ ((m'.log2 : Int) + 1) * 2 ^ (q - q') := by
          rw [← zpow_sub₀ (by norm_num), ← zpow_add₀ (by norm_num)]
          congr 1
          ring
      _ ≤ m / m' * 2 ^ (q - q') := by
          gcongr
          · exact two_zpow_log2_le hm
          · exact (lt_two_zpow_log2 m').le
      _ = m * ((2 ^ (q - q' - e).toNat : Nat) : ℚ) / m' * 2 ^ e := by
          push_cast
          rw [← zpow_natCast, Int.toNat_of_nonneg (by omega), zpow_sub₀ (by norm_num : (2 : ℚ) ≠ 0) (q - q')]
          field_simp
  have hunit : Format.double.unit ((m <<< (q - q' - e).toNat) <<< e.toNat) (m' <<< (-e).toNat)
      = max (F + 1 - 53) (-1074) := by
    rw [← hF]
    rfl
  change e ≤ max ((m.log2 : Int) + 1 + q - (m'.log2 + 1 + q') - 53) (-1074) at htarget
  rw [hunit]
  omega

/-- A quotient of finite doubles is nearest to the exact quotient. -/
theorem isNearest_div {x y : Float} (hfx : x.isFinite = true) (hfy : y.isFinite = true) (hvy : value y ≠ 0) :
    Format.double.IsNearest (value x / value y) (x / y) := by
  obtain ⟨neg, m, q, hx⟩ := isFinite_iff.1 hfx
  obtain ⟨neg', m', q', hy⟩ := isFinite_iff.1 hfy
  have hdiv : x / y = packed (UnpackedFloat.div binary64 (parts x).unpacked (parts y).unpacked) := by
    rw [← unpack_toModel, ← unpack_toModel]
    rfl
  rw [hdiv]
  obtain ⟨hm', huy⟩ := (unpacked_of_finite hy).resolve_left fun hzero => hvy hzero.2
  rcases unpacked_of_finite hx with ⟨hux, hvx⟩ | ⟨hm, hux⟩
  · rw [hux, huy, hvx, zero_div]
    exact isNearest_zero _
  · generalize he : min (q - q') (binary64.targetExponent (totalExponent m q - totalExponent m' q')) = e
    have hpos := shiftLeft_pos hm (q - q' - e).toNat
    have hle : e ≤ q - q' := he ▸ min_le_left _ _
    have hround := packed_cutOff hpos hm' (cutOff_le_unit hm hm' hle (he ▸ min_le_right _ _)) (neg ^^ neg')
    refine ⟨neg ^^ neg', (m <<< (q - q' - e).toNat) <<< e.toNat, _, shiftLeft_pos hm' (-e).toNat, ?_, ?_⟩
    · rw [scaled_quotient, Nat.shiftLeft_eq, value_of_parts hx, value_of_parts hy, ← withSign_div]
      congr 1
      push_cast
      rw [div_mul_eq_mul_div, mul_two_pow_mul_zpow, mul_div_mul_comm, ← zpow_sub₀ (by norm_num), div_mul_eq_mul_div]
      congr 3
      omega
    · rw [hux, huy, ← hround, ← signOf_div]
      simp only [UnpackedFloat.div, divCore, he]

theorem isFinite_of_isFinite_div {a b : UnpackedFloat} (hb : b.isFinite = true)
    (h : (UnpackedFloat.div binary64 a b).isFinite = true) : a.isFinite = true := by
  cases a with
  | notANumber => cases h
  | infinity s => cases b <;> simp [UnpackedFloat.div, UnpackedFloat.isFinite] at hb h
  | zero s => rfl
  | finite s m e hm => rfl

/-- A quotient by a finite divisor is finite only if the dividend is. -/
theorem isFinite_of_div {x y : Float} (hy : y.isFinite = true) (h : (x / y).isFinite = true) : x.isFinite = true := by
  change (packed (UnpackedFloat.div binary64 x.toModel.unpack y.toModel.unpack)).isFinite = true at h
  exact isFinite_of_isFinite_div hy (isFinite_of_packed h)

end Rover
