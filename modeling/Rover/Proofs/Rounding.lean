import Rover.Proofs.Double

/-!
# Rounding to a binary format

What `Format.nearest` does to a rational number. A format keeps the bits of a number down to a last one, its unit, and
the nearest multiple of the unit is found by `roundDiv`. Two bounds on that multiple carry everything else: a value of
the format rounds to itself, rounding goes beyond no value of the format, and a rounded number is a value of the format
or infinite.
-/

namespace Rover

/-! ### Integer division -/

theorem roundDiv_le {num den n : Nat} (h : 2 * num < (2 * n + 1) * den) : roundDiv num den ≤ n := by
  have hden : 0 < den := by
    by_contra hzero
    simp [Nat.eq_zero_of_not_pos hzero] at h
  have hle : num / den ≤ n := Nat.le_of_lt_succ ((Nat.div_lt_iff_lt_mul hden).2 (by nlinarith))
  simp only [roundDiv]
  split_ifs with hdown
  · exact hle
  · by_contra hlt
    have hdecomp := Nat.div_add_mod num den
    rw [show num / den = n by omega] at hdecomp
    exact hdown (.inl (by nlinarith))

theorem le_roundDiv {num den n : Nat} (hden : 0 < den) (h : n * den ≤ num) : n ≤ roundDiv num den := by
  have hle : n ≤ num / den := (Nat.le_div_iff_mul_le hden).2 h
  simp only [roundDiv]
  split_ifs <;> omega

/-! ### Powers of two

The program shifts numerator and denominator; over the rationals both shifts are one power with an integer exponent. -/

theorem two_zpow_mul (k : Int) : (2 : ℚ) ^ k * 2 ^ (-k).toNat = 2 ^ k.toNat := by
  rw [← zpow_natCast, ← zpow_natCast, ← zpow_add₀ (by norm_num)]
  congr 1
  omega

theorem mul_two_pow_mul_zpow (x : ℚ) (k : Nat) (q : Int) : x * 2 ^ k * 2 ^ q = x * 2 ^ (q + k) := by
  rw [mul_assoc, ← zpow_natCast, ← zpow_add₀ (by norm_num), add_comm]

theorem shifted_lt_iff {num den : Nat} (hden : 0 < den) (c : ℚ) (k : Int) :
    ((num <<< (-k).toNat : Nat) : ℚ) < c * (den <<< k.toNat : Nat) ↔ (num / den : ℚ) < c * 2 ^ k := by
  have hpos : (0 : ℚ) < den := by exact_mod_cast hden
  rw [Nat.shiftLeft_eq, Nat.shiftLeft_eq, div_lt_iff₀ hpos]
  push_cast
  rw [← two_zpow_mul k, ← mul_assoc, ← mul_assoc, mul_lt_mul_iff_left₀ (by positivity), mul_right_comm]

theorem shifted_quotient (m : Nat) (q : Int) :
    ((m <<< q.toNat : Nat) / (1 <<< (-q).toNat : Nat) : ℚ) = m * 2 ^ q := by
  rw [Nat.shiftLeft_eq, Nat.shiftLeft_eq, one_mul, div_eq_iff (by positivity)]
  push_cast
  rw [mul_assoc, two_zpow_mul]

theorem shiftLeft_pos {m : Nat} (hm : 0 < m) (k : Nat) : 0 < m <<< k := by
  rw [Nat.shiftLeft_eq]
  positivity

theorem one_shiftLeft_pos (k : Nat) : 0 < 1 <<< k := shiftLeft_pos one_pos k

theorem two_zpow_log2_le {n : Nat} (hn : 0 < n) : (2 : ℚ) ^ (n.log2 : Int) ≤ n := by
  rw [zpow_natCast]
  exact_mod_cast Nat.log2_self_le hn.ne'

theorem lt_two_zpow_log2 (n : Nat) : (n : ℚ) < 2 ^ ((n.log2 : Int) + 1) := by
  have h : (n : ℚ) < (2 : ℚ) ^ (n.log2 + 1) := by exact_mod_cast Nat.lt_log2_self
  rwa [← zpow_natCast, Nat.cast_add, Nat.cast_one] at h

theorem log2_add_lt {n : Nat} {u limit : Int} (hn : 0 < n) (h : (n * 2 ^ u : ℚ) < 2 ^ limit) :
    (n.log2 : Int) + u < limit := by
  rw [← zpow_lt_zpow_iff_right₀ (by norm_num : (1 : ℚ) < 2), zpow_add₀ (by norm_num)]
  refine lt_of_le_of_lt ?_ h
  gcongr
  exact two_zpow_log2_le hn

theorem lt_of_log2_add_lt {n : Nat} {u limit : Int} (h : (n.log2 : Int) + u < limit) :
    (n * 2 ^ u : ℚ) < 2 ^ limit := by
  calc (n * 2 ^ u : ℚ) < 2 ^ ((n.log2 : Int) + 1) * 2 ^ u := by
        gcongr
        exact lt_two_zpow_log2 n
    _ = 2 ^ ((n.log2 : Int) + u + 1) := by
        rw [← zpow_add₀ (by norm_num)]
        congr 1
        omega
    _ ≤ 2 ^ limit := zpow_le_zpow_right₀ (by norm_num) (by omega)

theorem floorLog2_spec {num den : Nat} (hnum : 0 < num) (hden : 0 < den) :
    (2 : ℚ) ^ floorLog2 num den ≤ num / den ∧ (num / den : ℚ) < 2 ^ (floorLog2 num den + 1) := by
  have hpos : (0 : ℚ) < den := by exact_mod_cast hden
  have htwo : (2 : ℚ) ≠ 0 := by norm_num
  have hnumLow := two_zpow_log2_le hnum
  have hnumHigh := lt_two_zpow_log2 num
  have hdenLow := two_zpow_log2_le hden
  have hdenHigh := lt_two_zpow_log2 den
  have htest (k : Int) : num <<< (-k).toNat < den <<< k.toNat ↔ (num / den : ℚ) < 2 ^ k := by
    rw [← Nat.cast_lt (α := ℚ), ← one_mul ((den <<< k.toNat : Nat) : ℚ), shifted_lt_iff hden, one_mul]
  unfold floorLog2
  simp only [htest]
  split_ifs with hless
  · refine ⟨?_, by rwa [sub_add_cancel]⟩
    rw [le_div_iff₀ hpos]
    calc (2 : ℚ) ^ ((num.log2 : Int) - den.log2 - 1) * den
        ≤ 2 ^ ((num.log2 : Int) - den.log2 - 1) * 2 ^ ((den.log2 : Int) + 1) := by gcongr
      _ = 2 ^ (num.log2 : Int) := by rw [← zpow_add₀ htwo]; congr 1; omega
      _ ≤ num := hnumLow
  · refine ⟨not_lt.1 hless, ?_⟩
    rw [div_lt_iff₀ hpos]
    calc (num : ℚ) < 2 ^ ((num.log2 : Int) + 1) := hnumHigh
      _ = 2 ^ ((num.log2 : Int) - den.log2 + 1) * 2 ^ (den.log2 : Int) := by
          rw [← zpow_add₀ htwo]
          congr 1
          omega
      _ ≤ 2 ^ ((num.log2 : Int) - den.log2 + 1) * den := by gcongr

/-! ### The nearest multiple of the unit -/

namespace Format

/-- The values of a format: multiples of a bit that it keeps, of its precision, below its limit. -/
def Holds (f : Format) (v : ℚ) : Prop :=
  ∃ (n : Nat) (u : Int), v = n * 2 ^ u ∧ n < 2 ^ f.precision ∧ f.least ≤ u ∧ v < 2 ^ f.limit

theorem Holds.lt_limit {f : Format} {v : ℚ} (hv : f.Holds v) : v < 2 ^ f.limit := by
  obtain ⟨_, _, _, _, _, hlt⟩ := hv
  exact hlt

section Unit

variable (f : Format) {num den : Nat} (hnum : 0 < num) (hden : 0 < den)

theorem least_le_unit : f.least ≤ f.unit num den := le_max_right _ _

include hden

theorem round_le {n : Nat} (h : (num / den : ℚ) < (n + 1 / 2) * 2 ^ f.unit num den) : (f.round num den).1 ≤ n := by
  apply roundDiv_le
  rw [← Nat.cast_lt (α := ℚ)]
  rw [← shifted_lt_iff hden] at h
  push_cast at h ⊢
  linarith

theorem le_round {n : Nat} (h : (n * 2 ^ f.unit num den : ℚ) ≤ num / den) : n ≤ (f.round num den).1 := by
  apply le_roundDiv (shiftLeft_pos hden _)
  rw [← Nat.cast_le (α := ℚ)]
  rw [← not_lt, ← shifted_lt_iff hden, not_lt] at h
  exact_mod_cast h

include hnum

theorem lt_two_zpow_unit : (num / den : ℚ) < 2 ^ ((f.precision : Int) + f.unit num den) := by
  refine (floorLog2_spec hnum hden).2.trans_le (zpow_le_zpow_right₀ (by norm_num) ?_)
  have hunit : floorLog2 num den + 1 - f.precision ≤ f.unit num den := le_max_left _ _
  omega

theorem unit_eq_least_or_le :
    f.unit num den = f.least ∨ (2 : ℚ) ^ ((f.precision : Int) + f.unit num den - 1) ≤ num / den := by
  rcases max_choice (floorLog2 num den + 1 - f.precision) f.least with hunit | hunit
  · right
    refine le_trans (zpow_le_zpow_right₀ (by norm_num) ?_) (floorLog2_spec hnum hden).1
    rw [unit, hunit]
    omega
  · exact .inl hunit

theorem round_le_two_pow : (f.round num den).1 ≤ 2 ^ f.precision := by
  apply f.round_le hden
  refine (f.lt_two_zpow_unit hnum hden).trans_le ?_
  rw [zpow_add₀ (by norm_num), zpow_natCast]
  push_cast
  gcongr
  norm_num

/-- A value of the format is a multiple of the last bit that is kept of any smaller number. -/
theorem Holds.exists_multiple {v : ℚ} (hv : f.Holds v) (hle : (num / den : ℚ) ≤ v) :
    ∃ n : Nat, v = n * 2 ^ f.unit num den := by
  obtain ⟨n, u, rfl, hn, hu, -⟩ := hv
  have hunit : f.unit num den ≤ u := by
    rcases f.unit_eq_least_or_le hnum hden with hleast | hbit
    · omega
    · have hlt : (n * 2 ^ u : ℚ) < 2 ^ ((f.precision : Int) + u) := by
        have hn' : (n : ℚ) < 2 ^ f.precision := by exact_mod_cast hn
        rw [zpow_add₀ (by norm_num), zpow_natCast]
        gcongr
      have hexponent := (zpow_lt_zpow_iff_right₀ (by norm_num : (1 : ℚ) < 2)).1 ((hbit.trans hle).trans_lt hlt)
      omega
  refine ⟨n * 2 ^ (u - f.unit num den).toNat, ?_⟩
  push_cast
  rw [mul_two_pow_mul_zpow]
  congr 2
  omega

theorem round_le_of_holds {v : ℚ} (hv : f.Holds v) (hle : (num / den : ℚ) ≤ v) :
    ((f.round num den).1 * 2 ^ f.unit num den : ℚ) ≤ v := by
  obtain ⟨n, rfl⟩ := hv.exists_multiple f hnum hden hle
  have hround : (f.round num den).1 ≤ n := by
    apply f.round_le hden
    refine hle.trans_lt ?_
    gcongr
    norm_num
  gcongr

theorem round_eq_of_holds (hv : f.Holds (num / den)) :
    ((f.round num den).1 * 2 ^ f.unit num den : ℚ) = num / den := by
  obtain ⟨n, hn⟩ := hv.exists_multiple f hnum hden le_rfl
  refine le_antisymm (f.round_le_of_holds hnum hden hv le_rfl) ?_
  have hround := f.le_round hden hn.ge
  rw [hn]
  gcongr

end Unit

end Format

/-! ### Putting a double together -/

/-- The 53 bits of a significand, from its own highest bit on. -/
theorem aligned_spec {n : Nat} (hpos : 0 < n) (hn : n ≤ 2 ^ 53) :
    2 ^ 52 ≤ n <<< (52 - n.log2) >>> (n.log2 - 52) ∧ n <<< (52 - n.log2) >>> (n.log2 - 52) < 2 ^ 53 ∧
      ∀ u : Int, ((n <<< (52 - n.log2) >>> (n.log2 - 52) : Nat) * 2 ^ ((n.log2 : Int) + u - 52) : ℚ) = n * 2 ^ u := by
  rcases Nat.lt_or_ge n (2 ^ 53) with hlt | hge
  · have hlow := Nat.log2_self_le hpos.ne'
    have hhigh := @Nat.lt_log2_self n
    have htop : n.log2 ≤ 52 := Nat.lt_succ_iff.1 ((Nat.log2_lt hpos.ne').2 hlt)
    rw [show n.log2 - 52 = 0 by omega, Nat.shiftRight_zero, Nat.shiftLeft_eq]
    refine ⟨?_, ?_, fun u => ?_⟩
    · calc 2 ^ 52 = 2 ^ n.log2 * 2 ^ (52 - n.log2) := by rw [← pow_add]; congr 1; omega
        _ ≤ n * 2 ^ (52 - n.log2) := by gcongr
    · calc n * 2 ^ (52 - n.log2) < 2 ^ (n.log2 + 1) * 2 ^ (52 - n.log2) := by gcongr
        _ = 2 ^ 53 := by rw [← pow_add]; congr 1; omega
    · push_cast
      rw [mul_two_pow_mul_zpow, show (n.log2 : Int) + u - 52 + (52 - n.log2 : Nat) = u by omega]
  · obtain rfl : n = 2 ^ 53 := le_antisymm hn hge
    rw [Nat.log2_two_pow]
    refine ⟨by decide, by decide, fun u => ?_⟩
    rw [show 2 ^ 53 <<< (52 - 53) >>> (53 - 52) = 2 ^ 52 by decide, show ((53 : Nat) : Int) + u - 52 = u + 1 by omega,
      zpow_add₀ (by norm_num)]
    push_cast
    ring

theorem parts_assemble {n : Nat} {u : Int} (neg : Bool) (hn : n ≤ 2 ^ 53) (hu : -1074 ≤ u)
    (hlimit : (n.log2 : Int) + u < 1024) :
    ∃ (m : Nat) (q : Int), parts (assemble neg n u) = .finite neg m q ∧ (m * 2 ^ q : ℚ) = n * 2 ^ u := by
  rcases Nat.eq_zero_or_pos n with rfl | hpos
  · exact ⟨0, -1074, parts_zero neg, by simp⟩
  unfold assemble
  simp only [if_neg hpos.ne', if_neg (not_le.2 hlimit)]
  split_ifs with hsub
  · have hfraction : n <<< (u + 1074).toNat < 2 ^ 52 := by
      rw [Nat.shiftLeft_eq]
      calc n * 2 ^ (u + 1074).toNat < 2 ^ (n.log2 + 1) * 2 ^ (u + 1074).toNat := by
            gcongr
            exact Nat.lt_log2_self
        _ = 2 ^ (n.log2 + 1 + (u + 1074).toNat) := by rw [pow_add _ (n.log2 + 1)]
        _ ≤ 2 ^ 52 := Nat.pow_le_pow_right (by omega) (by omega)
    refine ⟨n <<< (u + 1074).toNat, -1074, ?_, ?_⟩
    · rw [parts_ofFields (by omega) hfraction]
      rfl
    · rw [Nat.shiftLeft_eq, Nat.cast_mul, Nat.cast_pow, Nat.cast_ofNat, mul_two_pow_mul_zpow,
        show -1074 + ((u + 1074).toNat : Int) = u by omega]
  · obtain ⟨hbit, hlt, hvalue⟩ := aligned_spec hpos hn
    refine ⟨_, _, ?_, hvalue u⟩
    generalize n <<< (52 - n.log2) >>> (n.log2 - 52) = significand at hbit hlt
    rw [parts_ofFields (by omega) (by omega), Parts.ofFields, if_neg (by omega), if_neg (by omega),
      show 2 ^ 52 + (significand - 4503599627370496) = significand by omega,
      show (((n.log2 : Int) + u + 1023).toNat : Int) - 1075 = (n.log2 : Int) + u - 52 by omega]

theorem eq_of_scaled_eq {neg : Bool} {m m' : Nat} {q q' : Int} (h : (Parts.finite neg m q).IsDouble)
    (h' : (Parts.finite neg m' q').IsDouble) (heq : (m * 2 ^ q : ℚ) = m' * 2 ^ q') : m = m' ∧ q = q' := by
  -- with the smaller of two exponents the significand would need a 54th bit
  have hexponent : ∀ {m m' : Nat} {q q' : Int}, (Parts.finite neg m q).IsDouble →
      (Parts.finite neg m' q').IsDouble → (m * 2 ^ q : ℚ) = m' * 2 ^ q' → q' ≤ q := by
    intro m m' q q' h h' heq
    by_contra hlt
    have hmul : (m : ℚ) = m' * 2 ^ (q' - q).toNat := by
      have hne : (2 : ℚ) ^ q ≠ 0 := by positivity
      apply mul_right_cancel₀ hne
      rw [heq, mul_two_pow_mul_zpow]
      congr 2
      omega
    have hmul' : m = m' * 2 ^ (q' - q).toNat := by exact_mod_cast hmul
    have hlow := h.2.1
    have hbit : 2 ^ 52 ≤ m' := h'.2.2.2.resolve_right (by omega)
    have htwo : 2 ^ 1 ≤ 2 ^ (q' - q).toNat := Nat.pow_le_pow_right (by omega) (by omega)
    have hm := h.1
    nlinarith
  obtain rfl : q = q' := le_antisymm (hexponent h' h heq.symm) (hexponent h h' heq)
  have hne : (2 : ℚ) ^ q ≠ 0 := by positivity
  exact ⟨by exact_mod_cast mul_right_cancel₀ hne heq, rfl⟩

/-! ### The nearest value -/

namespace Format

/-- Formats whose values are doubles. -/
structure Fits (f : Format) : Prop where
  precision_pos : 0 < f.precision
  precision_le : f.precision ≤ 53
  least_lt : f.least < f.limit
  le_least : -1074 ≤ f.least
  limit_le : f.limit ≤ 1024

theorem single_fits : single.Fits := by constructor <;> decide

theorem double_fits : double.Fits := by constructor <;> decide

/-- Where the nearest multiple of the unit is not below the limit, the nearest value is infinite. -/
theorem parts_nearest_overflow (f : Format) {num den : Nat} (hnum : 0 < num) (neg : Bool)
    (hlimit : ¬ ((f.round num den).1 * 2 ^ f.unit num den : ℚ) < 2 ^ f.limit) :
    parts (f.nearest neg num den) = .infinite neg := by
  have hlog : f.limit ≤ ((f.round num den).1.log2 : Int) + (f.round num den).2 :=
    not_lt.1 fun h => hlimit (lt_of_log2_add_lt h)
  unfold nearest
  rw [if_neg hnum.ne']
  simp only [if_pos hlog, parts_infinity]

namespace Fits

variable {f : Format} {num den : Nat} (hf : f.Fits)

include hf

theorem holds_mul {n : Nat} {u : Int} (hn : n ≤ 2 ^ f.precision) (hu : f.least ≤ u)
    (hlimit : (n * 2 ^ u : ℚ) < 2 ^ f.limit) : f.Holds (n * 2 ^ u) := by
  rcases hn.lt_or_eq with hlt | heq
  · exact ⟨n, u, rfl, hlt, hu, hlimit⟩
  · have hpos := hf.precision_pos
    refine ⟨2 ^ (f.precision - 1), u + 1, ?_, Nat.pow_lt_pow_right (by omega) (by omega), by omega, hlimit⟩
    rw [heq, zpow_add₀ (by norm_num), ← Nat.sub_add_cancel hpos, pow_succ]
    push_cast
    ring

variable (hden : 0 < den)

include hden

theorem log2_round_lt (hnum : 0 < num) (hlimit : ((f.round num den).1 * 2 ^ f.unit num den : ℚ) < 2 ^ f.limit) :
    ((f.round num den).1.log2 : Int) + f.unit num den < f.limit := by
  rcases Nat.eq_zero_or_pos (f.round num den).1 with hzero | hpos
  · -- only a number whose unit is the least one rounds to zero
    have hleast : f.unit num den = f.least := by
      refine (f.unit_eq_least_or_le hnum hden).resolve_right fun hbit => ?_
      have hpos := hf.precision_pos
      have hone : 1 ≤ (f.round num den).1 := by
        apply f.le_round hden
        rw [Nat.cast_one, one_mul]
        exact le_trans (zpow_le_zpow_right₀ (by norm_num) (by omega)) hbit
      omega
    have hlt := hf.least_lt
    rw [hzero, Nat.log2_zero, hleast]
    omega
  · exact log2_add_lt hpos hlimit

/-- Where the nearest multiple of the unit is below the limit, it is the nearest value. -/
theorem parts_nearest (hnum : 0 < num) (neg : Bool)
    (hlimit : ((f.round num den).1 * 2 ^ f.unit num den : ℚ) < 2 ^ f.limit) :
    ∃ (m : Nat) (q : Int), parts (f.nearest neg num den) = .finite neg m q ∧
      (m * 2 ^ q : ℚ) = (f.round num den).1 * 2 ^ f.unit num den := by
  have hlog := hf.log2_round_lt hden hnum hlimit
  have hround := (f.round_le_two_pow hnum hden).trans (Nat.pow_le_pow_right (by omega) hf.precision_le)
  have hassemble := parts_assemble neg hround (hf.le_least.trans f.least_le_unit) (hlog.trans_le hf.limit_le)
  unfold nearest
  rw [if_neg hnum.ne']
  change ∃ m q, parts (if ((f.round num den).1.log2 : Int) + f.unit num den ≥ f.limit then infinity neg
    else assemble neg (f.round num den).1 (f.unit num den)) = _ ∧ _
  rw [if_neg (not_le.2 hlog)]
  exact hassemble

/-- The nearest value is infinite or a value of the format, with the sign that was asked for. -/
theorem nearest_cases (neg : Bool) :
    parts (f.nearest neg num den) = .infinite neg ∨
      ∃ (m : Nat) (q : Int), parts (f.nearest neg num den) = .finite neg m q ∧ f.Holds (m * 2 ^ q) := by
  rcases Nat.eq_zero_or_pos num with rfl | hnum
  · refine .inr ⟨0, -1074, parts_zero neg, 0, f.least, by simp, by positivity, le_rfl, ?_⟩
    rw [Nat.cast_zero, zero_mul]
    positivity
  by_cases hlimit : ((f.round num den).1 * 2 ^ f.unit num den : ℚ) < 2 ^ f.limit
  · obtain ⟨m, q, hparts, hvalue⟩ := hf.parts_nearest hden hnum neg hlimit
    refine .inr ⟨m, q, hparts, ?_⟩
    rw [hvalue]
    exact hf.holds_mul (f.round_le_two_pow hnum hden) f.least_le_unit hlimit
  · exact .inl (f.parts_nearest_overflow hnum neg hlimit)

/-- Rounding goes beyond no value of the format. -/
theorem nearest_le {v : ℚ} (hv : f.Holds v) (hle : (num / den : ℚ) ≤ v) (neg : Bool) :
    ∃ (m : Nat) (q : Int), parts (f.nearest neg num den) = .finite neg m q ∧ (m * 2 ^ q : ℚ) ≤ v := by
  rcases Nat.eq_zero_or_pos num with rfl | hnum
  · exact ⟨0, -1074, parts_zero neg, by simpa using hle⟩
  have hround := f.round_le_of_holds hnum hden hv hle
  obtain ⟨m, q, hparts, hvalue⟩ := hf.parts_nearest hden hnum neg (hround.trans_lt hv.lt_limit)
  exact ⟨m, q, hparts, hvalue ▸ hround⟩

/-- A value of the format is its own nearest value. -/
theorem nearest_of_holds (hv : f.Holds (num / den)) (neg : Bool) :
    ∃ (m : Nat) (q : Int), parts (f.nearest neg num den) = .finite neg m q ∧ (m * 2 ^ q : ℚ) = num / den := by
  rcases Nat.eq_zero_or_pos num with rfl | hnum
  · exact ⟨0, -1074, parts_zero neg, by simp⟩
  have hround := f.round_eq_of_holds hnum hden hv
  obtain ⟨m, q, hparts, hvalue⟩ := hf.parts_nearest hden hnum neg (hround.trans_lt hv.lt_limit)
  exact ⟨m, q, hparts, hvalue.trans hround⟩

end Fits

end Format

end Rover
