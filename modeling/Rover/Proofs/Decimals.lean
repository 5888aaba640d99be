import Rover.Proofs.Numerals
import Rover.Proofs.Sum

/-!
# Decimals and doubles

The double nearest to a decimal depends on the number that the decimal stands for, not on its form (`toFloat_congr`). A
number that is close to a double, by one part in `2 ^ 54`, has it as its nearest one (`nearest_of_close`). Among numbers of
seventeen digits there is one so close to every double, so the search for the shortest decimal that reads back finds one
(`toFloat_shortest`).
-/

namespace Rover

open Numeral (digits)

/-! ### Rounding up -/

theorem le_roundDiv_of_half {num den n : Nat} (hden : 0 < den) (h : 2 * n * den < 2 * num + den) :
    n ≤ roundDiv num den := by
  have hdecomp := Nat.div_add_mod num den
  have hmod := Nat.mod_lt num hden
  have hle : n ≤ num / den + 1 := by
    by_contra hlt
    have : (num / den + 2) * den ≤ n * den := Nat.mul_le_mul_right den (by omega)
    nlinarith
  simp only [roundDiv]
  split_ifs with hdown
  · by_contra hlt
    obtain rfl : n = num / den + 1 := by omega
    rcases hdown with hdown | ⟨hdown, -⟩ <;> nlinarith
  · exact hle

theorem lt_shifted_iff {num den : Nat} (hden : 0 < den) (c : ℚ) (k : Int) :
    c * (den <<< k.toNat : Nat) < ((num <<< (-k).toNat : Nat) : ℚ) ↔ c * 2 ^ k < (num / den : ℚ) := by
  have hpos : (0 : ℚ) < den := by exact_mod_cast hden
  rw [Nat.shiftLeft_eq, Nat.shiftLeft_eq, lt_div_iff₀ hpos]
  push_cast
  rw [← two_zpow_mul k, ← mul_assoc, ← mul_assoc, mul_lt_mul_iff_left₀ (by positivity), mul_right_comm]

namespace Format

variable (f : Format) {num den num' den' : Nat}

theorem le_round_of_half (hden : 0 < den) {n : Nat} (h : ((n - 1 / 2) * 2 ^ f.unit num den : ℚ) < num / den) :
    n ≤ (f.round num den).1 := by
  apply le_roundDiv_of_half (shiftLeft_pos hden _)
  rw [← Nat.cast_lt (α := ℚ)]
  rw [← lt_shifted_iff hden] at h
  push_cast at h ⊢
  linarith

/-- The nearest value depends on the quotient only. -/
theorem nearest_congr (hden : 0 < den) (hden' : 0 < den') (h : (num / den : ℚ) = num' / den') (neg : Bool) :
    f.nearest neg num den = f.nearest neg num' den' := by
  have hpos : (0 : ℚ) < den := by exact_mod_cast hden
  have hpos' : (0 : ℚ) < den' := by exact_mod_cast hden'
  have hcross : num * den' = num' * den := by
    rw [div_eq_div_iff hpos.ne' hpos'.ne'] at h
    exact_mod_cast h
  rcases Nat.eq_zero_or_pos num with rfl | hnum
  · obtain rfl : num' = 0 := by
      rw [Nat.zero_mul] at hcross
      exact (Nat.mul_eq_zero.1 hcross.symm).resolve_right hden.ne'
    rw [nearest, nearest, if_pos rfl, if_pos rfl]
  · have hnum' : 0 < num' := Nat.pos_of_mul_pos_right (hcross ▸ Nat.mul_pos hnum hden')
    have hfloor : floorLog2 num den = floorLog2 num' den' := by
      obtain ⟨hlow, hhigh⟩ := floorLog2_spec hnum' hden'
      rw [← h] at hlow hhigh
      exact floorLog2_eq hnum hden hlow hhigh
    have hunit : f.unit num den = f.unit num' den' := by rw [unit, unit, hfloor]
    have hround : f.round num den = f.round num' den' := by
      unfold round
      rw [hunit]
      refine Prod.ext (roundDiv_congr (shiftLeft_pos hden _) (shiftLeft_pos hden' _) ?_) rfl
      simp only [Nat.shiftLeft_eq]
      linear_combination 2 ^ (-f.unit num' den').toNat * 2 ^ (f.unit num' den').toNat * hcross
    rw [nearest, nearest, if_neg hnum.ne', if_neg hnum'.ne', hround]

end Format

/-! ### Numbers close to a double -/

section Close

variable {x : Float} {neg : Bool} {m : Nat} {q : Int} (hx : parts x = .finite neg m q) (hm : 0 < m) {num den : Nat}
  (hnum : 0 < num) (hden : 0 < den)
  (hclose : |(num / den : ℚ) - m * 2 ^ q| * 2 ^ 54 < m * 2 ^ q)

include hx hnum hden hclose

/-- The unit of a number just above a double is that of the double, or one for smaller numbers. -/
theorem unit_le_of_close (hge : (m * 2 ^ q : ℚ) ≤ num / den) : Format.double.unit num den ≤ q := by
  have hdouble : (Parts.finite neg m q).IsDouble := hx ▸ parts_isDouble x
  obtain ⟨-, hbelow⟩ := abs_lt.1 ((lt_div_iff₀ (by positivity)).2 hclose)
  rcases Format.double.unit_eq_least_or_le hnum hden with hleast | hbit
  · rw [hleast]
    exact hdouble.2.1
  · have hm' : (m : ℚ) ≤ 2 ^ 53 - 1 := by
      have := hdouble.1
      rw [le_sub_iff_add_le]
      exact_mod_cast this
    have hq : (0 : ℚ) < 2 ^ q := by positivity
    have hless : (2 : ℚ) ^ (((53 : Nat) : Int) + Format.double.unit num den - 1) < 2 ^ (((53 : Nat) : Int) + q) := by
      refine hbit.trans_lt ?_
      rw [zpow_add₀ (by norm_num), zpow_natCast]
      nlinarith
    have := (zpow_lt_zpow_iff_right₀ (by norm_num : (1 : ℚ) < 2)).1 hless
    omega

/-- A double is a multiple of the unit of every number close to it, by a factor of 53 bits. -/
theorem exists_multiple_of_close :
    ∃ k : Nat, (m * 2 ^ q : ℚ) = k * 2 ^ Format.double.unit num den ∧ k ≤ 2 ^ 53 := by
  have hdouble : (Parts.finite neg m q).IsDouble := hx ▸ parts_isDouble x
  obtain ⟨habove, hbelow⟩ := abs_lt.1 ((lt_div_iff₀ (by positivity)).2 hclose)
  have hlt := Format.double.lt_two_zpow_unit hnum hden
  rw [zpow_add₀ (by norm_num), zpow_natCast] at hlt
  have hunit : (0 : ℚ) < 2 ^ Format.double.unit num den := by positivity
  have hk : ∃ k : Nat, (m * 2 ^ q : ℚ) = k * 2 ^ Format.double.unit num den := by
    rcases le_total (num / den : ℚ) (m * 2 ^ q) with hle | hge
    · exact hdouble.holds.exists_multiple _ hnum hden hle
    · have hle := unit_le_of_close hx hnum hden hclose hge
      refine ⟨m * 2 ^ (q - Format.double.unit num den).toNat, ?_⟩
      push_cast
      rw [mul_two_pow_mul_zpow]
      congr 2
      omega
  obtain ⟨k, hk⟩ := hk
  refine ⟨k, hk, ?_⟩
  by_contra hlarge
  have hlarge' : (2 ^ 53 + 1 : ℚ) ≤ k := by exact_mod_cast Nat.succ_le_of_lt (Nat.lt_of_not_le hlarge)
  rw [hk] at habove hbelow
  change _ < (2 : ℚ) ^ 53 * _ at hlt
  nlinarith

include hm

/-- A double is the nearest one to every number close to it. -/
theorem nearest_of_close : Format.double.nearest neg num den = x := by
  have hdouble : (Parts.finite neg m q).IsDouble := hx ▸ parts_isDouble x
  obtain ⟨k, hk, hbits⟩ := exists_multiple_of_close hx hnum hden hclose
  have hunit : (0 : ℚ) < 2 ^ Format.double.unit num den := by positivity
  have hbits' : (k : ℚ) ≤ 2 ^ 53 := by exact_mod_cast hbits
  obtain ⟨habove, hbelow⟩ := abs_lt.1 ((lt_div_iff₀ (by positivity)).2 hclose)
  rw [hk] at habove hbelow
  have hround : (Format.double.round num den).1 = k := by
    apply le_antisymm
    · apply Format.double.round_le hden
      nlinarith
    · apply Format.double.le_round_of_half hden
      nlinarith
  have hlimit : ((Format.double.round num den).1 * 2 ^ Format.double.unit num den : ℚ) < 2 ^ Format.double.limit := by
    rw [hround, ← hk]
    exact hdouble.holds.lt_limit
  obtain ⟨m', q', hparts, hvalue⟩ := Format.double_fits.parts_nearest hden hnum neg hlimit
  rw [hround, ← hk] at hvalue
  have hdouble' := parts_isDouble (Format.double.nearest neg num den)
  rw [hparts] at hdouble'
  obtain ⟨rfl, rfl⟩ := eq_of_scaled_eq hdouble' hdouble hvalue
  exact parts_injective (hparts.trans hx.symm)

end Close

/-! ### The double of a decimal -/

theorem ten_zpow_mul (k : Int) : (10 : ℚ) ^ k * 10 ^ (-k).toNat = 10 ^ k.toNat := by
  rw [← zpow_natCast, ← zpow_natCast, ← zpow_add₀ (by norm_num)]
  congr 1
  omega

theorem ten_lt_ten_iff {a b : Int} : (10 : ℚ) ^ a < 10 ^ b ↔ a < b := zpow_lt_zpow_iff_right₀ (by norm_num)

theorem two_zpow_lt_ten_zpow {a b : Nat} (h : 2 ^ a < 10 ^ b) : (2 : ℚ) ^ (a : Int) < 10 ^ (b : Int) := by
  rw [zpow_natCast, zpow_natCast]
  exact_mod_cast h

namespace Decimal

variable {d d' : Decimal}

/-- How many digits the number has before the point. -/
def size (d : Decimal) : Int := (digits d.coefficient).length + d.exponent

theorem value_eq_quotient (d : Decimal) :
    d.value = (d.coefficient * Nat.pow 10 d.exponent.toNat : Nat) / (Nat.pow 10 (-d.exponent).toNat : Nat) := by
  have hne : (10 : ℚ) ^ (-d.exponent).toNat ≠ 0 := by positivity
  simp only [Nat.pow_eq]
  push_cast
  rw [value, eq_div_iff hne, mul_assoc, ten_zpow_mul]

theorem value_pos (h : 0 < d.coefficient) : 0 < d.value := by
  rw [value]
  positivity

theorem coefficient_pos (h : 0 < d.value) : 0 < d.coefficient := by
  refine Nat.pos_of_ne_zero fun hzero => ?_
  simp [value, hzero] at h

theorem value_lt (d : Decimal) : d.value < 10 ^ d.size := by
  have hlt : (d.coefficient : ℚ) < 10 ^ (digits d.coefficient).length := by exact_mod_cast (length_digits d.coefficient).1
  rw [value, size, zpow_add₀ (by norm_num), zpow_natCast]
  gcongr

theorem le_value (h : 0 < d.coefficient) : 10 ^ (d.size - 1) ≤ d.value := by
  have hle : (10 : ℚ) ^ ((digits d.coefficient).length - 1) ≤ d.coefficient := by
    exact_mod_cast (length_digits d.coefficient).2 h
  have hlength : 0 < (digits d.coefficient).length := List.length_pos_iff.2 (digits_ne_nil _)
  rw [value, size, show ((digits d.coefficient).length : Int) + d.exponent - 1
    = (((digits d.coefficient).length - 1 : Nat) : Int) + d.exponent by omega, zpow_add₀ (by norm_num), zpow_natCast]
  gcongr

/-- The number fixes the number of digits before the point. -/
theorem size_congr (hd : 0 < d.coefficient) (hd' : 0 < d'.coefficient) (h : d.value = d'.value) : d.size = d'.size := by
  have hle := ten_lt_ten_iff.1 ((le_value hd).trans_lt (h ▸ value_lt d'))
  have hge := ten_lt_ten_iff.1 ((le_value hd').trans_lt (h ▸ value_lt d))
  omega

theorem toFloat_eq (neg : Bool) (d : Decimal) :
    d.toFloat neg = if d.coefficient = 0 ∨ d.size < -330 then ofFields neg 0 0
      else if 320 < d.size then infinity neg
      else Format.double.nearest neg (d.coefficient * Nat.pow 10 d.exponent.toNat) (Nat.pow 10 (-d.exponent).toNat) := rfl

/-- The nearest double depends on the number, not on the form of the decimal. -/
theorem toFloat_congr (h : d.value = d'.value) (neg : Bool) : d.toFloat neg = d'.toFloat neg := by
  rw [toFloat_eq, toFloat_eq]
  rcases Nat.eq_zero_or_pos d.coefficient with hzero | hpos
  · have hzero' : d'.coefficient = 0 := by
      refine Nat.eq_zero_of_not_pos fun hpos => (value_pos hpos).ne' ?_
      rw [← h, value, hzero, Nat.cast_zero, zero_mul]
    rw [if_pos (.inl hzero), if_pos (.inl hzero')]
  · have hpos' : 0 < d'.coefficient := coefficient_pos (h ▸ value_pos hpos)
    have hquotient := d.value_eq_quotient.symm.trans (h.trans d'.value_eq_quotient)
    have hten (k : Nat) : 0 < Nat.pow 10 k := Nat.pow_pos (by decide)
    simp only [hpos.ne', hpos'.ne', false_or, size_congr hpos hpos' h,
      Format.double.nearest_congr (hten _) (hten _) hquotient neg]

/-- No double is so small or so large that one of the two cut-offs applies to a number close to it. -/
theorem value_between (d : Decimal) {neg : Bool} {m : Nat} {q : Int} (hdouble : (Parts.finite neg m q).IsDouble) (hm : 0 < m)
    (hlow : (m * 2 ^ q : ℚ) / 2 < d.value) (hhigh : d.value ≤ 2 * (m * 2 ^ q)) :
    10 ^ (-330 : Int) < d.value ∧ d.value < 10 ^ (320 : Int) := by
  refine ⟨?_, ?_⟩
  · have hone : (1 : ℚ) ≤ m := by exact_mod_cast hm
    calc (10 : ℚ) ^ (-330 : Int) < 2 ^ (-1075 : Int) := by
          rw [zpow_neg, zpow_neg, inv_lt_inv₀ (by positivity) (by positivity)]
          exact two_zpow_lt_ten_zpow (by decide +kernel)
      _ = 2 ^ (-1074 : Int) / 2 := zpow_sub_one₀ (by norm_num) (-1074)
      _ ≤ m * 2 ^ q / 2 := by
          have hq := zpow_le_zpow_right₀ (by norm_num : (1 : ℚ) ≤ 2) hdouble.2.1
          have hscale : (1 : ℚ) * 2 ^ q ≤ m * 2 ^ q := by gcongr
          gcongr
          rw [one_mul] at hscale
          exact hq.trans hscale
      _ < d.value := hlow
  · calc d.value ≤ 2 * (m * 2 ^ q) := hhigh
      _ ≤ 2 * 2 ^ (1024 : Int) := by
          gcongr
          exact hdouble.holds.lt_limit.le
      _ = 2 ^ (1025 : Int) := (zpow_one_add₀ (by norm_num) 1024).symm
      _ < 10 ^ (320 : Int) := two_zpow_lt_ten_zpow (by decide +kernel)

/-- A decimal close to a double reads as this double. -/
theorem toFloat_of_close {x : Float} {neg : Bool} {m : Nat} {q : Int} (hx : parts x = .finite neg m q) (hm : 0 < m)
    (hclose : |d.value - m * 2 ^ q| * 2 ^ 54 < m * 2 ^ q) : d.toFloat neg = x := by
  have hdouble : (Parts.finite neg m q).IsDouble := hx ▸ parts_isDouble x
  have hscaled := scaled_pos hm q
  obtain ⟨hlow, hhigh⟩ := abs_lt.1 ((lt_div_iff₀ (by positivity)).2 hclose)
  have hpos : 0 < d.coefficient := coefficient_pos (by linarith)
  have hten (k : Nat) : 0 < Nat.pow 10 k := Nat.pow_pos (by decide)
  obtain ⟨hsmall, hlarge⟩ := d.value_between hdouble hm (by linarith) (by linarith)
  have hsize : ¬ d.size < -330 := by
    intro hless
    exact absurd (hsmall.trans (value_lt d)) (not_lt.2 (zpow_le_zpow_right₀ (by norm_num) hless.le))
  have hsize' : ¬ 320 < d.size := by
    intro hless
    exact absurd ((le_value hpos).trans_lt hlarge) (not_lt.2 (zpow_le_zpow_right₀ (by norm_num) (by omega)))
  rw [toFloat_eq, if_neg (not_or.2 ⟨hpos.ne', hsize⟩), if_neg hsize']
  rw [value_eq_quotient] at hclose
  exact nearest_of_close hx hm (Nat.mul_pos hpos (hten _)) (hten _) hclose

end Decimal

/-! ### Significant digits -/

/-- The digits of a number from one on are those of its whole part. -/
theorem floorLog10_whole {num den : Nat} (hden : 0 < den) (hle : den ≤ num) :
    (10 : ℚ) ^ floorLog10 num den ≤ num / den ∧ (num / den : ℚ) < 10 ^ (floorLog10 num den + 1) := by
  have hden' : (0 : ℚ) < den := by exact_mod_cast hden
  have hwhole : 0 < num / den := Nat.div_pos hle hden
  obtain ⟨hlt, hge⟩ := length_digits (num / den)
  have hge := hge hwhole
  have hlength : 0 < (digits (num / den)).length := List.length_pos_iff.2 (digits_ne_nil _)
  rw [floorLog10, if_pos hle]
  rw [show ((digits (num / den)).length : Int) - 1 = (((digits (num / den)).length - 1 : Nat) : Int) by omega,
    show (((digits (num / den)).length - 1 : Nat) : Int) + 1 = ((digits (num / den)).length : Int) by omega, zpow_natCast,
    zpow_natCast, le_div_iff₀ hden', div_lt_iff₀ hden']
  generalize (digits (num / den)).length - 1 = low at hge ⊢
  generalize (digits (num / den)).length = high at hlt ⊢
  refine ⟨?_, ?_⟩
  · exact_mod_cast (Nat.le_div_iff_mul_le hden).1 hge
  · exact_mod_cast (Nat.div_lt_iff_lt_mul hden).1 hlt

/-- The inverse of a number below one, rounded up. -/
theorem exists_ceil_inverse {num den : Nat} (hnum : 0 < num) (hlt : num < den) :
    ∃ t, (den + num - 1) / num = t + 2 ∧ t * num + num < den ∧ den ≤ t * num + 2 * num := by
  obtain ⟨t, ht⟩ : ∃ t, (den + num - 1) / num = t + 2 := by
    refine Nat.exists_eq_add_of_le' ((Nat.le_div_iff_mul_le hnum).2 ?_)
    omega
  have hdecomp := Nat.div_add_mod (den + num - 1) num
  have hmod := Nat.mod_lt (den + num - 1) hnum
  rw [ht, Nat.mul_add, Nat.mul_comm num t] at hdecomp
  exact ⟨t, ht, by omega, by omega⟩

/-- The zeros of a number below one, behind the point, are as many as its inverse has digits, rounded up and less one. -/
theorem floorLog10_fraction {num den : Nat} (hnum : 0 < num) (hlt : num < den) :
    (10 : ℚ) ^ floorLog10 num den ≤ num / den ∧ (num / den : ℚ) < 10 ^ (floorLog10 num den + 1) := by
  have hnum' : (0 : ℚ) < num := by exact_mod_cast hnum
  have hden' : (0 : ℚ) < den := by exact_mod_cast hnum.trans hlt
  obtain ⟨t, ht, hbelow, habove⟩ := exists_ceil_inverse hnum hlt
  obtain ⟨hless, hge⟩ := length_digits (t + 1)
  have hge := hge t.succ_pos
  have hlength : 0 < (digits (t + 1)).length := List.length_pos_iff.2 (digits_ne_nil _)
  obtain ⟨k, hk⟩ : ∃ k, (digits (t + 1)).length = k + 1 := ⟨_, (Nat.sub_add_cancel hlength).symm⟩
  rw [floorLog10, if_neg (Nat.not_le.2 hlt), ht, show t + 2 - 1 = t + 1 by omega]
  rw [hk] at hless hge ⊢
  rw [Nat.add_sub_cancel] at hge
  have hinverse : (10 : ℚ) ^ (-((k + 1 : Nat) : Int)) = ((10 : ℚ) ^ (k + 1))⁻¹ := by rw [zpow_neg, zpow_natCast]
  have hinverse' : (10 : ℚ) ^ (-((k + 1 : Nat) : Int) + 1) = ((10 : ℚ) ^ k)⁻¹ := by
    rw [show -((k + 1 : Nat) : Int) + 1 = -(k : Int) by omega, zpow_neg, zpow_natCast]
  rw [hinverse, hinverse', inv_le_comm₀ (by positivity) (by positivity), lt_inv_comm₀ (by positivity) (by positivity),
    inv_div, div_le_iff₀ hnum', lt_div_iff₀ hnum']
  refine ⟨?_, ?_⟩
  · have : den ≤ 10 ^ (k + 1) * num := habove.trans (by nlinarith)
    exact_mod_cast this
  · have : 10 ^ k * num < den := lt_of_le_of_lt (by nlinarith) hbelow
    exact_mod_cast this

theorem floorLog10_spec {num den : Nat} (hnum : 0 < num) (hden : 0 < den) :
    (10 : ℚ) ^ floorLog10 num den ≤ num / den ∧ (num / den : ℚ) < 10 ^ (floorLog10 num den + 1) := by
  rcases le_or_gt den num with hle | hlt
  · exact floorLog10_whole hden hle
  · exact floorLog10_fraction hnum hlt

/-- A quotient lies between the two multiples of a power of ten that whole division finds. -/
theorem floor_scaled (num : Nat) {den : Nat} (hden : 0 < den) (e : Int) :
    ((num * Nat.pow 10 (-e).toNat / (den * Nat.pow 10 e.toNat) : Nat) * 10 ^ e : ℚ) ≤ num / den ∧
      (num / den : ℚ) < ((num * Nat.pow 10 (-e).toNat / (den * Nat.pow 10 e.toNat) : Nat) + 1) * 10 ^ e := by
  have hden' : (0 : ℚ) < den := by exact_mod_cast hden
  have hscale : 0 < den * Nat.pow 10 e.toNat := Nat.mul_pos hden (Nat.pow_pos (by decide))
  have hlow := Nat.div_mul_le_self (num * Nat.pow 10 (-e).toNat) (den * Nat.pow 10 e.toNat)
  have hhigh := Nat.lt_div_mul_add hscale (a := num * Nat.pow 10 (-e).toNat)
  generalize num * Nat.pow 10 (-e).toNat / (den * Nat.pow 10 e.toNat) = floor at hlow hhigh ⊢
  rw [← Nat.cast_le (α := ℚ)] at hlow
  rw [← Nat.cast_lt (α := ℚ)] at hhigh
  simp only [Nat.pow_eq] at hlow hhigh
  push_cast at hlow hhigh
  have hten := ten_zpow_mul e
  have hpos : (0 : ℚ) < 10 ^ (-e).toNat := by positivity
  rw [← hten] at hlow hhigh
  rw [le_div_iff₀ hden', div_lt_iff₀ hden']
  refine ⟨le_of_mul_le_mul_right ?_ hpos, lt_of_mul_lt_mul_right ?_ hpos.le⟩
  · linarith
  · linarith

namespace Decimal

theorem roundDiv_cases (num den : Nat) : roundDiv num den = num / den ∨ roundDiv num den = num / den + 1 := by
  simp only [roundDiv]
  split_ifs
  · exact .inl rfl
  · exact .inr rfl

section Neighbour

variable {passes : Decimal → Bool} {n num den : Nat}

theorem passes_of_neighbour? {d : Decimal} (h : neighbour? passes n num den = some d) : passes d = true := by
  unfold neighbour? at h
  dsimp only at h
  split at h
  · rename_i hbelow habove
    cases h
    rcases roundDiv_cases (num * Nat.pow 10 (-(floorLog10 num den + 1 - n)).toNat)
      (den * Nat.pow 10 (floorLog10 num den + 1 - n).toNat) with hround | hround
    · rw [hround]
      exact hbelow
    · rw [hround]
      exact habove
  · rename_i hbelow _
    cases h
    exact hbelow
  · rename_i _ habove
    cases h
    exact habove
  · cases h

/-- If no neighbour is found, none of the decimals on the grid passes that are next to the quotient. -/
theorem not_passes_of_neighbour? (hden : 0 < den) (h : neighbour? passes n num den = none) :
    ∃ c : Nat, (c * 10 ^ (floorLog10 num den + 1 - n) : ℚ) ≤ num / den ∧
      (num / den : ℚ) < (c + 1) * 10 ^ (floorLog10 num den + 1 - n) ∧
      passes ⟨c, floorLog10 num den + 1 - n⟩ = false ∧ passes ⟨c + 1, floorLog10 num den + 1 - n⟩ = false := by
  obtain ⟨hlow, hhigh⟩ := floor_scaled num hden (floorLog10 num den + 1 - n)
  unfold neighbour? at h
  dsimp only at h
  split at h
  · cases h
  · cases h
  · cases h
  · rename_i hbelow habove
    exact ⟨_, hlow, hhigh, hbelow, habove⟩

end Neighbour

theorem eq_of_toBits_eq {x y : Float} (h : (x.toBits == y.toBits) = true) : x = y := by
  apply parts_injective
  rw [parts, parts, beq_iff_eq.1 h]

/-- The shortest decimal reads back, since one of seventeen digits does. -/
theorem toFloat_shortest {x : Float} {neg : Bool} {m : Nat} {q : Int} (hx : parts x = .finite neg m q) (hm : 0 < m)
    {num den : Nat} (hnum : 0 < num) (hden : 0 < den) (hvalue : (num / den : ℚ) = m * 2 ^ q) :
    (shortest neg x num den).toFloat neg = x := by
  unfold shortest
  dsimp only
  cases hfound : (List.range' 1 17).findSome? (neighbour? (fun d => (d.toFloat neg).toBits == x.toBits) · num den) with
  | some d =>
      obtain ⟨n, -, hn⟩ := List.exists_of_findSome?_eq_some hfound
      exact eq_of_toBits_eq (passes_of_neighbour? hn)
  | none =>
      have hnone := List.findSome?_eq_none_iff.1 hfound 17 (by simp)
      obtain ⟨c, hlow, hhigh, hbelow, habove⟩ := not_passes_of_neighbour? hden hnone
      have hfails {d : Decimal} (h : ((d.toFloat neg).toBits == x.toBits) = false) : d.toFloat neg ≠ x := by
        intro heq
        rw [heq, BEq.rfl] at h
        cases h
      -- The grid is finer than the doubles here by a factor of more than `2 ^ 53`.
      have hgrid : (10 : ℚ) ^ (floorLog10 num den + 1 - (17 : Nat)) * 10 ^ 16 ≤ m * 2 ^ q := by
        rw [← hvalue, ← zpow_natCast, ← zpow_add₀ (by norm_num)]
        refine le_of_eq_of_le ?_ (floorLog10_spec hnum hden).1
        congr 1
        push_cast
        omega
      generalize floorLog10 num den + 1 - (17 : Nat) = e at hlow hhigh hbelow habove hgrid
      have hstep : (0 : ℚ) < 10 ^ e := by positivity
      rw [hvalue] at hlow hhigh
      rcases le_total ((m * 2 ^ q : ℚ) - c * 10 ^ e) ((c + 1) * 10 ^ e - m * 2 ^ q) with hnear | hnear
      · refine absurd (toFloat_of_close hx hm ?_) (hfails hbelow)
        rw [value, abs_sub_comm, abs_of_nonneg (by linarith)]
        linarith
      · refine absurd (toFloat_of_close hx hm ?_) (hfails habove)
        rw [value, abs_of_nonneg (by push_cast; linarith)]
        push_cast
        linarith

end Decimal

end Rover
