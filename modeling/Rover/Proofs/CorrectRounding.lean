import Rover.Proofs.Magnitude
import Rover.Proofs.NearestEven
import Rover.Proofs.ReadingInterval

/-!
# Rounding to single precision is correct

What it means for a double to be rounded to another one is said without a way to compute it (`Format.Rounds`): what is no number
stays none, the sign stays, too large numbers become infinite, and the others go to the nearest value of the format, of two that
are as near to the one with an even end. There is only one such double (`Format.Rounds.unique`). That rounding keeps the order
and goes with negation follows from this alone, without a look at how single precision is computed.
-/

namespace Rover

open Float.Model (UnpackedFloat)

namespace Format

variable {f : Format}

/-! ### Numbers that are not negative -/

theorem closest_zero (f : Format) : f.Closest 0 0 := by
  refine ⟨⟨0, f.least, by simp, by positivity, le_rfl, by positivity⟩, fun z _ => ?_, fun z _ _ _ => .inl rfl⟩
  rw [sub_self, abs_zero]
  exact abs_nonneg _

theorem Holds.nonneg {v : ℚ} (h : f.Holds v) : 0 ≤ v := by
  obtain ⟨n, u, rfl, -⟩ := h
  positivity

/-- Of two neighbours that are as near, only one has an even end. -/
theorem not_even_of_tie {w : ℚ} {k : Int} (hne : k ≠ halfEven w) (htie : |k - w| = |halfEven w - w|) : ¬ Even k := by
  have heven := even_of_halfEven_tie hne htie
  have hclose := abs_halfEven_sub_le w
  have htriangle := abs_sub_le (k : ℚ) w (halfEven w)
  rw [abs_sub_comm w] at htriangle
  have hnext : |(k : ℚ) - halfEven w| ≤ 1 := by linarith
  have hnext' : |k - halfEven w| ≤ 1 := by exact_mod_cast hnext
  rw [abs_le] at hnext'
  rw [Int.even_iff] at heven ⊢
  omega

theorem even_of_mul_eq {k : Int} {n : Nat} {t u : Int} (h : (k * 2 ^ t : ℚ) = n * 2 ^ u) (hle : t ≤ u) (hn : Even n) :
    Even k := by
  have hscale : (n * 2 ^ u : ℚ) = (n * 2 ^ (u - t).toNat : Nat) * 2 ^ t := by
    push_cast
    rw [mul_two_pow_mul_zpow]
    congr 2
    omega
  have hpower : (2 : ℚ) ^ t ≠ 0 := by positivity
  have hk : (k : ℚ) = (n * 2 ^ (u - t).toNat : Nat) := mul_right_cancel₀ hpower (h.trans hscale)
  have hk' : k = (n * 2 ^ (u - t).toNat : Nat) := by exact_mod_cast hk
  rw [hk', Int.even_coe_nat]
  exact hn.mul_right _

/-- A value whose last bit is below the one kept of a number is at least that bit away from the number, if it is a multiple
of it. -/
theorem one_le_of_lastBit_lt {w : ℚ} (hw : 0 < w) {k : Int} {n : Nat} {u : Int} (h : (k * 2 ^ f.lastBit w : ℚ) = n * 2 ^ u)
    (hn : f.Kept n u) (hf : 0 < f.precision) (hlt : u < f.lastBit w) : 1 ≤ |k - w / 2 ^ f.lastBit w| := by
  have hpower : (0 : ℚ) < 2 ^ f.lastBit w := by positivity
  obtain ⟨j, hj⟩ := exists_multiple 1 (show f.lastBit w ≤ (f.precision : Int) + f.lastBit w - 1 by omega)
  rw [Int.cast_one, one_mul] at hj
  have hbelow : (k * 2 ^ f.lastBit w : ℚ) < j * 2 ^ f.lastBit w := by
    have hn' : (n : ℚ) < 2 ^ f.precision := by exact_mod_cast hn.lt
    calc (k * 2 ^ f.lastBit w : ℚ) = n * 2 ^ u := h
      _ < 2 ^ f.precision * 2 ^ u := by gcongr
      _ = 2 ^ ((f.precision : Int) + u) := by rw [zpow_add₀ (by norm_num), zpow_natCast]
      _ ≤ 2 ^ ((f.precision : Int) + f.lastBit w - 1) := zpow_le_zpow_right₀ (by norm_num) (by omega)
      _ = j * 2 ^ f.lastBit w := hj
  have hk : k + 1 ≤ j := by exact_mod_cast lt_of_mul_lt_mul_right hbelow hpower.le
  have hk' : (k : ℚ) + 1 ≤ j := by exact_mod_cast hk
  have hleast := hn.least_le
  have hj' : (j : ℚ) ≤ w / 2 ^ f.lastBit w := by
    rw [le_div_iff₀ hpower, ← hj]
    exact two_zpow_le_of_least_lt hw (by omega)
  rw [abs_sub_comm]
  exact le_trans (by linarith) (le_abs_self _)

/-- Rounding finds the closest value, since there is no other one. -/
theorem Closest.eq_rounded {w y : ℚ} (h : f.Closest w y) (hw : 0 < w) (hf : f.Fits) (hbits : 2 ≤ f.precision)
    (hlimit : f.rounded w < 2 ^ f.limit) : y = f.rounded w := by
  have hround := closest_rounded hw hf hbits hlimit
  have htie : |y - w| = |f.rounded w - w| := le_antisymm (h.nearest _ hround.holds) (hround.nearest _ h.holds)
  by_contra hne
  rcases rounded_nearest hw hf.precision_pos h.holds with hlt | ⟨k, rfl, -⟩
  · exact hlt.ne' htie
  -- Another value as near would be the neighbour with an odd end.
  have heven := h.even_end _ hround.holds (Ne.symm hne) htie.symm
  have hpower : (0 : ℚ) < 2 ^ f.lastBit w := by positivity
  rw [rounded, abs_multiple_sub, abs_multiple_sub] at htie
  have hscaled := mul_right_cancel₀ hpower.ne' htie
  have hk : k ≠ halfEven (w / 2 ^ f.lastBit w) := by
    rintro rfl
    exact hne rfl
  have hodd := not_even_of_tie hk hscaled
  rcases heven with hzero | ⟨n, u, hn, hkept, heven⟩
  · have hk0 : k = 0 := by exact_mod_cast (mul_eq_zero.1 hzero).resolve_right hpower.ne'
    exact hodd (hk0 ▸ Even.zero)
  rcases le_or_gt (f.lastBit w) u with hle | hlt
  · exact hodd (even_of_mul_eq hn hle heven)
  · have hfar := one_le_of_lastBit_lt hw hn hkept hf.precision_pos hlt
    have hclose := abs_halfEven_sub_le (w / 2 ^ f.lastBit w)
    linarith

theorem overflow_pos (f : Format) : 0 < f.overflow := lt_of_lt_of_le (by positivity) f.overflow_bounds.1

section

variable {w y : ℚ} (hf : f.Fits) (hbits : 2 ≤ f.precision) (hrange : f.least ≤ f.limit - f.precision)

include hf hrange

theorem rounded_lt_limit_iff_of_nonneg (hw : 0 ≤ w) : f.rounded w < 2 ^ f.limit ↔ w < f.overflow := by
  rcases hw.eq_or_lt with rfl | hpos
  · rw [rounded_zero]
    exact iff_of_true (by positivity) f.overflow_pos
  · exact rounded_lt_limit_iff hpos hf hrange

include hbits

theorem closest_iff_eq_rounded (hw : 0 ≤ w) (hlimit : w < f.overflow) : f.Closest w y ↔ y = f.rounded w := by
  rcases hw.eq_or_lt with rfl | hpos
  · rw [rounded_zero]
    refine ⟨fun h => ?_, fun hy => hy ▸ f.closest_zero⟩
    have hzero := h.nearest 0 f.closest_zero.holds
    rwa [sub_zero, sub_self, abs_zero, abs_nonpos_iff] at hzero
  · have hrounded := (rounded_lt_limit_iff hpos hf hrange).2 hlimit
    exact ⟨fun h => h.eq_rounded hpos hf hbits hrounded, fun hy => hy ▸ closest_rounded hpos hf hbits hrounded⟩

end

/-! ### Numbers of either sign -/

/-- The value of a format, of either sign, nearest to a number, with an even end if another one is as near. -/
structure NearestEven (f : Format) (w y : ℚ) : Prop where
  holds : f.Holds |y|
  nearest : ∀ z, f.Holds |z| → |y - w| ≤ |z - w|
  even_end : ∀ z, f.Holds |z| → z ≠ y → |z - w| = |y - w| → f.EvenEnd |y|

namespace NearestEven

variable {w y z : ℚ}

theorem neg (h : f.NearestEven w y) : f.NearestEven (-w) (-y) := by
  have hflip (a b : ℚ) : |a - -b| = |-a - b| := by
    rw [← abs_neg, neg_sub', neg_neg]
  refine ⟨by rw [abs_neg]; exact h.holds, fun z hz => ?_, fun z hz hne htie => ?_⟩
  · rw [hflip, hflip, neg_neg]
    exact h.nearest (-z) (by rwa [abs_neg])
  · rw [hflip, hflip, neg_neg] at htie
    rw [abs_neg]
    exact h.even_end (-z) (by rwa [abs_neg]) (fun heq => hne (neg_eq_iff_eq_neg.1 heq)) htie

theorem nonneg (h : f.NearestEven w y) (hw : 0 ≤ w) : 0 ≤ y := by
  by_contra hneg
  rw [not_le] at hneg
  have hzero := h.nearest 0 (by rw [abs_zero]; exact f.closest_zero.holds)
  rw [zero_sub, abs_neg, abs_of_nonneg hw, abs_of_neg (by linarith)] at hzero
  linarith

theorem closest (h : f.NearestEven w y) (hw : 0 ≤ w) : f.Closest w y := by
  have hy := abs_of_nonneg (h.nonneg hw)
  refine ⟨hy ▸ h.holds, fun z hz => h.nearest z (by rwa [abs_of_nonneg hz.nonneg]), fun z hz hne htie => ?_⟩
  rw [← hy]
  exact h.even_end z (by rwa [abs_of_nonneg hz.nonneg]) hne htie

/-- A value of the other sign is further away than the one of the same size. -/
theorem of_closest (h : f.Closest w y) (hw : 0 ≤ w) : f.NearestEven w y := by
  have hy := h.holds.nonneg
  have hnear (z : ℚ) : |(|z| - w)| ≤ |z - w| := by
    have hle := abs_abs_sub_abs_le z w
    rwa [abs_of_nonneg hw] at hle
  refine ⟨by rw [abs_of_nonneg hy]; exact h.holds, fun z hz => (h.nearest _ hz).trans (hnear z), fun z hz hne htie => ?_⟩
  rw [abs_of_nonneg hy]
  by_cases hsize : |z| = y
  · left
    obtain rfl : z = -y := ((abs_eq hy).1 hsize).resolve_left hne
    have hzero := h.nearest 0 f.closest_zero.holds
    rw [← htie, zero_sub, abs_neg, abs_of_nonneg hw, abs_of_nonpos (by linarith)] at hzero
    linarith
  · exact h.even_end |z| hz hsize (le_antisymm ((hnear z).trans htie.le) (h.nearest _ hz))

section

variable (hf : f.Fits) (hbits : 2 ≤ f.precision) (hrange : f.least ≤ f.limit - f.precision)

include hf hbits hrange

theorem unique (h : f.NearestEven w y) (h' : f.NearestEven w z) (hw : |w| < f.overflow) : y = z := by
  have hnonneg {w y : ℚ} (hw : 0 ≤ w) (hlimit : w < f.overflow) (h : f.NearestEven w y) : y = f.rounded w :=
    (closest_iff_eq_rounded hf hbits hrange hw hlimit).1 (h.closest hw)
  rcases le_total 0 w with hpos | hneg
  · rw [abs_of_nonneg hpos] at hw
    rw [hnonneg hpos hw h, hnonneg hpos hw h']
  · rw [abs_of_nonpos hneg] at hw
    have hpos := neg_nonneg.2 hneg
    rw [← neg_inj, hnonneg hpos hw h.neg, hnonneg hpos hw h'.neg]

/-- Nearest values are in the order of the numbers: if two were in the other order, both numbers would be halfway between. -/
theorem mono {v : ℚ} (h : f.NearestEven w y) (h' : f.NearestEven v z) (hw : |w| < f.overflow) (hle : w ≤ v) : y ≤ z := by
  by_contra hlt
  rw [not_le] at hlt
  have hfirst : y + z ≤ 2 * w := by
    have hsquares := sq_le_sq.2 (h.nearest z h'.holds)
    nlinarith
  have hsecond : 2 * v ≤ y + z := by
    have hsquares := sq_le_sq.2 (h'.nearest y h.holds)
    nlinarith
  obtain rfl : w = v := by linarith
  exact hlt.ne (h'.unique hf hbits hrange h hw)

end

end NearestEven

end Format

/-! ### Infinities among the doubles -/

theorem eq_infinity_iff {x : Float} {neg : Bool} : x = infinity neg ↔ parts x = .infinite neg := by
  rw [← parts_injective.eq_iff, parts_infinity]

theorem Double.kinds (x : Float) : x.isNaN = true ∨ (∃ neg, x = infinity neg) ∨ x.isFinite = true := by
  cases hx : parts x with
  | nan => exact .inl (isNaN_iff.2 hx)
  | infinite neg => exact .inr (.inl ⟨neg, eq_infinity_iff.2 hx⟩)
  | finite neg m q => exact .inr (.inr (isFinite_of_parts hx))

theorem Double.infinite_or_finite {x : Float} (hx : x.isNaN = false) : (∃ neg, x = infinity neg) ∨ x.isFinite = true :=
  (Double.kinds x).resolve_left (by rw [hx]; exact Bool.false_ne_true)

theorem not_isFinite_infinity (neg : Bool) : (infinity neg).isFinite = false := by
  cases neg <;> decide +kernel

theorem not_isNaN_infinity (neg : Bool) : (infinity neg).isNaN = false := by
  cases neg <;> decide +kernel

theorem not_isNaN_of_isFinite {x : Float} (h : x.isFinite = true) : x.isNaN = false := by
  obtain ⟨neg, m, q, hx⟩ := isFinite_iff.1 h
  rw [Bool.eq_false_iff, Ne, isNaN_iff, hx]
  simp

theorem isNaN_neg (x : Float) : (-x).isNaN = x.isNaN := by
  rw [Bool.eq_iff_iff, isNaN_iff, isNaN_iff, parts_neg]
  cases parts x <;> simp [Parts.neg]

theorem neg_eq_infinity_iff {x : Float} {neg : Bool} : -x = infinity neg ↔ x = infinity (!neg) := by
  rw [eq_infinity_iff, eq_infinity_iff, parts_neg]
  cases parts x <;> simp [Parts.neg, Bool.not_eq_eq_eq_not]

theorem signed_neg_iff {x : Float} {neg : Bool} : Signed neg (-x) ↔ Signed (!neg) x := by
  constructor
  · intro h
    simpa [Double.neg_neg] using h.neg
  · intro h
    simpa using h.neg

theorem magnitude_neg (x : Float) : magnitude (-x) = magnitude x := by
  rw [magnitude, magnitude, parts_neg]
  cases parts x <;> rfl

theorem magnitude_infinity (neg : Bool) : magnitude (infinity neg) = ⊤ := magnitude_of_infinite (parts_infinity neg)

theorem signed_infinity {neg neg' : Bool} : Signed neg' (infinity neg) ↔ neg = neg' := by
  rw [signed_iff, parts_infinity]
  simp

theorem signed_of_finite {x : Float} {neg neg' : Bool} {m : Nat} {q : Int} (h : parts x = .finite neg m q) :
    Signed neg' x ↔ neg = neg' := by
  rw [signed_iff, h]
  simp

theorem Signed.exists_parts {x : Float} {neg : Bool} (h : Signed neg x) (hfinite : x.isFinite = true) :
    ∃ (m : Nat) (q : Int), parts x = .finite neg m q := by
  obtain ⟨neg', m, q, hx⟩ := isFinite_iff.1 hfinite
  obtain rfl := (signed_of_finite hx).1 h
  exact ⟨m, q, hx⟩

/-- A finite double is determined by its sign and its value. -/
theorem eq_of_value_eq {x y : Float} {neg : Bool} (hx : Signed neg x) (hy : Signed neg y) (hfx : x.isFinite = true)
    (hfy : y.isFinite = true) (h : value x = value y) : x = y := by
  obtain ⟨m, q, hpx⟩ := hx.exists_parts hfx
  obtain ⟨m', q', hpy⟩ := hy.exists_parts hfy
  have hsize := congrArg abs h
  rw [value_of_parts hpx, value_of_parts hpy, abs_withSign neg (by positivity), abs_withSign neg (by positivity)] at hsize
  obtain ⟨rfl, rfl⟩ := eq_of_scaled_eq (hpx ▸ parts_isDouble x) (hpy ▸ parts_isDouble y) hsize
  exact parts_injective (hpx.trans hpy.symm)

theorem compareDoubles_infinity {x : Float} (hx : x.isFinite = true) (neg : Bool) :
    compareDoubles x (infinity neg) = some (if neg then .gt else .lt) := by
  obtain ⟨neg', m, q, hparts⟩ := isFinite_iff.1 hx
  rw [compareDoubles, parts_infinity]
  rcases unpacked_of_finite hparts with ⟨hzero, -⟩ | ⟨hm, hfinite⟩
  · rw [hzero]
    cases neg <;> rfl
  · rw [hfinite]
    cases neg <;> cases neg' <;> rfl

theorem Double.le_infinity {x : Float} (hx : x.isNaN = false) : x ≤ infinity false := by
  rcases Double.infinite_or_finite hx with ⟨neg, rfl⟩ | hfinite
  · cases neg <;> decide +kernel
  · rw [le_iff_compare, compareDoubles_infinity hfinite]
    exact .inl rfl

theorem compare_neg (a b : UnpackedFloat) : b.neg.compare a.neg = a.compare b := by
  rcases a with (_ | _) | _ | (_ | _) | ⟨_ | _, m, e, hm⟩ <;>
    rcases b with (_ | _) | _ | (_ | _) | ⟨_ | _, m', e', hm'⟩ <;>
    try rfl
  all_goals simp [UnpackedFloat.compare, UnpackedFloat.neg, Ordering.swap_then, Int.compare_swap, Nat.compare_swap]

theorem Double.neg_le_neg {x y : Float} (h : x ≤ y) : -y ≤ -x := by
  rw [le_iff_compare] at h ⊢
  rwa [compareDoubles, parts_neg, parts_neg, Parts.unpacked_neg, Parts.unpacked_neg, compare_neg]

theorem Double.infinity_le {x : Float} (hx : x.isNaN = false) : infinity true ≤ x := by
  have hneg := Double.neg_le_neg (Double.le_infinity ((isNaN_neg x).trans hx))
  have hbottom : -infinity false = infinity true := neg_eq_infinity_iff.2 rfl
  rwa [Double.neg_neg, hbottom] at hneg

/-- The doubles from a positive number on. -/
theorem reaches_iff {x : Float} {b : ℚ} (hb : 0 < b) (hx : x.isNaN = false) :
    Signed false x ∧ (b : WithTop ℚ) ≤ magnitude x ↔ x = infinity false ∨ x.isFinite = true ∧ b ≤ value x := by
  rcases Double.infinite_or_finite hx with ⟨neg, rfl⟩ | hfinite
  · rw [signed_infinity, magnitude_infinity, not_isFinite_infinity, eq_infinity_iff, parts_infinity]
    simp
  · obtain ⟨neg, m, q, hparts⟩ := isFinite_iff.1 hfinite
    have hsize : (0 : ℚ) ≤ m * 2 ^ q := by positivity
    rw [eq_infinity_iff, signed_of_finite hparts, hparts, magnitude_of_finite hparts, value_of_parts hparts,
      WithTop.coe_le_coe]
    cases neg with
    | false => simp [hfinite, withSign]
    | true =>
        refine iff_of_false (by simp) ?_
        rintro (hinf | ⟨-, hle⟩)
        · cases hinf
        · rw [withSign, if_pos rfl] at hle
          linarith

theorem reaches_of_le {x y : Float} {b : ℚ} (hb : 0 < b) (hle : x ≤ y) (h : Signed false x ∧ (b : WithTop ℚ) ≤ magnitude x) :
    Signed false y ∧ (b : WithTop ℚ) ≤ magnitude y := by
  obtain ⟨hx, hy⟩ := Double.isNaN_of_le hle
  rw [reaches_iff hb hx] at h
  rw [reaches_iff hb hy]
  rw [le_iff_compare] at hle
  rcases Double.infinite_or_finite hy with ⟨neg, rfl⟩ | hfy
  · cases neg with
    | false => exact .inl rfl
    | true =>
        rcases h with rfl | ⟨hfx, -⟩
        · exact absurd hle (by decide +kernel)
        · rw [compareDoubles_infinity hfx] at hle
          simp at hle
  · rcases h with rfl | ⟨hfx, hvalue⟩
    · rw [compareDoubles_swap y, compareDoubles_infinity hfy] at hle
      simp at hle
    · rw [← le_iff_compare, le_iff_value hfx hfy] at hle
      exact .inr ⟨hfy, hvalue.trans hle⟩

/-! ### Rounding a double -/

namespace Format

/-- A double rounded to a format. -/
structure Rounds (f : Format) (x y : Float) : Prop where
  nan : y.isNaN = x.isNaN
  sign : ∀ neg, Signed neg x → Signed neg y
  infinite : x.isNaN = false → ∀ neg, y = infinity neg ↔ Signed neg x ∧ (f.overflow : WithTop ℚ) ≤ magnitude x
  nearest : y.isFinite = true → f.NearestEven (value x) (value y)

namespace Rounds

variable {f : Format} {x y x' y' : Float}

theorem neg (h : f.Rounds x y) : f.Rounds (-x) (-y) := by
  refine ⟨by rw [isNaN_neg, isNaN_neg, h.nan], fun neg hx => ?_, fun hx neg => ?_, fun hy => ?_⟩
  · rw [signed_neg_iff] at hx ⊢
    exact h.sign _ hx
  · rw [isNaN_neg] at hx
    rw [neg_eq_infinity_iff, signed_neg_iff, magnitude_neg, h.infinite hx]
  · have hfinite := isFinite_neg hy
    rw [Double.neg_neg] at hfinite
    rw [value_neg, value_neg]
    exact (h.nearest hfinite).neg

/-- The numbers that stay finite. -/
theorem isFinite_iff (h : f.Rounds x y) : y.isFinite = true ↔ x.isFinite = true ∧ |value x| < f.overflow := by
  constructor
  · intro hy
    have hx : x.isNaN = false := by rw [← h.nan, not_isNaN_of_isFinite hy]
    obtain ⟨neg, hsign⟩ := Signed.exists_sign x
    have hsmall : ¬ (f.overflow : WithTop ℚ) ≤ magnitude x := by
      intro hlarge
      rw [(h.infinite hx neg).2 ⟨hsign, hlarge⟩, not_isFinite_infinity] at hy
      cases hy
    rcases Double.infinite_or_finite hx with ⟨neg', rfl⟩ | hfinite
    · exact absurd (by rw [magnitude_infinity]; exact le_top) hsmall
    · rw [magnitude_eq_value hfinite, WithTop.coe_le_coe, not_le] at hsmall
      exact ⟨hfinite, hsmall⟩
  · rintro ⟨hfinite, hsmall⟩
    have hx := not_isNaN_of_isFinite hfinite
    rcases Double.infinite_or_finite (h.nan.trans hx) with ⟨neg, rfl⟩ | hy
    · have hlarge := ((h.infinite hx neg).1 rfl).2
      rw [magnitude_eq_value hfinite, WithTop.coe_le_coe] at hlarge
      exact absurd hlarge (not_le.2 hsmall)
    · exact hy

/-- From the first infinite result on, all are. -/
theorem infinity_of_le (h : f.Rounds x x') (h' : f.Rounds y y') (hle : x ≤ y) (hx' : x' = infinity false) :
    y' = infinity false := by
  obtain ⟨hx, hy⟩ := Double.isNaN_of_le hle
  exact (h'.infinite hy false).2 (reaches_of_le f.overflow_pos hle ((h.infinite hx false).1 hx'))

/-- What is too large is rounded to the infinity of its sign. -/
theorem to_infinity {neg : Bool} (hx : x.isNaN = false) (hsign : ∀ neg', Signed neg' x ↔ neg = neg')
    (hlarge : (f.overflow : WithTop ℚ) ≤ magnitude x) : f.Rounds x (infinity neg) := by
  refine ⟨?_, fun neg' hs => ?_, fun _ neg' => ?_, fun hfinite => ?_⟩
  · rw [hx, not_isNaN_infinity]
  · rwa [signed_infinity, ← hsign]
  · rw [eq_infinity_iff, parts_infinity, hsign]
    simp [hlarge]
  · rw [not_isFinite_infinity] at hfinite
    cases hfinite

section

variable (hf : f.Fits) (hbits : 2 ≤ f.precision) (hrange : f.least ≤ f.limit - f.precision)

include hf hbits hrange

/-- What computes the rounded size of a finite double, with its sign, rounds it. -/
theorem of_gives {neg : Bool} {m : Nat} {q : Int} (hx : parts x = .finite neg m q)
    (hy : f.Gives neg (f.rounded (m * 2 ^ q)) y) : f.Rounds x y := by
  have hsize : (0 : ℚ) ≤ m * 2 ^ q := by positivity
  have hlimit := rounded_lt_limit_iff_of_nonneg hf hrange hsize
  have hnumber := not_isNaN_of_isFinite (isFinite_of_parts hx)
  rcases hy with ⟨hlt, m', q', hparts, hvalue⟩ | ⟨hge, hparts⟩
  · have hsmall := hlimit.1 hlt
    refine ⟨?_, fun neg' hs => ?_, fun _ neg' => ?_, fun _ => ?_⟩
    · rw [hnumber, not_isNaN_of_isFinite (isFinite_of_parts hparts)]
    · rw [signed_of_finite hx] at hs
      rwa [signed_of_finite hparts]
    · rw [eq_infinity_iff, hparts, magnitude_of_finite hx, WithTop.coe_le_coe]
      exact iff_of_false (by simp) fun h => absurd h.2 (not_le.2 hsmall)
    · have hnearest := NearestEven.of_closest ((closest_iff_eq_rounded hf hbits hrange hsize hsmall).2 hvalue) hsize
      rw [value_of_parts hx, value_of_parts hparts]
      cases neg with
      | false => exact hnearest
      | true => exact hnearest.neg
  · obtain rfl := eq_infinity_iff.2 hparts
    have hlarge := not_lt.1 (mt hlimit.2 (not_lt.2 hge))
    refine .to_infinity hnumber (fun neg' => signed_of_finite hx) ?_
    rwa [magnitude_of_finite hx, WithTop.coe_le_coe]

/-- A double is rounded to one double only. -/
theorem unique (h : f.Rounds x y) (h' : f.Rounds x y') : y = y' := by
  rcases Double.kinds y with hnan | ⟨neg, rfl⟩ | hfinite
  · have hnan' : y'.isNaN = true := by rw [h'.nan, ← h.nan, hnan]
    exact parts_injective ((isNaN_iff.1 hnan).trans (isNaN_iff.1 hnan').symm)
  · have hx : x.isNaN = false := by rw [← h.nan, not_isNaN_infinity]
    exact ((h'.infinite hx neg).2 ((h.infinite hx neg).1 rfl)).symm
  · have hx := h.isFinite_iff.1 hfinite
    have hfinite' := h'.isFinite_iff.2 hx
    obtain ⟨neg, hsign⟩ := Signed.exists_sign x
    have hvalue := (h.nearest hfinite).unique hf hbits hrange (h'.nearest hfinite') hx.2
    exact eq_of_value_eq (h.sign neg hsign) (h'.sign neg hsign) hfinite hfinite' hvalue

/-- Rounding keeps the order. -/
theorem mono (h : f.Rounds x x') (h' : f.Rounds y y') (hle : x ≤ y) : x' ≤ y' := by
  obtain ⟨hx, hy⟩ := Double.isNaN_of_le hle
  have hx' : x'.isNaN = false := h.nan.trans hx
  have hy' : y'.isNaN = false := h'.nan.trans hy
  by_cases htop : y' = infinity false
  · rw [htop]
    exact Double.le_infinity hx'
  by_cases hbottom : x' = infinity true
  · rw [hbottom]
    exact Double.infinity_le hy'
  -- Neither result is infinite on the other side either, since then both would be.
  have hfx' : x'.isFinite = true := by
    rcases Double.infinite_or_finite hx' with ⟨neg, hinf⟩ | hfinite
    · cases neg with
      | false => exact absurd (h.infinity_of_le h' hle hinf) htop
      | true => exact absurd hinf hbottom
    · exact hfinite
  have hfy' : y'.isFinite = true := by
    rcases Double.infinite_or_finite hy' with ⟨neg, hinf⟩ | hfinite
    · cases neg with
      | false => exact absurd hinf htop
      | true =>
          have hneg := h'.neg.infinity_of_le h.neg (Double.neg_le_neg hle) (neg_eq_infinity_iff.2 hinf)
          exact absurd (neg_eq_infinity_iff.1 hneg) hbottom
    · exact hfinite
  obtain ⟨hfx, hsmall⟩ := h.isFinite_iff.1 hfx'
  obtain ⟨hfy, -⟩ := h'.isFinite_iff.1 hfy'
  rw [le_iff_value hfx hfy] at hle
  rw [le_iff_value hfx' hfy']
  exact (h.nearest hfx').mono hf hbits hrange (h'.nearest hfy') hsmall hle

end

end Rounds

end Format

/-! ### Single precision -/

theorem overflow_single : Format.single.overflow = 2 ^ 128 - 2 ^ 103 := by
  norm_num [Format.overflow, Format.single]

theorem rounds_toSingle (x : Float) : Format.single.Rounds x (toSingle x) := by
  cases hx : parts x with
  | nan =>
      rw [toSingle_of_nan hx]
      have hnan := isNaN_iff.2 hx
      refine ⟨rfl, fun _ h => h, fun hnumber => ?_, fun hfinite => ?_⟩
      · rw [hnan] at hnumber
        cases hnumber
      · rw [not_isNaN_of_isFinite hfinite] at hnan
        cases hnan
  | infinite neg =>
      rw [toSingle_of_infinite hx]
      obtain rfl := eq_infinity_iff.2 hx
      refine .to_infinity (not_isNaN_infinity neg) (fun neg' => signed_infinity) ?_
      rw [magnitude_infinity]
      exact le_top
  | finite neg m q => exact .of_gives Format.single_fits (by decide) (by decide) hx (gives_toSingle hx)

/-- Rounding to single precision is correct rounding: it gives the one double that `Format.Rounds` allows, which is infinite
from 2 ^ 128 - 2 ^ 103 on. Hence it changes nothing the second time, keeps the order and goes with negation. -/
theorem toSingle_correctly_rounded :
    Format.single.overflow = 2 ^ 128 - 2 ^ 103 ∧
      (∀ x y, toSingle x = y ↔ Format.single.Rounds x y) ∧
      (∀ x, toSingle (toSingle x) = toSingle x) ∧
      (∀ x y, x ≤ y → toSingle x ≤ toSingle y) ∧
      ∀ x, toSingle (-x) = -toSingle x := by
  have hunique {x y : Float} (h : Format.single.Rounds x y) : toSingle x = y :=
    (rounds_toSingle x).unique Format.single_fits (by decide) (by decide) h
  refine ⟨overflow_single, fun x y => ⟨?_, hunique⟩, toSingle_toSingle, fun x y hle => ?_, fun x => ?_⟩
  · rintro rfl
    exact rounds_toSingle x
  · exact (rounds_toSingle x).mono Format.single_fits (by decide) (by decide) (rounds_toSingle y) hle
  · exact hunique (rounds_toSingle x).neg

/-- Halfway between the greatest single-precision value and its limit, and the double before. -/
theorem toSingle_at_overflow :
    ofFields false 1150 (2 ^ 52 - 2 ^ 28 - 1) ≤ ofFields false 1150 (2 ^ 52 - 2 ^ 28) ∧
      toSingle (ofFields false 1150 (2 ^ 52 - 2 ^ 28 - 1)) ≤ toSingle (ofFields false 1150 (2 ^ 52 - 2 ^ 28)) ∧
      Format.single.Rounds (ofFields false 1150 (2 ^ 52 - 2 ^ 28 - 1)) (ofFields false 1150 (2 ^ 52 - 2 ^ 29)) ∧
      Format.single.Rounds (ofFields false 1150 (2 ^ 52 - 2 ^ 28)) (infinity false) := by
  have hle : ofFields false 1150 (2 ^ 52 - 2 ^ 28 - 1) ≤ ofFields false 1150 (2 ^ 52 - 2 ^ 28) := by decide +kernel
  obtain ⟨-, hrounds, -, hmono, -⟩ := toSingle_correctly_rounded
  exact ⟨hle, hmono _ _ hle, (hrounds _ _).1 (by decide +kernel), (hrounds _ _).1 (by decide +kernel)⟩

end Rover
