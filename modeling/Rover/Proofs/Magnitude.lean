import Rover.Proofs.Decimals
import Rover.Proofs.Range

/-!
# Magnitudes

A positive double is determined by its magnitude, a rational number or infinity, and rounding keeps the order of
magnitudes: it goes neither above nor below a value of the format. So a sum with a number of one sign goes one way only,
and it stays where it is only if the number is less than the last bit of the other operand.
-/

namespace Rover

open Float.Model (UnpackedFloat)
open Float.Model.UnpackedFloat
open Float.Model.Format (binary64)

/-- The magnitude of a number; an infinity has the greatest one. -/
def magnitude (x : Float) : WithTop ℚ :=
  match parts x with
  | .finite _ m q => ((m * 2 ^ q : ℚ) : WithTop ℚ)
  | _ => ⊤

theorem magnitude_of_finite {x : Float} {neg : Bool} {m : Nat} {q : Int} (h : parts x = .finite neg m q) :
    magnitude x = ((m * 2 ^ q : ℚ) : WithTop ℚ) := by
  rw [magnitude, h]

theorem magnitude_of_infinite {x : Float} {neg : Bool} (h : parts x = .infinite neg) : magnitude x = ⊤ := by
  rw [magnitude, h]

theorem magnitude_eq_value {x : Float} (h : x.isFinite = true) : magnitude x = ((|value x| : ℚ) : WithTop ℚ) := by
  obtain ⟨neg, m, q, hx⟩ := isFinite_iff.1 h
  rw [magnitude_of_finite hx, value_of_parts hx, abs_withSign neg (by positivity)]

/-! ### Positive doubles -/

theorem pos_iff {x : Float} :
    0.0 < x ↔ parts x = .infinite false ∨ ∃ (m : Nat) (q : Int), parts x = .finite false m q ∧ 0 < m := by
  rw [lt_iff_compare, compareDoubles_swap x 0.0]
  cases hx : parts x with
  | nan => simp [compareDoubles, hx, parts_literal_zero, Parts.unpacked, UnpackedFloat.compare]
  | infinite neg =>
      rw [compareDoubles_zero_infinite hx]
      cases neg <;> simp
  | finite neg m q =>
      rw [compareDoubles_zero_finite hx]
      by_cases hm : m = 0
      · simp [hm]
      · cases neg <;> simp [hm, Nat.pos_iff_ne_zero]

theorem parts_of_pos {x : Float} (hx : 0.0 < x) (hfinite : x.isFinite = true) :
    ∃ (m : Nat) (q : Int), parts x = .finite false m q ∧ 0 < m := by
  refine (pos_iff.1 hx).resolve_left fun hinf => ?_
  obtain ⟨neg, m, q, hparts⟩ := isFinite_iff.1 hfinite
  rw [hinf] at hparts
  cases hparts

theorem pos_iff_value {x : Float} (h : x.isFinite = true) : 0.0 < x ↔ 0 < value x := by
  rw [lt_iff_value isFinite_literals.1 h, value_zero]

/-- A positive double is determined by its magnitude. -/
theorem double_holds {x : Float} (hx : 0.0 < x) (hfinite : x.isFinite = true) : Format.double.Holds (value x) := by
  obtain ⟨m, q, hparts, -⟩ := parts_of_pos hx hfinite
  have hdouble : (Parts.finite false m q).IsDouble := hparts ▸ parts_isDouble x
  rw [value_of_parts hparts]
  exact hdouble.holds

theorem parts_of_nonneg {x : Float} (h : 0.0 ≤ x) : parts x = .infinite false ∨ x.isFinite = true ∧ 0 ≤ value x := by
  cases hx : parts x with
  | nan =>
      have hnumber := (Double.isNaN_of_le h).2
      rw [isNaN_iff.2 hx] at hnumber
      cases hnumber
  | infinite neg =>
      rw [le_iff_compare, compareDoubles_swap x 0.0, compareDoubles_zero_infinite hx] at h
      cases neg <;> simp at h ⊢
  | finite neg m q =>
      have hfinite := isFinite_of_parts hx
      rw [le_iff_value isFinite_literals.1 hfinite, value_zero] at h
      exact .inr ⟨hfinite, h⟩

theorem not_negative {x : Float} (h : 0.0 ≤ x) :
    parts x ≠ .nan ∧ parts x ≠ .infinite true ∧ ∀ (m : Nat) (q : Int), parts x = .finite true m q → m = 0 := by
  rcases parts_of_nonneg h with hinf | ⟨hfinite, hvalue⟩
  · simp [hinf]
  · obtain ⟨neg, m, q, hx⟩ := isFinite_iff.1 hfinite
    rw [value_of_parts hx] at hvalue
    refine ⟨by simp [hx], by simp [hx], fun m' q' hneg => Nat.eq_zero_of_not_pos fun hm => ?_⟩
    rw [hx] at hneg
    cases hneg
    have hsize : (0 : ℚ) < m * 2 ^ q := by positivity
    exact absurd hvalue (not_le.2 (neg_neg_of_pos hsize))

theorem magnitude_abs (x : Float) : magnitude x.abs = magnitude x := by
  rw [magnitude, magnitude, parts_abs]
  cases parts x <;> rfl

theorem eq_of_magnitude_eq {x y : Float} (hx : 0.0 < x) (hy : 0.0 < y) (h : magnitude x = magnitude y) : x = y := by
  apply parts_injective
  rcases pos_iff.1 hx with hx | ⟨m, q, hx, hm⟩ <;> rcases pos_iff.1 hy with hy | ⟨m', q', hy, hm'⟩
  · rw [hx, hy]
  · rw [magnitude_of_infinite hx, magnitude_of_finite hy] at h
    cases h
  · rw [magnitude_of_finite hx, magnitude_of_infinite hy] at h
    cases h
  · rw [magnitude_of_finite hx, magnitude_of_finite hy, WithTop.coe_inj] at h
    obtain ⟨rfl, rfl⟩ := eq_of_scaled_eq (hx ▸ parts_isDouble x) (hy ▸ parts_isDouble y) h
    rw [hx, hy]

/-! ### The least bit of a value -/

namespace Format

variable {f : Format}

theorem Fits.le_round_mul (hf : f.Fits) {num den n : Nat} {u : Int} (hden : 0 < den) (hnum : 0 < num)
    (hn : n ≤ 2 ^ f.precision) (hu : f.least ≤ u) (hle : (n * 2 ^ u : ℚ) ≤ num / den) :
    (n * 2 ^ u : ℚ) ≤ (f.round num den).1 * 2 ^ f.unit num den := by
  rcases le_or_gt (f.unit num den) u with hunit | hunit
  · -- the number is a multiple of the unit
    have hscale : (n * 2 ^ u : ℚ) = (n * 2 ^ (u - f.unit num den).toNat : Nat) * 2 ^ f.unit num den := by
      push_cast
      rw [mul_two_pow_mul_zpow]
      congr 2
      omega
    rw [hscale] at hle ⊢
    gcongr
    exact f.le_round hden hle
  · -- the quotient has all its bits, and the number has at most as many
    have hbits := (f.unit_eq_least_or_le hnum hden).resolve_left (by omega)
    have hpos := hf.precision_pos
    have hhalf : (2 : ℚ) ^ ((f.precision : Int) + f.unit num den - 1)
        = (2 ^ (f.precision - 1) : Nat) * 2 ^ f.unit num den := by
      push_cast
      rw [← zpow_natCast, ← zpow_add₀ (by norm_num)]
      congr 1
      omega
    rw [hhalf] at hbits
    calc (n * 2 ^ u : ℚ) ≤ (2 ^ f.precision : Nat) * 2 ^ (f.unit num den - 1) := by
          gcongr
          · norm_num
          · omega
      _ = (2 ^ (f.precision - 1) : Nat) * 2 ^ f.unit num den := by
          rw [← hhalf]
          push_cast
          rw [← zpow_natCast, ← zpow_add₀ (by norm_num)]
          congr 1
          ring
      _ ≤ (f.round num den).1 * 2 ^ f.unit num den := by
          gcongr
          exact f.le_round hden hbits

/-- Rounding goes below no number of the format's precision. -/
theorem Fits.le_magnitude_nearest (hf : f.Fits) {num den n : Nat} {u : Int} (hden : 0 < den) (hn : n ≤ 2 ^ f.precision)
    (hu : f.least ≤ u) (hle : (n * 2 ^ u : ℚ) ≤ num / den) (neg : Bool) :
    ((n * 2 ^ u : ℚ) : WithTop ℚ) ≤ magnitude (f.nearest neg num den) := by
  rcases Nat.eq_zero_or_pos num with rfl | hnum
  · rw [nearest, if_pos rfl, magnitude_of_finite (parts_zero neg), WithTop.coe_le_coe]
    simpa using hle
  by_cases hlimit : ((f.round num den).1 * 2 ^ f.unit num den : ℚ) < 2 ^ f.limit
  · obtain ⟨m, q, hparts, hvalue⟩ := hf.parts_nearest hden hnum neg hlimit
    rw [magnitude_of_finite hparts, WithTop.coe_le_coe, hvalue]
    exact hf.le_round_mul hden hnum hn hu hle
  · rw [magnitude_of_infinite (f.parts_nearest_overflow hnum neg hlimit)]
    exact le_top

/-- A number that is not a small part of a value of the format, nor below the least one, reaches its last bit. -/
theorem Holds.exists_bit_le {v c : ℚ} (hv : f.Holds v) (hpos : 0 < v) (hleast : 2 ^ f.least ≤ c)
    (hpart : v ≤ 2 ^ ((f.precision : Int) - 1) * c) :
    ∃ (n : Nat) (u : Int), v = n * 2 ^ u ∧ 0 < n ∧ n < 2 ^ f.precision ∧ f.least ≤ u ∧ 2 ^ u ≤ c := by
  obtain ⟨k, e, rfl, -, -, -⟩ := id hv
  have hk : 0 < k := Nat.pos_of_ne_zero fun hzero => by simp [hzero] at hpos
  have hnum := shiftLeft_pos hk e.toNat
  have hden := one_shiftLeft_pos (-e).toNat
  rw [← shifted_quotient] at hv hpart hpos ⊢
  have hround := f.round_eq_of_holds hnum hden hv
  refine ⟨_, f.unit _ _, hround.symm, ?_, ?_, f.least_le_unit, ?_⟩
  · refine Nat.pos_of_ne_zero fun hzero => ?_
    rw [hzero, Nat.cast_zero, zero_mul] at hround
    exact hpos.ne hround
  · have hlt := f.lt_two_zpow_unit hnum hden
    rw [← hround, zpow_add₀ (by norm_num), zpow_natCast] at hlt
    exact_mod_cast lt_of_mul_lt_mul_right hlt (by positivity)
  · rcases f.unit_eq_least_or_le hnum hden with hunit | hbits
    · rwa [hunit]
    · rw [add_sub_right_comm, zpow_add₀ (by norm_num)] at hbits
      exact le_of_mul_le_mul_left (hbits.trans hpart) (by positivity)

namespace IsNearest

variable {v : ℚ} {x : Float}

theorem le_magnitude (h : f.IsNearest v x) (hf : f.Fits) {n : Nat} {u : Int} (hn : n ≤ 2 ^ f.precision)
    (hu : f.least ≤ u) (hle : (n * 2 ^ u : ℚ) ≤ |v|) : ((n * 2 ^ u : ℚ) : WithTop ℚ) ≤ magnitude x := by
  obtain ⟨neg, num, den, hden, rfl, rfl⟩ := h
  rw [abs_withSign neg (by positivity)] at hle
  exact hf.le_magnitude_nearest hden hn hu hle neg

theorem magnitude_le (h : f.IsNearest v x) (hf : f.Fits) {b : ℚ} (hb : f.Holds b) (hle : |v| ≤ b) :
    magnitude x ≤ (b : WithTop ℚ) := by
  obtain ⟨hfinite, hbound, -⟩ := h.bounded hf hb hle
  rw [magnitude_eq_value hfinite, WithTop.coe_le_coe]
  exact hbound

/-- A number that is rounded to a positive one is not negative. -/
theorem nonneg_of_pos (h : f.IsNearest v x) (hf : f.Fits) (hx : 0.0 < x) : 0 ≤ v := by
  obtain ⟨neg, num, den, hden, rfl, rfl⟩ := h
  have hneg : neg = false := by
    rcases hf.nearest_cases hden neg with hparts | ⟨m, q, hparts, -⟩ <;>
      rcases pos_iff.1 hx with hpos | ⟨m', q', hpos, -⟩ <;> rw [hparts] at hpos <;> cases hpos <;> rfl
  rw [hneg]
  exact (by positivity : (0 : ℚ) ≤ num / den)

/-- A number that is as large as a positive value is rounded to one of its sign. -/
theorem sign_of_le (h : f.IsNearest v x) (hf : f.Fits) {b : ℚ} (hb : f.Holds b) (hpos : 0 < b) (hle : b ≤ |v|) :
    parts x = .infinite (decide (v < 0)) ∨ ∃ (m : Nat) (q : Int), parts x = .finite (decide (v < 0)) m q ∧ 0 < m := by
  obtain ⟨n, u, rfl, hn, hu, -⟩ := hb
  have hmagnitude := h.le_magnitude hf hn.le hu hle
  obtain ⟨neg, num, den, hden, rfl, rfl⟩ := h
  have hsign : decide (withSign neg (num / den) < 0) = neg := by
    have hquotient : (0 : ℚ) < num / den := by
      rw [abs_withSign neg (by positivity)] at hle
      exact hpos.trans_le hle
    cases neg
    · exact decide_eq_false (not_lt.2 hquotient.le)
    · exact decide_eq_true (neg_neg_of_pos hquotient)
  rw [hsign]
  refine (hf.nearest_cases hden neg).imp_right ?_
  rintro ⟨m, q, hparts, -⟩
  refine ⟨m, q, hparts, Nat.pos_of_ne_zero fun hzero => ?_⟩
  rw [magnitude_of_finite hparts, WithTop.coe_le_coe, hzero, Nat.cast_zero, zero_mul] at hmagnitude
  linarith

/-- A number that is not below a positive value is rounded to a positive one. -/
theorem pos_of_le (h : f.IsNearest v x) (hf : f.Fits) {b : ℚ} (hb : f.Holds b) (hpos : 0 < b) (hle : b ≤ v) :
    0.0 < x := by
  have hsign := h.sign_of_le hf hb hpos (hle.trans (le_abs_self v))
  rw [decide_eq_false (not_lt.2 (hpos.le.trans hle))] at hsign
  exact pos_iff.2 hsign

end IsNearest

end Format

/-! ### Signs -/

/-- Unpacked numbers of a sign. Not-a-number counts as having both. -/
def HasSign (s : Sign) : UnpackedFloat → Prop
  | .notANumber => True
  | .infinity t => t = s
  | .zero t => t = s
  | .finite t _ _ _ => t = s

/-- Numbers of a sign. -/
def Signed (neg : Bool) (x : Float) : Prop := HasSign (signOf neg) x.toModel.unpack

theorem hasSign_roundWithAccuracy (s : Sign) (m : Nat) (e : Int) (a : Accuracy) :
    HasSign s (roundWithAccuracy binary64 s m e a) := by
  unfold roundWithAccuracy
  dsimp only
  split <;> rfl

theorem hasSign_mul {s t : Sign} {a b : UnpackedFloat} (ha : HasSign s a) (hb : HasSign t b) :
    HasSign (s * t) (UnpackedFloat.mul binary64 a b) := by
  cases a <;> cases b <;> simp only [HasSign] at ha hb <;> simp only [UnpackedFloat.mul]
  case finite.finite =>
    rw [ha, hb]
    exact hasSign_roundWithAccuracy _ _ _ _
  all_goals simp [HasSign, ha, hb]

theorem signOf_injective : Function.Injective signOf := by
  intro a b h
  cases a <;> cases b <;> first | rfl | cases h

theorem signed_iff {neg : Bool} {x : Float} :
    Signed neg x ↔ parts x = .nan ∨ parts x = .infinite neg ∨ ∃ (m : Nat) (q : Int), parts x = .finite neg m q := by
  rw [Signed, unpack_toModel]
  cases parts x with
  | nan => simp [Parts.unpacked, HasSign]
  | infinite neg' => simp [Parts.unpacked, HasSign, signOf_injective.eq_iff]
  | finite neg' m q =>
      rw [Parts.unpacked]
      split <;> simp [HasSign, signOf_injective.eq_iff]

theorem signed_packed {neg : Bool} {u : UnpackedFloat} (h : HasSign (signOf neg) u) : Signed neg (packed u) := by
  rw [signed_iff]
  cases u with
  | notANumber => exact .inl rfl
  | infinity s =>
      cases h
      exact .inr (.inl (by cases neg <;> rfl))
  | zero s =>
      cases h
      exact .inr (.inr ⟨0, -1074, by cases neg <;> rfl⟩)
  | finite s m e hm =>
      cases h
      obtain ⟨exponent, fraction, hparts⟩ := parts_packed_sign (q := e) hm
      rw [hparts, Parts.ofFields]
      split_ifs <;> simp

namespace Signed

variable {a b : Bool} {x y : Float}

theorem exists_sign (x : Float) : ∃ a, Signed a x := by
  cases hx : parts x with
  | nan => exact ⟨false, signed_iff.2 (.inl hx)⟩
  | infinite neg => exact ⟨neg, signed_iff.2 (.inr (.inl hx))⟩
  | finite neg m q => exact ⟨neg, signed_iff.2 (.inr (.inr ⟨m, q, hx⟩))⟩

theorem of_pos (h : 0.0 < x) : Signed false x := by
  rcases pos_iff.1 h with hx | ⟨m, q, hx, -⟩
  · exact signed_iff.2 (.inr (.inl hx))
  · exact signed_iff.2 (.inr (.inr ⟨m, q, hx⟩))

theorem abs (x : Float) : Signed false x.abs := by
  rw [signed_iff, parts_abs]
  cases parts x <;> simp [Parts.abs]

theorem neg (h : Signed a x) : Signed (!a) (-x) := by
  rw [signed_iff] at h
  rw [signed_iff, parts_neg]
  rcases h with hx | hx | ⟨m, q, hx⟩ <;> simp [hx, Parts.neg]

/-- The sign of a product is that of its factors. -/
theorem mul (hx : Signed a x) (hy : Signed b y) : Signed (a ^^ b) (x * y) := by
  apply signed_packed
  rw [← signOf_mul]
  exact hasSign_mul hx hy

end Signed

/-! ### Sums of one direction -/

theorem add_eq_packed (x y : Float) :
    x + y = packed (UnpackedFloat.add binary64 (parts x).unpacked (parts y).unpacked) := by
  rw [← unpack_toModel, ← unpack_toModel]
  rfl

theorem not_pos_of_nan {x : Float} (h : parts x = .nan) : ¬ 0.0 < x := by
  rw [pos_iff, h]
  simp

theorem infinity_add (s : Sign) {u : UnpackedFloat} (hu : u.isFinite = true) :
    UnpackedFloat.add binary64 (.infinity s) u = .infinity s := by
  cases u <;> simp [UnpackedFloat.isFinite] at hu <;> simp only [UnpackedFloat.add]

theorem add_infinity (s : Sign) {u : UnpackedFloat} (hu : u.isFinite = true) :
    UnpackedFloat.add binary64 u (.infinity s) = .infinity s := by
  cases u <;> simp [UnpackedFloat.isFinite] at hu <;> simp only [UnpackedFloat.add]

theorem parts_packed_infinity (neg : Bool) : parts (packed (.infinity (signOf neg))) = .infinite neg := by
  cases neg <;> rfl

theorem isFinite_unpacked {x : Float} (h : x.isFinite = true) : (parts x).unpacked.isFinite = true := by
  rw [← unpack_toModel]
  exact h

/-- A number that is positive and infinite stays so, or the sum is no number. -/
theorem parts_infinite_add {x c : Float} (hx : parts x = .infinite false) (hpos : 0.0 < x + c) :
    parts (x + c) = .infinite false := by
  have hsum := add_eq_packed x c
  rw [hx] at hsum
  cases hc : parts c with
  | nan =>
      rw [hc] at hsum
      exact absurd hpos (not_pos_of_nan (hsum ▸ rfl))
  | infinite neg =>
      rw [hc] at hsum
      cases neg with
      | false =>
          rw [hsum]
          rfl
      | true => exact absurd hpos (not_pos_of_nan (hsum ▸ rfl))
  | finite neg m q =>
      rw [Parts.unpacked, infinity_add _ (isFinite_unpacked (isFinite_of_parts hc))] at hsum
      rw [hsum, parts_packed_infinity]

theorem parts_add_infinite {x c : Float} (hx : x.isFinite = true) {neg : Bool} (hc : parts c = .infinite neg) :
    parts (x + c) = .infinite neg := by
  rw [add_eq_packed, hc, Parts.unpacked, add_infinity _ (isFinite_unpacked hx), parts_packed_infinity]

theorem add_nan {x c : Float} (hc : parts c = .nan) : parts (x + c) = .nan := by
  have hsum : UnpackedFloat.add binary64 (parts x).unpacked .notANumber = .notANumber := by
    cases (parts x).unpacked <;> simp only [UnpackedFloat.add]
  rw [add_eq_packed, hc, Parts.unpacked, hsum]
  rfl

theorem parts_infinite_add_of_sign {x c : Float} {neg : Bool} (hx : parts x = .infinite neg)
    (hc : parts c = .infinite neg ∨ c.isFinite = true) : parts (x + c) = .infinite neg := by
  rw [add_eq_packed, hx, Parts.unpacked]
  rcases hc with hc | hc
  · rw [hc]
    cases neg <;> rfl
  · rw [infinity_add _ (isFinite_unpacked hc), parts_packed_infinity]

theorem nan_add {x c : Float} (hx : parts x = .nan) : parts (x + c) = .nan := by
  have hsum : UnpackedFloat.add binary64 .notANumber (parts c).unpacked = .notANumber := by
    cases (parts c).unpacked <;> simp only [UnpackedFloat.add]
  rw [add_eq_packed, hx, Parts.unpacked, hsum]
  rfl

theorem pos_add {x c : Float} (hx : 0.0 < x) (hc : 0.0 ≤ c) : 0.0 < x + c := by
  rcases parts_of_nonneg (Double.le_of_lt hx) with hinf | ⟨hfx, -⟩
  · exact pos_iff.2 (.inl (parts_infinite_add_of_sign hinf ((parts_of_nonneg hc).imp_right And.left)))
  · rcases parts_of_nonneg hc with hinf | ⟨hfc, hvalue⟩
    · exact pos_iff.2 (.inl (parts_add_infinite hfx hinf))
    · have hvx := (pos_iff_value hfx).1 hx
      exact (isNearest_add hfx hfc).pos_of_le Format.double_fits (double_holds hx hfx) hvx (by linarith)

/-- A number that a positive one can be taken off is positive. -/
theorem pos_of_nonneg_sub {x r : Float} (hr : 0.0 < r) (h : 0.0 ≤ x - r) : 0.0 < x := by
  obtain ⟨hnan, hinfinite, hnegative⟩ := not_negative h
  rw [← Double.add_neg] at hnan hinfinite hnegative
  have hneg : parts (-r) = .infinite true ∨ r.isFinite = true ∧ (-r).isFinite = true := by
    rcases pos_iff.1 hr with hr' | ⟨m, q, hr', -⟩
    · exact .inl (by rw [parts_neg, hr', Parts.neg, Bool.not_false])
    · exact .inr ⟨isFinite_of_parts hr', isFinite_of_parts (by rw [parts_neg, hr', Parts.neg])⟩
  cases hx : parts x with
  | nan => exact absurd (nan_add hx) hnan
  | infinite neg =>
      cases neg with
      | false => exact pos_iff.2 (.inl hx)
      | true => exact absurd (parts_infinite_add_of_sign hx (hneg.imp_right And.right)) hinfinite
  | finite neg m q =>
      have hfx := isFinite_of_parts hx
      rcases hneg with hneg | ⟨hfr, -⟩
      · exact absurd (parts_add_infinite hfx hneg) hinfinite
      have hvr := (pos_iff_value hfr).1 hr
      rw [pos_iff_value hfx]
      by_contra hnot
      have hless : value x - value r < 0 := by linarith
      have hsign := (isNearest_sub hfx hfr).sign_of_le Format.double_fits (double_holds hr hfr) hvr
        (by rw [abs_of_neg hless]; linarith)
      rw [decide_eq_true hless, ← Double.add_neg] at hsign
      rcases hsign with hsign | ⟨m', q', hsign, hm⟩
      · exact hinfinite hsign
      · exact hm.ne' (hnegative _ _ hsign)

section OneDirection

variable {x c : Float} (hx : 0.0 < x) (hpos : 0.0 < x + c)

include hx hpos

/-- Adding a number that is not negative does not make a positive one smaller. -/
theorem magnitude_le_add (hc : Signed false c) : magnitude x ≤ magnitude (x + c) := by
  rcases pos_iff.1 hx with hparts | ⟨m, q, hparts, hm⟩
  · rw [magnitude_of_infinite (parts_infinite_add hparts hpos)]
    exact le_top
  · have hfinite := isFinite_of_parts hparts
    rcases signed_iff.1 hc with hc | hc | ⟨m', q', hc⟩
    · exact absurd hpos (not_pos_of_nan (add_nan hc))
    · rw [magnitude_of_infinite (parts_add_infinite hfinite hc)]
      exact le_top
    · have hdouble : (Parts.finite false m q).IsDouble := hparts ▸ parts_isDouble x
      have hnearest := isNearest_add hfinite (isFinite_of_parts hc)
      rw [value_of_parts hparts, value_of_parts hc] at hnearest
      rw [magnitude_of_finite hparts]
      apply hnearest.le_magnitude Format.double_fits hdouble.1.le hdouble.2.1
      have hsum : (m * 2 ^ q : ℚ) ≤ m * 2 ^ q + m' * 2 ^ q' := le_add_of_nonneg_right (by positivity)
      exact hsum.trans (le_abs_self _)

/-- Adding a number that is not positive does not make a positive one larger. -/
theorem magnitude_add_le (hc : Signed true c) : magnitude (x + c) ≤ magnitude x := by
  rcases pos_iff.1 hx with hparts | ⟨m, q, hparts, hm⟩
  · rw [magnitude_of_infinite hparts]
    exact le_top
  · have hfinite := isFinite_of_parts hparts
    rcases signed_iff.1 hc with hc | hc | ⟨m', q', hc⟩
    · exact absurd hpos (not_pos_of_nan (add_nan hc))
    · rw [pos_iff, parts_add_infinite hfinite hc] at hpos
      simp at hpos
    · have hdouble : (Parts.finite false m q).IsDouble := hparts ▸ parts_isDouble x
      have hnearest := isNearest_add hfinite (isFinite_of_parts hc)
      have hnonneg := hnearest.nonneg_of_pos Format.double_fits hpos
      rw [value_of_parts hparts, value_of_parts hc] at hnearest hnonneg
      rw [magnitude_of_finite hparts]
      apply hnearest.magnitude_le Format.double_fits hdouble.holds
      rw [abs_of_nonneg hnonneg]
      exact add_le_of_nonpos_right (neg_nonpos.2 (by positivity))

end OneDirection

/-! ### Single precision -/

theorem pos_of_toSingle {y : Float} (h : 0.0 < toSingle y) : 0.0 < y := by
  cases hy : parts y with
  | nan =>
      rw [toSingle_of_nan hy] at h
      exact h
  | infinite neg =>
      rw [toSingle_of_infinite hy] at h
      exact h
  | finite neg m q =>
      have hfinite := isFinite_of_parts hy
      have hnonneg := (isNearest_toSingle hfinite).nonneg_of_pos Format.single_fits h
      rw [pos_iff_value hfinite]
      refine lt_of_le_of_ne hnonneg fun hzero => ?_
      -- zero is rounded to zero
      have hholds : Format.single.Holds 0 := ⟨0, 0, by simp, by decide, by decide, by positivity⟩
      obtain ⟨hround, hbound, -⟩ := (isNearest_toSingle hfinite).bounded Format.single_fits hholds
        (by rw [← hzero, abs_zero])
      rw [pos_iff_value hround] at h
      exact absurd (le_of_abs_le hbound) (not_le.2 h)

/-- A finite number in single precision is a value of the format. -/
theorem single_holds {x : Float} (hx : 0.0 < x) (hsingle : toSingle x = x) (hfinite : x.isFinite = true) :
    Format.single.Holds (value x) := by
  obtain ⟨m, q, hparts, -⟩ := parts_of_pos hx hfinite
  rcases toSingle_cases hparts with hinf | ⟨m', q', hround, hholds⟩
  · rw [hsingle, hparts] at hinf
    cases hinf
  · rw [hsingle, hparts] at hround
    cases hround
    rwa [value_of_parts hparts]

section Single

variable {x y : Float} (hx : 0.0 < x) (hsingle : toSingle x = x)

include hx hsingle

theorem magnitude_le_toSingle (h : magnitude x ≤ magnitude y) : magnitude x ≤ magnitude (toSingle y) := by
  cases hy : parts y with
  | nan => rwa [toSingle_of_nan hy]
  | infinite neg => rwa [toSingle_of_infinite hy]
  | finite neg m q =>
      have hfiniteY := isFinite_of_parts hy
      rcases pos_iff.1 hx with hinf | ⟨m', q', hparts, -⟩
      · rw [magnitude_of_infinite hinf, magnitude_of_finite hy] at h
        cases h
      · have hfinite := isFinite_of_parts hparts
        obtain ⟨n, u, hvalue, hn, hu, -⟩ := single_holds hx hsingle hfinite
        rw [magnitude_eq_value hfinite, magnitude_eq_value hfiniteY, WithTop.coe_le_coe,
          abs_of_pos ((pos_iff_value hfinite).1 hx), hvalue] at h
        rw [magnitude_eq_value hfinite, abs_of_pos ((pos_iff_value hfinite).1 hx), hvalue]
        exact (isNearest_toSingle hfiniteY).le_magnitude Format.single_fits hn.le hu h

theorem magnitude_toSingle_le (h : magnitude y ≤ magnitude x) : magnitude (toSingle y) ≤ magnitude x := by
  cases hy : parts y with
  | nan => rwa [toSingle_of_nan hy]
  | infinite neg => rwa [toSingle_of_infinite hy]
  | finite neg m q =>
      have hfiniteY := isFinite_of_parts hy
      rcases pos_iff.1 hx with hinf | ⟨m', q', hparts, -⟩
      · rw [magnitude_of_infinite hinf]
        exact le_top
      · have hfinite := isFinite_of_parts hparts
        have hholds := single_holds hx hsingle hfinite
        rw [magnitude_eq_value hfinite, magnitude_eq_value hfiniteY, WithTop.coe_le_coe,
          abs_of_pos ((pos_iff_value hfinite).1 hx)] at h
        rw [magnitude_eq_value hfinite, abs_of_pos ((pos_iff_value hfinite).1 hx)]
        exact (isNearest_toSingle hfiniteY).magnitude_le Format.single_fits hholds h

end Single

/-! ### Absorption

A sum that is the first operand again has a second operand below the last bit of the first. -/

theorem Format.Holds.pred {f : Format} {n : Nat} {u : Int} (hn : n < 2 ^ f.precision) (hu : f.least ≤ u)
    (hv : f.Holds (n * 2 ^ u)) : f.Holds ((n - 1 : Nat) * 2 ^ u) := by
  refine ⟨n - 1, u, rfl, by omega, hu, lt_of_le_of_lt ?_ hv.lt_limit⟩
  gcongr
  omega

theorem pred_mul {n : Nat} (hn : 0 < n) (u : Int) : ((n - 1 : Nat) * 2 ^ u : ℚ) = n * 2 ^ u - 2 ^ u := by
  rw [Nat.cast_sub hn]
  ring

theorem Format.Holds.double {v : ℚ} (hv : Format.single.Holds v) : Format.double.Holds v := by
  obtain ⟨n, u, rfl, hn, hu, hlt⟩ := hv
  exact ⟨n, u, rfl, hn.trans (by decide), le_trans (by decide) hu,
    hlt.trans (zpow_lt_zpow_right₀ (by norm_num) (by decide))⟩

theorem least_le_value {x : Float} (hx : 0.0 < x) (hfinite : x.isFinite = true) : (2 : ℚ) ^ (-1074 : Int) ≤ value x := by
  obtain ⟨m, q, hparts, hm⟩ := parts_of_pos hx hfinite
  have hdouble : (Parts.finite false m q).IsDouble := hparts ▸ parts_isDouble x
  have hm' : (1 : ℚ) ≤ m := by exact_mod_cast hm
  rw [value_of_parts hparts]
  calc (2 : ℚ) ^ (-1074 : Int) ≤ 2 ^ q := zpow_le_zpow_right₀ (by norm_num) hdouble.2.1
    _ ≤ m * 2 ^ q := le_mul_of_one_le_left (by positivity) hm'

/-- A product of a positive number with one and a sign has its magnitude. -/
theorem abs_eq_of_isNearest {x y : Float} {v : ℚ} (hx : 0.0 < x) (hfx : x.isFinite = true)
    (h : Format.double.IsNearest v y) (hv : |v| = value x) : y.abs = x := by
  have hholds := double_holds hx hfx
  have hvx := (pos_iff_value hfx).1 hx
  have hpos : 0.0 < y.abs := by
    rw [pos_iff, parts_abs]
    rcases h.sign_of_le Format.double_fits hholds hvx hv.ge with hparts | ⟨m, q, hparts, hm⟩
    · exact .inl (by rw [hparts]; rfl)
    · exact .inr ⟨m, q, by rw [hparts]; rfl, hm⟩
  refine eq_of_magnitude_eq hpos hx (le_antisymm ?_ ?_) <;> rw [magnitude_abs, magnitude_eq_value hfx, abs_of_pos hvx]
  · exact h.magnitude_le Format.double_fits hholds hv.le
  · obtain ⟨n, u, hn, hbits, hu, -⟩ := hholds
    rw [hn] at hv ⊢
    exact h.le_magnitude Format.double_fits hbits.le hu hv.ge

/-- What is lost when it is taken off a number is a small part of it. -/
theorem lt_of_sub_eq_self {x y : Float} (hx : 0.0 < x) (hy : 0.0 < y) (hfx : x.isFinite = true) (hfy : y.isFinite = true)
    (h : x - y = x) : 2 ^ 52 * value y < value x := by
  by_contra hlarge
  have hvx := (pos_iff_value hfx).1 hx
  have hholds := double_holds hx hfx
  obtain ⟨n, u, hn, hpos, hbits, hu, hbit⟩ := hholds.exists_bit_le hvx (least_le_value hy hfy) (not_lt.1 hlarge)
  have hnearest := isNearest_sub hfx hfy
  rw [h] at hnearest
  have hnonneg := hnearest.nonneg_of_pos Format.double_fits hx
  have hless := hnearest.magnitude_le Format.double_fits (Format.Holds.pred hbits hu (hn ▸ hholds))
    (by rw [abs_of_nonneg hnonneg, pred_mul hpos, ← hn]; linarith)
  rw [magnitude_eq_value hfx, WithTop.coe_le_coe, abs_of_pos hvx, pred_mul hpos, ← hn] at hless
  have hunit : (0 : ℚ) < 2 ^ u := by positivity
  linarith

theorem isFinite_of_toSingle {y : Float} (h : (toSingle y).isFinite = true) : y.isFinite = true := by
  cases hy : parts y with
  | nan => rwa [toSingle_of_nan hy] at h
  | infinite neg => rwa [toSingle_of_infinite hy] at h
  | finite neg m q => exact isFinite_of_parts hy

/-- A place in single precision is kept by a step only if the step is a small part of it, or below the least number. -/
theorem lt_of_toSingle_add_eq_self {x c : Float} (hx : 0.0 < x) (hsingle : toSingle x = x) (hfx : x.isFinite = true)
    (h : toSingle (x + c) = x) :
    c.isFinite = true ∧ (|value c| < 2 ^ (-149 : Int) ∨ 2 ^ 23 * |value c| < value x) := by
  have hvx := (pos_iff_value hfx).1 hx
  have hfy : (x + c).isFinite = true := isFinite_of_toSingle (by rwa [h])
  have hfc : c.isFinite = true := (isFinite_of_add hfy).2
  refine ⟨hfc, ?_⟩
  by_contra hlarge
  rw [not_or, not_lt, not_lt] at hlarge
  have hholds := single_holds hx hsingle hfx
  obtain ⟨n, u, hn, hpos, hbits, hu, hbit⟩ := hholds.exists_bit_le hvx hlarge.1 hlarge.2
  have hnearest := isNearest_add hfx hfc
  have hround := isNearest_toSingle hfy
  rw [h] at hround
  have hvy := hround.nonneg_of_pos Format.single_fits hx
  have hunit : (0 : ℚ) < 2 ^ u := by positivity
  rcases abs_cases (value c) with ⟨habs, hsign⟩ | ⟨habs, hsign⟩ <;> rw [habs] at hbit
  · -- the sum reaches the next value above
    have hnext : ((n + 1 : Nat) * 2 ^ u : ℚ) = value x + 2 ^ u := by
      rw [hn]
      push_cast
      ring
    have hy := hnearest.le_magnitude Format.double_fits (hbits.trans_le (by decide)) (le_trans (by decide) hu)
      (by rw [hnext, abs_of_nonneg (by linarith)]; linarith)
    rw [magnitude_eq_value hfy, WithTop.coe_le_coe] at hy
    have hover := hround.le_magnitude Format.single_fits hbits hu hy
    rw [magnitude_eq_value hfx, WithTop.coe_le_coe, abs_of_pos hvx, hnext] at hover
    linarith
  · -- the sum falls to the value below, or further
    have hpred := Format.Holds.pred hbits hu (hn ▸ hholds)
    have hnonneg := hnearest.nonneg_of_pos Format.double_fits (pos_of_toSingle (by rw [h]; exact hx))
    have hy := hnearest.magnitude_le Format.double_fits hpred.double
      (by rw [abs_of_nonneg hnonneg, pred_mul hpos, ← hn]; linarith)
    rw [magnitude_eq_value hfy, WithTop.coe_le_coe] at hy
    have hunder := hround.magnitude_le Format.single_fits hpred hy
    rw [magnitude_eq_value hfx, WithTop.coe_le_coe, abs_of_pos hvx, pred_mul hpos, ← hn] at hunder
    linarith

end Rover
