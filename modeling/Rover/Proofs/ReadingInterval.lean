import Rover.Proofs.HalfEven
import Rover.Proofs.Single

/-!
# The numbers read as one single

A decimal is rounded twice when it is read as a float: to the nearest double, and from there to single precision. What
becomes of the number that it stands for is `reading`, and a decimal reads as a given float exactly if its number does
(`toSingle_toFloat_iff`). The numbers read as one single are an interval. About a single that is not a power of two the
interval is symmetric (`reading_two_mul_sub`). Below a power of two the singles are twice as dense as above it, so that the
interval reaches half as far down as up; its ends are found to a sixty-fourth of the last bit.
-/

namespace Rover

/-- What a number is read as: the nearest single to the nearest double, however large. -/
def reading (w : ℚ) : ℚ := Format.single.rounded (Format.double.rounded w)

theorem reading_mono {v w : ℚ} (hv : 0 ≤ v) (h : v ≤ w) : reading v ≤ reading w :=
  Format.rounded_mono Format.single_fits.precision_pos (Format.double.rounded_nonneg hv)
    (Format.rounded_mono Format.double_fits.precision_pos hv h)

/-- The numbers read alike are an interval. -/
theorem reading_of_between {a b v w : ℚ} (ha : 0 ≤ a) (hra : reading a = v) (hrb : reading b = v) (haw : a ≤ w)
    (hwb : w ≤ b) : reading w = v :=
  le_antisymm (hrb ▸ reading_mono (ha.trans haw) hwb) (hra ▸ reading_mono ha haw)

/-! ### Decimals -/

theorem Format.Gives.sign_eq {f : Format} {neg neg' : Bool} {v : ℚ} {x : Float} (h : f.Gives neg' v x) {m : Nat} {q : Int}
    (hx : parts x = .finite neg m q) : neg' = neg := by
  rcases h with ⟨-, m', q', hx', -⟩ | ⟨-, hx'⟩
  · rw [hx] at hx'
    cases hx'
    rfl
  · rw [hx] at hx'
    cases hx'

theorem gives_toSingle {x : Float} {neg : Bool} {m : Nat} {q : Int} (h : parts x = .finite neg m q) :
    Format.single.Gives neg (Format.single.rounded (m * 2 ^ q)) (toSingle x) := by
  rw [toSingle_of_finite h, ← shifted_quotient]
  exact Format.single_fits.gives_nearest _ (one_shiftLeft_pos _) neg

/-- What is read from a number whose nearest double was found. -/
theorem Format.Gives.toSingle {neg : Bool} {w : ℚ} {x : Float} (h : Format.double.Gives neg (Format.double.rounded w) x) :
    Format.single.Gives neg (reading w) (toSingle x) := by
  rcases h with ⟨-, m, q, hparts, hvalue⟩ | ⟨hlimit, hparts⟩
  · rw [reading, ← hvalue]
    exact gives_toSingle hparts
  · rw [toSingle_of_infinite hparts]
    refine .inr ⟨?_, hparts⟩
    have hprecision := Format.single_fits.precision_pos
    rw [← Format.rounded_two_zpow hprecision (by decide : Format.single.least ≤ Format.single.limit)]
    refine Format.rounded_mono hprecision (by positivity) (le_trans ?_ hlimit)
    exact zpow_le_zpow_right₀ (by norm_num) (by decide)

namespace Decimal

/-- The double of a decimal is the nearest one. The two cut-offs make no difference. -/
theorem gives_toFloat (neg : Bool) (d : Decimal) :
    Format.double.Gives neg (Format.double.rounded d.value) (d.toFloat neg) := by
  have hprecision := Format.double_fits.precision_pos
  rw [toFloat_eq]
  split_ifs with hsmall hlarge
  · have hzero : Format.double.rounded d.value = 0 := by
      rcases hsmall with hzero | hsize
      · rw [value, hzero, Nat.cast_zero, zero_mul, Format.rounded_zero]
      · refine Format.rounded_of_small hprecision (by rw [value]; positivity) ?_
        calc d.value < 10 ^ d.size := value_lt d
          _ ≤ 10 ^ (-330 : Int) := zpow_le_zpow_right₀ (by norm_num) hsize.le
          _ < 2 ^ (-1075 : Int) := by
              rw [zpow_neg, zpow_neg, inv_lt_inv₀ (by positivity) (by positivity)]
              exact two_zpow_lt_ten_zpow (by decide +kernel)
          _ = 2 ^ Format.double.least / 2 := zpow_sub_one₀ (by norm_num) (-1074)
    rw [hzero]
    exact .inl ⟨by positivity, 0, -1074, parts_zero neg, by simp⟩
  · have hpos : 0 < d.coefficient := Nat.pos_of_ne_zero (not_or.1 hsmall).1
    have hlimit : (2 : ℚ) ^ Format.double.limit ≤ d.value := by
      calc (2 : ℚ) ^ (1024 : Int) ≤ 10 ^ (320 : Int) := (two_zpow_lt_ten_zpow (by decide +kernel)).le
        _ ≤ 10 ^ (d.size - 1) := zpow_le_zpow_right₀ (by norm_num) (by omega)
        _ ≤ d.value := le_value hpos
    refine .inr ⟨?_, parts_infinity neg⟩
    rw [← Format.rounded_two_zpow hprecision (by decide : Format.double.least ≤ Format.double.limit)]
    exact Format.rounded_mono hprecision (by positivity) hlimit
  · rw [value_eq_quotient]
    exact Format.double_fits.gives_nearest _ (Nat.pow_pos (by decide)) neg

theorem gives_reading (neg : Bool) (d : Decimal) :
    Format.single.Gives neg (reading d.value) (toSingle (d.toFloat neg)) :=
  (d.gives_toFloat neg).toSingle

/-- A decimal reads as a double if its number is rounded to the double's. -/
theorem toFloat_iff {x : Float} {neg : Bool} {m : Nat} {q : Int} (hx : parts x = .finite neg m q) (d : Decimal) :
    d.toFloat neg = x ↔ Format.double.rounded d.value = m * 2 ^ q := by
  have hdouble : (Parts.finite neg m q).IsDouble := hx ▸ parts_isDouble x
  exact (d.gives_toFloat neg).eq_iff hx hdouble.holds.lt_limit

/-- A decimal reads as a single if its number is read as the single's. -/
theorem toSingle_toFloat_iff {x : Float} {neg : Bool} {m : Nat} {q : Int} (hx : parts x = .finite neg m q)
    (hv : Format.single.Holds (m * 2 ^ q)) (d : Decimal) :
    toSingle (d.toFloat neg) = x ↔ reading d.value = m * 2 ^ q :=
  (d.gives_reading neg).eq_iff hx hv.lt_limit

end Decimal

/-! ### The ends of the interval -/

/-- The number so many sixty-fourths of the last bit above a value. -/
def off (n : Nat) (u j : Int) : ℚ := (n + j / 64) * 2 ^ u

theorem off_zero (n : Nat) (u : Int) : off n u 0 = n * 2 ^ u := by simp [off]

theorem off_mono (n : Nat) (u : Int) {i j : Int} (h : i ≤ j) : off n u i ≤ off n u j := by
  unfold off
  gcongr

theorem off_lt_off (n : Nat) (u : Int) {i j : Int} (h : i < j) : off n u i < off n u j := by
  unfold off
  gcongr

theorem off_whole (n : Nat) (u i : Int) : off n u (64 * i) = (n + i) * 2 ^ u := by
  rw [off]
  push_cast
  ring

/-- The same number by a bit that is half as large. -/
theorem off_half (n : Nat) (u j : Int) : off n u j = off (2 * n) (u - 1) (2 * j) := by
  rw [off, off, zpow_sub_one₀ (by norm_num)]
  push_cast
  ring

theorem off_pos {n : Nat} (hn : 0 < n) (u : Int) {j : Int} (hj : -64 < j) : 0 < off n u j := by
  have hn' : (1 : ℚ) ≤ n := by exact_mod_cast hn
  have hj' : (-64 : ℚ) < j := by exact_mod_cast hj
  exact mul_pos (by linarith) (by positivity)

theorem rounded_off {f : Format} {n : Nat} {u j i : Int} (hbit : f.lastBit (off n u j) = u) (hi : |j - 64 * i| < 32) :
    f.rounded (off n u j) = (n + i) * 2 ^ u := by
  have hround := Format.rounded_of_near (k := n + i) hbit ?_
  · rw [hround]
    push_cast
    rfl
  · have hdiff : off n u j - ((n + i : Int) : ℚ) * 2 ^ u = ((j - 64 * i : Int) : ℚ) / 64 * 2 ^ u := by
      rw [off]
      push_cast
      ring
    have hi' : |((j - 64 * i : Int) : ℚ)| < 32 := by exact_mod_cast hi
    have hpower : (0 : ℚ) < 2 ^ u := by positivity
    rw [hdiff, abs_mul, abs_div, abs_of_pos hpower, abs_of_pos (by norm_num : (0 : ℚ) < 64)]
    nlinarith

section Ends

variable {n : Nat} {u : Int} (h : Format.single.Kept n u) {j : Int}

include h

/-- Such numbers are doubles. -/
theorem reading_off (hlow : -64 ≤ j) (hhigh : j ≤ 64) : reading (off n u j) = Format.single.rounded (off n u j) := by
  have hpos := h.pos
  have hlt : n < 2 ^ 24 := h.lt
  have hleast : -149 ≤ u := h.least_le
  have hoff : off n u j = ((64 * n + j).toNat : Nat) * 2 ^ (u - 6) := by
    have hcast : (((64 * n + j).toNat : Nat) : ℚ) = 64 * n + j := by
      rw [← Int.cast_natCast, Int.toNat_of_nonneg (by omega)]
      push_cast
      rfl
    rw [hcast, off, zpow_sub₀ (by norm_num)]
    norm_num
    ring
  have hdouble : Format.double.rounded (off n u j) = off n u j := by
    rw [hoff]
    refine Format.rounded_of_lt_two_pow ?_ ?_
    · change (64 * (n : Int) + j).toNat < 2 ^ 53
      omega
    · change -1074 ≤ u - 6
      omega
  rw [reading, hdouble]

theorem lastBit_off (hlow : 0 ≤ j) (hhigh : j < 64) : Format.single.lastBit (off n u j) = u := by
  apply h.lastBit_eq
  · exact (off_zero n u) ▸ off_mono n u hlow
  · have hnext := off_whole n u 1
    rw [Int.cast_one] at hnext
    rw [← hnext]
    exact off_lt_off n u hhigh

theorem lastBit_off_le (hlow : -64 < j) (hhigh : j ≤ 0) : Format.single.lastBit (off n u j) ≤ u :=
  (Format.lastBit_mono (off_pos h.pos u hlow) (off_mono n u hhigh)).trans_eq (lastBit_off h le_rfl (by norm_num))

theorem lastBit_off_below (hlow : -32 ≤ j) (hhigh : j < 0) :
    Format.single.lastBit (off n u j) = u ∨ Format.single.lastBit (off n u j) = u - 1 := by
  have hpos := off_pos h.pos u (by omega : -64 < j)
  have hle := lastBit_off_le h (by omega : -64 < j) hhigh.le
  have hge : u - 1 ≤ Format.single.lastBit (off n u j) := by
    rcases h.bit with hbit | hbit
    · have hhalf : (2 : ℚ) ^ (22 + u) ≤ off n u j := by
        have hn : (8388608 : ℚ) ≤ n := by
          have : 2 ^ 24 ≤ 2 * n := hbit
          exact_mod_cast (by omega : 8388608 ≤ n)
        have hj : (-32 : ℚ) ≤ j := by exact_mod_cast hlow
        rw [off, zpow_add₀ (by norm_num)]
        gcongr
        norm_num
        linarith
      rw [two_zpow_le_iff hpos] at hhalf
      refine le_trans ?_ (le_max_left _ _)
      change u - 1 ≤ Int.log 2 (off n u j) + 1 - (24 : Nat)
      omega
    · rw [hbit]
      exact le_trans (by omega) (le_max_right _ _)
  omega

theorem reading_off_above (hlow : 0 ≤ j) (hhigh : j < 32) : reading (off n u j) = n * 2 ^ u := by
  have hround := rounded_off (i := 0) (lastBit_off h hlow (by omega)) (by rw [abs_lt]; omega)
  rw [reading_off h (by omega) (by omega), hround, Int.cast_zero, add_zero]

theorem reading_off_next (hlow : 32 < j) (hhigh : j < 64) : reading (off n u j) = (n + 1) * 2 ^ u := by
  have hround := rounded_off (i := 1) (lastBit_off h (by omega) hhigh) (by rw [abs_lt]; omega)
  rw [reading_off h (by omega) (by omega), hround, Int.cast_one]

theorem reading_off_below (hlow : -16 < j) (hhigh : j < 0) : reading (off n u j) = n * 2 ^ u := by
  rw [reading_off h (by omega) (by omega)]
  rcases lastBit_off_below h (by omega) hhigh with hbit | hbit
  · rw [rounded_off (i := 0) hbit (by rw [abs_lt]; omega), Int.cast_zero, add_zero]
  · rw [off_half] at hbit ⊢
    rw [rounded_off (i := 0) hbit (by rw [abs_lt]; omega), Int.cast_zero, add_zero, zpow_sub_one₀ (by norm_num)]
    push_cast
    ring

/-- Numbers well inside the interval. -/
theorem reading_within {w : ℚ} (hlow : n * 2 ^ u - w ≤ 15 / 64 * 2 ^ u) (hhigh : w - n * 2 ^ u ≤ 31 / 64 * 2 ^ u) :
    reading w = n * 2 ^ u := by
  refine reading_of_between (off_pos h.pos u (by norm_num)).le (reading_off_below h (j := -15) (by norm_num) (by norm_num))
    (reading_off_above h (j := 31) (by norm_num) (by norm_num)) ?_ ?_
  · rw [off]
    push_cast
    linarith
  · rw [off]
    push_cast
    linarith

theorem sub_lt_of_reading {w : ℚ} (hread : reading w = n * 2 ^ u) : w - n * 2 ^ u < 33 / 64 * 2 ^ u := by
  by_contra hge
  have hoff : off n u 33 ≤ w := by
    rw [off]
    push_cast
    linarith
  have hnext := reading_mono (off_pos h.pos u (by norm_num)).le hoff
  rw [reading_off_next h (by norm_num) (by norm_num), hread] at hnext
  have hpower : (0 : ℚ) < 2 ^ u := by positivity
  linarith

end Ends

/-- Below a power of two the singles are twice as dense, except among those that have the least bit. -/
theorem sub_lt_of_reading_power {u : Int} (hu : -149 < u) {w : ℚ} (hw : 0 ≤ w)
    (hread : reading w = (2 ^ 23 : Nat) * 2 ^ u) : (2 ^ 23 : Nat) * 2 ^ u - w < 17 / 64 * 2 ^ u := by
  have hkept : Format.single.Kept (2 ^ 23) u := ⟨by norm_num, by decide, hu.le, .inl (by decide)⟩
  have hpower : (0 : ℚ) < 2 ^ u := by positivity
  have hbit : Format.single.lastBit (off (2 ^ 23) u (-17)) = u - 1 := by
    have hlast := Format.lastBit_eq (f := Format.single) (w := off (2 ^ 23) u (-17)) (a := 22 + u) ?_ ?_
    · rw [hlast]
      change max (22 + u + 1 - (24 : Nat)) (-149) = u - 1
      omega
    · rw [off, zpow_add₀ (by norm_num)]
      gcongr
      norm_num
    · rw [off, show 22 + u + 1 = 23 + u by ring, zpow_add₀ (by norm_num)]
      gcongr
      norm_num
  have hprevious : reading (off (2 ^ 23) u (-17)) = (2 ^ 24 - 1) * 2 ^ (u - 1) := by
    rw [reading_off hkept (by norm_num) (by norm_num)]
    rw [off_half] at hbit ⊢
    rw [rounded_off (i := -1) hbit (by norm_num)]
    norm_num
  by_contra hge
  have hoff : w ≤ off (2 ^ 23) u (-17) := by
    rw [off]
    push_cast at hge ⊢
    linarith
  have hbelow := reading_mono hw hoff
  rw [hprevious, hread, zpow_sub_one₀ (by norm_num)] at hbelow
  norm_num at hbelow
  linarith

/-! A value whose last bit is the least one of all has its neighbours at equal distances. -/

section Least

variable {n : Nat} {u : Int} (h : Format.single.Kept n u) (hu : u = -149) {w : ℚ}

include h hu

theorem lastBit_off_least {j : Int} (hlow : -64 < j) (hhigh : j ≤ 0) : Format.single.lastBit (off n u j) = u :=
  le_antisymm (lastBit_off_le h hlow hhigh) (hu.trans_le (le_max_right _ _))

theorem reading_within_least (hlow : n * 2 ^ u - w ≤ 31 / 64 * 2 ^ u) (hhigh : w - n * 2 ^ u ≤ 31 / 64 * 2 ^ u) :
    reading w = n * 2 ^ u := by
  have hends : reading (off n u (-31)) = n * 2 ^ u := by
    rw [reading_off h (by norm_num) (by norm_num),
      rounded_off (i := 0) (lastBit_off_least h hu (by norm_num) (by norm_num)) (by norm_num), Int.cast_zero, add_zero]
  refine reading_of_between (off_pos h.pos u (by norm_num)).le hends
    (reading_off_above h (j := 31) (by norm_num) (by norm_num)) ?_ ?_
  · rw [off]
    push_cast
    linarith
  · rw [off]
    push_cast
    linarith

theorem sub_lt_of_reading_least (hw : 0 ≤ w) (hread : reading w = n * 2 ^ u) : n * 2 ^ u - w < 33 / 64 * 2 ^ u := by
  have hpower : (0 : ℚ) < 2 ^ u := by positivity
  by_contra hge
  have hoff : w ≤ off n u (-33) := by
    rw [off]
    push_cast
    linarith
  have hbelow := reading_mono hw hoff
  rw [reading_off h (by norm_num) (by norm_num),
    rounded_off (i := -1) (lastBit_off_least h hu (by norm_num) (by norm_num)) (by norm_num), hread] at hbelow
  push_cast at hbelow
  linarith

end Least

/-! ### Symmetry -/

theorem reading_of_le_two_pow {n : Nat} {u : Int} (hn : n ≤ 2 ^ 24) (hu : -149 ≤ u) : reading (n * 2 ^ u) = n * 2 ^ u := by
  have hdouble : Format.double.rounded (n * 2 ^ u) = n * 2 ^ u := by
    refine Format.rounded_of_lt_two_pow ?_ ?_
    · exact lt_of_le_of_lt hn (by decide)
    · exact le_trans (by decide) hu
  rw [reading, hdouble, Format.rounded_of_le_two_pow Format.single_fits.precision_pos hn hu]

section Symmetry

variable {n : Nat} {u : Int} (h : Format.single.Kept n u) {w : ℚ}

include h

/-- What is rounded to a single is less than a bit off. -/
theorem abs_sub_lt_of_rounded {round : ℚ → ℚ} (hmono : ∀ a b, 0 ≤ a → a ≤ b → round a ≤ round b)
    (hfixed : ∀ k : Nat, k ≤ 2 ^ 24 → round (k * 2 ^ u) = k * 2 ^ u) (hw : 0 ≤ w) (hround : round w = n * 2 ^ u) :
    |w - n * 2 ^ u| < 2 ^ u := by
  have hpower : (0 : ℚ) < 2 ^ u := by positivity
  have hlt : n < 2 ^ 24 := h.lt
  rw [abs_lt]
  refine ⟨?_, ?_⟩
  · by_contra hbelow
    have hpos := h.pos
    have hprevious : ((n - 1 : Nat) * 2 ^ u : ℚ) = n * 2 ^ u - 2 ^ u := by
      rw [Nat.cast_sub hpos, Nat.cast_one]
      ring
    have hle := hmono w ((n - 1 : Nat) * 2 ^ u) hw (by linarith)
    rw [hfixed (n - 1) (by omega), hround, hprevious] at hle
    linarith
  · by_contra habove
    have hnext : ((n + 1 : Nat) * 2 ^ u : ℚ) = n * 2 ^ u + 2 ^ u := by
      push_cast
      ring
    have hle := hmono ((n + 1 : Nat) * 2 ^ u) w (by positivity) (by linarith)
    rw [hfixed (n + 1) (by omega), hround, hnext] at hle
    linarith

omit h in
/-- About a number between two powers of two, a format rounds symmetrically as far as a bit that it keeps. -/
theorem rounded_mirror {f : Format} {a : Nat} (hlow : 2 ^ a < n) (hhigh : n < 2 ^ (a + 1)) (hbit : a + u + 1 - f.precision ≤ u)
    (hleast : f.least ≤ u) (hw : |w - n * 2 ^ u| < 2 ^ u) :
    f.rounded (2 * (n * 2 ^ u) - w) = 2 * (n * 2 ^ u) - f.rounded w := by
  have hpower : (0 : ℚ) < 2 ^ u := by positivity
  obtain ⟨hbelow, habove⟩ := abs_lt.1 hw
  -- both numbers lie between the two powers
  have hlast {w' : ℚ} (hbelow : -2 ^ u < w' - n * 2 ^ u) (habove : w' - n * 2 ^ u < 2 ^ u) :
      f.lastBit w' = max (a + u + 1 - f.precision) f.least := by
    have hlow' : (2 : ℚ) ^ a + 1 ≤ n := by exact_mod_cast hlow
    have hhigh' : (n : ℚ) + 1 ≤ 2 ^ (a + 1) := by exact_mod_cast hhigh
    apply Format.lastBit_eq
    · rw [zpow_add₀ (by norm_num), zpow_natCast]
      nlinarith
    · rw [show (a : Int) + u + 1 = (a + 1 : Nat) + u by push_cast; ring, zpow_add₀ (by norm_num), zpow_natCast]
      nlinarith
  have hbits := hlast hbelow habove
  obtain ⟨k, hk⟩ := exists_multiple n (hbits.trans_le (max_le hbit hleast))
  rw [Int.cast_natCast] at hk
  refine Format.rounded_two_mul_sub hk ?_
  rw [hbits]
  exact hlast (by linarith) (by linarith)

/-- The interval of a single that is not a power of two is symmetric. -/
theorem reading_two_mul_sub (hn : ∀ a, n ≠ 2 ^ a) (hw : 0 ≤ w) (hread : reading w = n * 2 ^ u) :
    reading (2 * (n * 2 ^ u) - w) = n * 2 ^ u := by
  have hpos := h.pos
  have hlt : n < 2 ^ 24 := h.lt
  have hleast : -149 ≤ u := h.least_le
  have hlow : 2 ^ n.log2 < n := (Nat.log2_self_le hpos.ne').lt_of_ne (hn _).symm
  have hhigh : n < 2 ^ (n.log2 + 1) := Nat.lt_log2_self
  have hlog : n.log2 < 24 := (Nat.log2_lt hpos.ne').2 hlt
  have hclose := abs_sub_lt_of_rounded h (fun _ _ => reading_mono) (fun k hk => reading_of_le_two_pow hk hleast) hw hread
  have hdouble : Format.double.rounded (2 * (n * 2 ^ u) - w) = 2 * (n * 2 ^ u) - Format.double.rounded w := by
    refine rounded_mirror hlow hhigh ?_ ?_ hclose
    · change (n.log2 : Int) + u + 1 - (53 : Nat) ≤ u
      omega
    · change -1074 ≤ u
      omega
  -- the double of `w` is in the same place
  have hnonneg := Format.double.rounded_nonneg hw
  have hclose' := abs_sub_lt_of_rounded h (fun _ _ => Format.rounded_mono Format.single_fits.precision_pos)
    (fun k hk => Format.rounded_of_le_two_pow Format.single_fits.precision_pos hk h.least_le) hnonneg hread
  have hsingle := rounded_mirror (f := Format.single) hlow hhigh ?_ h.least_le hclose'
  · rw [reading] at hread ⊢
    rw [hdouble, hsingle, hread]
    ring
  · change (n.log2 : Int) + u + 1 - (24 : Nat) ≤ u
    omega

end Symmetry

end Rover
