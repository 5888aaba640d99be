import Rover.Proofs.NearestEven
import Rover.Proofs.Product
import Rover.Proofs.ReadingInterval
import Rover.Value

/-!
# Arithmetic of singles

A float operation is carried out on doubles, and its result is rounded to single precision: twice in all. Rounding twice goes
wrong only where the first rounding comes to a halfway point between two singles that the number itself was not at
(`reading_eq_of_no_tie`). No operation on singles comes so close to a halfway point without being at it. A product fits a
double; a sum that does not fit one is very near to the greater of its operands, which is no halfway point; and a quotient
can only come as near as the divisor allows.
-/

namespace Rover

open Format

theorem Format.abs_rounded_sub_le (f : Format) (w : ℚ) : |f.rounded w - w| ≤ 2 ^ f.lastBit w / 2 := by
  rw [rounded, abs_multiple_sub]
  calc |halfEven (w / 2 ^ f.lastBit w) - w / 2 ^ f.lastBit w| * 2 ^ f.lastBit w
      ≤ 1 / 2 * 2 ^ f.lastBit w := by
        gcongr
        exact abs_halfEven_sub_le _
    _ = 2 ^ f.lastBit w / 2 := by ring

theorem single_lastBit (w : ℚ) : single.lastBit w = max (Int.log 2 w - 23) (-149) := by
  rw [lastBit, single]
  push_cast
  omega

theorem double_lastBit (w : ℚ) : double.lastBit w = max (Int.log 2 w - 52) (-1074) := by
  rw [lastBit, double]
  push_cast
  omega

section

variable {v : ℚ} (hv : 2 ^ (-1022 : Int) ≤ v)

include hv

theorem normal_pos : 0 < v := lt_of_lt_of_le (by positivity) hv

theorem normal_log : -1022 ≤ Int.log 2 v := (two_zpow_le_iff (normal_pos hv)).1 hv

theorem double_rounded_bounds : 2 ^ Int.log 2 v ≤ double.rounded v ∧ double.rounded v ≤ 2 ^ (Int.log 2 v + 1) := by
  have hpos := normal_pos hv
  have hlog := normal_log hv
  have hprecision := double_fits.precision_pos
  have hleast : double.least = -1074 := rfl
  have hlow : 2 ^ Int.log 2 v ≤ v := (two_zpow_le_iff hpos).2 le_rfl
  have hhigh : v ≤ 2 ^ (Int.log 2 v + 1) := ((lt_two_zpow_iff hpos).2 (by omega)).le
  constructor
  · rw [← rounded_two_zpow (f := double) (u := Int.log 2 v) hprecision (by omega)]
    exact rounded_mono hprecision (by positivity) hlow
  · rw [← rounded_two_zpow (f := double) (u := Int.log 2 v + 1) hprecision (by omega)]
    exact rounded_mono hprecision hpos.le hhigh

/-- The nearest double is closer to a single than half of the last bit of singles only if the number is. -/
theorem double_rounded_near {n : Nat} (hn : n ≤ 2 ^ 24) (h : |v - n * 2 ^ single.lastBit v| ≤ 2 ^ single.lastBit v / 2) :
    |double.rounded v - n * 2 ^ single.lastBit v| ≤ 2 ^ single.lastBit v / 2 := by
  have hpos := normal_pos hv
  have hprecision := double_fits.precision_pos
  have hleast : double.least = -1074 := rfl
  have hbit := single_lastBit v
  generalize single.lastBit v = u at *
  have hpower : (0 : ℚ) < 2 ^ u := by positivity
  have hmiddle {j : Nat} (hj : j < 2 ^ 53) : double.rounded (j / 2 * 2 ^ u) = j / 2 * 2 ^ u := by
    have hhalf : (j / 2 * 2 ^ u : ℚ) = j * 2 ^ (u - 1) := by
      rw [zpow_sub_one₀ (by norm_num)]
      ring
    rw [hhalf]
    exact rounded_of_lt_two_pow (f := double) hj (by omega)
  rw [abs_le] at h ⊢
  constructor
  · rcases Nat.eq_zero_or_pos n with rfl | hn0
    · have hnonneg := double.rounded_nonneg hpos.le
      rw [Nat.cast_zero, zero_mul]
      linarith
    · have hcast : ((2 * n - 1 : Nat) : ℚ) = 2 * n - 1 := by
        rw [Nat.cast_sub (by omega)]
        push_cast
        ring
      have hmono := rounded_mono (f := double) hprecision (v := (2 * n - 1 : Nat) / 2 * 2 ^ u) (w := v) (by positivity)
        (by rw [hcast]; linarith)
      rw [hmiddle (by omega), hcast] at hmono
      linarith
  · have hmono := rounded_mono (f := double) hprecision (v := v) (w := (2 * n + 1 : Nat) / 2 * 2 ^ u) hpos.le
      (by push_cast; linarith)
    rw [hmiddle (by omega)] at hmono
    push_cast at hmono
    linarith

omit hv in
theorem eq_of_abs_sub_lt_one {i j : Int} (h : |(i - j : ℚ)| < 1) : i = j := by
  have hcast : |i - j| < 1 := by exact_mod_cast h
  exact sub_eq_zero.1 (Int.abs_lt_one_iff.1 hcast)

/-- What is strictly nearer to a single than to a halfway point is rounded to it, even if it is a power of two. -/
theorem single_rounded_near {n : Nat}
    (h : |double.rounded v - n * 2 ^ single.lastBit v| < 2 ^ single.lastBit v / 2) :
    single.rounded (double.rounded v) = n * 2 ^ single.lastBit v := by
  obtain ⟨hlow, hhigh⟩ := double_rounded_bounds hv
  have hprecision : single.precision = 24 := rfl
  have hleast : single.least = -149 := rfl
  have hbit := single_lastBit v
  generalize single.lastBit v = u at *
  generalize double.rounded v = w at *
  generalize Int.log 2 v = l at *
  have hsame (hw : single.lastBit w = u) : single.rounded w = n * 2 ^ u := by
    have hround := rounded_of_near (k := n) hw (by exact_mod_cast h)
    exact_mod_cast hround
  rcases hhigh.lt_or_eq with hless | rfl
  · apply hsame
    rw [lastBit_eq hlow hless]
    omega
  · have hlast : single.lastBit (2 ^ (l + 1)) = max (l + 2 - 24) (-149) := by
      rw [lastBit_eq le_rfl (zpow_lt_zpow_right₀ (by norm_num) (by omega))]
      omega
    rcases le_or_gt (l - 22) (-149) with hsmall | hlarge
    · apply hsame
      omega
    · -- The power of two is a single, and its distance to the other one is a whole number of last bits.
      have hpower : (0 : ℚ) < 2 ^ u := by positivity
      have htop : (2 : ℚ) ^ (l + 1) = 2 ^ 24 * 2 ^ u := by
        rw [← zpow_natCast, ← zpow_add₀ (by norm_num)]
        congr 1
        omega
      have hdistance : |((2 ^ 24 : Nat) - n : ℚ)| < 1 := by
        rw [htop, ← sub_mul, abs_mul, abs_of_pos hpower] at h
        push_cast
        nlinarith
      obtain rfl : 2 ^ 24 = n := Int.natCast_inj.1 (eq_of_abs_sub_lt_one hdistance)
      rw [rounded_two_zpow single_fits.precision_pos (by omega), htop, Nat.cast_pow, Nat.cast_ofNat]

/-- Rounding twice is rounding once, unless the first rounding comes to a halfway point that was not there. -/
theorem reading_eq_of_no_tie
    (h : ∀ k : Int, double.rounded v = (k + 1 / 2) * 2 ^ single.lastBit v → double.rounded v = v) :
    reading v = single.rounded v := by
  have hpos := normal_pos hv
  obtain ⟨n, hn, hrounded, hle⟩ := exists_rounded_eq (f := single) hpos
  by_cases hexact : double.rounded v = v
  · rw [reading, hexact]
  · have hclose : |v - n * 2 ^ single.lastBit v| ≤ 2 ^ single.lastBit v / 2 := by
      rw [← hrounded, abs_sub_comm]
      exact single.abs_rounded_sub_le v
    have hnear := double_rounded_near hv hle hclose
    rw [reading, hrounded]
    apply single_rounded_near hv
    refine hnear.lt_of_ne fun htie => hexact ?_
    rcases (abs_eq (by positivity)).1 htie with hup | hdown
    · exact h n (by push_cast; linarith)
    · exact h (n - 1) (by push_cast; linarith)

end

/-! ### Exact results -/

theorem lt_of_two_zpow_le {n : Nat} {a q : Int} (hn : n < 2 ^ 24) (h : 2 ^ a ≤ (n * 2 ^ q : ℚ)) : a < 24 + q := by
  have hn' : (n : ℚ) < 2 ^ 24 := by exact_mod_cast hn
  rw [← zpow_lt_zpow_iff_right₀ (by norm_num : (1 : ℚ) < 2)]
  calc (2 : ℚ) ^ a ≤ n * 2 ^ q := h
    _ < 2 ^ 24 * 2 ^ q := by gcongr
    _ = 2 ^ (24 + q) := by rw [zpow_add₀ (by norm_num)]; rfl

/-- A product of singles is a double. -/
theorem reading_mul {y z : ℚ} (hy : single.Holds y) (hz : single.Holds z) : reading (y * z) = single.rounded (y * z) := by
  obtain ⟨m, q, rfl, hm, hq, -⟩ := hy
  obtain ⟨m', q', rfl, hm', hq', -⟩ := hz
  have hproduct : (m * 2 ^ q * (m' * 2 ^ q') : ℚ) = (m * m' : Nat) * 2 ^ (q + q') := by
    rw [zpow_add₀ (by norm_num)]
    push_cast
    ring
  have hsize : m * m' < 2 ^ 53 := (Nat.mul_lt_mul'' hm hm').trans (by decide)
  have hleast : -149 ≤ q ∧ -149 ≤ q' := ⟨hq, hq'⟩
  have hexact : double.rounded ((m * m' : Nat) * 2 ^ (q + q')) = (m * m' : Nat) * 2 ^ (q + q') :=
    rounded_of_lt_two_pow hsize (show -1074 ≤ q + q' by omega)
  rw [reading, hproduct, hexact]

theorem double_rounded_error {v : ℚ} (hv : 2 ^ (-1022 : Int) ≤ v) :
    |double.rounded v - v| ≤ 2 ^ (Int.log 2 v - 24) / 2 ^ 29 := by
  have hlog := normal_log hv
  refine (double.abs_rounded_sub_le v).trans_eq ?_
  rw [show double.lastBit v = Int.log 2 v - 24 - 28 by rw [double_lastBit]; omega, zpow_sub₀ (by norm_num)]
  norm_num
  ring

/-- Close to a single, compared to its last bit, there is no halfway point. -/
theorem no_tie_near_single {v y : ℚ} (hy : single.Holds y) (hv : 0 < v) (hlog : -96 ≤ Int.log 2 v)
    (hnear : |v - y| ≤ 2 ^ (Int.log 2 v - 24) / 2 ^ 5) (k : Int) : double.rounded v ≠ (k + 1 / 2) * 2 ^ single.lastBit v := by
  intro htie
  have hnormal : 2 ^ (-1022 : Int) ≤ v := (two_zpow_le_iff hv).2 (by omega)
  have hlow := (double_rounded_bounds hnormal).1
  have herror := double_rounded_error hnormal
  have hvlow : 2 ^ Int.log 2 v ≤ v := (two_zpow_le_iff hv).2 le_rfl
  rw [show single.lastBit v = Int.log 2 v - 24 + 1 by rw [single_lastBit]; omega, zpow_add_one₀ (by norm_num)] at htie
  generalize double.rounded v = w at *
  generalize Int.log 2 v = l at *
  have hpower : (0 : ℚ) < 2 ^ (l - 24) := by positivity
  have hbelow : (2 : ℚ) ^ (l - 1) = 2 ^ 23 * 2 ^ (l - 24) ∧ (2 : ℚ) ^ l = 2 ^ 24 * 2 ^ (l - 24) := by
    rw [← zpow_natCast, ← zpow_natCast, ← zpow_add₀ (by norm_num), ← zpow_add₀ (by norm_num)]
    constructor <;> congr 1 <;> omega
  have hdistance : |w - y| < 2 ^ (l - 24) := by
    have htriangle := abs_sub_le w v y
    linarith
  obtain ⟨n, q, rfl, hn, -, -⟩ := hy
  -- The single is a multiple of half of the last bit too, so it is the halfway point, which is an odd multiple.
  have hsmaller : l - 1 < 24 + q := by
    apply lt_of_two_zpow_le hn
    have hy := (abs_le.1 hnear).2
    linarith
  obtain ⟨j, hj⟩ := exists_multiple n (show l - 24 ≤ q by omega)
  rw [Int.cast_natCast] at hj
  have hmiddle : w = (2 * k + 1 : Int) * 2 ^ (l - 24) := by
    rw [htie]
    push_cast
    ring
  have hodd : 2 * k + 1 = j := by
    apply eq_of_abs_sub_lt_one
    rw [hmiddle, hj, ← sub_mul, abs_mul, abs_of_pos hpower] at hdistance
    exact lt_of_mul_lt_mul_right (by linarith) hpower.le
  -- But it is not below the power of two from which on singles are multiples of the whole last bit.
  have hlarger : l < 24 + q := by
    apply lt_of_two_zpow_le hn
    rw [hj, ← hodd, ← hmiddle]
    exact hlow
  obtain ⟨i, hi⟩ := exists_multiple n (show l - 24 + 1 ≤ q by omega)
  rw [Int.cast_natCast, hj, zpow_add_one₀ (by norm_num)] at hi
  have heven : j = 2 * i := by
    have hcast : (j : ℚ) = 2 * i := mul_right_cancel₀ hpower.ne' (by linarith)
    exact_mod_cast hcast
  omega

theorem reading_add_of_le {y z : ℚ} {m m' : Nat} {q q' : Int} (hy : |y| = m * 2 ^ q) (hsingle : single.Holds |y|)
    (hz : |z| = m' * 2 ^ q') (hm' : m' < 2 ^ 24) (hq' : -149 ≤ q') (hle : q' ≤ q) :
    reading |y + z| = single.rounded |y + z| := by
  -- The sum is a whole number of the smaller of the two units.
  have hsum : ∃ n : Nat, |y + z| = n * 2 ^ q' := by
    have hwhole {x : ℚ} {n : Nat} {e : Int} (hx : |x| = n * 2 ^ e) (he : q' ≤ e) : ∃ k : Int, x = k * 2 ^ q' := by
      rcases abs_choice x with hsign | hsign
      · obtain ⟨k, hk⟩ := exists_multiple n he
        exact ⟨k, by rw [← hk, Int.cast_natCast, ← hx, hsign]⟩
      · obtain ⟨k, hk⟩ := exists_multiple (-n) he
        exact ⟨k, by rw [← hk, Int.cast_neg, Int.cast_natCast, neg_mul, ← hx, hsign, neg_neg]⟩
    obtain ⟨k, hk⟩ := hwhole hy hle
    obtain ⟨k', hk'⟩ := hwhole hz le_rfl
    refine ⟨(k + k').natAbs, ?_⟩
    rw [hk, hk', ← add_mul, abs_mul, abs_of_pos (by positivity : (0 : ℚ) < 2 ^ q'), Nat.cast_natAbs]
    push_cast
    rfl
  obtain ⟨n, hn⟩ := hsum
  rcases Nat.lt_or_ge n (2 ^ 53) with hfits | hlarge
  · have hexact : double.rounded |y + z| = |y + z| := by
      rw [hn]
      exact rounded_of_lt_two_pow hfits (show -1074 ≤ q' by omega)
    rw [reading, hexact]
  · have hbelow : (2 : ℚ) ^ (53 + q') ≤ |y + z| := by
      rw [hn, zpow_add₀ (by norm_num)]
      gcongr
      exact_mod_cast hlarge
    have hpos : 0 < |y + z| := lt_of_lt_of_le (by positivity) hbelow
    have hlog : 53 + q' ≤ Int.log 2 |y + z| := (two_zpow_le_iff hpos).1 hbelow
    have hnear : |(|y + z| - |y|)| ≤ 2 ^ (Int.log 2 |y + z| - 24) / 2 ^ 5 := by
      calc |(|y + z| - |y|)| ≤ |y + z - y| := abs_abs_sub_abs_le _ _
        _ = m' * 2 ^ q' := by rw [add_sub_cancel_left, hz]
        _ ≤ 2 ^ 24 * 2 ^ q' := by
            gcongr
            exact_mod_cast hm'.le
        _ ≤ 2 ^ (Int.log 2 |y + z| - 24 - 5) := by
            rw [← zpow_natCast, ← zpow_add₀ (by norm_num)]
            exact zpow_le_zpow_right₀ (by norm_num) (by push_cast; omega)
        _ = 2 ^ (Int.log 2 |y + z| - 24) / 2 ^ 5 := by rw [zpow_sub₀ (by norm_num)]; rfl
    have hnormal : 2 ^ (-1022 : Int) ≤ |y + z| := (two_zpow_le_iff hpos).2 (by omega)
    exact reading_eq_of_no_tie hnormal fun k htie => absurd htie (no_tie_near_single hsingle hpos (by omega) hnear k)

theorem reading_add {y z : ℚ} (hy : single.Holds |y|) (hz : single.Holds |z|) :
    reading |y + z| = single.rounded |y + z| := by
  obtain ⟨m, q, hym, hm, hq, -⟩ := id hy
  obtain ⟨m', q', hzm, hm', hq', -⟩ := id hz
  rcases le_total q' q with hle | hle
  · exact reading_add_of_le hym hy hzm hm' hq' hle
  · rw [add_comm]
    exact reading_add_of_le hzm hz hym hm hq hle

/-- A quotient of significands is at a halfway point, or it is too far away from it for the nearest double to be there. -/
theorem rounded_quotient_eq_of_tie {v : ℚ} {m m' : Nat} {e k : Int} (hv : v * m' = m * 2 ^ e) (hm : m < 2 ^ 24)
    (hm' : m' < 2 ^ 24) (hpos : 0 < m') (hnormal : 2 ^ (-1022 : Int) ≤ v)
    (htie : double.rounded v = (k + 1 / 2) * 2 ^ single.lastBit v) : double.rounded v = v := by
  have herror := double_rounded_error hnormal
  have hvpos := normal_pos hnormal
  have hlow : 2 ^ Int.log 2 v ≤ v := (two_zpow_le_iff hvpos).2 le_rfl
  have hbit := single_lastBit v
  generalize double.rounded v = w at *
  generalize Int.log 2 v = l at *
  generalize single.lastBit v = u at *
  have hpower : (0 : ℚ) < 2 ^ (l - 24) := by positivity
  have hdivisor : (1 : ℚ) ≤ m' ∧ (m' : ℚ) ≤ 2 ^ 24 := ⟨by exact_mod_cast hpos, by exact_mod_cast hm'.le⟩
  have hexponent : l < 24 + e := by
    apply lt_of_two_zpow_le hm
    rw [← hv]
    nlinarith
  -- The divisor times the quotient, and times the halfway point, are multiples of a bit that the error is far below.
  obtain ⟨i, hi⟩ := exists_multiple m (show l - 24 ≤ e by omega)
  obtain ⟨j, hj⟩ := exists_multiple (2 * k + 1) (show l - 24 ≤ u - 1 by omega)
  have hmiddle : w = j * 2 ^ (l - 24) := by
    rw [htie, ← hj, zpow_sub_one₀ (by norm_num)]
    push_cast
    ring
  have hscaled : ((m' * j : Int) - i : ℚ) * 2 ^ (l - 24) = m' * (w - v) := by
    rw [sub_mul, ← hi, Int.cast_natCast, ← hv, hmiddle]
    push_cast
    ring
  have hless : |((m' * j : Int) - i : ℚ)| < 1 := by
    have habs := congrArg abs hscaled
    rw [abs_mul, abs_of_pos hpower, abs_mul, Nat.abs_cast] at habs
    have hsmall : m' * |w - v| ≤ 2 ^ 24 * (2 ^ (l - 24) / 2 ^ 29) :=
      mul_le_mul hdivisor.2 herror (abs_nonneg _) (by positivity)
    refine lt_of_mul_lt_mul_right ?_ hpower.le
    linarith
  rw [eq_of_abs_sub_lt_one hless, sub_self, zero_mul, eq_comm, mul_eq_zero] at hscaled
  exact sub_eq_zero.1 (hscaled.resolve_left (by linarith))

theorem reading_div {y z : ℚ} (hy : single.Holds y) (hz : single.Holds z) (hypos : 0 < y) (hzpos : 0 < z) :
    reading (y / z) = single.rounded (y / z) := by
  obtain ⟨m, q, rfl, hm, hq, -⟩ := hy
  obtain ⟨m', q', rfl, hm', hq', hlimit⟩ := hz
  have hnum : 1 ≤ m := Nat.pos_of_ne_zero fun hzero => by simp [hzero] at hypos
  have hden : 1 ≤ m' := Nat.pos_of_ne_zero fun hzero => by simp [hzero] at hzpos
  have hden' : (m' : ℚ) ≠ 0 := by exact_mod_cast Nat.ne_of_gt hden
  have hquotient : (m * 2 ^ q / (m' * 2 ^ q') : ℚ) * m' = m * 2 ^ (q - q') := by
    rw [zpow_sub₀ (by norm_num)]
    field_simp
  have hexponent : -276 ≤ q - q' := by
    have hlast : (2 : ℚ) ^ q' < 2 ^ (128 : Int) :=
      lt_of_le_of_lt (le_mul_of_one_le_left (by positivity) (by exact_mod_cast hden)) hlimit
    rw [zpow_lt_zpow_iff_right₀ (by norm_num)] at hlast
    have hfirst : -149 ≤ q := hq
    omega
  have hnormal : 2 ^ (-1022 : Int) ≤ (m * 2 ^ q / (m' * 2 ^ q') : ℚ) := by
    refine le_of_mul_le_mul_right ?_ (show (0 : ℚ) < m' by exact_mod_cast hden)
    calc (2 : ℚ) ^ (-1022 : Int) * m' ≤ 2 ^ (-1022 : Int) * 2 ^ (24 : Int) := by
          gcongr
          exact_mod_cast hm'.le
      _ = 2 ^ (-998 : Int) := by rw [← zpow_add₀ (by norm_num)]; rfl
      _ ≤ 2 ^ (q - q') := zpow_le_zpow_right₀ (by norm_num) (by omega)
      _ ≤ m * 2 ^ (q - q') := le_mul_of_one_le_left (by positivity) (by exact_mod_cast hnum)
      _ = m * 2 ^ q / (m' * 2 ^ q') * m' := hquotient.symm
  exact reading_eq_of_no_tie hnormal fun k htie => rounded_quotient_eq_of_tie hquotient hm hm' hden hnormal htie

/-! ### Operations -/

theorem Format.IsNearest.roundsTo_single {v : ℚ} {x : Float} (h : double.IsNearest v x)
    (honce : reading |v| = single.rounded |v|) : single.RoundsTo v (toSingle x) := by
  obtain ⟨neg, num, den, hden, hv, rfl⟩ := h
  have habs : |v| = num / den := by rw [← hv, abs_withSign neg (by positivity)]
  have hgives := (double_fits.gives_nearest num hden neg).toSingle
  rw [← habs, honce] at hgives
  exact hgives.roundsTo single_fits (by decide) (by decide) (by rw [habs, hv])

theorem holds_value {a : Float} (ha : a.isFinite = true) (hsingle : toSingle a = a) : single.Holds |value a| := by
  obtain ⟨neg, m, q, hparts⟩ := isFinite_iff.1 ha
  rcases toSingle_cases hparts with hinf | ⟨m', q', hfin, hholds⟩
  · rw [hsingle, hparts] at hinf
    cases hinf
  · rw [hsingle] at hfin
    rwa [value_of_parts hfin, abs_withSign neg (by positivity)]

/-- The exact result of an operation on numbers, if there is one. -/
def ArithmeticOp.result? (op : ArithmeticOp) (v w : ℚ) : Option ℚ :=
  match op with
  | .add => some (v + w)
  | .sub => some (v - w)
  | .mul => some (v * w)
  | .div => if w = 0 then none else some (v / w)
  | .mod => none

theorem beq_zero_iff {b : Float} (hb : b.isFinite = true) : (b == 0.0) = true ↔ value b = 0 := by
  have hzero : (0.0 : Float).isFinite = true := by decide +kernel
  rw [beq_iff_compare, compareDoubles_finite hb hzero, value_zero, Option.some_inj, compare_eq_iff_eq]

theorem reading_zero : reading 0 = single.rounded 0 := by
  rw [reading, rounded_zero]

/-- An operation on finite singles gives what its exact result is rounded to. -/
theorem arithmetic_rounds_once (op : ArithmeticOp) {a b : Float} {v : ℚ} (ha : a.isFinite = true) (hb : b.isFinite = true)
    (hsa : toSingle a = a) (hsb : toSingle b = b) (hv : op.result? (value a) (value b) = some v) :
    ∃ x, Value.arithmetic op (.float a) (.float b) = .ok (.float x) ∧ single.RoundsTo v x := by
  have hya := holds_value ha hsa
  have hyb := holds_value hb hsb
  cases op with
  | add =>
      cases hv
      exact ⟨_, rfl, (isNearest_add ha hb).roundsTo_single (reading_add hya hyb)⟩
  | sub =>
      cases hv
      have hneg : single.Holds |(-value b)| := by rwa [abs_neg]
      refine ⟨_, rfl, (isNearest_sub ha hb).roundsTo_single ?_⟩
      rw [sub_eq_add_neg]
      exact reading_add hya hneg
  | mul =>
      cases hv
      refine ⟨_, rfl, (isNearest_mul ha hb).roundsTo_single ?_⟩
      rw [abs_mul]
      exact reading_mul hya hyb
  | div =>
      simp only [ArithmeticOp.result?] at hv
      split_ifs at hv with hzero
      cases hv
      have hdivisor : ¬ (b == 0.0) = true := fun h => hzero ((beq_zero_iff hb).1 h)
      have hquotient : Value.arithmetic .div (.float a) (.float b) = .ok (.float (toSingle (a / b))) := by
        simp only [Value.arithmetic, Value.floatArithmetic, if_neg hdivisor]
        rfl
      refine ⟨_, hquotient, (isNearest_div ha hb hzero).roundsTo_single ?_⟩
      rw [abs_div]
      rcases (abs_nonneg (value a)).eq_or_lt with ha0 | hapos
      · rw [← ha0, zero_div, reading_zero]
      · exact reading_div hya hyb hapos (abs_pos.2 hzero)
  | mod => cases hv

/-- The sum of these is halfway between two singles. -/
theorem tie_rounds_once : value 16777216.0 = 16777216 ∧ value 1.0 = 1 ∧
    ∃ x, Value.arithmetic .add (.float 16777216.0) (.float 1.0) = .ok (.float x) ∧ single.RoundsTo 16777217 x :=
  ⟨by decide +kernel, by decide +kernel, arithmetic_rounds_once .add (by decide +kernel) (by decide +kernel) (by decide +kernel)
    (by decide +kernel) (by decide +kernel)⟩

end Rover
