import Rover.Proofs.HalfEven

/-!
# The nearest value of a format

What rounding is meant to give, said without a way to find it: the value of the format nearest to a number, the one with an
even last bit if there are two, and an infinity from halfway between the greatest value and the limit on (`Format.RoundsTo`). The
nearest multiple of the last kept bit is that value (`Format.Gives.roundsTo`).
-/

namespace Rover

theorem even_of_halfEven_tie {w : ℚ} {k : Int} (hne : k ≠ halfEven w) (htie : |k - w| = |halfEven w - w|) :
    Even (halfEven w) := by
  have hapart : (1 : ℚ) ≤ |(k : ℚ) - halfEven w| := by
    have := Int.one_le_abs (sub_ne_zero.2 hne)
    exact_mod_cast this
  have hclose := abs_halfEven_sub_le w
  have htriangle := abs_sub_le (k : ℚ) w (halfEven w)
  rw [abs_sub_comm w] at htriangle
  have hhalf : |halfEven w - w| = 1 / 2 := le_antisymm hclose (by linarith)
  have hsplit := Int.floor_add_fract w
  have hone := Int.fract_lt_one w
  have hnonneg := Int.fract_nonneg w
  -- Neither neighbour is nearer, so the number is halfway between them.
  have hfract : Int.fract w = 1 / 2 := by
    rcases (abs_eq (by norm_num)).1 hhalf with h | h
    · unfold halfEven at h
      split_ifs at h
      · linarith
      · push_cast at h
        linarith
    · unfold halfEven at h
      split_ifs at h
      · linarith
      · push_cast at h
        linarith
  unfold halfEven
  rw [hfract]
  split_ifs with h
  · simpa using h
  · rw [Int.even_add_one]
    simpa using h

/-- A half below an even number goes up to it. -/
theorem halfEven_lt_iff {n : Int} (hn : Even n) (w : ℚ) : halfEven w < n ↔ w < n - 1 / 2 := by
  constructor
  · intro h
    by_contra hge
    have hfloor : ⌊(n : ℚ) - 1 / 2⌋ = n - 1 := by
      rw [Int.floor_eq_iff]
      push_cast
      exact ⟨by linarith, by linarith⟩
    have hfract : Int.fract ((n : ℚ) - 1 / 2) = 1 / 2 := by
      rw [Int.fract, hfloor]
      push_cast
      ring
    have hodd : ¬ Even (n - 1) := by
      rw [Int.even_sub_one]
      exact not_not.2 hn
    have hhalf : halfEven ((n : ℚ) - 1 / 2) = n := by
      rw [halfEven, hfract, hfloor, if_neg (by simp [hodd]), sub_add_cancel]
    have hmono := halfEven_mono (not_lt.1 hge)
    omega
  · intro h
    have hclose := (abs_le.1 (abs_halfEven_sub_le w)).2
    have hless : (halfEven w : ℚ) < n := by linarith
    exact_mod_cast hless

namespace Format

/-- The value zero, or a value whose last kept bit is zero. -/
def EvenEnd (f : Format) (y : ℚ) : Prop := y = 0 ∨ ∃ (n : Nat) (u : Int), y = n * 2 ^ u ∧ f.Kept n u ∧ Even n

/-- The value of a format nearest to a number, with an even end if another one is as near. -/
structure Closest (f : Format) (w y : ℚ) : Prop where
  holds : f.Holds y
  nearest : ∀ z, f.Holds z → |y - w| ≤ |z - w|
  even_end : ∀ z, f.Holds z → z ≠ y → |z - w| = |y - w| → f.EvenEnd y

/-- Halfway between the greatest value and the limit. -/
def overflow (f : Format) : ℚ := (2 ^ f.precision - 1 / 2) * 2 ^ (f.limit - f.precision)

/-- A number rounded to a format: a zero if it is zero, and otherwise the closest value, or an infinity if it is too large, with
the sign of the number. -/
def RoundsTo (f : Format) (v : ℚ) (x : Float) : Prop :=
  if v = 0 then x.isFinite = true ∧ value x = 0
  else if |v| < f.overflow then ∃ (m : Nat) (q : Int), parts x = .finite (decide (v < 0)) m q ∧ f.Closest |v| (m * 2 ^ q)
  else parts x = .infinite (decide (v < 0))

section

variable {f : Format} {w : ℚ} (hw : 0 < w)

include hw

theorem two_zpow_le_of_least_lt (hleast : f.least < f.lastBit w) : 2 ^ ((f.precision : Int) + f.lastBit w - 1) ≤ w := by
  rw [two_zpow_le_iff hw]
  unfold lastBit at hleast ⊢
  omega

theorem lt_two_zpow_lastBit : w < 2 ^ ((f.precision : Int) + f.lastBit w) := by
  rw [lt_two_zpow_iff hw]
  unfold lastBit
  omega

/-- The values of the format that are no multiples of the last bit kept of a number are all below the number, and so is a
multiple. -/
theorem Holds.multiple_or_lt {z : ℚ} (hz : f.Holds z) : (∃ k : Int, z = k * 2 ^ f.lastBit w) ∨
    z < 2 ^ ((f.precision : Int) + f.lastBit w - 1) ∧ 2 ^ ((f.precision : Int) + f.lastBit w - 1) ≤ w := by
  obtain ⟨n, u, rfl, hn, hu, -⟩ := hz
  rcases le_or_gt (f.lastBit w) u with hbit | hbit
  · obtain ⟨k, hk⟩ := Rover.exists_multiple n hbit
    exact .inl ⟨k, by exact_mod_cast hk⟩
  · refine .inr ⟨?_, two_zpow_le_of_least_lt hw (by omega)⟩
    have hn' : (n : ℚ) < 2 ^ f.precision := by exact_mod_cast hn
    calc (n * 2 ^ u : ℚ) < 2 ^ f.precision * 2 ^ u := by gcongr
      _ = 2 ^ ((f.precision : Int) + u) := by rw [zpow_add₀ (by norm_num), zpow_natCast]
      _ ≤ 2 ^ ((f.precision : Int) + f.lastBit w - 1) := zpow_le_zpow_right₀ (by norm_num) (by omega)

/-- Rounding gives a whole number of last bits. -/
theorem exists_rounded_eq : ∃ n : Nat, halfEven (w / 2 ^ f.lastBit w) = n ∧ f.rounded w = n * 2 ^ f.lastBit w ∧
    n ≤ 2 ^ f.precision := by
  have hpower : (0 : ℚ) < 2 ^ f.lastBit w := by positivity
  obtain ⟨n, hn⟩ := Int.eq_ofNat_of_zero_le (halfEven_nonneg (div_pos hw hpower).le)
  refine ⟨n, hn, by rw [rounded, hn]; norm_cast, ?_⟩
  have htop : w / 2 ^ f.lastBit w ≤ ((2 ^ f.precision : Int) : ℚ) := by
    rw [div_le_iff₀ hpower]
    push_cast
    rw [← zpow_natCast, ← zpow_add₀ (by norm_num)]
    exact (lt_two_zpow_lastBit hw).le
  have hle := halfEven_mono htop
  rw [hn, halfEven_intCast] at hle
  exact_mod_cast hle

/-- What is kept of a number that is not rounded up to a further bit. -/
theorem kept_of_rounded {n : Nat} (hn : halfEven (w / 2 ^ f.lastBit w) = n) (hpos : 0 < n) (hlt : n < 2 ^ f.precision) :
    f.Kept n (f.lastBit w) := by
  refine ⟨hpos, hlt, le_max_right _ _, ?_⟩
  by_cases hleast : f.lastBit w = f.least
  · exact .inr hleast
  · left
    have hprecision : f.precision ≠ 0 := by
      intro hzero
      rw [hzero, pow_zero] at hlt
      omega
    have hbit : f.least ≤ f.lastBit w := le_max_right _ _
    have hlow : ((2 ^ (f.precision - 1) : Int) : ℚ) ≤ w / 2 ^ f.lastBit w := by
      rw [le_div_iff₀ (by positivity)]
      push_cast
      rw [← zpow_natCast, ← zpow_add₀ (by norm_num)]
      refine le_of_eq_of_le ?_ (two_zpow_le_of_least_lt (f := f) hw (by omega))
      congr 1
      omega
    have hle := halfEven_mono hlow
    rw [hn, halfEven_intCast] at hle
    have hle' : 2 ^ (f.precision - 1) ≤ n := by exact_mod_cast hle
    have hdouble : 2 ^ f.precision = 2 * 2 ^ (f.precision - 1) := by
      rw [← pow_succ', Nat.sub_add_cancel (Nat.pos_of_ne_zero hprecision)]
    omega

omit hw in
theorem abs_multiple_sub (k w : ℚ) (u : Int) : |k * 2 ^ u - w| = |k - w / 2 ^ u| * 2 ^ u := by
  have hpower : (0 : ℚ) < 2 ^ u := by positivity
  rw [← abs_of_pos hpower, ← abs_mul, sub_mul, abs_of_pos hpower, div_mul_cancel₀ _ hpower.ne']

/-- No value of the format is nearer to a number than the nearest multiple of the last bit, and one that is as near is
a multiple of it too. -/
theorem rounded_nearest (hf : 0 < f.precision) {z : ℚ} (hz : f.Holds z) : |f.rounded w - w| < |z - w| ∨
    ∃ k : Int, z = k * 2 ^ f.lastBit w ∧ |halfEven (w / 2 ^ f.lastBit w) - w / 2 ^ f.lastBit w| ≤ |k - w / 2 ^ f.lastBit w| := by
  rcases hz.multiple_or_lt hw with ⟨k, rfl⟩ | ⟨hlt, hle⟩
  · exact .inr ⟨k, rfl, abs_halfEven_sub_le_abs _ k⟩
  · left
    -- The power of two between is a multiple of the last bit, and nearer.
    obtain ⟨k, hk⟩ := exists_multiple 1 (show f.lastBit w ≤ (f.precision : Int) + f.lastBit w - 1 by omega)
    rw [Int.cast_one, one_mul] at hk
    have hround := abs_halfEven_sub_le_abs (w / 2 ^ f.lastBit w) k
    have hnear : |f.rounded w - w| ≤ |(2 : ℚ) ^ ((f.precision : Int) + f.lastBit w - 1) - w| := by
      rw [hk, rounded, abs_multiple_sub, abs_multiple_sub]
      gcongr
    refine hnear.trans_lt ?_
    rw [abs_of_nonpos (by linarith), abs_of_neg (by linarith)]
    linarith

theorem closest_rounded (hf : f.Fits) (hbits : 2 ≤ f.precision) (hlimit : f.rounded w < 2 ^ f.limit) :
    f.Closest w (f.rounded w) := by
  obtain ⟨n, hn, hrounded, hle⟩ := exists_rounded_eq (f := f) hw
  have hpower : (0 : ℚ) < 2 ^ f.lastBit w := by positivity
  have hscale (k : Int) : |(k * 2 ^ f.lastBit w : ℚ) - w| = |k - w / 2 ^ f.lastBit w| * 2 ^ f.lastBit w :=
    abs_multiple_sub k w _
  refine ⟨?_, ?_, ?_⟩
  · rw [hrounded] at hlimit ⊢
    exact hf.holds_mul hle (le_max_right _ _) hlimit
  · intro z hz
    rcases rounded_nearest hw hf.precision_pos hz with hlt | ⟨k, rfl, hk⟩
    · exact hlt.le
    · rw [rounded, hscale, hscale]
      gcongr
  · intro z hz hne htie
    rcases rounded_nearest hw hf.precision_pos hz with hlt | ⟨k, rfl, -⟩
    · exact absurd htie hlt.ne'
    · rw [rounded, hscale, hscale] at htie
      have hk : k ≠ halfEven (w / 2 ^ f.lastBit w) := by
        rintro rfl
        exact hne rfl
      have heven := even_of_halfEven_tie hk (mul_right_cancel₀ hpower.ne' htie)
      rw [hn, Int.even_coe_nat] at heven
      rcases Nat.eq_zero_or_pos n with rfl | hpos
      · exact .inl (by rw [hrounded, Nat.cast_zero, zero_mul])
      rcases hle.lt_or_eq with hlt | htop
      · exact .inr ⟨n, _, hrounded, kept_of_rounded hw hn hpos hlt, heven⟩
      · -- A power of two, whose last bit is one further up.
        refine .inr ⟨2 ^ (f.precision - 1), f.lastBit w + 1, ?_, ?_, ?_⟩
        · rw [hrounded, htop, zpow_add₀ (by norm_num), ← Nat.sub_add_cancel hf.precision_pos, pow_succ]
          push_cast
          ring
        · have hbit : f.least ≤ f.lastBit w := le_max_right _ _
          refine ⟨by positivity, Nat.pow_lt_pow_right (by omega) (by omega), by omega, .inl ?_⟩
          rw [← pow_succ', Nat.sub_add_cancel hf.precision_pos]
        · exact (Nat.even_pow.2 ⟨even_two, by omega⟩)

omit hw in
theorem two_zpow_limit (f : Format) : (2 : ℚ) ^ f.limit = 2 ^ f.precision * 2 ^ (f.limit - f.precision) := by
  rw [← zpow_natCast, ← zpow_add₀ (by norm_num)]
  congr 1
  omega

omit hw in
theorem overflow_bounds (f : Format) : 2 ^ (f.limit - 1) ≤ f.overflow ∧ f.overflow < 2 ^ f.limit := by
  have hpower : (0 : ℚ) < 2 ^ (f.limit - f.precision) := by positivity
  have hone : (1 : ℚ) ≤ 2 ^ f.precision := one_le_pow₀ (by norm_num)
  rw [zpow_sub_one₀ (by norm_num), two_zpow_limit, overflow]
  constructor <;> nlinarith

/-- What is rounded to the limit or beyond is what lies from halfway between the greatest value and the limit on. -/
theorem rounded_lt_limit_iff (hf : f.Fits) (hrange : f.least ≤ f.limit - f.precision) :
    f.rounded w < 2 ^ f.limit ↔ w < f.overflow := by
  have hprecision := hf.precision_pos
  have hleast := hf.least_lt
  obtain ⟨habove, hbelow⟩ := f.overflow_bounds
  rcases lt_or_ge w (2 ^ (f.limit - 1)) with hlow | hlow
  · refine iff_of_true ?_ (hlow.trans_le habove)
    calc f.rounded w ≤ f.rounded (2 ^ (f.limit - 1)) := rounded_mono hprecision hw.le hlow.le
      _ = 2 ^ (f.limit - 1) := rounded_two_zpow hprecision (by omega)
      _ < 2 ^ f.limit := zpow_lt_zpow_right₀ (by norm_num) (by omega)
  rcases le_or_gt (2 ^ f.limit) w with hhigh | hhigh
  · refine iff_of_false ?_ (not_lt.2 (hbelow.le.trans hhigh))
    rw [not_lt, ← rounded_two_zpow (f := f) hprecision hleast.le]
    exact rounded_mono hprecision (by positivity) hhigh
  · have hbit : f.lastBit w = f.limit - f.precision := by
      rw [lastBit_eq hlow (by rwa [sub_add_cancel])]
      omega
    have hpower : (0 : ℚ) < 2 ^ (f.limit - f.precision) := by positivity
    have hlimit : (2 : ℚ) ^ f.limit = ((2 ^ f.precision : Int) : ℚ) * 2 ^ (f.limit - f.precision) := by
      exact_mod_cast f.two_zpow_limit
    have heven : Even (2 ^ f.precision : Int) := Int.even_pow.2 ⟨even_two, hprecision.ne'⟩
    rw [rounded, hbit, hlimit, mul_lt_mul_iff_left₀ hpower, Int.cast_lt, halfEven_lt_iff heven, div_lt_iff₀ hpower, overflow]
    push_cast
    rfl

end

theorem Gives.roundsTo {f : Format} (hf : f.Fits) (hbits : 2 ≤ f.precision) (hrange : f.least ≤ f.limit - f.precision) {neg : Bool}
    {v : ℚ} {x : Float} (hv : withSign neg |v| = v) (h : f.Gives neg (f.rounded |v|) x) : f.RoundsTo v x := by
  unfold RoundsTo
  split_ifs with hzero hsmall
  · rw [hzero, abs_zero, rounded_zero] at h
    rcases h with ⟨-, m, q, hparts, hvalue⟩ | ⟨hlimit, -⟩
    · refine ⟨isFinite_of_parts hparts, ?_⟩
      rw [value_of_parts hparts, hvalue]
      cases neg <;> simp [withSign]
    · exact absurd hlimit (not_le.2 (by positivity))
  all_goals
    have hpos : 0 < |v| := abs_pos.2 hzero
    have hsign : neg = decide (v < 0) := by
      rw [← hv]
      cases neg
      · simp [withSign]
      · simpa [withSign] using hpos
    have hlimit := rounded_lt_limit_iff hpos hf hrange
  · rcases h with ⟨hless, m, q, hparts, hvalue⟩ | ⟨hge, -⟩
    · refine ⟨m, q, hsign ▸ hparts, ?_⟩
      rw [hvalue]
      exact closest_rounded hpos hf hbits hless
    · exact absurd (hlimit.2 hsmall) (not_lt.2 hge)
  · rcases h with ⟨hless, -⟩ | ⟨-, hparts⟩
    · exact absurd (hlimit.1 hless) hsmall
    · exact hsign ▸ hparts

end Format

end Rover
