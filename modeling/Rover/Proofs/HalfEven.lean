import Rover.Proofs.Decimals

/-!
# Rounding as a function of rationals

`Format.nearest` rounds a quotient of two numbers and answers with a double. What it does to the number itself is
`Format.rounded`: the nearest multiple of the last kept bit, a half going to the even one. This function keeps the order of
numbers (`rounded_mono`), leaves the values of the format as they are, and is symmetric about a value wherever the same last
bit is kept on both sides of it (`rounded_two_mul_sub`).
-/

namespace Rover

/-! ### Integers -/

/-- The integer nearest to a number, a half going to the even neighbour. -/
def halfEven (w : ℚ) : Int := if Int.fract w < 1 / 2 ∨ (Int.fract w = 1 / 2 ∧ Even ⌊w⌋) then ⌊w⌋ else ⌊w⌋ + 1

theorem floor_le_halfEven (w : ℚ) : ⌊w⌋ ≤ halfEven w := by
  unfold halfEven
  split_ifs <;> omega

theorem halfEven_le_floor_add_one (w : ℚ) : halfEven w ≤ ⌊w⌋ + 1 := by
  unfold halfEven
  split_ifs <;> omega

@[simp] theorem halfEven_intCast (n : Int) : halfEven n = n := by
  simp [halfEven]

theorem halfEven_mono : Monotone halfEven := by
  intro v w hle
  rcases (Int.floor_mono hle).lt_or_eq with hlt | heq
  · exact (halfEven_le_floor_add_one v).trans (hlt.trans_le (floor_le_halfEven w))
  · have hfract : Int.fract v ≤ Int.fract w := by
      rw [Int.fract, Int.fract, heq]
      linarith
    unfold halfEven
    rw [heq]
    split_ifs with hv hw hw
    · exact le_rfl
    · omega
    · -- the greater number is not rounded down where the smaller one is rounded up
      refine absurd ?_ hv
      rcases hw with hless | ⟨hhalf, heven⟩
      · exact .inl (hfract.trans_lt hless)
      · exact (hhalf ▸ hfract).lt_or_eq.imp id fun h => ⟨h, heven⟩
    · exact le_rfl

/-- Rounding is symmetric about every integer, since a half is rounded by parity. -/
theorem halfEven_two_mul_sub (k : Int) (w : ℚ) : halfEven (2 * k - w) = 2 * k - halfEven w := by
  rcases eq_or_ne (Int.fract w) 0 with hzero | hne
  · have hw : w = (⌊w⌋ : Int) := by
      rw [← Int.floor_add_fract w, hzero]
      simp
    have hmirror : 2 * (k : ℚ) - w = ((2 * k - ⌊w⌋ : Int) : ℚ) := by
      rw [hw]
      simp
    rw [hmirror, halfEven_intCast]
    nth_rewrite 2 [hw]
    rw [halfEven_intCast]
  · have hpos : 0 < Int.fract w := (Int.fract_nonneg w).lt_of_ne' hne
    have hone := Int.fract_lt_one w
    have hsplit := Int.floor_add_fract w
    have hfloor : ⌊2 * (k : ℚ) - w⌋ = 2 * k - ⌊w⌋ - 1 := by
      rw [Int.floor_eq_iff]
      push_cast
      exact ⟨by linarith, by linarith⟩
    have hfract : Int.fract (2 * (k : ℚ) - w) = 1 - Int.fract w := by
      rw [Int.fract, hfloor]
      push_cast
      linarith
    have heven : Even (2 * k - ⌊w⌋ - 1) ↔ ¬ Even ⌊w⌋ := by
      rw [Int.even_iff, Int.even_iff]
      omega
    -- the mirror image is rounded down exactly where the number is rounded up
    have hdown : (1 - Int.fract w < 1 / 2 ∨ (1 - Int.fract w = 1 / 2 ∧ ¬ Even ⌊w⌋)) ↔
        ¬ (Int.fract w < 1 / 2 ∨ (Int.fract w = 1 / 2 ∧ Even ⌊w⌋)) := by
      have hless : 1 - Int.fract w < 1 / 2 ↔ 1 / 2 < Int.fract w := by constructor <;> intro h <;> linarith
      have hhalf : 1 - Int.fract w = 1 / 2 ↔ Int.fract w = 1 / 2 := by constructor <;> intro h <;> linarith
      rw [hless, hhalf]
      rcases lt_trichotomy (Int.fract w) (1 / 2) with h | h | h
      · simp only [h, h.ne, h.not_gt, false_and, or_false, not_true]
      · simp only [h, lt_irrefl, true_and, false_or]
      · simp only [h, h.ne', h.not_gt, false_and, or_false, not_false_eq_true]
    simp only [halfEven, hfract, hfloor, heven, hdown]
    split_ifs <;> omega

theorem abs_halfEven_sub_le (w : ℚ) : |halfEven w - w| ≤ 1 / 2 := by
  have hsplit := Int.floor_add_fract w
  have hnonneg := Int.fract_nonneg w
  have hone := Int.fract_lt_one w
  unfold halfEven
  split_ifs with h
  · have hhalf : Int.fract w ≤ 1 / 2 := h.elim le_of_lt fun h => h.1.le
    rw [abs_le]
    exact ⟨by linarith, by linarith⟩
  · have hhalf : 1 / 2 ≤ Int.fract w := not_lt.1 fun hless => h (.inl hless)
    push_cast
    rw [abs_le]
    exact ⟨by linarith, by linarith⟩

/-- No integer is nearer. -/
theorem abs_halfEven_sub_le_abs (w : ℚ) (n : Int) : |halfEven w - w| ≤ |n - w| := by
  rcases eq_or_ne n (halfEven w) with rfl | hne
  · exact le_rfl
  · have hapart : (1 : ℚ) ≤ |(n : ℚ) - halfEven w| := by
      have := Int.one_le_abs (sub_ne_zero.2 hne)
      exact_mod_cast this
    have htriangle := abs_sub_le (n : ℚ) w (halfEven w)
    have hhalf := abs_halfEven_sub_le w
    rw [abs_sub_comm w] at htriangle
    linarith

theorem halfEven_of_close {w : ℚ} {n : Int} (h : |w - n| < 1 / 2) : halfEven w = n := by
  have hhalf := abs_halfEven_sub_le w
  have htriangle := abs_sub_le (halfEven w : ℚ) w n
  have hless : |((halfEven w - n : Int) : ℚ)| < 1 := by
    push_cast
    linarith
  have hzero : |halfEven w - n| < 1 := by exact_mod_cast hless
  exact sub_eq_zero.1 (Int.abs_lt_one_iff.1 hzero)

theorem halfEven_nonneg {w : ℚ} (h : 0 ≤ w) : 0 ≤ halfEven w := (Int.floor_nonneg.2 h).trans (floor_le_halfEven w)

theorem roundDiv_eq_halfEven (num : Nat) {den : Nat} (hden : 0 < den) : (roundDiv num den : Int) = halfEven (num / den) := by
  have hpos : (0 : ℚ) < den := by exact_mod_cast hden
  have hfract : Int.fract ((num : ℚ) / den) = (num % den : Nat) / den := Int.fract_div_natCast_eq_div_natCast_mod
  have hfloor : ⌊(num : ℚ) / den⌋ = ((num / den : Nat) : Int) := Rat.floor_natCast_div_natCast num den
  have hless : ((num % den : Nat) : ℚ) / den < 1 / 2 ↔ 2 * (num % den) < den := by
    rw [div_lt_div_iff₀ hpos two_pos, ← Nat.cast_lt (α := ℚ)]
    push_cast
    constructor <;> intro h <;> linarith
  have hhalf : ((num % den : Nat) : ℚ) / den = 1 / 2 ↔ 2 * (num % den) = den := by
    rw [div_eq_div_iff hpos.ne' two_ne_zero, ← Nat.cast_inj (R := ℚ)]
    push_cast
    constructor <;> intro h <;> linarith
  have heven : Even ((num / den : Nat) : Int) ↔ num / den % 2 = 0 := by
    rw [Int.even_coe_nat, Nat.even_iff]
  simp only [roundDiv, halfEven, hfract, hfloor, hless, hhalf, heven]
  split_ifs
  · rfl
  · push_cast
    rfl

/-! ### Formats -/

section Log

variable {w : ℚ} {k : Int}

theorem two_zpow_le_iff (hw : 0 < w) : 2 ^ k ≤ w ↔ k ≤ Int.log 2 w := Int.zpow_le_iff_le_log one_lt_two hw

theorem lt_two_zpow_iff (hw : 0 < w) : w < 2 ^ k ↔ Int.log 2 w < k := Int.lt_zpow_iff_log_lt one_lt_two hw

theorem floorLog2_eq_log {num den : Nat} (hnum : 0 < num) (hden : 0 < den) :
    floorLog2 num den = Int.log 2 (num / den : ℚ) := by
  have hpos : (0 : ℚ) < num / den := by positivity
  apply floorLog2_eq hnum hden
  · exact (two_zpow_le_iff hpos).2 le_rfl
  · exact (lt_two_zpow_iff hpos).2 (lt_add_one _)

end Log

/-- A multiple of a power of two is one of every smaller power. -/
theorem exists_multiple (n : Int) {t u : Int} (h : t ≤ u) : ∃ k : Int, (n * 2 ^ u : ℚ) = k * 2 ^ t := by
  refine ⟨n * 2 ^ (u - t).toNat, ?_⟩
  push_cast
  rw [mul_two_pow_mul_zpow]
  congr 2
  omega

namespace Format

variable (f : Format)

/-- The exponent of the last bit that the format keeps of a number. -/
def lastBit (w : ℚ) : Int := max (Int.log 2 w + 1 - f.precision) f.least

/-- The multiple of the last kept bit nearest to a number, however large. -/
def rounded (w : ℚ) : ℚ := halfEven (w / 2 ^ f.lastBit w) * 2 ^ f.lastBit w

@[simp] theorem rounded_zero : f.rounded 0 = 0 := by
  rw [rounded, zero_div, show (0 : ℚ) = ((0 : Int) : ℚ) by rfl, halfEven_intCast, Int.cast_zero, zero_mul]

theorem rounded_quotient (num : Nat) {den : Nat} (hden : 0 < den) :
    f.rounded (num / den) = (f.round num den).1 * 2 ^ f.unit num den := by
  rcases Nat.eq_zero_or_pos num with rfl | hnum
  · have hround : (f.round 0 den).1 = 0 := by simp [round, roundDiv, hden.ne']
    rw [hround, Nat.cast_zero, zero_div, rounded_zero, zero_mul]
  have hunit : f.lastBit (num / den) = f.unit num den := by rw [lastBit, unit, floorLog2_eq_log hnum hden]
  have hround := roundDiv_eq_halfEven (num <<< (-f.unit num den).toNat) (shiftLeft_pos hden (f.unit num den).toNat)
  have hquotient : ((num <<< (-f.unit num den).toNat : Nat) / (den <<< (f.unit num den).toNat : Nat) : ℚ)
      = num / den / 2 ^ f.unit num den := by
    have hden' : (den : ℚ) ≠ 0 := by exact_mod_cast hden.ne'
    rw [Nat.shiftLeft_eq, Nat.shiftLeft_eq, div_div, div_eq_div_iff (by positivity) (by positivity)]
    push_cast
    rw [← two_zpow_mul (f.unit num den)]
    ring
  rw [rounded, hunit, ← hquotient, ← hround, Int.cast_natCast]
  rfl

theorem rounded_nonneg {w : ℚ} (hw : 0 ≤ w) : 0 ≤ f.rounded w := by
  have hpower : (0 : ℚ) < 2 ^ f.lastBit w := by positivity
  have hnonneg : (0 : ℚ) ≤ halfEven (w / 2 ^ f.lastBit w) := by exact_mod_cast halfEven_nonneg (div_nonneg hw hpower.le)
  exact mul_nonneg hnonneg hpower.le

theorem rounded_of_multiple {w : ℚ} {k : Int} (h : w = k * 2 ^ f.lastBit w) : f.rounded w = w := by
  have hdiv : w / 2 ^ f.lastBit w = k := (div_eq_iff (by positivity)).2 h
  rw [rounded, hdiv, halfEven_intCast, ← h]

variable {f}

/-- Rounding goes neither below nor beyond a multiple of the last bit that is kept. -/
theorem rounded_le {w b : ℚ} {k : Int} (hb : b = k * 2 ^ f.lastBit w) (h : w ≤ b) : f.rounded w ≤ b := by
  have hround : halfEven (w / 2 ^ f.lastBit w) ≤ k := by
    rw [← halfEven_intCast k]
    apply halfEven_mono
    rw [div_le_iff₀ (by positivity), ← hb]
    exact h
  rw [rounded, hb]
  gcongr

theorem le_rounded {w b : ℚ} {k : Int} (hb : b = k * 2 ^ f.lastBit w) (h : b ≤ w) : b ≤ f.rounded w := by
  have hround : k ≤ halfEven (w / 2 ^ f.lastBit w) := by
    rw [← halfEven_intCast k]
    apply halfEven_mono
    rw [le_div_iff₀ (by positivity), ← hb]
    exact h
  rw [rounded]
  refine hb.trans_le ?_
  gcongr

theorem lastBit_mono {v w : ℚ} (hv : 0 < v) (h : v ≤ w) : f.lastBit v ≤ f.lastBit w := by
  have hlog : Int.log 2 v ≤ Int.log 2 w := Int.log_mono_right hv h
  unfold lastBit
  omega

/-- Rounding keeps the order of numbers. Where two numbers are rounded to different bits, a power of two is between them that
is a multiple of both. -/
theorem rounded_mono (hf : 0 < f.precision) {v w : ℚ} (hv : 0 ≤ v) (h : v ≤ w) : f.rounded v ≤ f.rounded w := by
  rcases hv.eq_or_lt with rfl | hpos
  · rw [rounded_zero]
    exact f.rounded_nonneg h
  rcases (lastBit_mono (f := f) hpos h).eq_or_lt with hbit | hbit
  · unfold rounded
    rw [← hbit]
    gcongr
    exact halfEven_mono (by gcongr)
  · have hw : 0 < w := hpos.trans_le h
    have hlast : f.lastBit w = Int.log 2 w + 1 - f.precision := by
      unfold lastBit at hbit ⊢
      omega
    have hless : v < 2 ^ Int.log 2 w := by
      rw [lt_two_zpow_iff hpos]
      unfold lastBit at hbit
      omega
    have hpower {t : Int} (ht : t ≤ Int.log 2 w) : ∃ k : Int, (2 : ℚ) ^ Int.log 2 w = k * 2 ^ t := by
      obtain ⟨k, hk⟩ := exists_multiple 1 ht
      exact ⟨k, by rw [← hk, Int.cast_one, one_mul]⟩
    obtain ⟨k, hk⟩ := hpower (t := f.lastBit v) (by omega)
    obtain ⟨k', hk'⟩ := hpower (t := f.lastBit w) (by omega)
    exact (rounded_le hk hless.le).trans (le_rounded hk' ((two_zpow_le_iff hw).2 le_rfl))

theorem lastBit_le {n : Nat} {u : Int} (hpos : 0 < n) (hn : n < 2 ^ f.precision) (hu : f.least ≤ u) :
    f.lastBit (n * 2 ^ u) ≤ u := by
  have hbelow : (n * 2 ^ u : ℚ) < 2 ^ ((f.precision : Int) + u) := by
    have hn' : (n : ℚ) < 2 ^ f.precision := by exact_mod_cast hn
    rw [zpow_add₀ (by norm_num), zpow_natCast]
    gcongr
  rw [lt_two_zpow_iff (by positivity)] at hbelow
  unfold lastBit
  omega

/-- The numbers of the format's precision are left as they are. -/
theorem rounded_of_lt_two_pow {n : Nat} {u : Int} (hn : n < 2 ^ f.precision) (hu : f.least ≤ u) :
    f.rounded (n * 2 ^ u) = n * 2 ^ u := by
  rcases Nat.eq_zero_or_pos n with rfl | hpos
  · simp
  obtain ⟨k, hk⟩ := exists_multiple n (lastBit_le hpos hn hu)
  exact f.rounded_of_multiple (k := k) (by exact_mod_cast hk)

theorem rounded_two_zpow (hf : 0 < f.precision) {u : Int} (hu : f.least ≤ u) : f.rounded (2 ^ u) = 2 ^ u := by
  have hone := rounded_of_lt_two_pow (f := f) (n := 1) (Nat.one_lt_two_pow hf.ne') hu
  rwa [Nat.cast_one, one_mul] at hone

theorem rounded_of_le_two_pow (hf : 0 < f.precision) {n : Nat} {u : Int} (hn : n ≤ 2 ^ f.precision) (hu : f.least ≤ u) :
    f.rounded (n * 2 ^ u) = n * 2 ^ u := by
  rcases hn.lt_or_eq with hlt | rfl
  · exact rounded_of_lt_two_pow hlt hu
  · have hpower : ((2 ^ f.precision : Nat) * 2 ^ u : ℚ) = 2 ^ ((f.precision : Int) + u) := by
      rw [zpow_add₀ (by norm_num), zpow_natCast, Nat.cast_pow, Nat.cast_ofNat]
    rw [hpower]
    exact rounded_two_zpow hf (by omega)

/-- A positive value of the format with all the bits that the format keeps of it. -/
structure Kept (f : Format) (n : Nat) (u : Int) : Prop where
  pos : 0 < n
  lt : n < 2 ^ f.precision
  least_le : f.least ≤ u
  bit : 2 ^ f.precision ≤ 2 * n ∨ u = f.least

/-- Above a value, up to the next one, the same bits are kept as of the value. -/
theorem Kept.lastBit_eq {n : Nat} {u : Int} (h : f.Kept n u) {w : ℚ} (hlow : (n * 2 ^ u : ℚ) ≤ w)
    (hhigh : w < (n + 1) * 2 ^ u) : f.lastBit w = u := by
  have hleast := h.least_le
  have hpos := h.pos
  have hw : 0 < w := lt_of_lt_of_le (by positivity) hlow
  have hbelow : w < 2 ^ ((f.precision : Int) + u) := by
    have hn : (n : ℚ) + 1 ≤ 2 ^ f.precision := by exact_mod_cast h.lt
    rw [zpow_add₀ (by norm_num), zpow_natCast]
    exact hhigh.trans_le (by gcongr)
  rw [lt_two_zpow_iff hw] at hbelow
  rcases h.bit with hbit | hbit
  · have habove : 2 ^ ((f.precision : Int) + u - 1) ≤ w := by
      have hn : (2 : ℚ) ^ f.precision ≤ 2 * n := by exact_mod_cast hbit
      have hpower : (0 : ℚ) < 2 ^ u := by positivity
      rw [zpow_sub_one₀ (by norm_num), zpow_add₀ (by norm_num), zpow_natCast]
      nlinarith
    rw [two_zpow_le_iff hw] at habove
    unfold lastBit
    omega
  · unfold lastBit
    omega

theorem Holds.exists_kept {v : ℚ} (hv : f.Holds v) (hpos : 0 < v) : ∃ (n : Nat) (u : Int), v = n * 2 ^ u ∧ f.Kept n u := by
  obtain ⟨n, u, rfl, hn, hu, -⟩ := hv
  have hn' : 0 < n := Nat.pos_of_ne_zero fun hzero => by simp [hzero] at hpos
  have hbit := lastBit_le hn' hn hu
  have hmultiple : (n * 2 ^ u : ℚ) = (n * 2 ^ (u - f.lastBit (n * 2 ^ u)).toNat : Nat) * 2 ^ f.lastBit (n * 2 ^ u) := by
    push_cast
    rw [mul_two_pow_mul_zpow]
    congr 2
    omega
  generalize n * 2 ^ (u - f.lastBit (n * 2 ^ u)).toNat = k at hmultiple
  generalize (n * 2 ^ u : ℚ) = v at hmultiple hpos
  have hpower : (0 : ℚ) < 2 ^ f.lastBit v := by positivity
  refine ⟨k, f.lastBit v, hmultiple, ?_, ?_, le_max_right _ _, ?_⟩
  · refine Nat.pos_of_ne_zero fun hzero => ?_
    rw [hzero, Nat.cast_zero, zero_mul] at hmultiple
    exact hpos.ne' hmultiple
  · have hless : v < 2 ^ ((f.precision : Int) + f.lastBit v) := by
      rw [lt_two_zpow_iff hpos]
      unfold lastBit
      omega
    rw [zpow_add₀ (by norm_num), zpow_natCast] at hless
    nth_rewrite 1 [hmultiple] at hless
    exact_mod_cast lt_of_mul_lt_mul_right hless hpower.le
  · by_cases hleast : f.lastBit v = f.least
    · exact .inr hleast
    · left
      have hlow : 2 ^ ((f.precision : Int) + f.lastBit v) ≤ 2 * v := by
        have hlog : 2 ^ ((f.precision : Int) + f.lastBit v - 1) ≤ v := by
          rw [two_zpow_le_iff hpos]
          unfold lastBit at hleast ⊢
          omega
        rw [zpow_sub_one₀ (by norm_num)] at hlog
        linarith
      rw [zpow_add₀ (by norm_num), zpow_natCast] at hlow
      nth_rewrite 2 [hmultiple] at hlow
      rw [← mul_assoc] at hlow
      exact_mod_cast le_of_mul_le_mul_right hlow hpower

/-- A number less than half of its last bit off a multiple of the bit is rounded to it. -/
theorem rounded_of_near {w : ℚ} {u k : Int} (hu : f.lastBit w = u) (h : |w - k * 2 ^ u| < 2 ^ u / 2) :
    f.rounded w = k * 2 ^ u := by
  have hpower : (0 : ℚ) < 2 ^ u := by positivity
  have hround : halfEven (w / 2 ^ u) = k := by
    apply halfEven_of_close
    rw [← mul_lt_mul_iff_left₀ hpower, ← abs_of_pos hpower, ← abs_mul, sub_mul, abs_of_pos hpower,
      div_mul_cancel₀ _ hpower.ne']
    linarith
  rw [rounded, hu, hround]

theorem rounded_of_small {w : ℚ} (hf : 0 < f.precision) (hw : 0 ≤ w) (hsmall : w < 2 ^ f.least / 2) : f.rounded w = 0 := by
  rcases hw.eq_or_lt with rfl | hpos
  · exact f.rounded_zero
  have hpower : (0 : ℚ) < 2 ^ f.least := by positivity
  have hbit : f.lastBit w = f.least := by
    have hless : w < 2 ^ f.least := by linarith
    rw [lt_two_zpow_iff hpos] at hless
    unfold lastBit
    omega
  have hround := rounded_of_near (k := 0) hbit (by rwa [Int.cast_zero, zero_mul, sub_zero, abs_of_nonneg hw])
  rwa [Int.cast_zero, zero_mul] at hround

/-- Rounding is symmetric about a multiple of the last bit that is kept on both sides. -/
theorem rounded_two_mul_sub {v w : ℚ} {k : Int} (hv : v = k * 2 ^ f.lastBit w) (hbit : f.lastBit (2 * v - w) = f.lastBit w) :
    f.rounded (2 * v - w) = 2 * v - f.rounded w := by
  have hquotient : (2 * v - w) / 2 ^ f.lastBit w = 2 * k - w / 2 ^ f.lastBit w := by
    have hpower : (0 : ℚ) < 2 ^ f.lastBit w := by positivity
    rw [sub_div, hv]
    field_simp
  unfold rounded
  rw [hbit, hquotient, halfEven_two_mul_sub]
  push_cast
  linear_combination -2 * hv

theorem lastBit_eq {w : ℚ} {a : Int} (hlow : 2 ^ a ≤ w) (hhigh : w < 2 ^ (a + 1)) :
    f.lastBit w = max (a + 1 - f.precision) f.least := by
  have hw : 0 < w := lt_of_lt_of_le (by positivity) hlow
  rw [two_zpow_le_iff hw] at hlow
  rw [lt_two_zpow_iff hw] at hhigh
  unfold lastBit
  omega

/-! ### The nearest double -/

/-- The double `± v`, or the infinity of this sign if `v` is not below the limit of the format. -/
def Gives (f : Format) (neg : Bool) (v : ℚ) (x : Float) : Prop :=
  (v < 2 ^ f.limit ∧ ∃ (m : Nat) (q : Int), parts x = .finite neg m q ∧ (m * 2 ^ q : ℚ) = v) ∨
    (2 ^ f.limit ≤ v ∧ parts x = .infinite neg)

theorem Fits.gives_nearest (hf : f.Fits) (num : Nat) {den : Nat} (hden : 0 < den) (neg : Bool) :
    f.Gives neg (f.rounded (num / den)) (f.nearest neg num den) := by
  rcases Nat.eq_zero_or_pos num with rfl | hnum
  · rw [Nat.cast_zero, zero_div, rounded_zero]
    exact .inl ⟨by positivity, 0, -1074, parts_zero neg, by simp⟩
  · rw [rounded_quotient f num hden]
    rcases lt_or_ge ((f.round num den).1 * 2 ^ f.unit num den : ℚ) (2 ^ f.limit) with hless | hge
    · exact .inl ⟨hless, hf.parts_nearest hden hnum neg hless⟩
    · exact .inr ⟨hge, f.parts_nearest_overflow hnum neg (not_lt.2 hge)⟩

theorem Gives.eq_iff {neg : Bool} {v : ℚ} {x y : Float} (h : f.Gives neg v x) {m : Nat} {q : Int}
    (hy : parts y = .finite neg m q) (hlimit : (m * 2 ^ q : ℚ) < 2 ^ f.limit) : x = y ↔ v = m * 2 ^ q := by
  rcases h with ⟨-, m', q', hx, rfl⟩ | ⟨hge, hx⟩
  · refine ⟨?_, fun heq => ?_⟩
    · rintro rfl
      rw [hx] at hy
      cases hy
      rfl
    · obtain ⟨rfl, rfl⟩ := eq_of_scaled_eq (hx ▸ parts_isDouble x) (hy ▸ parts_isDouble y) heq
      exact parts_injective (hx.trans hy.symm)
  · refine ⟨?_, ?_⟩
    · rintro rfl
      rw [hx] at hy
      cases hy
    · rintro rfl
      exact absurd hge (not_le.2 hlimit)

end Format

end Rover
