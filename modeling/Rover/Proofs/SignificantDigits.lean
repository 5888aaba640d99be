import Rover.Proofs.ReadingInterval

/-!
# Significant digits

How many significant digits a decimal has depends on its number only (`significance_le_iff`). Among the decimals of at most
so many digits, the two next to a number on the grid of these digits stand for all others: if any of them is rounded as the
number is, one of the two is (`neighbour_reads`). So the search for the shortest decimal of a double finds one that no other
goes below (`significance_shortest_le`).
-/

namespace Rover

open Numeral (digits)

/-- The nearer one of the two neighbours of a number. -/
structure Nearer (low high v near : ℚ) : Prop where
  low_nonneg : 0 ≤ low
  low_le : low ≤ v
  lt_high : v < high
  near : near = low ∧ v - low ≤ high - v ∨ near = high ∧ high - v ≤ v - low

namespace Decimal

/-- The number of significant digits, trailing zeros not counted. -/
def significance (d : Decimal) : Nat := (digits d.trim.coefficient).length

theorem significance_pos (d : Decimal) : 0 < d.significance := List.length_pos_iff.2 (digits_ne_nil _)

theorem trim_coefficient (d : Decimal) : d.trim.coefficient = 0 ∨ d.trim.coefficient % 10 ≠ 0 := by
  obtain ⟨c, e⟩ := d
  induction c using Nat.strongRecOn generalizing e with
  | ind c ih =>
      rw [trim]
      by_cases hzero : c = 0
      · exact .inl (by rw [if_pos hzero])
      · by_cases hten : c % 10 = 0
        · rw [if_neg hzero, if_pos hten]
          exact ih (c / 10) (by omega) _
        · rw [if_neg hzero, if_neg hten]
          exact .inr hten

theorem coefficient_eq_of_le {a b : Nat} {e e' : Int} (hle : e ≤ e') (h : (a * 10 ^ e' : ℚ) = b * 10 ^ e) :
    b = a * 10 ^ (e' - e).toNat := by
  have hpower : (0 : ℚ) < 10 ^ e := by positivity
  have hexponent : (10 : ℚ) ^ e' = 10 ^ (e' - e).toNat * 10 ^ e := by
    rw [← zpow_natCast, ← zpow_add₀ (by norm_num)]
    congr 1
    omega
  rw [hexponent, ← mul_assoc] at h
  exact_mod_cast (mul_right_cancel₀ hpower.ne' h).symm

/-- No form of a number has a smaller coefficient than the one without trailing zeros. -/
theorem trim_coefficient_le {d : Decimal} {c : Nat} {e : Int} (h : d.value = c * 10 ^ e) : d.trim.coefficient ≤ c := by
  rcases d.trim_coefficient with hzero | hten
  · omega
  have hvalue : (d.trim.coefficient * 10 ^ d.trim.exponent : ℚ) = c * 10 ^ e := d.value_trim.trans h
  rcases le_or_gt e d.trim.exponent with hle | hlt
  · rw [coefficient_eq_of_le hle hvalue]
    exact Nat.le_mul_of_pos_right _ (by positivity)
  · -- a larger exponent would show as a trailing zero
    refine absurd ?_ hten
    obtain ⟨k, hk⟩ : ∃ k, (e - d.trim.exponent).toNat = k + 1 := ⟨(e - d.trim.exponent).toNat - 1, by omega⟩
    rw [coefficient_eq_of_le hlt.le hvalue.symm, hk, pow_succ, ← mul_assoc]
    exact Nat.mul_mod_left _ _

/-- A decimal has at most so many significant digits if its number has a coefficient of so many. -/
theorem significance_le_iff {d : Decimal} {n : Nat} (hn : 0 < n) :
    d.significance ≤ n ↔ ∃ (c : Nat) (e : Int), c < 10 ^ n ∧ d.value = c * 10 ^ e := by
  constructor
  · intro h
    refine ⟨d.trim.coefficient, d.trim.exponent, ?_, d.value_trim.symm⟩
    exact (length_digits _).1.trans_le (Nat.pow_le_pow_right (by norm_num) h)
  · rintro ⟨c, e, hc, hvalue⟩
    exact length_digits_le hn ((trim_coefficient_le hvalue).trans_lt hc)

theorem significance_congr {d d' : Decimal} (h : d.value = d'.value) : d.significance = d'.significance := by
  apply le_antisymm
  · rw [significance_le_iff d'.significance_pos, h, ← significance_le_iff d'.significance_pos]
  · rw [significance_le_iff d.significance_pos, ← h, ← significance_le_iff d.significance_pos]

/-- A power of ten has one digit more, but only one significant digit. -/
theorem significance_le {c n : Nat} (hn : 0 < n) (hc : c ≤ 10 ^ n) (e : Int) : (⟨c, e⟩ : Decimal).significance ≤ n := by
  rw [significance_le_iff hn]
  rcases hc.lt_or_eq with hlt | rfl
  · exact ⟨c, e, hlt, rfl⟩
  · refine ⟨1, n + e, Nat.one_lt_pow hn.ne' (by norm_num), ?_⟩
    rw [value, zpow_add₀ (by norm_num), zpow_natCast]
    push_cast
    ring

/-! ### Neighbours on a grid -/

theorem lt_of_mul_ten_lt {a b : Nat} {e : Int} (h : (a * 10 ^ e : ℚ) < (b + 1) * 10 ^ e) : a ≤ b := by
  have hless : (a : ℚ) < (b + 1 : Nat) := by
    push_cast
    exact lt_of_mul_lt_mul_right h (by positivity)
  exact Nat.lt_succ_iff.1 (by exact_mod_cast hless)

/-- Decimals of at most so many digits that are not below the first such number of this size are on its grid. -/
theorem exists_on_grid {n c : Nat} {e e' : Int} (hc : c < 10 ^ n) (h : (10 : ℚ) ^ (e + n - 1) ≤ c * 10 ^ e') :
    ∃ k : Nat, (c * 10 ^ e' : ℚ) = k * 10 ^ e := by
  have hle : e ≤ e' := by
    have hless : (c * 10 ^ e' : ℚ) < 10 ^ (n + e') := by
      have hc' : (c : ℚ) < 10 ^ n := by exact_mod_cast hc
      rw [zpow_add₀ (by norm_num), zpow_natCast]
      gcongr
    have := ten_lt_ten_iff.1 (h.trans_lt hless)
    omega
  refine ⟨c * 10 ^ (e' - e).toNat, ?_⟩
  push_cast
  rw [mul_assoc, ← zpow_natCast, ← zpow_add₀ (by norm_num)]
  congr 2
  omega

/-- Of the numbers with at most so many digits, the two next to a number on their grid are read alike if any is. -/
theorem neighbour_reads {read : ℚ → ℚ} (hmono : ∀ a b, 0 ≤ a → a ≤ b → read a ≤ read b) {v : ℚ} {n c c' : Nat} {e e' : Int}
    (hn : 0 < n) (hv : 10 ^ (e + n - 1) ≤ v) (hlow : c * 10 ^ e ≤ v) (hhigh : v < (c + 1) * 10 ^ e) (hc : c' < 10 ^ n)
    (hread : read (c' * 10 ^ e') = read v) : read (c * 10 ^ e) = read v ∨ read ((c + 1) * 10 ^ e) = read v := by
  rcases le_or_gt (c' * 10 ^ e' : ℚ) v with hle | hgt
  · -- nothing on the grid is between the lower neighbour and the number
    have hbelow : (c' * 10 ^ e' : ℚ) ≤ c * 10 ^ e := by
      rcases lt_or_ge (c' * 10 ^ e' : ℚ) (10 ^ (e + n - 1)) with hsmall | hlarge
      · have hpower : (10 : ℚ) ^ (e + n - 1) = (10 ^ (n - 1) : Nat) * 10 ^ e := by
          rw [Nat.cast_pow, Nat.cast_ofNat, ← zpow_natCast, ← zpow_add₀ (by norm_num)]
          congr 1
          omega
        rw [hpower] at hv hsmall
        have hcoefficient := lt_of_mul_ten_lt (hv.trans_lt hhigh)
        refine hsmall.le.trans ?_
        gcongr
      · obtain ⟨k, hk⟩ := exists_on_grid hc hlarge
        rw [hk] at hle ⊢
        have hcoefficient := lt_of_mul_ten_lt (hle.trans_lt hhigh)
        gcongr
    exact .inl (le_antisymm (hmono _ _ (by positivity) hlow) (hread ▸ hmono _ _ (by positivity) hbelow))
  · obtain ⟨k, hk⟩ := exists_on_grid hc (hv.trans hgt.le)
    rw [hk] at hread hgt
    have hcoefficient : (c + 1 : ℚ) ≤ k := by
      have hless : (c : ℚ) < k := lt_of_mul_lt_mul_right (hlow.trans_lt hgt) (by positivity)
      exact_mod_cast hless
    have habove : ((c + 1) * 10 ^ e : ℚ) ≤ k * 10 ^ e := by gcongr
    exact .inr (le_antisymm (hread ▸ hmono _ _ (by positivity) habove)
      (hmono _ _ (le_trans (by positivity) hlow) hhigh.le))

/-- A quotient in steps of a grid. -/
theorem scaled_quotient (num : Nat) {den : Nat} (hden : 0 < den) (e : Int) :
    ((num * Nat.pow 10 (-e).toNat : Nat) / (den * Nat.pow 10 e.toNat : Nat) : ℚ) = num / den / 10 ^ e := by
  have hden' : (den : ℚ) ≠ 0 := by exact_mod_cast hden.ne'
  simp only [Nat.pow_eq]
  rw [div_div, div_eq_div_iff (by positivity) (by positivity)]
  push_cast
  rw [← ten_zpow_mul e]
  ring

/-- The decimal of so many digits is the nearer one of the two neighbours. -/
theorem nearer_significant (n num : Nat) {den : Nat} (hden : 0 < den) : ∃ c : Nat,
    Nearer (c * 10 ^ (floorLog10 num den + 1 - n)) ((c + 1) * 10 ^ (floorLog10 num den + 1 - n)) (num / den)
      (significant n num den).value := by
  obtain ⟨hlow, hhigh⟩ := floor_scaled num hden (floorLog10 num den + 1 - n)
  unfold significant
  dsimp only [value]
  generalize floorLog10 num den + 1 - n = e at hlow hhigh ⊢
  have hscale : 0 < den * Nat.pow 10 e.toNat := Nat.mul_pos hden (Nat.pow_pos (by decide))
  have hpower : (0 : ℚ) < 10 ^ e := by positivity
  have hround := roundDiv_eq_halfEven (num * Nat.pow 10 (-e).toNat) hscale
  rw [scaled_quotient num hden e] at hround
  -- neither neighbour is nearer than the one chosen
  have hnearest (k : Nat) : |(roundDiv (num * Nat.pow 10 (-e).toNat) (den * Nat.pow 10 e.toNat) : ℚ) * 10 ^ e - num / den|
      ≤ |(k : ℚ) * 10 ^ e - num / den| := by
    have hscaled (a : ℚ) : |a * 10 ^ e - num / den| = |a - num / den / 10 ^ e| * 10 ^ e := by
      rw [← abs_of_pos hpower, ← abs_mul, abs_of_pos hpower, sub_mul, div_mul_cancel₀ _ hpower.ne']
    have hinteger := abs_halfEven_sub_le_abs (num / den / 10 ^ e) k
    rw [← hround, Int.cast_natCast, Int.cast_natCast] at hinteger
    rw [hscaled, hscaled]
    gcongr
  have hcases := roundDiv_cases (num * Nat.pow 10 (-e).toNat) (den * Nat.pow 10 e.toNat)
  generalize num * Nat.pow 10 (-e).toNat / (den * Nat.pow 10 e.toNat) = c at hlow hhigh hcases
  have hlower : |(c * 10 ^ e - num / den : ℚ)| = num / den - c * 10 ^ e := by
    rw [abs_sub_comm, abs_of_nonneg (by linarith)]
  have hupper : |((c + 1 : Nat) * 10 ^ e - num / den : ℚ)| = (c + 1) * 10 ^ e - num / den := by
    push_cast
    rw [abs_of_nonneg (by linarith)]
  refine ⟨c, by positivity, hlow, hhigh, ?_⟩
  rcases hcases with hround | hround
  · have hnear := hnearest (c + 1)
    rw [hround, hlower, hupper] at hnear
    exact .inl ⟨by rw [hround], hnear⟩
  · have hnear := hnearest c
    rw [hround, hlower, hupper] at hnear
    exact .inr ⟨by rw [hround]; push_cast; rfl, hnear⟩

section Grid

variable {num den : Nat} (hnum : 0 < num) (hden : 0 < den) (n : Nat)

include hnum hden

theorem ten_le_quotient : (10 : ℚ) ^ (floorLog10 num den + 1 - n + n - 1) ≤ num / den := by
  rw [show floorLog10 num den + 1 - n + n - 1 = floorLog10 num den by ring]
  exact (floorLog10_spec hnum hden).1

/-- The neighbours have at most so many digits. -/
theorem floor_lt {c : Nat} (hlow : (c * 10 ^ (floorLog10 num den + 1 - n) : ℚ) ≤ num / den) : c + 1 ≤ 10 ^ n := by
  have hless := hlow.trans_lt (floorLog10_spec hnum hden).2
  have hpower : (10 : ℚ) ^ (floorLog10 num den + 1) = (10 ^ n : Nat) * 10 ^ (floorLog10 num den + 1 - n) := by
    rw [Nat.cast_pow, Nat.cast_ofNat, ← zpow_natCast, ← zpow_add₀ (by norm_num)]
    congr 1
    ring
  rw [hpower] at hless
  exact_mod_cast lt_of_mul_lt_mul_right hless (by positivity)

variable {n}

theorem significance_significant (hn : 0 < n) : (significant n num den).significance ≤ n := by
  obtain ⟨c, -, hlow, -, hcases⟩ := nearer_significant n num hden
  have hc := floor_lt hnum hden n hlow
  rcases hcases with ⟨hvalue, -⟩ | ⟨hvalue, -⟩
  · refine (significance_congr ?_).trans_le (significance_le hn (by omega : c ≤ 10 ^ n) (floorLog10 num den + 1 - n))
    exact hvalue
  · refine (significance_congr ?_).trans_le (significance_le hn hc (floorLog10 num den + 1 - n))
    rw [hvalue, value]
    push_cast
    rfl

theorem significance_neighbour? {passes : Decimal → Bool} {d : Decimal} (hn : 0 < n)
    (h : neighbour? passes n num den = some d) : d.significance ≤ n := by
  have hfloor := floor_lt hnum hden n (floor_scaled num hden (floorLog10 num den + 1 - n)).1
  unfold neighbour? at h
  dsimp only at h
  split at h
  · cases h
    exact significance_significant hnum hden hn
  · cases h
    exact significance_le hn (by omega) _
  · cases h
    exact significance_le hn hfloor _
  · cases h

end Grid

/-! ### The shortest decimal of a double -/

/-- A search from one on finds the least. -/
theorem findSome?_range' {α : Type} {f : Nat → Option α} {last : Nat} {a : α}
    (h : (List.range' 1 last).findSome? f = some a) :
    ∃ n, 0 < n ∧ n ≤ last ∧ f n = some a ∧ ∀ k, 0 < k → k < n → f k = none := by
  obtain ⟨before, n, after, hsplit, hn, hnone⟩ := List.findSome?_eq_some_iff.1 h
  have hmem : n ∈ List.range' 1 last := by
    rw [hsplit]
    simp
  have hbefore (k : Nat) (hpos : 0 < k) (hlt : k < n) : k ∈ before := by
    have hk : k ∈ before ++ n :: after := by
      rw [← hsplit, List.mem_range'_1]
      rw [List.mem_range'_1] at hmem
      omega
    have hsorted : (before ++ n :: after).Pairwise (· < ·) := hsplit ▸ List.pairwise_lt_range'
    rcases List.mem_append.1 hk with hk | hk
    · exact hk
    · rcases List.mem_cons.1 hk with rfl | hk
      · omega
      · have := (List.pairwise_cons.1 (List.pairwise_append.1 hsorted).2.1).1 k hk
        omega
  rw [List.mem_range'_1] at hmem
  exact ⟨n, by omega, by omega, hn, fun k hpos hlt => hnone k (hbefore k hpos hlt)⟩

/-- No decimal that reads as a double has fewer digits than the shortest one. -/
theorem significance_shortest_le {x : Float} {neg : Bool} {m : Nat} {q : Int} (hx : parts x = .finite neg m q) {num den : Nat}
    (hnum : 0 < num) (hden : 0 < den) (hvalue : (num / den : ℚ) = m * 2 ^ q) {d : Decimal} (hd : d.significance ≤ 17)
    (hread : d.toFloat neg = x) : (shortest neg x num den).significance ≤ d.significance := by
  have hdouble : (Parts.finite neg m q).IsDouble := hx ▸ parts_isDouble x
  have hself : Format.double.rounded (num / den) = m * 2 ^ q := by
    rw [hvalue]
    exact Format.rounded_of_lt_two_pow hdouble.1 hdouble.2.1
  have hfound : neighbour? (fun d => (d.toFloat neg).toBits == x.toBits) d.significance num den ≠ none := by
    intro hnone
    obtain ⟨c, hlow, hhigh, hbelow, habove⟩ := not_passes_of_neighbour? hden hnone
    obtain ⟨c', e', hc', hd'⟩ := (significance_le_iff d.significance_pos).1 le_rfl
    have hround := (toFloat_iff hx d).1 hread
    rw [hd', ← hself] at hround
    have hfails {d : Decimal} (h : ((d.toFloat neg).toBits == x.toBits) = false) :
        Format.double.rounded d.value ≠ m * 2 ^ q := by
      intro heq
      rw [(toFloat_iff hx d).2 heq, BEq.rfl] at h
      cases h
    rcases neighbour_reads (fun _ _ => Format.rounded_mono Format.double_fits.precision_pos) d.significance_pos
      (ten_le_quotient hnum hden _) hlow hhigh hc' hround with h | h
    · exact hfails hbelow (h.trans hself)
    · refine hfails habove (Eq.trans ?_ (h.trans hself))
      rw [value]
      push_cast
      rfl
  unfold shortest
  dsimp only
  cases hsearch : (List.range' 1 17).findSome? (neighbour? (fun d => (d.toFloat neg).toBits == x.toBits) · num den) with
  | some d' =>
      obtain ⟨n, hpos, -, hn, hnone⟩ := findSome?_range' hsearch
      refine (significance_neighbour? hnum hden hpos hn).trans ?_
      by_contra hless
      exact hfound (hnone _ d.significance_pos (not_le.1 hless))
  | none =>
      refine absurd (List.findSome?_eq_none_iff.1 hsearch _ ?_) hfound
      rw [List.mem_range'_1]
      have := d.significance_pos
      omega

end Decimal

end Rover
