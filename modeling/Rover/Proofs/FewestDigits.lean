import Rover.Proofs.ReadBack
import Rover.Proofs.SignificantDigits

/-!
# The fewest digits of a float

For every number of digits, the text of a float is tried with the decimal nearest to the float only. Where the numbers read
as the float are an interval symmetric about it, the nearest decimal is read as the float if any of this length is. At a
power of two the interval reaches down half as far as up, and the nearest decimal may fall out of it below while the next one
above is in it. Over all powers of two this happens at three of them (`offCentre_powers`); all other floats are written with
the fewest digits (`singleText_fewest_digits_iff`).
-/

namespace Rover

open Reading

/-! ### The nearer neighbour -/

section Nearer

variable {n : Nat} {u : Int} {low high near : ℚ} (h : Format.single.Kept n u) (hnear : Nearer low high (n * 2 ^ u) near)
  (hread : reading low = n * 2 ^ u ∨ reading high = n * 2 ^ u)

include h

theorem reading_self : reading (n * 2 ^ u) = n * 2 ^ u := reading_of_le_two_pow h.lt.le h.least_le

include hnear hread

/-- About a single that is not a power of two. -/
theorem reading_near_of_symmetric (hn : ∀ a, n ≠ 2 ^ a) : reading near = n * 2 ^ u := by
  obtain ⟨hlow, hle, hlt, ⟨rfl, hdist⟩ | ⟨rfl, hdist⟩⟩ := hnear
  · rcases hread with hread | hread
    · exact hread
    · have hmirror := reading_two_mul_sub h hn (hlow.trans (hle.trans hlt.le)) hread
      have hnonneg : 0 ≤ 2 * (n * 2 ^ u) - high := by
        have hbelow := sub_lt_of_reading h hread
        have hone : (1 : ℚ) ≤ n := by exact_mod_cast h.pos
        have hbit : (2 : ℚ) ^ u ≤ n * 2 ^ u := le_mul_of_one_le_left (by positivity) hone
        linarith
      exact reading_of_between hnonneg hmirror (reading_self h) (by linarith) hle
  · rcases hread with hread | hread
    · have hmirror := reading_two_mul_sub h hn hlow hread
      exact reading_of_between (by positivity) (reading_self h) hmirror hlt.le (by linarith)
    · exact hread

/-- About a power of two, unless the lower neighbour is nearer and may be out of the interval. -/
theorem reading_near_of_power (hu : -149 < u) (hn : n = 2 ^ 23)
    (hcentre : ¬ (15 / 64 * 2 ^ u < n * 2 ^ u - low ∧ n * 2 ^ u - low ≤ high - n * 2 ^ u ∧
      high - n * 2 ^ u < 33 / 64 * 2 ^ u)) : reading near = n * 2 ^ u := by
  have hpower : (0 : ℚ) < 2 ^ u := by positivity
  obtain ⟨hlow, hle, hlt, ⟨rfl, hdist⟩ | ⟨rfl, hdist⟩⟩ := hnear
  · rcases hread with hread | hread
    · exact hread
    · have habove := sub_lt_of_reading h hread
      refine reading_within h ?_ (by linarith)
      by_contra hout
      exact hcentre ⟨not_le.1 hout, hdist, habove⟩
  · rcases hread with hread | hread
    · have hbelow : n * 2 ^ u - low < 17 / 64 * 2 ^ u := by
        subst hn
        exact sub_lt_of_reading_power hu hlow hread
      exact reading_within h (by linarith) (by linarith)
    · exact hread

/-- About a single of the least bit, unless the neighbours are as far apart as singles are. -/
theorem reading_near_of_least (hu : u = -149)
    (hstep : ¬ (62 / 64 * 2 ^ u < high - low ∧ high - low < 66 / 64 * 2 ^ u)) : reading near = n * 2 ^ u := by
  have hpower : (0 : ℚ) < 2 ^ u := by positivity
  obtain ⟨hlow, hle, hlt, ⟨rfl, hdist⟩ | ⟨rfl, hdist⟩⟩ := hnear
  · rcases hread with hread | hread
    · exact hread
    · have habove := sub_lt_of_reading h hread
      refine reading_within_least h hu ?_ (by linarith)
      by_contra hout
      exact hstep ⟨by linarith, by linarith⟩
  · rcases hread with hread | hread
    · have hbelow := sub_lt_of_reading_least h hu hlow hread
      refine reading_within_least h hu (by linarith) ?_
      by_contra hout
      exact hstep ⟨by linarith, by linarith⟩
    · exact hread

end Nearer

/-- No grid of decimals is as fine as the least bit. -/
theorem ten_zpow_off_least (e : Int) :
    ¬ ((62 / 64 * 2 ^ (-149 : Int) : ℚ) < 10 ^ e ∧ (10 ^ e : ℚ) < 66 / 64 * 2 ^ (-149 : Int)) := by
  rintro ⟨hlow, hhigh⟩
  rcases le_or_gt e (-45) with hle | hgt
  · have hfine : (10 : ℚ) ^ (-45 : Int) < 62 / 64 * 2 ^ (-149 : Int) := by norm_num
    exact absurd (hlow.trans_le (zpow_le_zpow_right₀ (by norm_num) hle)) (not_lt.2 hfine.le)
  · have hcoarse : 66 / 64 * 2 ^ (-149 : Int) < (10 : ℚ) ^ (-44 : Int) := by norm_num
    exact absurd ((zpow_le_zpow_right₀ (by norm_num) (by omega : -44 ≤ e)).trans_lt hhigh) (not_lt.2 hcoarse.le)

/-! ### Powers of two -/

/-- The powers of two whose lower neighbour on a grid is nearer and out of the interval, and the upper one in it. -/
def offCentre : List Int := [-96, 87, 90]

/-- Whether this is so of the power of two that is `num / den` steps of the grid. Its last bit is `2 ^ 23` times smaller. -/
def IsOffCentre (num den : Nat) : Prop :=
  15 * num < 2 ^ 29 * (num % den) ∧ 2 * (num % den) ≤ den ∧ 2 ^ 29 * (den - num % den) < 33 * num

instance (num den : Nat) : Decidable (IsOffCentre num den) := inferInstanceAs (Decidable (_ ∧ _))

/-- A power of two in steps of a power of ten. -/
def steps (k e : Int) : Nat × Nat :=
  ((quotient 1 k).1 * Nat.pow 10 (-e).toNat, (quotient 1 k).2 * Nat.pow 10 e.toNat)

theorem steps_quotient (k e : Int) : ((steps k e).1 / (steps k e).2 : ℚ) = 2 ^ k / 10 ^ e := by
  have hpower := shifted_quotient 1 k
  rw [Nat.cast_one, one_mul] at hpower
  rw [← hpower]
  exact Decimal.scaled_quotient _ (one_shiftLeft_pos _) e

/-- The highest bit of a power of ten. -/
def topBit (e : Int) : Int := floorLog2 (Nat.pow 10 e.toNat) (Nat.pow 10 (-e).toNat)

theorem topBit_spec (e : Int) : (2 : ℚ) ^ topBit e ≤ 10 ^ e ∧ (10 : ℚ) ^ e < 2 ^ (topBit e + 1) := by
  have hpower (k : Nat) : 0 < Nat.pow 10 k := Nat.pow_pos (by decide)
  have hquotient : ((Nat.pow 10 e.toNat : Nat) / (Nat.pow 10 (-e).toNat : Nat) : ℚ) = 10 ^ e := by
    simp only [Nat.pow_eq]
    rw [div_eq_iff (by positivity)]
    push_cast
    exact (ten_zpow_mul e).symm
  rw [← hquotient]
  exact floorLog2_spec (hpower _) (hpower _)

/-- The neighbours of a power of two are as far apart as its last bit is large, so that each grid has three powers to try. -/
theorem offCentre_powers : ∀ i ∈ List.range 77, ∀ j ∈ [0, 1, 2],
    IsOffCentre (steps (23 + (topBit (i - 45) + j)) (i - 45)).1 (steps (23 + (topBit (i - 45) + j)) (i - 45)).2 →
      23 + (topBit (i - 45) + j) ∈ offCentre := by
  decide +kernel

/-- What a power of two is off its neighbours on a grid, in steps of the grid. -/
theorem isOffCentre_of_distances {v : ℚ} {u e : Int} (hv : v = 2 ^ 23 * 2 ^ u) {num den c : Nat} (hden : 0 < den)
    (hsteps : (num / den : ℚ) = v / 10 ^ e) (hlow : c * 10 ^ e ≤ v) (hhigh : v < (c + 1) * 10 ^ e)
    (hout : 15 / 64 * 2 ^ u < v - c * 10 ^ e) (hnear : v - c * 10 ^ e ≤ (c + 1) * 10 ^ e - v)
    (hin : (c + 1) * 10 ^ e - v < 33 / 64 * 2 ^ u) : IsOffCentre num den := by
  have hstep : (0 : ℚ) < 10 ^ e := by positivity
  have hden' : (0 : ℚ) < den := by exact_mod_cast hden
  have hv' : v * den = num * 10 ^ e := by
    rw [div_eq_div_iff hden'.ne' hstep.ne'] at hsteps
    linarith
  have hfloor : num / den = c := by
    have hlow' := mul_le_mul_of_nonneg_right hlow hden'.le
    have hhigh' := mul_lt_mul_of_pos_right hhigh hden'
    apply Nat.div_eq_of_lt_le
    · have hcast : (c * den : ℚ) ≤ num := le_of_mul_le_mul_right (by linarith) hstep
      exact_mod_cast hcast
    · have hcast : (num : ℚ) < (c + 1) * den := lt_of_mul_lt_mul_right (by linarith) hstep.le
      exact_mod_cast hcast
  have hmod : ((num % den : Nat) : ℚ) * 10 ^ e = (v - c * 10 ^ e) * den := by
    have hdecomp : (den * c + (num % den : Nat) : ℚ) = num := by
      have := Nat.div_add_mod num den
      rw [hfloor] at this
      exact_mod_cast this
    linear_combination 10 ^ e * hdecomp - hv'
  have hless := (Nat.mod_lt num hden).le
  have hbit : 2 ^ 23 * 2 ^ u * den = (num * 10 ^ e : ℚ) := by rw [← hv', hv]
  refine ⟨?_, ?_, ?_⟩
  · have hout' := mul_lt_mul_of_pos_right hout hden'
    rw [← Nat.cast_lt (α := ℚ)]
    refine lt_of_mul_lt_mul_right ?_ hstep.le
    push_cast
    linarith
  · have hnear' := mul_le_mul_of_nonneg_right hnear hden'.le
    rw [← Nat.cast_le (α := ℚ)]
    refine le_of_mul_le_mul_right ?_ hstep
    push_cast
    linarith
  · have hin' := mul_lt_mul_of_pos_right hin hden'
    rw [← Nat.cast_lt (α := ℚ)]
    refine lt_of_mul_lt_mul_right ?_ hstep.le
    push_cast [hless]
    linarith

/-- Other powers of two than the three have the nearer neighbour in the interval if they have one in it. -/
theorem centred_of_power {v : ℚ} {u e : Int} (hv : v = 2 ^ 23 * 2 ^ u) (hlow : -149 < u) (hhigh : u ≤ 104)
    (hcentre : 23 + u ∉ offCentre) {c : Nat} (hle : c * 10 ^ e ≤ v) (hlt : v < (c + 1) * 10 ^ e) :
    ¬ (15 / 64 * 2 ^ u < v - c * 10 ^ e ∧ v - c * 10 ^ e ≤ (c + 1) * 10 ^ e - v ∧
      (c + 1) * 10 ^ e - v < 33 / 64 * 2 ^ u) := by
  rintro ⟨hout, hdist, hin⟩
  have hpower : (0 : ℚ) < 2 ^ u := by positivity
  have hcoarse : (2 : ℚ) ^ (u - 2) < 10 ^ e := by
    rw [zpow_sub₀ (by norm_num)]
    norm_num
    linarith
  have hfine : (10 : ℚ) ^ e < 2 ^ (u + 1) := by
    rw [zpow_add_one₀ (by norm_num)]
    linarith
  -- which powers of ten these are, and how they stand to the last bit
  have hmin : -46 < e := by
    refine ten_lt_ten_iff.1 (lt_trans ?_ hcoarse)
    calc (10 : ℚ) ^ (-46 : Int) < 2 ^ (-150 : Int) := by norm_num
      _ ≤ 2 ^ (u - 2) := zpow_le_zpow_right₀ (by norm_num) (by omega)
  have hmax : e < 32 := by
    refine ten_lt_ten_iff.1 (hfine.trans ?_)
    calc (2 : ℚ) ^ (u + 1) ≤ 2 ^ (105 : Int) := zpow_le_zpow_right₀ (by norm_num) (by omega)
      _ < 10 ^ (32 : Int) := by norm_num
  obtain ⟨hbit, hbit'⟩ := topBit_spec e
  have htop := (zpow_lt_zpow_iff_right₀ (by norm_num : (1 : ℚ) < 2)).1 (hbit.trans_lt hfine)
  have htop' := (zpow_lt_zpow_iff_right₀ (by norm_num : (1 : ℚ) < 2)).1 (hcoarse.trans hbit')
  obtain ⟨i, hi, rfl⟩ : ∃ i : Nat, i < 77 ∧ e = i - 45 := ⟨(e + 45).toNat, by omega, by omega⟩
  obtain ⟨j, hj, rfl⟩ : ∃ j ∈ ([0, 1, 2] : List Int), u = topBit (i - 45) + j := by
    refine ⟨u - topBit (i - 45), ?_, by ring⟩
    simp only [List.mem_cons, List.not_mem_nil, or_false]
    omega
  refine hcentre (offCentre_powers i (List.mem_range.2 hi) j hj (isOffCentre_of_distances hv ?_ ?_ hle hlt hout hdist hin))
  · exact Nat.mul_pos (one_shiftLeft_pos _) (Nat.pow_pos (by decide))
  · rw [steps_quotient, hv, zpow_add₀ (by norm_num) 23]
    norm_num

/-! ### The nearest decimal -/

section Significant

open Decimal (significant)

variable {num den m : Nat} {u : Int} (hnum : 0 < num) (hden : 0 < den) (h : Format.single.Kept m u)
  (hvalue : (num / den : ℚ) = m * 2 ^ u)

/-- A power of two that is not among the least singles has all its bits. -/
theorem eq_two_pow_of_kept (h : Format.single.Kept m u) (hleast : u ≠ -149) {a : Nat} (ha : m = 2 ^ a) : m = 2 ^ 23 := by
  have hlt : m < 2 ^ 24 := h.lt
  have hbit : 2 ^ 24 ≤ 2 * m := h.bit.resolve_right hleast
  rw [ha, Nat.pow_lt_pow_iff_right (by norm_num)] at hlt
  rw [ha, ← pow_succ', Nat.pow_le_pow_iff_right (by norm_num)] at hbit
  rw [ha, show a = 23 by omega]

include hnum hden h hvalue

/-- Nine digits are enough for every single. -/
theorem reading_significant_nine : reading (significant 9 num den).value = m * 2 ^ u := by
  obtain ⟨c, -, hlow, hhigh, hnear⟩ := Decimal.nearer_significant 9 num hden
  rw [hvalue] at hlow hhigh hnear
  have hgrid : (10 : ℚ) ^ (floorLog10 num den + 1 - (9 : Nat)) * 10 ^ 8 ≤ m * 2 ^ u := by
    rw [← hvalue, ← zpow_natCast, ← zpow_add₀ (by norm_num)]
    refine le_of_eq_of_le ?_ (floorLog10_spec hnum hden).1
    congr 1
    push_cast
    ring
  have hbits : (m * 2 ^ u : ℚ) ≤ 2 ^ 24 * 2 ^ u := by
    have hm : m ≤ 2 ^ 24 := h.lt.le
    gcongr
    exact_mod_cast hm
  generalize (10 : ℚ) ^ (floorLog10 num den + 1 - (9 : Nat)) = step at hlow hhigh hnear hgrid
  have hpower : (0 : ℚ) < 2 ^ u := by positivity
  rcases hnear with ⟨hnear, hdist⟩ | ⟨hnear, hdist⟩
  · rw [hnear]
    exact reading_within h (by linarith) (by linarith)
  · rw [hnear]
    exact reading_within h (by linarith) (by linarith)

/-- If a decimal is read as a single, one of the two neighbours of the single with as many digits is. -/
theorem neighbour_reads_of_reading {d : Decimal} (hread : reading d.value = m * 2 ^ u) {c : Nat}
    (hlow : (c * 10 ^ (floorLog10 num den + 1 - d.significance) : ℚ) ≤ m * 2 ^ u)
    (hhigh : (m * 2 ^ u : ℚ) < (c + 1) * 10 ^ (floorLog10 num den + 1 - d.significance)) :
    reading (c * 10 ^ (floorLog10 num den + 1 - d.significance)) = m * 2 ^ u ∨
      reading ((c + 1) * 10 ^ (floorLog10 num den + 1 - d.significance)) = m * 2 ^ u := by
  obtain ⟨c', e', hc', hd⟩ := (Decimal.significance_le_iff d.significance_pos).1 le_rfl
  have hten := Decimal.ten_le_quotient hnum hden d.significance
  have hself := reading_self h
  rw [hvalue] at hten
  rw [hd, ← hself] at hread
  have hreads := Decimal.neighbour_reads (fun _ _ => reading_mono) d.significance_pos hten hlow hhigh hc' hread
  rwa [hself] at hreads

/-- A float that is read from a decimal is read from the nearest one of this length, unless it is one of three powers of two. -/
theorem reading_significant (hlimit : (m * 2 ^ u : ℚ) < 2 ^ (128 : Int)) (hcentre : ∀ k ∈ offCentre, (m * 2 ^ u : ℚ) ≠ 2 ^ k)
    {d : Decimal} (hread : reading d.value = m * 2 ^ u) :
    reading (significant d.significance num den).value = m * 2 ^ u := by
  obtain ⟨c, hnear⟩ := Decimal.nearer_significant d.significance num hden
  rw [hvalue] at hnear
  have hneighbour := neighbour_reads_of_reading hnum hden h hvalue hread hnear.low_le hnear.lt_high
  rcases eq_or_ne u (-149) with hleast | hleast
  · refine reading_near_of_least h hnear hneighbour hleast ?_
    rw [hleast, ← sub_mul, add_sub_cancel_left, one_mul]
    exact ten_zpow_off_least _
  by_cases hpower : ∃ a, m = 2 ^ a
  · obtain ⟨a, ha⟩ := hpower
    have hm := eq_two_pow_of_kept h hleast ha
    have hu : -149 ≤ u := h.least_le
    have hv : (m * 2 ^ u : ℚ) = 2 ^ 23 * 2 ^ u := by
      rw [hm]
      norm_num
    have hscaled : (m * 2 ^ u : ℚ) = 2 ^ (23 + u) := by
      rw [hv, zpow_add₀ (by norm_num)]
      norm_num
    have hless : 23 + u < 128 := by
      rw [hscaled] at hlimit
      exact (zpow_lt_zpow_iff_right₀ (by norm_num : (1 : ℚ) < 2)).1 hlimit
    refine reading_near_of_power h hnear hneighbour (by omega) hm ?_
    exact centred_of_power hv (by omega) (by omega) (fun hk => hcentre _ hk hscaled) hnear.low_le hnear.lt_high
  · exact reading_near_of_symmetric h hnear hneighbour fun a ha => hpower ⟨a, ha⟩

end Significant

/-! ### Texts -/

/-- A text that is a decimal behind its sign. -/
def Shows (text : String) (neg : Bool) (d : Decimal) : Prop :=
  (sign text.toList).1 = neg ∧ decimal? (sign text.toList).2 = some d

instance (text : String) (neg : Bool) (d : Decimal) : Decidable (Shows text neg d) := inferInstanceAs (Decidable (_ ∧ _))

theorem shows_render (l : Layout) (neg : Bool) (d : Decimal) : ∃ d', Shows (l.render neg d) neg d' ∧ d'.value = d.value := by
  obtain ⟨body, hrender, hspells⟩ := spells_render l neg d
  obtain ⟨d', hread, hvalue⟩ := hspells.reads
  obtain ⟨c, rest, rfl, hc⟩ := hspells.head
  have hsign : sign (l.render neg d).toList = (neg, c :: rest) := by
    rw [hrender, String.toList_ofList]
    exact sign_signed hc neg rest
  refine ⟨d', ⟨?_, ?_⟩, hvalue⟩
  · rw [hsign]
  · rw [hsign, hread]

theorem shows_doubleText {x : Float} {neg : Bool} {m : Nat} {q : Int} (hx : parts x = .finite neg m q) (hm : 0 < m) :
    ∃ d, Shows (doubleText x) neg d ∧ d.value = (Decimal.shortest neg x (quotient m q).1 (quotient m q).2).value := by
  have hnum : (quotient m q).1 ≠ 0 := (shiftLeft_pos hm _).ne'
  have htext : doubleText x = Layout.program.render neg (Decimal.shortest neg x (quotient m q).1 (quotient m q).2) := by
    simp only [doubleText, writeFloat, hx, Layout.double, if_neg hnum]
  rw [htext]
  exact shows_render _ _ _

section Float

variable {x : Float} {neg : Bool} {m : Nat} {q : Int} (hx : parts x = .finite neg m q)

include hx

theorem holds_of_toSingle (hsingle : toSingle x = x) : Format.single.Holds (m * 2 ^ q) := by
  rcases toSingle_cases hx with hinfinite | ⟨m', q', hparts, hholds⟩
  · rw [hsingle, hx] at hinfinite
    cases hinfinite
  · rw [hsingle, hx] at hparts
    cases hparts
    exact hholds

theorem beq_iff (hm : 0 < m) {y : Float} : (y == x) = true ↔ y = x := by
  refine ⟨eq_of_beq hx hm, ?_⟩
  rintro rfl
  have hfinite := isFinite_of_parts hx
  rw [beq_iff_compare, compareDoubles_finite hfinite hfinite, compare_eq_iff_eq.2 rfl]

/-- Only decimals of its sign read as a float. -/
theorem reads_sign (hm : 0 < m) {neg' : Bool} {d : Decimal} (h : (toSingle (d.toFloat neg') == x) = true) : neg' = neg := by
  have heq := (beq_iff hx hm).1 h
  exact (heq ▸ d.gives_reading neg').sign_eq hx

variable (hm : 0 < m) (hv : Format.single.Holds (m * 2 ^ q))

include hm hv

theorem reads_iff {d : Decimal} : (toSingle (d.toFloat neg) == x) = true ↔ reading d.value = m * 2 ^ q :=
  (beq_iff hx hm).trans (d.toSingle_toFloat_iff hx hv)

/-- The text of a float is that of the double next to the first of the nearest decimals that reads as the float. -/
theorem singleText_eq : ∃ n, 0 < n ∧ n ≤ 9 ∧
    singleText x = doubleText ((Decimal.significant n (quotient m q).1 (quotient m q).2).toFloat neg) ∧
    reading (Decimal.significant n (quotient m q).1 (quotient m q).2).value = m * 2 ^ q ∧
    ∀ k, 0 < k → k < n → reading (Decimal.significant k (quotient m q).1 (quotient m q).2).value ≠ m * 2 ^ q := by
  have hnum : 0 < (quotient m q).1 := shiftLeft_pos hm _
  have hden : 0 < (quotient m q).2 := one_shiftLeft_pos _
  simp only [singleText, writeFloat, hx, if_neg hnum.ne']
  split
  · rename_i y hfound
    obtain ⟨n, hpos, hle, hn, hbefore⟩ := Decimal.findSome?_range' hfound
    split_ifs at hn with hreads
    cases hn
    refine ⟨n, hpos, hle, rfl, (reads_iff hx hm hv).1 hreads, fun k hk hless hread => ?_⟩
    have hnone := hbefore k hk hless
    rw [if_pos ((reads_iff hx hm hv).2 hread)] at hnone
    cases hnone
  · -- nine digits would have been found
    rename_i hnone
    obtain ⟨n, u, hvalue, hkept⟩ := hv.exists_kept (scaled_pos hm q)
    have hnine := reading_significant_nine hnum hden hkept ((shifted_quotient m q).trans hvalue)
    have hskipped := List.findSome?_eq_none_iff.1 hnone 9 (by decide)
    rw [← hvalue] at hnine
    rw [if_pos ((reads_iff hx hm hv).2 hnine)] at hskipped
    cases hskipped

/-- The text has no more digits than the decimal that was found, and reads as the float. -/
theorem shows_singleText : ∃ n d, Shows (singleText x) neg d ∧ toSingle (d.toFloat neg) = x ∧ d.significance ≤ n ∧ n ≤ 9 ∧
    ∀ k, 0 < k → k < n → reading (Decimal.significant k (quotient m q).1 (quotient m q).2).value ≠ m * 2 ^ q := by
  obtain ⟨n, hpos, hle, htext, hread, hbefore⟩ := singleText_eq hx hm hv
  have hnum : 0 < (quotient m q).1 := shiftLeft_pos hm _
  have hden : 0 < (quotient m q).2 := one_shiftLeft_pos _
  have hsingle := (Decimal.toSingle_toFloat_iff hx hv _).2 hread
  have hdigits := Decimal.significance_significant hnum hden hpos
  generalize Decimal.significant n (quotient m q).1 (quotient m q).2 = found at htext hread hsingle hdigits
  -- the double is finite and not zero, as the float is
  obtain ⟨m', q', hy, hm'⟩ : ∃ (m' : Nat) (q' : Int), parts (found.toFloat neg) = .finite neg m' q' ∧ 0 < m' := by
    rcases found.gives_toFloat neg with ⟨-, m', q', hy, hvalue⟩ | ⟨-, hy⟩
    · refine ⟨m', q', hy, Nat.pos_of_ne_zero fun hzero => ?_⟩
      rw [hzero, Nat.cast_zero, zero_mul] at hvalue
      rw [reading, ← hvalue, Format.rounded_zero] at hread
      exact (scaled_pos hm q).ne hread
    · rw [toSingle_of_infinite hy] at hsingle
      rw [hsingle, hx] at hy
      cases hy
  obtain ⟨d, hshows, hvalue⟩ := shows_doubleText hy hm'
  have hnum' : 0 < (quotient m' q').1 := shiftLeft_pos hm' _
  have hden' : 0 < (quotient m' q').2 := one_shiftLeft_pos _
  have hquotient := shifted_quotient m' q'
  refine ⟨n, d, htext ▸ hshows, ?_, ?_, hle, hbefore⟩
  · rw [Decimal.toFloat_congr hvalue, Decimal.toFloat_shortest hy hm' hnum' hden' hquotient, hsingle]
  · rw [Decimal.significance_congr hvalue]
    exact (Decimal.significance_shortest_le hy hnum' hden' hquotient (by omega) rfl).trans hdigits

end Float

/-- Unless it is one of the three, no float is read from fewer digits than the nearest decimals need. -/
theorem le_significance_of_reading {m : Nat} {q : Int} (hm : 0 < m) (hv : Format.single.Holds (m * 2 ^ q))
    (hcentre : ∀ k ∈ offCentre, (m * 2 ^ q : ℚ) ≠ 2 ^ k) {n : Nat}
    (hbefore : ∀ k, 0 < k → k < n → reading (Decimal.significant k (quotient m q).1 (quotient m q).2).value ≠ m * 2 ^ q)
    {d : Decimal} (hread : reading d.value = m * 2 ^ q) : n ≤ d.significance := by
  by_contra hless
  obtain ⟨n', u, hvalue, hkept⟩ := hv.exists_kept (scaled_pos hm q)
  have hlimit := hv.lt_limit
  refine hbefore _ d.significance_pos (not_le.1 hless) ?_
  rw [hvalue] at hcentre hread hlimit ⊢
  exact reading_significant (shiftLeft_pos hm _) (one_shiftLeft_pos _) hkept ((shifted_quotient m q).trans hvalue) hlimit
    hcentre hread

/-! ### The exceptions -/

theorem eq_assemble {x : Float} {neg : Bool} {m : Nat} {q k : Int} (hx : parts x = .finite neg m q)
    (hvalue : (m * 2 ^ q : ℚ) = 2 ^ k) (hlow : -1074 ≤ k) (hhigh : k < 1024) : x = assemble neg 1 k := by
  obtain ⟨m', q', hparts, hvalue'⟩ := parts_assemble neg (n := 1) (by norm_num) hlow (by simpa [Nat.log2] using hhigh)
  rw [Nat.cast_one, one_mul, ← hvalue] at hvalue'
  apply parts_injective
  obtain ⟨rfl, rfl⟩ := eq_of_scaled_eq (hx ▸ parts_isDouble x) (hparts ▸ parts_isDouble _) hvalue'.symm
  rw [hx, hparts]

theorem nine_digits_of_offCentre : ∀ neg, ∀ k ∈ offCentre,
    (decimal? (sign (singleText (assemble neg 1 k)).toList).2).map Decimal.significance = some 9 := by
  decide +kernel

theorem eight_digits_of_offCentre : ∀ k ∈ offCentre, ∃ d ∈ [⟨12621775, -36⟩, ⟨15474251, 19⟩, ⟨12379401, 20⟩],
    Decimal.significance d = 8 ∧ ∀ neg, (toSingle (d.toFloat neg) == assemble neg 1 k) = true := by
  decide +kernel

/-- The text of a finite float is a decimal that reads as the float. No decimal with fewer digits does so, unless the float is
plus or minus one of three powers of two; these are written with nine digits where eight would do. -/
theorem singleText_fewest_digits_iff {x : Float} (hfinite : x.isFinite = true) (hsingle : toSingle x = x) :
    ∃ (neg : Bool) (d : Decimal), Shows (singleText x) neg d ∧ toSingle (d.toFloat neg) = x ∧
      ((∀ (neg' : Bool) (d' : Decimal), (toSingle (d'.toFloat neg') == x) = true → d.significance ≤ d'.significance) ↔
        ∀ k ∈ offCentre, |value x| ≠ 2 ^ k) ∧
      ∀ k ∈ offCentre, |value x| = 2 ^ k → d.significance = 9 ∧
        ∃ d' : Decimal, (toSingle (d'.toFloat neg) == x) = true ∧ d'.significance = 8 := by
  obtain ⟨neg, m, q, hx⟩ := isFinite_iff.1 hfinite
  have hsize : |value x| = m * 2 ^ q := by rw [value_of_parts hx, abs_withSign neg (by positivity)]
  rw [hsize]
  rcases Nat.eq_zero_or_pos m with rfl | hm
  · -- zero has one digit
    obtain ⟨d, hshows, hvalue⟩ := shows_render Layout.program neg ⟨0, 0⟩
    have htext : singleText x = Layout.program.render neg ⟨0, 0⟩ := by
      simp only [singleText, writeFloat, hx, quotient, Nat.zero_shiftLeft, if_true]
    have hzero : d.value = 0 := by rw [hvalue, Decimal.value, Nat.cast_zero, zero_mul]
    have hdigit : d.significance = 1 := (Decimal.significance_congr hvalue).trans (by decide +kernel)
    have hpowers : ∀ k ∈ offCentre, ((0 : Nat) * 2 ^ q : ℚ) ≠ 2 ^ k := by
      intro k _
      rw [Nat.cast_zero, zero_mul]
      positivity
    refine ⟨neg, d, htext ▸ hshows, ?_, ?_, fun k hk heq => absurd heq (hpowers k hk)⟩
    · rw [Decimal.toFloat_of_value_zero hzero, ← eq_zero_of_parts hx, hsingle]
    · exact iff_of_true (fun _ d' _ => hdigit.trans_le d'.significance_pos) hpowers
  · have hv := holds_of_toSingle hx hsingle
    obtain ⟨n, d, hshows, hread, hdigits, hn, hbefore⟩ := shows_singleText hx hm hv
    have hlong : ∀ k ∈ offCentre, (m * 2 ^ q : ℚ) = 2 ^ k → d.significance = 9 ∧
        ∃ d' : Decimal, (toSingle (d'.toFloat neg) == x) = true ∧ d'.significance = 8 := by
      intro k hk heq
      have hrange : -1074 ≤ k ∧ k < 1024 := (by decide : ∀ k ∈ offCentre, -1074 ≤ k ∧ k < 1024) k hk
      have hassemble := eq_assemble hx heq hrange.1 hrange.2
      obtain ⟨d', -, hd', hreads⟩ := eight_digits_of_offCentre k hk
      refine ⟨?_, d', hassemble ▸ hreads neg, hd'⟩
      have hnine := nine_digits_of_offCentre neg k hk
      rw [← hassemble, hshows.2, Option.map_some] at hnine
      exact Option.some.inj hnine
    refine ⟨neg, d, hshows, hread, ⟨fun hfewest k hk heq => ?_, fun hcentre neg' d' hd' => ?_⟩, hlong⟩
    · obtain ⟨hnine, d', hreads, height⟩ := hlong k hk heq
      have := hfewest neg d' hreads
      omega
    · obtain rfl := reads_sign hx hm hd'
      exact hdigits.trans (le_significance_of_reading hm hv hcentre hbefore ((reads_iff hx hm hv).1 hd'))

/-- The least positive float is written as `1e-45`. -/
theorem least_single_fewest_digits :
    (assemble false 1 (-149)).isFinite = true ∧ toSingle (assemble false 1 (-149)) = assemble false 1 (-149) ∧
      ∃ (neg : Bool) (d : Decimal), Shows (singleText (assemble false 1 (-149))) neg d ∧
        ∀ (neg' : Bool) (d' : Decimal), (toSingle (d'.toFloat neg') == assemble false 1 (-149)) = true →
          d.significance ≤ d'.significance := by
  have hfinite : (assemble false 1 (-149)).isFinite = true := by decide +kernel
  have hsingle : toSingle (assemble false 1 (-149)) = assemble false 1 (-149) := by decide +kernel
  obtain ⟨neg, d, hshows, -, hfewest, -⟩ := singleText_fewest_digits_iff hfinite hsingle
  exact ⟨hfinite, hsingle, neg, d, hshows, hfewest.2 (by decide +kernel)⟩

/-- The power `2 ^ 87` is written with nine digits, and a decimal of eight digits reads as it. -/
theorem eight_digits_read_as_nine :
    (assemble false 1 87).isFinite = true ∧ toSingle (assemble false 1 87) = assemble false 1 87 ∧
      singleText (assemble false 1 87) = "1.54742505e+26" ∧
      Shows (singleText (assemble false 1 87)) false ⟨154742505, 18⟩ ∧
      (toSingle ((⟨15474251, 19⟩ : Decimal).toFloat false) == assemble false 1 87) = true ∧
      (⟨15474251, 19⟩ : Decimal).significance < (⟨154742505, 18⟩ : Decimal).significance := by
  decide +kernel

end Rover
