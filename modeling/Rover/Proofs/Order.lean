import Rover.Proofs.Double

/-!
# Order and sign

Comparison of doubles is false on not-a-number and does not see the sign of a zero, so `¬ x < y` says less than `y ≤ x`.
Negation only changes the sign, and it passes through a quotient and through the operands of sums.
-/

namespace Rover

open Float.Model (UnpackedFloat)
open Float.Model.UnpackedFloat
open Float.Model.Format (binary64)

/-! ### Comparison -/

def compareDoubles (x y : Float) : Option Ordering := (parts x).unpacked.compare (parts y).unpacked

theorem lt_iff_compare {x y : Float} : x < y ↔ compareDoubles x y = some .lt := by
  rw [compareDoubles, ← unpack_toModel, ← unpack_toModel]
  change decide ((x.toModel.unpack.compare y.toModel.unpack == some .lt) = true) = true ↔ _
  simp

theorem le_iff_compare {x y : Float} : x ≤ y ↔ compareDoubles x y = some .lt ∨ compareDoubles x y = some .eq := by
  rw [compareDoubles, ← unpack_toModel, ← unpack_toModel]
  change decide (((x.toModel.unpack.compare y.toModel.unpack).any (·.isLE)) = true) = true ↔ _
  rcases x.toModel.unpack.compare y.toModel.unpack with _ | _ | _ | _ <;> simp

theorem isNaN_iff {x : Float} : x.isNaN = true ↔ parts x = .nan := by
  change x.toModel.unpack.isNaN = true ↔ _
  rw [unpack_toModel]
  cases parts x with
  | nan => simp [Parts.unpacked, UnpackedFloat.isNaN]
  | infinite neg => simp [Parts.unpacked, UnpackedFloat.isNaN]
  | finite neg m q => by_cases hm : m = 0 <;> simp [Parts.unpacked, UnpackedFloat.isNaN, hm]

theorem isFinite_iff {x : Float} : x.isFinite = true ↔ ∃ neg m q, parts x = .finite neg m q := by
  change x.toModel.unpack.isFinite = true ↔ _
  rw [unpack_toModel]
  cases parts x with
  | nan => simp [Parts.unpacked, UnpackedFloat.isFinite]
  | infinite neg => simp [Parts.unpacked, UnpackedFloat.isFinite]
  | finite neg m q => by_cases hm : m = 0 <;> simp [Parts.unpacked, UnpackedFloat.isFinite, hm]

theorem isFinite_of_parts {x : Float} {neg : Bool} {m : Nat} {q : Int} (h : parts x = .finite neg m q) :
    x.isFinite = true :=
  isFinite_iff.2 ⟨neg, m, q, h⟩

/-- What is packed into a finite double is finite. -/
theorem isFinite_of_packed {u : UnpackedFloat} (h : (packed u).isFinite = true) : u.isFinite = true := by
  cases u with
  | notANumber => exact absurd h (by decide +kernel)
  | infinity s =>
      cases s with
      | negative => exact absurd h (by decide +kernel)
      | positive => exact absurd h (by decide +kernel)
  | zero s => rfl
  | finite s m e hm => rfl

theorem compare_swap (a b : UnpackedFloat) : b.compare a = (a.compare b).map Ordering.swap := by
  rcases a with (_ | _) | _ | (_ | _) | ⟨_ | _, m, e, hm⟩ <;>
    rcases b with (_ | _) | _ | (_ | _) | ⟨_ | _, m', e', hm'⟩ <;>
    try rfl
  all_goals simp [UnpackedFloat.compare, Ordering.swap_then, Int.compare_swap, Nat.compare_swap]

theorem compare_isSome {a b : UnpackedFloat} : (a.compare b).isSome = true ↔ a.isNaN = false ∧ b.isNaN = false := by
  rcases a with (_ | _) | _ | (_ | _) | ⟨_ | _, m, e, hm⟩ <;>
    rcases b with (_ | _) | _ | (_ | _) | ⟨_ | _, m', e', hm'⟩ <;>
    simp [UnpackedFloat.compare, UnpackedFloat.isNaN]

theorem compareDoubles_isSome {x y : Float} :
    (compareDoubles x y).isSome = true ↔ x.isNaN = false ∧ y.isNaN = false := by
  rw [compareDoubles, ← unpack_toModel, ← unpack_toModel]
  exact compare_isSome

theorem compareDoubles_swap (x y : Float) : compareDoubles y x = (compareDoubles x y).map Ordering.swap :=
  compare_swap _ _

theorem Double.isNaN_of_lt {x y : Float} (h : x < y) : x.isNaN = false ∧ y.isNaN = false := by
  rw [← compareDoubles_isSome, lt_iff_compare.1 h]
  rfl

theorem Double.isNaN_of_le {x y : Float} (h : x ≤ y) : x.isNaN = false ∧ y.isNaN = false := by
  rw [← compareDoubles_isSome]
  rcases le_iff_compare.1 h with hlt | heq
  · rw [hlt]
    rfl
  · rw [heq]
    rfl

/-- Of two numbers, one is below the other or not. -/
theorem Double.not_lt_iff_le {x y : Float} (hx : x.isNaN = false) (hy : y.isNaN = false) : ¬ x < y ↔ y ≤ x := by
  obtain ⟨o, ho⟩ := Option.isSome_iff_exists.1 (compareDoubles_isSome.2 ⟨hx, hy⟩)
  rw [lt_iff_compare, le_iff_compare, compareDoubles_swap x y, ho]
  cases o <;> simp

theorem Double.le_of_lt {x y : Float} (h : x < y) : x ≤ y := le_iff_compare.2 (.inl (lt_iff_compare.1 h))

/-- What lies between finite doubles is finite. -/
theorem isFinite_of_between {low x high : Float} (hlow : low ≤ x) (hhigh : x ≤ high) (hfinite : low.isFinite = true)
    (hfinite' : high.isFinite = true) : x.isFinite = true := by
  obtain ⟨negLow, m, q, hpartsLow⟩ := isFinite_iff.1 hfinite
  obtain ⟨negHigh, m', q', hpartsHigh⟩ := isFinite_iff.1 hfinite'
  cases hparts : parts x with
  | nan =>
      have hnumber := (Double.isNaN_of_le hlow).2
      rw [isNaN_iff.2 hparts] at hnumber
      cases hnumber
  | infinite neg =>
      rw [le_iff_compare, compareDoubles, hparts] at hlow hhigh
      rw [hpartsLow] at hlow
      rw [hpartsHigh] at hhigh
      cases neg with
      | false =>
          by_cases hm' : m' = 0
          · simp [Parts.unpacked, hm', signOf, UnpackedFloat.compare] at hhigh
          · simp [Parts.unpacked, hm', signOf, UnpackedFloat.compare] at hhigh
      | true =>
          by_cases hm : m = 0
          · simp [Parts.unpacked, hm, signOf, UnpackedFloat.compare] at hlow
          · simp [Parts.unpacked, hm, signOf, UnpackedFloat.compare] at hlow
  | finite neg m q => exact isFinite_of_parts hparts

/-! ### Sign -/

namespace Parts

def neg : Parts → Parts
  | nan => nan
  | infinite neg => infinite !neg
  | finite neg m q => finite (!neg) m q

def abs : Parts → Parts
  | nan => nan
  | infinite _ => infinite false
  | finite _ m q => finite false m q

theorem IsDouble.neg {p : Parts} (h : p.IsDouble) : p.neg.IsDouble := by
  cases p <;> exact h

theorem IsDouble.abs {p : Parts} (h : p.IsDouble) : p.abs.IsDouble := by
  cases p with
  | nan => exact h
  | infinite neg => trivial
  | finite neg m q => exact h

theorem signOf_not (neg : Bool) : signOf (!neg) = -signOf neg := by
  cases neg <;> rfl

theorem unpacked_neg (p : Parts) : p.neg.unpacked = p.unpacked.neg := by
  cases p with
  | nan => rfl
  | infinite neg => rw [Parts.neg, unpacked, unpacked, signOf_not, UnpackedFloat.neg]
  | finite neg m q =>
      rw [Parts.neg, unpacked, unpacked, signOf_not]
      split <;> rfl

theorem unpacked_abs (p : Parts) : p.abs.unpacked = p.unpacked.abs := by
  cases p with
  | nan => rfl
  | infinite neg => rfl
  | finite neg m q =>
      rw [Parts.abs, unpacked, unpacked]
      split <;> rfl

theorem neg_ofFields (neg : Bool) (exponent fraction : Nat) :
    (ofFields neg exponent fraction).neg = ofFields (!neg) exponent fraction := by
  unfold ofFields
  split_ifs <;> rfl

end Parts

theorem parts_neg (x : Float) : parts (-x) = (parts x).neg := by
  change parts (packed x.toModel.unpack.neg) = _
  rw [unpack_toModel, ← Parts.unpacked_neg, parts_packed (parts_isDouble x).neg]

theorem parts_abs (x : Float) : parts x.abs = (parts x).abs := by
  change parts (packed x.toModel.unpack.abs) = _
  rw [unpack_toModel, ← Parts.unpacked_abs, parts_packed (parts_isDouble x).abs]

theorem unpack_neg (x : Float) : (-x).toModel.unpack = x.toModel.unpack.neg := by
  rw [unpack_toModel, unpack_toModel, parts_neg, Parts.unpacked_neg]

theorem parts_literal_zero : parts 0.0 = .finite false 0 (-1074) := by decide +kernel

theorem compareDoubles_zero_finite {x : Float} {neg : Bool} {m : Nat} {q : Int} (h : parts x = .finite neg m q) :
    compareDoubles x 0.0 = some (if m = 0 then .eq else if neg then .lt else .gt) := by
  rw [compareDoubles, h, parts_literal_zero]
  by_cases hm : m = 0
  · rw [if_pos hm, Parts.unpacked, dif_pos hm]
    rfl
  · rw [if_neg hm, Parts.unpacked, dif_neg hm]
    cases neg <;> rfl

theorem compareDoubles_zero_infinite {x : Float} {neg : Bool} (h : parts x = .infinite neg) :
    compareDoubles x 0.0 = some (if neg then .lt else .gt) := by
  rw [compareDoubles, h, parts_literal_zero]
  cases neg <;> rfl

theorem Double.abs_of_neg {x : Float} (h : x < 0.0) : x.abs = -x := by
  rw [lt_iff_compare] at h
  rw [← parts_injective.eq_iff, parts_abs, parts_neg]
  cases hx : parts x with
  | nan => rfl
  | infinite neg =>
      rw [compareDoubles_zero_infinite hx] at h
      cases neg with
      | false => cases h
      | true => rfl
  | finite neg m q =>
      rw [compareDoubles_zero_finite hx] at h
      cases neg with
      | false => split at h <;> cases h
      | true => rfl

theorem Double.abs_of_nonneg {x : Float} (h : 0.0 ≤ x) : x.abs = x ∨ x = -0.0 := by
  rw [le_iff_compare, compareDoubles_swap x 0.0] at h
  simp only [← parts_injective.eq_iff, parts_abs, parts_neg, parts_literal_zero]
  cases hx : parts x with
  | nan => exact .inl rfl
  | infinite neg =>
      rw [compareDoubles_zero_infinite hx] at h
      cases neg with
      | false => exact .inl rfl
      | true => simp at h
  | finite neg m q =>
      rw [compareDoubles_zero_finite hx] at h
      cases neg with
      | false => exact .inl rfl
      | true =>
          have hdouble := parts_isDouble x
          rw [hx] at hdouble
          obtain ⟨-, -, -, hbit⟩ := hdouble
          by_cases hm : m = 0
          · obtain rfl : q = -1074 := hbit.resolve_left (by omega)
            exact .inr (by rw [hm]; rfl)
          · simp [hm] at h

/-! ### Negated operands -/

theorem parts_packed_neg (u : UnpackedFloat) : parts (packed u.neg) = (parts (packed u)).neg := by
  cases u with
  | notANumber => rfl
  | infinity s => cases s <;> rfl
  | zero s => cases s <;> rfl
  | finite s m e hm =>
      obtain ⟨neg, rfl⟩ : ∃ neg, signOf neg = s := by
        cases s with
        | negative => exact ⟨true, rfl⟩
        | positive => exact ⟨false, rfl⟩
      obtain ⟨exponent, fraction, hparts⟩ := parts_packed_sign (q := e) hm
      rw [UnpackedFloat.neg, ← Parts.signOf_not, hparts, hparts, Parts.neg_ofFields]

theorem packed_neg (u : UnpackedFloat) : packed u.neg = -packed u := by
  rw [← parts_injective.eq_iff, parts_packed_neg, parts_neg]

theorem roundWithAccuracy_neg (s : Sign) (m : Nat) (e : Int) (a : Accuracy) :
    roundWithAccuracy binary64 (-s) m e a = (roundWithAccuracy binary64 s m e a).neg := by
  unfold roundWithAccuracy
  dsimp only
  split <;> rfl

theorem sign_neg_div (s t : Sign) : -s / t = -(s / t) := by
  cases s <;> cases t <;> rfl

theorem sign_neg_apply (s : Sign) (n : Int) : (-s).apply n = -s.apply n := by
  cases s with
  | negative => exact (Int.neg_neg n).symm
  | positive => rfl

theorem sign_neg_neg (s : Sign) : - -s = s := by
  cases s <;> rfl

theorem Double.neg_div (x y : Float) : -x / y = -(x / y) := by
  change packed (UnpackedFloat.div binary64 (-x).toModel.unpack _) = -packed (UnpackedFloat.div binary64 _ _)
  rw [unpack_neg, ← packed_neg]
  cases x.toModel.unpack <;> cases y.toModel.unpack <;>
    simp only [UnpackedFloat.div, UnpackedFloat.neg, sign_neg_div, roundWithAccuracy_neg]

theorem Double.sub_neg (x y : Float) : x - -y = x + y := by
  change packed (UnpackedFloat.sub binary64 _ (-y).toModel.unpack) = packed (UnpackedFloat.add binary64 _ _)
  rw [unpack_neg]
  cases x.toModel.unpack <;> cases y.toModel.unpack <;>
    simp only [UnpackedFloat.sub, UnpackedFloat.add, UnpackedFloat.neg, sign_neg_neg, sign_neg_apply, Int.sub_neg]

theorem Double.neg_neg (x : Float) : - -x = x := by
  rw [← parts_injective.eq_iff, parts_neg, parts_neg]
  cases parts x <;> simp [Parts.neg]

theorem Double.add_neg (x y : Float) : x + -y = x - y := by
  rw [← Double.sub_neg, Double.neg_neg]

/-! ### Zeros -/

theorem compareDoubles_eq_of_zero {x y : Float} {neg neg' : Bool} {q q' : Int} (hx : parts x = .finite neg 0 q)
    (hy : parts y = .finite neg' 0 q') (z : Float) : compareDoubles x z = compareDoubles y z := by
  rw [compareDoubles, compareDoubles, hx, hy]
  rcases (parts z).unpacked with (_ | _) | _ | _ | ⟨_ | _, _, _, _⟩ <;> rfl

theorem Double.le_of_zero {x y : Float} {neg neg' : Bool} {q q' : Int} (hx : parts x = .finite neg 0 q)
    (hy : parts y = .finite neg' 0 q') (z : Float) : x ≤ z ↔ y ≤ z := by
  rw [le_iff_compare, le_iff_compare, compareDoubles_eq_of_zero hx hy]

/-- Adding the negative zero and subtracting it differ only at the negative zero. -/
theorem Double.add_negZero (x : Float) : x + -0.0 = x - -0.0 ∨ x = -0.0 := by
  rw [Double.sub_neg]
  by_cases hzero : x.toModel.unpack = .zero .negative
  · right
    have hnegZero : (-0.0 : Float).toModel.unpack = .zero .negative := rfl
    rw [← hnegZero, unpack_toModel, unpack_toModel] at hzero
    rw [← parts_injective.eq_iff, ← parts_packed (parts_isDouble x), hzero, parts_packed (parts_isDouble _)]
  · left
    change packed (UnpackedFloat.add binary64 x.toModel.unpack (.zero .negative))
      = packed (UnpackedFloat.add binary64 x.toModel.unpack (.zero .positive))
    cases hx : x.toModel.unpack with
    | zero s =>
        cases s with
        | negative => exact absurd hx hzero
        | positive => rfl
    | notANumber => rfl
    | infinity s => rfl
    | finite s m e hm => rfl

end Rover
