import Rover.Proofs.Rounding

/-!
# Single precision

Coordinates are rounded when they are tested and again when they are stored. The second rounding has no effect:
`toSingle_toSingle`.
-/

namespace Rover

theorem toSingle_of_finite {x : Float} {neg : Bool} {m : Nat} {q : Int} (h : parts x = .finite neg m q) :
    toSingle x = Format.single.nearest neg (m <<< q.toNat) (1 <<< (-q).toNat) := by
  rw [toSingle, h]

theorem toSingle_of_infinite {x : Float} {neg : Bool} (h : parts x = .infinite neg) : toSingle x = x := by
  rw [toSingle, h]

theorem toSingle_of_nan {x : Float} (h : parts x = .nan) : toSingle x = x := by
  rw [toSingle, h]

/-- A finite double is rounded to an infinity of its sign or to a single-precision value of its sign. -/
theorem toSingle_cases {x : Float} {neg : Bool} {m : Nat} {q : Int} (h : parts x = .finite neg m q) :
    parts (toSingle x) = .infinite neg ∨
      ∃ (m' : Nat) (q' : Int), parts (toSingle x) = .finite neg m' q' ∧ Format.single.Holds (m' * 2 ^ q') := by
  rw [toSingle_of_finite h]
  exact Format.single_fits.nearest_cases (one_shiftLeft_pos _) neg

theorem toSingle_eq_self {x : Float} {neg : Bool} {m : Nat} {q : Int} (h : parts x = .finite neg m q)
    (hv : Format.single.Holds (m * 2 ^ q)) : toSingle x = x := by
  apply parts_injective
  rw [← shifted_quotient] at hv
  obtain ⟨m', q', hparts, hvalue⟩ := Format.single_fits.nearest_of_holds (one_shiftLeft_pos _) hv neg
  rw [shifted_quotient] at hvalue
  rw [← toSingle_of_finite h] at hparts
  have hdouble := parts_isDouble (toSingle x)
  rw [hparts] at hdouble
  obtain ⟨rfl, rfl⟩ := eq_of_scaled_eq hdouble (h ▸ parts_isDouble x) hvalue
  rw [hparts, h]

/-- Rounding a second time has no effect. -/
@[simp] theorem toSingle_toSingle (x : Float) : toSingle (toSingle x) = toSingle x := by
  cases h : parts x with
  | nan => rw [toSingle_of_nan h, toSingle_of_nan h]
  | infinite neg => rw [toSingle_of_infinite h, toSingle_of_infinite h]
  | finite neg m q =>
      rcases toSingle_cases h with hinf | ⟨m', q', hfin, hv⟩
      · exact toSingle_of_infinite hinf
      · exact toSingle_eq_self hfin hv

end Rover
