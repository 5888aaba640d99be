import Rover.Proofs.Order
import Rover.Proofs.Placement

/-!
# Obstacles and the walls of the arena

An obstacle is refused if one of four comparisons finds a side beyond a wall. The comparisons take the sides in the
order that a positive size gives them, and a comparison with not-a-number refuses nothing. So an obstacle that has been
let in lies in the arena exactly if its sides are numbers and those of a negative size, which come in the other order,
do not pass the opposite wall: `obstacles_inside_iff`.
-/

namespace Rover

open Float.Model (UnpackedFloat)
open Float.Model.Format (binary64)

namespace Config

/-- The configurations that some settings give. -/
def Accepted (c : Config) : Prop := ∃ settings, ofSettings settings = .ok c

theorem default_accepted : default.Accepted := ⟨fun _ => none, rfl⟩

theorem check_default (f : Field) : f.check (default.get f) = .ok (default.get f) := by
  cases f <;> decide +kernel

theorem check_idem {f : Field} {x y : Float} (h : f.check x = .ok y) : f.check y = .ok y := by
  have hxy : y = x := by
    unfold Field.check at h
    split at h <;> split at h <;> cases h <;> rfl
  rwa [hxy] at h ⊢

theorem check_value {settings : Field → Option Setting} {f : Field} {x : Float} (h : value settings f = .ok x) :
    f.check x = .ok x := by
  unfold value at h
  split at h
  · cases h
    exact check_default f
  · rename_i s _
    cases hread : s.read with
    | error p =>
        rw [hread] at h
        cases h
    | ok y =>
        rw [hread] at h
        exact check_idem h

/-- The fields of an accepted configuration are within their bounds. -/
theorem Accepted.check {c : Config} (h : c.Accepted) (f : Field) : f.check (c.get f) = .ok (c.get f) := by
  obtain ⟨settings, h⟩ := h
  unfold ofSettings at h
  split at h
  · rename_i hsize hradius hmargin hspeed hrange
    cases h
    cases f with
    | envSize => exact check_value hsize
    | robotRadius => exact check_value hradius
    | margin => exact check_value hmargin
    | speed => exact check_value hspeed
    | sensorRange => exact check_value hrange
  · cases h

theorem Accepted.get_pos {c : Config} (h : c.Accepted) {f : Field} (hf : f.allowsZero = false) : 0.0 < c.get f := by
  have hcheck := h.check f
  unfold Field.check at hcheck
  rw [hf] at hcheck
  split at hcheck
  · contradiction
  · split at hcheck
    · assumption
    · cases hcheck

theorem Accepted.get_nonneg {c : Config} (h : c.Accepted) (f : Field) : 0.0 ≤ c.get f := by
  have hcheck := h.check f
  unfold Field.check at hcheck
  split at hcheck
  · split at hcheck
    · assumption
    · cases hcheck
  · split at hcheck
    · exact Double.le_of_lt (by assumption)
    · cases hcheck

theorem Accepted.envSize_pos {c : Config} (h : c.Accepted) : 0.0 < c.envSize := h.get_pos (f := .envSize) rfl

end Config

/-! ### One axis -/

/-- The extent of a rectangle around `x` lies between the walls. -/
def Within (size x extent : Float) : Prop :=
  0.0 ≤ x - extent.abs / 2.0 ∧ x + extent.abs / 2.0 ≤ size

instance (size x extent : Float) : Decidable (Within size x extent) := inferInstanceAs (Decidable (_ ∧ _))

/-- What the comparisons with the walls leave open: the sides are numbers, and those of a negative extent do not pass
the opposite wall. -/
def Proper (size x extent : Float) : Prop :=
  (x - extent / 2.0).isNaN = false ∧ (x + extent / 2.0).isNaN = false ∧
    (extent < 0.0 → 0.0 ≤ x + extent / 2.0 ∧ x - extent / 2.0 ≤ size)

instance (size x extent : Float) : Decidable (Proper size x extent) := inferInstanceAs (Decidable (_ ∧ _ ∧ (_ → _)))

theorem within_of_neg {size x extent : Float} (h : extent < 0.0) :
    Within size x extent ↔ 0.0 ≤ x + extent / 2.0 ∧ x - extent / 2.0 ≤ size := by
  rw [Within, Double.abs_of_neg h, Double.neg_div, Double.sub_neg, Double.add_neg]

theorem within_of_nonneg {size x extent : Float} (h : 0.0 ≤ extent) :
    Within size x extent ↔ 0.0 ≤ x - extent / 2.0 ∧ x + extent / 2.0 ≤ size := by
  rw [Within]
  rcases Double.abs_of_nonneg h with habs | rfl
  · rw [habs]
  · -- the negative zero: its two sides differ at most in the sign of a zero
    rw [show (-0.0 : Float).abs / 2.0 = 0.0 by decide +kernel, show (-0.0 : Float) / 2.0 = -0.0 by decide +kernel,
      Double.sub_neg, ← Double.add_neg x 0.0]
    rcases Double.add_negZero x with heq | rfl
    · rw [heq, Double.sub_neg]
    · have hplus : parts (-0.0 + 0.0) = .finite false 0 (-1074) := by decide +kernel
      have hminus : parts (-0.0 + -0.0) = .finite true 0 (-1074) := by decide +kernel
      exact and_congr (by decide +kernel) (Double.le_of_zero hplus hminus size)

theorem isNaN_side {x extent : Float} (h : extent.isNaN = true) : (x - extent / 2.0).isNaN = true := by
  have hnan : extent = notANumber := parts_injective ((isNaN_iff.1 h).trans (by decide +kernel))
  have hhalf : notANumber / 2.0 = notANumber := by decide +kernel
  have hsub (u : UnpackedFloat) : UnpackedFloat.sub binary64 u .notANumber = .notANumber := by
    cases u <;> simp only [UnpackedFloat.sub]
  rw [hnan, hhalf, isNaN_iff]
  change parts (packed (UnpackedFloat.sub binary64 x.toModel.unpack .notANumber)) = _
  rw [hsub]
  rfl

theorem not_within_of_isNaN {size x extent : Float} (h : extent.isNaN = true) : ¬ Within size x extent := by
  intro hwithin
  have habs : extent.abs = extent := by
    rw [← parts_injective.eq_iff, parts_abs, isNaN_iff.1 h, Parts.abs]
  have hnumber := (Double.isNaN_of_le hwithin.1).2
  rw [habs, isNaN_side h] at hnumber
  cases hnumber

theorem not_proper_of_isNaN {size x extent : Float} (h : extent.isNaN = true) : ¬ Proper size x extent := by
  intro hproper
  rw [Proper, isNaN_side h] at hproper
  cases hproper.1

/-- Between walls that are no obstacle to the sides, an extent lies exactly if it is proper. -/
theorem within_iff_proper {size x extent : Float} (hsize : size.isNaN = false) (hlow : ¬ x - extent / 2.0 < 0.0)
    (hhigh : ¬ x + extent / 2.0 > size) : Within size x extent ↔ Proper size x extent := by
  by_cases hneg : extent < 0.0
  · rw [within_of_neg hneg, Proper]
    constructor
    · intro h
      exact ⟨(Double.isNaN_of_le h.2).1, (Double.isNaN_of_le h.1).2, fun _ => h⟩
    · intro h
      exact h.2.2 hneg
  · by_cases hnan : extent.isNaN = true
    · exact iff_of_false (not_within_of_isNaN hnan) (not_proper_of_isNaN hnan)
    · have hnonneg : 0.0 ≤ extent := (Double.not_lt_iff_le (by simpa using hnan) (by decide +kernel)).1 hneg
      rw [within_of_nonneg hnonneg, Proper]
      constructor
      · intro h
        exact ⟨(Double.isNaN_of_le h.1).2, (Double.isNaN_of_le h.2).1, fun hlt => absurd hlt hneg⟩
      · intro h
        obtain ⟨hlowNumber, hhighNumber, -⟩ := h
        exact ⟨(Double.not_lt_iff_le hlowNumber (by decide +kernel)).1 hlow,
          (Double.not_lt_iff_le hsize hhighNumber).1 hhigh⟩

/-! ### The obstacles of a history -/

namespace Obstacle

def Inside (size : Float) (o : Obstacle) : Prop := Within size o.x o.sizeX ∧ Within size o.y o.sizeY

instance (size : Float) (o : Obstacle) : Decidable (o.Inside size) := inferInstanceAs (Decidable (_ ∧ _))

theorem inside_iff_proper {w : World} {o : Obstacle} (hsize : w.config.envSize.isNaN = false)
    (h : w.sticksOut o = false) :
    o.Inside w.config.envSize ↔
      Proper w.config.envSize o.x o.sizeX ∧ Proper w.config.envSize o.y o.sizeY := by
  simp only [World.sticksOut, Bool.or_eq_false_iff, decide_eq_false_iff_not] at h
  obtain ⟨⟨⟨hleft, hright⟩, hbottom⟩, htop⟩ := h
  exact and_congr (within_iff_proper hsize hleft hright) (within_iff_proper hsize hbottom htop)

end Obstacle

namespace World

/-- Every obstacle has passed the comparisons with the walls. -/
def Walled (w : World) : Prop := ∀ o ∈ w.obstacles, w.sticksOut o = false

theorem Walled.step {w : World} (h : w.Walled) {op : Operation} {e : Effect} (hsucceeds : w.Succeeds op e) :
    e.world.Walled := by
  cases hsucceeds with
  | setPose => exact h
  | move => exact h
  | turn => exact h
  | addObstacle ho hclear hinside =>
      intro o ho
      rcases Array.mem_push.1 ho with ho | rfl
      · exact h o ho
      · exact hinside
  | setTrail => exact h
  | feel => exact h

/-- The obstacles that any operations have put into an arena lie in it exactly if their sides are numbers and, where a
size is negative, do not pass the opposite walls. -/
theorem obstacles_inside_iff {c : Config} (hc : c.Accepted) {ts : List Transition} {w : World}
    (h : History (initial c) ts w) {o : Obstacle} (ho : o ∈ w.obstacles) :
    o.Inside c.envSize ↔ Proper c.envSize o.x o.sizeX ∧ Proper c.envSize o.y o.sizeY := by
  have hwalled : w.Walled := by
    refine h.invariant (P := Walled) ?_ fun _ _ _ _ hsucceeds hbefore => hbefore.step hsucceeds
    intro o ho
    simp [initial] at ho
  have hconfig : w.config = c := h.config_eq
  rw [← hconfig]
  exact o.inside_iff_proper (hconfig ▸ (Double.isNaN_of_lt hc.envSize_pos).2) (hwalled o ho)

/-- Two rectangles, the second of which has a negative width. -/
def rectangles : List Operation := [.addObstacle 10.0 5.0 2.0 2.0, .addObstacle 1.0 1.0 (-10.0) 1.0]

theorem rectangles_end : ((initial .default).play 0 rectangles).isSome = true := by decide +kernel

theorem rectangles_inside_iff :
    let w := (((initial .default).play 0 rectangles).get rectangles_end).2
    w.obstacles = #[⟨10.0, 5.0, 2.0, 2.0⟩, ⟨1.0, 1.0, -10.0, 1.0⟩] ∧
      Obstacle.Inside 50.0 ⟨10.0, 5.0, 2.0, 2.0⟩ ∧ ¬ Proper 50.0 1.0 (-10.0) := by
  have hinside := fun o ho =>
    obstacles_inside_iff (o := o) Config.default_accepted (History.of_isSome rectangles_end) ho
  refine ⟨by decide +kernel, (hinside ⟨10.0, 5.0, 2.0, 2.0⟩ (by decide +kernel)).2 (by decide +kernel), ?_⟩
  intro hproper
  have houtside : Obstacle.Inside 50.0 ⟨1.0, 1.0, -10.0, 1.0⟩ :=
    (hinside ⟨1.0, 1.0, -10.0, 1.0⟩ (by decide +kernel)).2 ⟨hproper, by decide +kernel⟩
  exact absurd houtside (by decide +kernel)

/-- A rectangle of negative width is let in although it reaches beyond a wall. -/
theorem obstacle_beyond_wall :
    ¬ ∀ (c : Config) (ts : List Transition) (w : World), c.Accepted → History (initial c) ts w →
      ∀ o ∈ w.obstacles, o.Inside c.envSize := by
  intro h
  have hinside := h _ _ _ Config.default_accepted (History.of_isSome rectangles_end) ⟨1.0, 1.0, -10.0, 1.0⟩
    (by decide +kernel)
  exact absurd hinside (by decide +kernel)

end World

end Rover
