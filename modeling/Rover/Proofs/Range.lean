import Rover.Proofs.Heading
import Rover.Proofs.Product

/-!
# Numbers in range

Two steps of the geometry are not defined for every double: a finite number may have a square beyond the doubles, and an
infinite angle has no direction. Neither is met in an arena whose robot has a radius of at most `10 ^ 150`, since sizes are
in single precision and headings within one turn or not a number: `InRange.refusal`.
-/

namespace Rover

open Float.Model (UnpackedFloat)
open Float.Model.Format (binary64)

/-! ### Magnitudes -/

/-- A finite double of at most a power of two. -/
structure AtMost (k : Int) (x : Float) : Prop where
  finite : x.isFinite = true
  bound : |value x| ≤ 2 ^ k

theorem holds_two_zpow {k : Int} (hlow : -1074 ≤ k) (hhigh : k < 1024) : Format.double.Holds (2 ^ k) := by
  refine ⟨1, k, ?_, by decide, hlow, zpow_lt_zpow_right₀ (by norm_num) hhigh⟩
  rw [Nat.cast_one, one_mul]

theorem value_abs (x : Float) : value x.abs = |value x| := by
  rw [value, value, parts_abs]
  cases parts x with
  | nan => exact abs_zero.symm
  | infinite neg => exact abs_zero.symm
  | finite neg m q =>
      have hpos : (0 : ℚ) ≤ m * 2 ^ q := by positivity
      exact (abs_withSign neg hpos).symm

theorem isFinite_abs {x : Float} (h : x.isFinite = true) : x.abs.isFinite = true := by
  obtain ⟨neg, m, q, hx⟩ := isFinite_iff.1 h
  exact isFinite_of_parts ((parts_abs x).trans (by rw [hx, Parts.abs]))

theorem isFinite_of_sub {x y : Float} (h : (x - y).isFinite = true) : x.isFinite = true ∧ y.isFinite = true := by
  rw [← Double.add_neg] at h
  obtain ⟨hx, hy⟩ := isFinite_of_add h
  exact ⟨hx, Double.neg_neg y ▸ isFinite_neg hy⟩

namespace AtMost

variable {k : Int} {x y : Float}

theorem of_isNearest {v : ℚ} (h : Format.double.IsNearest v x) (hlow : -1074 ≤ k) (hhigh : k < 1024)
    (hv : |v| ≤ 2 ^ k) : AtMost k x := by
  obtain ⟨hfinite, hbound, -⟩ := h.bounded Format.double_fits (holds_two_zpow hlow hhigh) hv
  exact ⟨hfinite, hbound⟩

theorem mono (hx : AtMost k x) {k' : Int} (hk : k ≤ k') : AtMost k' x :=
  ⟨hx.finite, hx.bound.trans (zpow_le_zpow_right₀ (by norm_num) hk)⟩

theorem two_zpow_succ (k : Int) : (2 : ℚ) ^ (k + 1) = 2 ^ k + 2 ^ k := by
  rw [zpow_add_one₀ (by norm_num)]
  ring

theorem add (hx : AtMost k x) (hy : AtMost k y) (hlow : -1074 ≤ k) (hhigh : k + 1 < 1024) : AtMost (k + 1) (x + y) := by
  apply of_isNearest (isNearest_add hx.finite hy.finite) (by omega) hhigh
  rw [two_zpow_succ]
  exact (abs_add_le _ _).trans (add_le_add hx.bound hy.bound)

theorem sub (hx : AtMost k x) (hy : AtMost k y) (hlow : -1074 ≤ k) (hhigh : k + 1 < 1024) : AtMost (k + 1) (x - y) := by
  apply of_isNearest (isNearest_sub hx.finite hy.finite) (by omega) hhigh
  rw [two_zpow_succ]
  exact (abs_sub _ _).trans (add_le_add hx.bound hy.bound)

end AtMost

theorem parts_two : parts 2.0 = .finite false (2 ^ 52) (-51) := by decide +kernel

theorem value_two : value 2.0 = 2 := by
  rw [value_of_parts parts_two]
  norm_num [withSign]

theorem single_atMost {x : Float} (hsingle : toSingle x = x) (hfinite : x.isFinite = true) : AtMost 128 x := by
  obtain ⟨neg, m, q, hx⟩ := isFinite_iff.1 hfinite
  refine ⟨hfinite, ?_⟩
  rcases toSingle_cases hx with hinf | ⟨m', q', hparts, hholds⟩
  · rw [hsingle, hx] at hinf
    cases hinf
  · rw [hsingle] at hparts
    rw [value_of_parts hparts, abs_withSign neg (by positivity)]
    exact hholds.lt_limit.le

theorem half_atMost {size : Float} (hsingle : toSingle size = size) (hfinite : (size / 2.0).isFinite = true) :
    AtMost 128 (size / 2.0) := by
  have htwo := isFinite_of_parts parts_two
  have hsize := single_atMost hsingle (isFinite_of_div htwo hfinite)
  have hne : value 2.0 ≠ 0 := by
    rw [value_two]
    norm_num
  apply AtMost.of_isNearest (isNearest_div hsize.finite htwo hne) (by norm_num) (by norm_num)
  rw [value_two, abs_div, abs_two]
  exact (half_le_self (abs_nonneg _)).trans hsize.bound

/-! ### Squares -/

theorem parts_squareLimit : parts squareLimit = .finite false (2 ^ 52) 460 := by decide +kernel

theorem value_squareLimit : value squareLimit = 2 ^ (512 : Int) := by
  rw [value_of_parts parts_squareLimit, withSign, if_neg (by decide)]
  rw [show (512 : Int) = 52 + 460 by norm_num, zpow_add₀ (by norm_num)]
  norm_num

/-- The sizes of a rectangle are in single precision. -/
def Obstacle.Single (o : Obstacle) : Prop := toSingle o.sizeX = o.sizeX ∧ toSingle o.sizeY = o.sizeY

namespace World

theorem finiteSquare_ok {x : Float} (h : x.isFinite = true → AtMost 511 x) : ∃ y, finiteSquare x = .ok y := by
  unfold finiteSquare
  split_ifs with hlarge
  · exfalso
    obtain ⟨hfinite, hlimit⟩ : x.isFinite = true ∧ squareLimit ≤ x.abs := by simpa using hlarge
    rw [le_iff_value (isFinite_of_parts parts_squareLimit) (isFinite_abs hfinite), value_squareLimit, value_abs] at hlimit
    have hless : (2 : ℚ) ^ (511 : Int) < 2 ^ (512 : Int) := zpow_lt_zpow_right₀ (by norm_num) (by norm_num)
    exact (hlimit.trans (h hfinite).bound).not_gt hless
  · exact ⟨_, rfl⟩

/-- The square of the distance to a corner, along one axis. -/
theorem corner_ok {d size radius : Float} (hsize : toSingle size = size) (hradius : AtMost 499 radius)
    (hfar : ¬ d > size / 2.0 + radius) (hnear : ¬ d ≤ size / 2.0) : ∃ y, finiteSquare (d - size / 2.0) = .ok y := by
  apply finiteSquare_ok
  intro hfinite
  obtain ⟨hd, hhalf⟩ := isFinite_of_sub hfinite
  have hhalf := (half_atMost hsize hhalf).mono (by norm_num : (128 : Int) ≤ 499)
  have hreach := hhalf.add hradius (by norm_num) (by norm_num)
  -- the distance lies between half the size and the reach of the robot
  have hlow : value (size / 2.0) < value d := by
    rw [le_iff_value hd hhalf.finite] at hnear
    exact not_le.1 hnear
  have hhigh : value d ≤ value (size / 2.0 + radius) := by
    change ¬ size / 2.0 + radius < d at hfar
    rw [lt_iff_value hreach.finite hd] at hfar
    exact not_lt.1 hfar
  have hdist : AtMost 500 d := by
    refine ⟨hd, abs_le.2 ⟨?_, hhigh.trans (le_of_abs_le hreach.bound)⟩⟩
    have hhalf := hhalf.mono (by norm_num : (499 : Int) ≤ 500)
    exact (neg_le_of_abs_le hhalf.bound).trans hlow.le
  exact (hdist.sub (hhalf.mono (by norm_num)) (by norm_num) (by norm_num)).mono (by norm_num)

theorem intersects_ok {radius : Float} (hradius : AtMost 499 radius) {o : Obstacle} (ho : o.Single) (x y : Float) :
    ∃ b, intersects x y radius o = .ok b := by
  unfold intersects
  dsimp only
  split_ifs with hfar hnear
  · exact ⟨false, rfl⟩
  · exact ⟨true, rfl⟩
  · simp only [Bool.or_eq_true, decide_eq_true_eq, not_or] at hfar hnear
    obtain ⟨cornerX, hx⟩ := corner_ok ho.1 hradius hfar.1 hnear.1
    obtain ⟨cornerY, hy⟩ := corner_ok ho.2 hradius hfar.2 hnear.2
    obtain ⟨reach, hreach⟩ := finiteSquare_ok fun _ => hradius.mono (by norm_num)
    rw [hx, hy, hreach]
    exact ⟨_, rfl⟩

theorem collidesAny_ok {radius : Float} (hradius : AtMost 499 radius) (x y : Float) {os : List Obstacle}
    (hos : ∀ o ∈ os, o.Single) : ∃ b, collidesAny x y radius os = .ok b := by
  induction os with
  | nil => exact ⟨false, rfl⟩
  | cons o os ih =>
      obtain ⟨hit, hhit⟩ := intersects_ok hradius (hos o List.mem_cons_self) x y
      rw [collidesAny, hhit]
      cases hit with
      | true => exact ⟨true, rfl⟩
      | false => exact ih fun o' ho' => hos o' (List.mem_cons_of_mem o ho')

/-! ### Directions -/

theorem isInf_of_isFinite {x : Float} (h : x.isFinite = true) : x.isInf = false := by
  change x.toModel.unpack.isInf = false
  change x.toModel.unpack.isFinite = true at h
  cases hx : x.toModel.unpack <;> rw [hx] at h
  case infinity => cases h
  all_goals rfl

theorem parts_degree : parts (3.141592653589793 / 180.0) = .finite false 5030569068109113 (-58) := by decide +kernel

theorem isFinite_radians {degrees : Float} (h : degrees.isFinite = true) : (radians degrees).isFinite = true := by
  apply (isNearest_mul h (isFinite_of_parts parts_degree)).finite
  have hdegree : |value (3.141592653589793 / 180.0)| ≤ 1 := by
    rw [value_of_parts parts_degree]
    norm_num [withSign]
  calc |value degrees * value (3.141592653589793 / 180.0)| ≤ |value degrees| * 1 := by
        rw [abs_mul]
        gcongr
    _ ≤ (2 ^ 53 - 1) * 2 ^ (971 : Int) := by
        rw [mul_one]
        exact abs_value_le degrees
    _ < (2 ^ 53 - 1 / 2) * 2 ^ (971 : Int) := by
        gcongr
        norm_num

theorem bearing_of_finite {degrees : Float} (h : degrees.isFinite = true) : ∃ d, bearing degrees = .ok d := by
  unfold bearing
  dsimp only
  rw [isInf_of_isFinite (isFinite_radians h)]
  exact ⟨_, rfl⟩

/-- Not a number plus any other is none. -/
theorem notANumber_add (x : Float) : notANumber + x = notANumber := by
  have hunpack : notANumber.toModel.unpack = .notANumber := by
    rw [unpack_toModel, show parts notANumber = .nan by decide +kernel]
    rfl
  change packed (UnpackedFloat.add binary64 notANumber.toModel.unpack x.toModel.unpack) = notANumber
  rw [hunpack, UnpackedFloat.add]
  decide +kernel

theorem bearing_notANumber : ∃ d, bearing notANumber = .ok d := by
  unfold bearing
  dsimp only
  rw [show (radians notANumber).isInf = false by decide +kernel]
  exact ⟨_, rfl⟩

theorem isFinite_sensor {sensor : Int} (hlow : 0 ≤ sensor) (hhigh : sensor < 8) :
    (45.0 * ofWord sensor).isFinite = true := by
  interval_cases sensor <;> decide +kernel

end World

/-- The robot is of a moderate size, the obstacles are in single precision, and the heading comes from some angles. -/
structure World.InRange (w : World) : Prop where
  radius : AtMost 499 w.config.robotRadius
  obstacles : ∀ o ∈ w.obstacles, o.Single
  heading : ∃ angles, Oriented angles w.pose.heading

theorem parts_largestRadius : parts 1e150 = .finite false 5503284107318959 446 := by decide +kernel

theorem radius_atMost {c : Config} (hc : c.Accepted) (hradius : c.robotRadius ≤ 1e150) : AtMost 499 c.robotRadius := by
  have hpos : 0.0 < c.robotRadius := hc.get_pos (f := .robotRadius) rfl
  have hlargest := isFinite_of_parts parts_largestRadius
  have hfinite := isFinite_of_between (Double.le_of_lt hpos) hradius isFinite_literals.1 hlargest
  rw [lt_iff_value isFinite_literals.1 hfinite, value_zero] at hpos
  rw [le_iff_value hfinite hlargest] at hradius
  refine ⟨hfinite, ?_⟩
  rw [abs_of_pos hpos]
  refine hradius.trans ?_
  rw [value_of_parts parts_largestRadius, withSign, if_neg (by decide)]
  calc ((5503284107318959 : Nat) * 2 ^ (446 : Int) : ℚ) ≤ 2 ^ (53 : Int) * 2 ^ (446 : Int) := by
        gcongr
        norm_num
    _ = 2 ^ (499 : Int) := by rw [← zpow_add₀ (by norm_num), show (53 : Int) + 446 = 499 by norm_num]

/-- The errors of a step that is not defined. -/
def WorldError.isNumeric : WorldError → Bool
  | squareOverflow => true
  | infiniteAngle => true
  | _ => false

namespace World.InRange

variable {w : World}

theorem initial {c : Config} (hc : c.Accepted) (hradius : c.robotRadius ≤ 1e150) : (World.initial c).InRange where
  radius := radius_atMost hc hradius
  obstacles := nofun
  heading := ⟨[], .initial⟩

theorem step (h : w.InRange) {op : Operation} {e : Effect} (hsucceeds : w.Succeeds op e) : e.world.InRange := by
  obtain ⟨angles, hangles⟩ := h.heading
  refine ⟨?_, ?_, _, hsucceeds.oriented hangles⟩
  · rw [hsucceeds.config_eq]
    exact h.radius
  · cases hsucceeds with
    | setPose => exact h.obstacles
    | move => exact h.obstacles
    | turn => exact h.obstacles
    | addObstacle ho =>
        intro o hmem
        rcases Array.mem_push.1 hmem with hold | rfl
        · exact h.obstacles o hold
        · rw [ho]
          exact ⟨toSingle_toSingle _, toSingle_toSingle _⟩
    | setTrail => exact h.obstacles
    | feel => exact h.obstacles

theorem isBlocked_ok (h : w.InRange) (x y : Float) : ∃ b, w.isBlocked x y = .ok b := by
  unfold isBlocked
  split_ifs
  · exact collidesAny_ok h.radius x y fun o ho => h.obstacles o (Array.mem_toList_iff.1 ho)
  · exact ⟨true, rfl⟩

theorem advance_ok (h : w.InRange) {cos sin direction : Float} {fuel : Nat} {remaining x y : Float} {steps : Nat}
    {r : Except WorldError Motion} (hr : w.advance cos sin direction fuel remaining x y steps = some r) :
    ∃ m, r = .ok m := by
  induction fuel generalizing remaining x y steps with
  | zero => cases hr
  | succ fuel ih =>
      unfold advance at hr
      split at hr
      · dsimp only at hr
        split at hr
        · rename_i e hblocked
          obtain ⟨b, hb⟩ := h.isBlocked_ok _ _
          rw [hb] at hblocked
          cases hblocked
        · cases hr
          exact ⟨_, rfl⟩
        · exact ih hr
      · cases hr
        exact ⟨_, rfl⟩

/-- The robot can always look ahead, and in the direction of a sensor. -/
theorem bearing_ok (h : w.InRange) {offset : Float} (hoffset : offset.isFinite = true) :
    (∃ d, bearing w.pose.heading = .ok d) ∧ ∃ d, bearing (w.pose.heading + offset) = .ok d := by
  obtain ⟨angles, hangles⟩ := h.heading
  by_cases hfinite : ∀ a ∈ angles, a.isFinite = true
  · have hturn := hangles.inTurn hfinite
    exact ⟨bearing_of_finite hturn.isFinite, bearing_of_finite (isFinite_add_of_inTurn hturn hoffset)⟩
  · rw [hangles.lost hfinite, notANumber_add]
    exact ⟨bearing_notANumber, bearing_notANumber⟩

theorem move_error (h : w.InRange) {fuel : Nat} {distance : Float} {err : WorldError}
    (herr : w.move fuel distance = some (.error err)) : err = .notPositioned := by
  unfold move at herr
  split at herr
  · obtain ⟨⟨cos, sin⟩, hbearing⟩ := (h.bearing_ok isFinite_literals.1).1
    rw [hbearing] at herr
    obtain ⟨r, hadvance, hr⟩ := Option.map_eq_some_iff.1 herr
    obtain ⟨m, rfl⟩ := h.advance_ok hadvance
    cases hr
  · cases herr
    rfl

theorem feel_error (h : w.InRange) {sensor : Int} {err : WorldError} (herr : w.feel sensor = .error err) :
    err = .notPositioned ∨ err = .badSensor := by
  unfold feel requirePositioned at herr
  split at herr
  · by_cases hsensor : sensor < 0 ∨ 8 ≤ sensor
    · rw [if_pos hsensor] at herr
      cases herr
      exact .inr rfl
    · obtain ⟨⟨cos, sin⟩, hbearing⟩ := (h.bearing_ok (isFinite_sensor (by omega) (by omega : sensor < 8))).2
      obtain ⟨b, hb⟩ := h.isBlocked_ok (w.pose.x + w.config.sensorRange * cos) (w.pose.y + w.config.sensorRange * sin)
      rw [if_neg hsensor, hbearing] at herr
      change w.isBlocked _ _ = .error err at herr
      rw [hb] at herr
      cases herr
  · cases herr
    exact .inl rfl

theorem addObstacle_error (h : w.InRange) {x y sizeX sizeY : Float} {err : WorldError}
    (herr : w.addObstacle x y sizeX sizeY = .error err) : err = .obstacleOverlap ∨ err = .obstacleBounds := by
  unfold addObstacle at herr
  generalize ho : Obstacle.mk (toSingle x) (toSingle y) (toSingle sizeX) (toSingle sizeY) = o at herr
  have hsingle : o.Single := by
    rw [← ho]
    exact ⟨toSingle_toSingle _, toSingle_toSingle _⟩
  obtain ⟨overlap, hoverlap⟩ := intersects_ok h.radius hsingle w.pose.x w.pose.y
  dsimp only at herr
  rw [hoverlap] at herr
  by_cases hout : w.sticksOut o = true
  · rw [hout] at herr
    split at herr
    · cases overlap with
      | true =>
          cases herr
          exact .inl rfl
      | false =>
          cases herr
          exact .inr rfl
    · cases herr
      exact .inr rfl
  · rw [Bool.eq_false_iff.2 hout] at herr
    split at herr
    · cases overlap with
      | true =>
          cases herr
          exact .inl rfl
      | false => cases herr
    · cases herr

/-- An operation that is refused is refused for what it asks, and not because a number is out of range. -/
theorem refusal (h : w.InRange) {op : Operation} {fuel : Nat} {err : WorldError}
    (herr : op.perform fuel w = some (.error err)) : err.isNumeric = false := by
  have hmap {α : Type} {r : Except WorldError α} {f : α → Effect} (hr : r.map f = .error err) : r = .error err := by
    cases r with
    | error e =>
        cases hr
        rfl
    | ok a => cases hr
  cases op with
  | setPose x y degrees =>
      have herr := hmap (Option.some.inj herr)
      unfold setPose at herr
      dsimp only at herr
      split at herr
      · cases herr
      · cases herr
        rfl
  | move distance =>
      obtain ⟨r, hmove, hr⟩ := Option.map_eq_some_iff.1 herr
      rw [hmap hr] at hmove
      rw [h.move_error hmove]
      rfl
  | turn degrees =>
      have herr := hmap (Option.some.inj herr)
      unfold turn requirePositioned at herr
      split at herr
      · cases herr
      · cases herr
        rfl
  | addObstacle x y sizeX sizeY =>
      rcases h.addObstacle_error (hmap (Option.some.inj herr)) with rfl | rfl
      · rfl
      · rfl
  | setTrail enabled => cases herr
  | feel sensor =>
      rcases h.feel_error (hmap (Option.some.inj herr)) with rfl | rfl
      · rfl
      · rfl

end World.InRange

end Rover
