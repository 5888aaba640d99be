import Rover.Proofs.Obstacles
import Rover.Proofs.Runs
import Rover.Proofs.Sum

/-!
# The range of headings

The heading of a finite angle is at least 0 and below 360, however the remainder and the rounding to single precision
turn out. The remainder of an infinity is not a number, and it stays in the heading until the robot is placed anew. So
the heading is in its range exactly if every angle since the last placement was finite: `heading_in_turn_iff`.
-/

namespace Rover

open Float.Model (UnpackedFloat)
open Float.Model.Format (binary64)

/-- The headings from 0 up to, and not including, 360 degrees. -/
def InTurn (h : Float) : Prop := 0.0 ≤ h ∧ h < 360.0

instance (h : Float) : Decidable (InTurn h) := inferInstanceAs (Decidable (_ ∧ _))

theorem isFinite_literals : (0.0 : Float).isFinite = true ∧ (360.0 : Float).isFinite = true := by decide +kernel

theorem parts_fullTurn : parts 360.0 = .finite false (45 * 2 ^ 47) (-44) := by decide +kernel

theorem value_fullTurn : value 360.0 = 360 := by
  rw [value_of_parts parts_fullTurn]
  norm_num [withSign]

theorem inTurn_iff_value {h : Float} (hfinite : h.isFinite = true) : InTurn h ↔ 0 ≤ value h ∧ value h < 360 := by
  rw [InTurn, le_iff_value isFinite_literals.1 hfinite, lt_iff_value hfinite isFinite_literals.2, value_zero,
    value_fullTurn]

theorem InTurn.isFinite {h : Float} (hturn : InTurn h) : h.isFinite = true :=
  isFinite_of_between hturn.1 (Double.le_of_lt hturn.2) isFinite_literals.1 isFinite_literals.2

/-! ### The heading of an angle -/

theorem holds_fullTurn {f : Format} (hprecision : 45 < 2 ^ f.precision) (hleast : f.least ≤ 3) (hlimit : 9 ≤ f.limit) :
    f.Holds 360 := by
  refine ⟨45, 3, by norm_num, hprecision, hleast, ?_⟩
  calc (360 : ℚ) < 2 ^ (9 : Int) := by norm_num
    _ ≤ 2 ^ f.limit := zpow_le_zpow_right₀ (by norm_num) hlimit

theorem double_holds_fullTurn : Format.double.Holds 360 := holds_fullTurn (by decide) (by decide) (by decide)

theorem single_holds_fullTurn : Format.single.Holds 360 := holds_fullTurn (by decide) (by decide) (by decide)

theorem modTurn_of_finite {x : Float} (hx : x.isFinite = true) :
    (modTurn x).isFinite = true ∧ 0 ≤ value (modTurn x) ∧ value (modTurn x) ≤ 360 := by
  obtain ⟨neg, m, q, hparts⟩ := isFinite_iff.1 hx
  have hden := one_shiftLeft_pos (-q).toNat
  have hrest := Nat.mod_lt (m <<< q.toNat) (Nat.mul_pos (by norm_num : 0 < 360) hden)
  simp only [modTurn, hparts]
  generalize m <<< q.toNat % (360 * 1 <<< (-q).toNat) = rest at *
  generalize 1 <<< (-q).toNat = den at *
  have hquotient : (rest / den : ℚ) ≤ 360 := by
    have hpos : (0 : ℚ) < den := by exact_mod_cast hden
    rw [div_le_iff₀ hpos]
    exact_mod_cast hrest.le
  have hnearest : Format.double.IsNearest (rest / den) (Format.double.nearest false rest den) :=
    ⟨false, rest, den, hden, rfl, rfl⟩
  have hnonneg : (0 : ℚ) ≤ rest / den := by positivity
  obtain ⟨hfinite, hbound, hsign⟩ := hnearest.bounded Format.double_fits double_holds_fullTurn
    (by rwa [abs_of_nonneg hnonneg])
  have hlow := hsign hnonneg
  rw [abs_of_nonneg hlow] at hbound
  split_ifs
  · have hsub := isNearest_sub isFinite_literals.2 hfinite
    rw [value_fullTurn] at hsub
    obtain ⟨hfinite', hbound', hsign'⟩ := hsub.bounded Format.double_fits double_holds_fullTurn
      (abs_le.2 ⟨by linarith, by linarith⟩)
    have hlow' := hsign' (by linarith)
    rw [abs_of_nonneg hlow'] at hbound'
    exact ⟨hfinite', hlow', hbound'⟩
  · exact ⟨hfinite, hlow, hbound⟩

theorem isNearest_toSingle {x : Float} (hx : x.isFinite = true) : Format.single.IsNearest (value x) (toSingle x) := by
  obtain ⟨neg, m, q, hparts⟩ := isFinite_iff.1 hx
  exact ⟨neg, _, _, one_shiftLeft_pos (-q).toNat, by rw [shifted_quotient, value_of_parts hparts],
    toSingle_of_finite hparts⟩

theorem heading_inTurn {degrees : Float} (hfinite : degrees.isFinite = true) : InTurn (heading degrees) := by
  obtain ⟨hmod, hlow, hhigh⟩ := modTurn_of_finite hfinite
  obtain ⟨hsingle, hbound, hsign⟩ := (isNearest_toSingle hmod).bounded Format.single_fits single_holds_fullTurn
    (by rwa [abs_of_nonneg hlow])
  simp only [heading]
  split_ifs with hfull
  · decide +kernel
  · rw [inTurn_iff_value hsingle]
    refine ⟨hsign hlow, ?_⟩
    change ¬ (360.0 : Float) ≤ _ at hfull
    rw [le_iff_value isFinite_literals.2 hsingle, value_fullTurn] at hfull
    exact not_le.1 hfull

/-- An angle that is not finite has no heading. -/
theorem heading_of_not_finite {degrees : Float} (h : degrees.isFinite = false) : heading degrees = notANumber := by
  have hmod : modTurn degrees = notANumber := by
    unfold modTurn
    split
    · rename_i hparts
      rw [isFinite_of_parts hparts] at h
      cases h
    · rfl
  rw [heading, hmod]
  decide +kernel

/-! ### Turning -/

theorem abs_value_le (x : Float) : |value x| ≤ (2 ^ 53 - 1) * 2 ^ (971 : Int) := by
  rw [value]
  split
  · rename_i neg m q hparts
    obtain ⟨hm, -, hq, -⟩ := hparts ▸ parts_isDouble x
    have hm' : (m : ℚ) ≤ 2 ^ 53 - 1 := by
      rw [le_sub_iff_add_le]
      exact_mod_cast hm
    rw [abs_withSign neg (by positivity)]
    gcongr
    norm_num
  · rw [abs_zero]
    positivity

/-- No finite turn takes a heading beyond the doubles. -/
theorem isFinite_add_of_inTurn {h degrees : Float} (hturn : InTurn h) (hfinite : degrees.isFinite = true) :
    (h + degrees).isFinite = true := by
  obtain ⟨hlow, hhigh⟩ := (inTurn_iff_value hturn.isFinite).1 hturn
  apply (isNearest_add hturn.isFinite hfinite).finite
  have hunit : (360 : ℚ) < 1 / 2 * 2 ^ (971 : Int) := by
    calc (360 : ℚ) < 1 / 2 * 2 ^ (10 : Int) := by norm_num
      _ ≤ 1 / 2 * 2 ^ (971 : Int) := by
          gcongr
          · norm_num
          · norm_num
  calc |value h + value degrees| ≤ |value h| + |value degrees| := abs_add_le _ _
    _ < 1 / 2 * 2 ^ (971 : Int) + (2 ^ 53 - 1) * 2 ^ (971 : Int) := by
        rw [abs_of_nonneg hlow]
        exact add_lt_add_of_lt_of_le (hhigh.trans hunit) (abs_value_le degrees)
    _ = (2 ^ 53 - 1 / 2) * 2 ^ (971 : Int) := by ring

theorem isFinite_of_isFinite_add {a b : UnpackedFloat} (h : (UnpackedFloat.add binary64 a b).isFinite = true) :
    a.isFinite = true ∧ b.isFinite = true := by
  cases a <;> cases b <;> simp only [UnpackedFloat.add] at h
  case infinity.infinity s s' =>
    split at h
    · cases h
    · cases h
  all_goals simp [UnpackedFloat.isFinite] at h ⊢

/-- A sum is finite only if its operands are. -/
theorem isFinite_of_add {x y : Float} (h : (x + y).isFinite = true) : x.isFinite = true ∧ y.isFinite = true := by
  change (packed (UnpackedFloat.add binary64 x.toModel.unpack y.toModel.unpack)).isFinite = true at h
  exact isFinite_of_isFinite_add (isFinite_of_packed h)

/-! ### The heading over a history -/

theorem toSingle_heading (degrees : Float) : toSingle (heading degrees) = heading degrees := by
  simp only [heading]
  split_ifs
  · decide +kernel
  · exact toSingle_toSingle _

/-- A heading that has been made of these angles. -/
structure Oriented (angles : List Float) (h : Float) : Prop where
  single : toSingle h = h
  inTurn : (∀ a ∈ angles, a.isFinite = true) → InTurn h
  lost : ¬ (∀ a ∈ angles, a.isFinite = true) → h = notANumber

theorem not_inTurn_notANumber : ¬ InTurn notANumber := by decide +kernel

namespace Oriented

variable {angles : List Float} {h : Float}

theorem inTurn_iff (hor : Oriented angles h) : InTurn h ↔ ∀ a ∈ angles, a.isFinite = true := by
  refine ⟨fun hturn => ?_, hor.inTurn⟩
  by_contra hangles
  rw [hor.lost hangles] at hturn
  exact not_inTurn_notANumber hturn

theorem initial : Oriented [] 0.0 where
  single := by decide +kernel
  inTurn _ := by decide +kernel
  lost hangles := absurd (fun _ ha => nomatch ha) hangles

theorem placed (degrees : Float) : Oriented [degrees] (heading degrees) where
  single := toSingle_heading degrees
  inTurn hangles := heading_inTurn (hangles degrees List.mem_cons_self)
  lost hangles := by
    apply heading_of_not_finite
    by_contra hfinite
    apply hangles
    intro a ha
    rw [List.mem_singleton.1 ha]
    simpa using hfinite

theorem turned (hor : Oriented angles h) (degrees : Float) :
    Oriented (angles ++ [degrees]) (heading (h + degrees)) where
  single := toSingle_heading _
  inTurn hangles := by
    have hturn := hor.inTurn fun a ha => hangles a (List.mem_append_left _ ha)
    have hfinite := hangles degrees (List.mem_append_right _ List.mem_cons_self)
    exact heading_inTurn (isFinite_add_of_inTurn hturn hfinite)
  lost hangles := by
    apply heading_of_not_finite
    by_contra hsum
    obtain ⟨hfiniteHeading, hfinite⟩ := isFinite_of_add (by simpa using hsum)
    -- the heading is finite, so no angle before this one was lost
    have hbefore : ∀ a ∈ angles, a.isFinite = true := by
      by_contra hlost
      rw [hor.lost hlost] at hfiniteHeading
      exact absurd hfiniteHeading (by decide +kernel)
    apply hangles
    intro a ha
    rcases List.mem_append.1 ha with ha | ha
    · exact hbefore a ha
    · rw [List.mem_singleton.1 ha]
      exact hfinite

end Oriented

namespace World

/-- The angles that make the heading, after one more operation. -/
def anglesAfter (angles : List Float) (t : Transition) : List Float :=
  match t.operation, t.result with
  | .setPose _ _ degrees, .ok _ => [degrees]
  | .turn degrees, .ok _ => angles ++ [degrees]
  | _, _ => angles

/-- The angle of the last placement and those of the turns after it. -/
def angles (ts : List Transition) : List Float := ts.foldl anglesAfter []

theorem angles_snoc (ts : List Transition) (t : Transition) : angles (ts ++ [t]) = anglesAfter (angles ts) t :=
  List.foldl_append

theorem Succeeds.oriented {w : World} {op : Operation} {e : Effect} (hsucceeds : w.Succeeds op e) {as : List Float}
    (h : Oriented as w.pose.heading) : Oriented (anglesAfter as ⟨w, op, .ok e⟩) e.world.pose.heading := by
  cases hsucceeds with
  | setPose =>
      change Oriented [_] (toSingle (heading _))
      rw [toSingle_heading]
      exact .placed _
  | move =>
      change Oriented as (toSingle w.pose.heading)
      rwa [h.single]
  | turn =>
      change Oriented (as ++ [_]) (toSingle (heading _))
      rw [toSingle_heading]
      exact h.turned _
  | addObstacle => exact h
  | setTrail => exact h
  | feel => exact h

theorem History.oriented {c : Config} {ts : List Transition} {w : World} (h : History (initial c) ts w) :
    Oriented (angles ts) w.pose.heading := by
  induction h with
  | nil => exact .initial
  | @snoc ts t fuel _ hperform ih =>
      obtain ⟨before, op, result⟩ := t
      rw [angles_snoc]
      cases result with
      | error err =>
          cases op <;> exact ih
      | ok e => exact (succeeds_of_perform hperform).oriented ih

/-- A display is told the pose that an operation has left. -/
theorem Succeeds.position_eq {w : World} {op : Operation} {e : Effect} (hsucceeds : w.Succeeds op e) {p : Pose}
    (hp : .position p ∈ e.events) : p = e.world.pose := by
  cases hsucceeds with
  | setPose => split_ifs at hp <;> simpa using hp
  | move => split_ifs at hp <;> simpa using hp
  | turn => simpa using hp
  | addObstacle => simp at hp
  | setTrail => simp at hp
  | feel => simp at hp

theorem History.position_eq {start w : World} {ts : List Transition} {t : Transition} (h : History start (ts ++ [t]) w)
    {p : Pose} (hp : .position p ∈ t.events) : p = w.pose := by
  obtain ⟨rfl, fuel, hperform⟩ := h.of_snoc
  cases hresult : t.result with
  | error err => simp [Transition.events, hresult] at hp
  | ok e =>
      rw [hresult] at hperform
      rw [Transition.after_of_ok hresult]
      apply (succeeds_of_perform hperform).position_eq
      rwa [Transition.events, hresult] at hp

/-- The stored heading is in its range exactly if the angles since the last placement were finite, and so is each
heading that a display is told of. The worlds of programs have such histories, and their displays are told what these
tell. -/
theorem heading_in_turn_iff (c : Config) :
    (∀ (ts : List Transition) (w : World), History (initial c) ts w →
      (InTurn w.pose.heading ↔ ∀ a ∈ angles ts, a.isFinite = true) ∧
        ∀ (us : List Transition) (t : Transition) (p : Pose), us ++ [t] <+: ts → .position p ∈ t.events →
          (InTurn p.heading ↔ ∀ a ∈ angles (us ++ [t]), a.isFinite = true)) ∧
      ∀ m : Machine, m.Reachable c → ∃ ts, History (initial c) ts m.world ∧
        Display.shown m.events.toList = (ts.flatMap Transition.events).filter Display.shows := by
  refine ⟨fun ts w h => ⟨h.oriented.inTurn_iff, ?_⟩, fun m hm => hm.history⟩
  intro us t p hus hp
  obtain ⟨w', hshort⟩ := h.truncate hus
  rw [hshort.position_eq hp]
  exact hshort.oriented.inTurn_iff

/-- A program that places the robot with more than a full turn. -/
def turnAround : Node :=
  let number (text : String) : Node := ⟨.int, 1, text, none, []⟩
  let place : Node := ⟨.call, 1, "", none,
    [⟨.id, 1, "rSet", none, []⟩, ⟨.argList, 1, "", none, [number "5", number "5", number "450"]⟩]⟩
  ⟨.functionList, 1, "", none,
    [⟨.function, 1, "main", none, [⟨.paramList, 1, "", none, []⟩, ⟨.block, 1, "", none, [place]⟩]⟩]⟩

theorem turnAround_ends : (Machine.start .default turnAround "main" 20).isSome = true := by decide +kernel

/-- A placement, and a turn by an infinite angle. -/
def dizzy : List Operation := [.setPose 5.0 5.0 90.0, .turn (infinity false)]

theorem dizzy_ends : ((initial .default).play 0 dizzy).isSome = true := by decide +kernel

theorem turnAround_inTurn :
    let m := (Machine.start .default turnAround "main" 20).get turnAround_ends
    let t := ((initial .default).play 0 dizzy).get dizzy_ends
    m.world.pose.heading = 90.0 ∧
      (∃ ts, History (initial .default) ts m.world ∧ ∀ a ∈ angles ts, a.isFinite = true) ∧
      angles t.1 = [90.0, infinity false] ∧ ¬ InTurn t.2.pose.heading := by
  have hreachable := Machine.Reachable.of_start (Option.some_get turnAround_ends).symm
  obtain ⟨hworld, hprogram⟩ := heading_in_turn_iff .default
  obtain ⟨ts, hts, -⟩ := hprogram _ hreachable
  refine ⟨by decide +kernel, ⟨ts, hts, (hworld ts _ hts).1.1 (by decide +kernel)⟩, by decide +kernel, ?_⟩
  intro hturn
  exact absurd ((hworld _ _ (History.of_isSome dizzy_ends)).1.1 hturn) (by decide +kernel)

/-- An infinite angle leaves the robot without a heading. -/
theorem heading_lost :
    ¬ ∀ (c : Config) (ts : List Transition) (w : World), c.Accepted → History (initial c) ts w →
      InTurn w.pose.heading := by
  intro h
  exact absurd (h _ _ _ Config.default_accepted (History.of_isSome dizzy_ends)) (by decide +kernel)

end World

end Rover
