import Rover.Proofs.History

/-!
# Where the robot stands

Three operations put the robot somewhere, and all three do it by `placeAt` at a place in single precision that has been
found valid. That a place is tested in single precision and rounded once more when it is stored makes no difference,
since the second rounding has no effect; so what was tested is what is kept.
-/

namespace Rover.World

/-- The robot stands at the end of its path, in single precision, and has only been at valid places. -/
structure Settled (w : World) : Prop where
  single_x : toSingle w.pose.x = w.pose.x
  single_y : toSingle w.pose.y = w.pose.y
  positioned_iff : w.positioned = true ↔ w.path ≠ #[]
  last : w.positioned = true → w.path.back? = some (w.pose.x, w.pose.y)
  valid : ∀ p ∈ w.path, w.isValidPosition p.1 p.2 = true

theorem toSingle_unplaced : toSingle (-1.0) = -1.0 := by decide +kernel

theorem settled_initial (c : Config) : (initial c).Settled where
  single_x := toSingle_unplaced
  single_y := toSingle_unplaced
  positioned_iff := by simp [initial]
  last := by simp [initial]
  valid := by simp [initial]

namespace Settled

variable {w : World}

theorem valid_pose (h : w.Settled) (hpositioned : w.positioned = true) :
    w.isValidPosition w.pose.x w.pose.y = true :=
  h.valid (w.pose.x, w.pose.y) (Array.mem_of_back? (h.last hpositioned))

theorem placeAt (h : w.Settled) {x y heading : Float} (hx : toSingle x = x) (hy : toSingle y = y)
    (hvalid : w.isValidPosition x y = true) : (w.placeAt x y heading).Settled where
  single_x := hx
  single_y := hy
  positioned_iff := by simp [World.placeAt]
  last := by simp [World.placeAt]
  valid := by
    intro p hp
    rcases Array.mem_push.1 hp with hp | rfl
    · exact h.valid p hp
    · exact hvalid

/-- A movement ends at a valid place that is clear if the robot's own place is. -/
theorem ends (h : w.Settled) (hpositioned : w.positioned = true) {distance : Float} {m : Motion}
    (hend : w.Ends distance m) :
    toSingle m.x = m.x ∧ toSingle m.y = m.y ∧ w.isValidPosition m.x m.y = true ∧
      (w.collides w.pose.x w.pose.y = .ok false → w.collides m.x m.y = .ok false) := by
  rcases hend.free with ⟨hx, hy⟩ | hfree
  · rw [hx, hy]
    exact ⟨h.single_x, h.single_y, h.valid_pose hpositioned, id⟩
  · exact ⟨hfree.single_x, hfree.single_y, hfree.valid, fun _ => hfree.clear⟩

theorem step (h : w.Settled) {op : Operation} {e : Effect} (hsucceeds : w.Succeeds op e) : e.world.Settled := by
  cases hsucceeds with
  | setPose hvalid => exact h.placeAt (toSingle_toSingle _) (toSingle_toSingle _) hvalid
  | move hpositioned hend =>
      obtain ⟨hx, hy, hvalid, -⟩ := h.ends hpositioned hend
      rw [hx, hy]
      exact h.placeAt hx hy hvalid
  | turn hpositioned =>
      rw [h.single_x, h.single_y]
      exact h.placeAt h.single_x h.single_y (h.valid_pose hpositioned)
  | addObstacle => exact ⟨h.single_x, h.single_y, h.positioned_iff, h.last, h.valid⟩
  | setTrail => exact ⟨h.single_x, h.single_y, h.positioned_iff, h.last, h.valid⟩
  | feel => exact h

end Settled

theorem History.settled {c : Config} {ts : List Transition} {w : World} (h : History (initial c) ts w) : w.Settled :=
  h.invariant (settled_initial c) fun _ _ _ _ hsucceeds hbefore => hbefore.step hsucceeds

theorem Succeeds.config_eq {w : World} {op : Operation} {e : Effect} (h : w.Succeeds op e) :
    e.world.config = w.config := by
  cases h <;> rfl

theorem History.config_eq {start w : World} {ts : List Transition} (h : History start ts w) :
    w.config = start.config :=
  h.invariant (P := fun w => w.config = start.config) rfl
    fun _ _ _ _ hsucceeds hbefore => hsucceeds.config_eq.trans hbefore

theorem Succeeds.positioned {w : World} {op : Operation} {e : Effect} (h : w.Succeeds op e)
    (hpositioned : w.positioned = true) : e.world.positioned = true := by
  cases h with
  | setPose => rfl
  | move => rfl
  | turn => rfl
  | addObstacle => exact hpositioned
  | setTrail => exact hpositioned
  | feel => exact hpositioned

/-- Over every history of a new world: the robot is placed exactly when it has a path and then stays placed; it stands
at the end of its path; and its own place and all places of the path are valid. -/
theorem placement_invariant {c : Config} {ts : List Transition} {w : World} (h : History (initial c) ts w) :
    w.config = c ∧ (w.positioned = true ↔ w.path ≠ #[]) ∧
      (∀ t ∈ ts, t.before.positioned = true → t.after.positioned = true) ∧
      (w.positioned = true → w.path.back? = some (w.pose.x, w.pose.y) ∧
        w.isValidPosition w.pose.x w.pose.y = true) ∧
      ∀ p ∈ w.path, w.isValidPosition p.1 p.2 = true := by
  have hsettled := h.settled
  refine ⟨h.config_eq, hsettled.positioned_iff, ?_, ?_, hsettled.valid⟩
  · intro t ht hpositioned
    cases hresult : t.result with
    | error err => rwa [Transition.after_of_error hresult]
    | ok e =>
        rw [Transition.after_of_ok hresult]
        exact (h.succeeds ht hresult).positioned hpositioned
  · intro hpositioned
    exact ⟨hsettled.last hpositioned, hsettled.valid_pose hpositioned⟩

/-- An obstacle, a placement, a movement that the obstacle stops, a turn, and a placement that fails. -/
def encounter : List Operation :=
  [.addObstacle 10.0 5.0 2.0 2.0, .setPose 5.0 5.0 (-0.00000001), .move 10.0, .turn 450.0, .setPose 0.5 25.0 0.0]

def fastConfig : Config := { Config.default with speed := 1.0 }

theorem encounter_ends : ((initial fastConfig).play 10 encounter).isSome = true := by decide +kernel

theorem encounter_placement :
    let w := (((initial fastConfig).play 10 encounter).get encounter_ends).2
    w.path = #[(5.0, 5.0), (7.0, 5.0), (7.0, 5.0)] ∧ w.positioned = true ∧
      w.path.back? = some (w.pose.x, w.pose.y) ∧ w.isValidPosition w.pose.x w.pose.y = true := by
  obtain ⟨-, -, -, hstands, -⟩ := placement_invariant (History.of_isSome encounter_ends)
  have hpositioned : (((initial fastConfig).play 10 encounter).get encounter_ends).2.positioned = true := by
    decide +kernel
  exact ⟨by decide +kernel, hpositioned, hstands hpositioned⟩

/-! ### Obstacles

The list of obstacles and the place of the robot change independently. An obstacle is added only clear of the robot, and
the robot moves only to places that are clear of all obstacles; a placement alone does not ask for obstacles. -/

theorem collidesAny_cons {x y radius : Float} {o : Obstacle} {os : List Obstacle} :
    collidesAny x y radius (o :: os) = .ok false ↔
      intersects x y radius o = .ok false ∧ collidesAny x y radius os = .ok false := by
  rw [collidesAny]
  cases intersects x y radius o with
  | error e => exact ⟨fun h => (nomatch h), fun h => nomatch h.1⟩
  | ok hit =>
      cases hit with
      | true => exact ⟨fun h => (nomatch h), fun h => nomatch h.1⟩
      | false => exact ⟨fun h => ⟨rfl, h⟩, fun h => h.2⟩

theorem collidesAny_append {x y radius : Float} {os os' : List Obstacle} :
    collidesAny x y radius (os ++ os') = .ok false ↔
      collidesAny x y radius os = .ok false ∧ collidesAny x y radius os' = .ok false := by
  induction os with
  | nil => exact ⟨fun h => ⟨rfl, h⟩, fun h => h.2⟩
  | cons o os ih => rw [List.cons_append, collidesAny_cons, collidesAny_cons, ih, and_assoc]

/-- A placed robot touches no obstacle. -/
def Unobstructed (w : World) : Prop := w.positioned = true → w.collides w.pose.x w.pose.y = .ok false

theorem Unobstructed.addObstacle {w : World} (h : w.Unobstructed) {o : Obstacle}
    (hclear : w.positioned = true → intersects w.pose.x w.pose.y w.config.robotRadius o = .ok false) :
    Unobstructed { w with obstacles := w.obstacles.push o } := by
  intro hpositioned
  have hlist : (w.obstacles.push o).toList = w.obstacles.toList ++ [o] := Array.toList_push
  change collidesAny w.pose.x w.pose.y w.config.robotRadius (w.obstacles.push o).toList = .ok false
  rw [hlist, collidesAny_append, collidesAny_cons]
  exact ⟨h hpositioned, hclear hpositioned, rfl⟩

theorem Unobstructed.step {w : World} (h : w.Unobstructed) (hsettled : w.Settled) {op : Operation} {e : Effect}
    (hsucceeds : w.Succeeds op e)
    (hplaced : ∀ x y degrees, op = .setPose x y degrees → w.collides (toSingle x) (toSingle y) = .ok false) :
    e.world.Unobstructed := by
  cases hsucceeds with
  | setPose hvalid => exact fun _ => hplaced _ _ _ rfl
  | move hpositioned hend =>
      obtain ⟨hx, hy, -, hclear⟩ := hsettled.ends hpositioned hend
      rw [hx, hy]
      exact fun _ => hclear (h hpositioned)
  | turn hpositioned =>
      rw [hsettled.single_x, hsettled.single_y]
      exact fun _ => h hpositioned
  | addObstacle ho hclear hinside => exact h.addObstacle hclear
  | setTrail => exact h
  | feel => exact h

/-- Where a successful placement has put the robot. -/
def placedAt? (t : Transition) : Option (Float × Float) :=
  match t.operation, t.result with
  | .setPose x y _, .ok _ => some (toSingle x, toSingle y)
  | _, _ => none

/-- If the robot has only been placed clear of the obstacles that were there, it never touches one. -/
theorem no_penetration {c : Config} {ts : List Transition} {w : World} (h : History (initial c) ts w)
    (hplaced : ∀ t ∈ ts, ∀ p ∈ placedAt? t, t.before.collides p.1 p.2 = .ok false)
    (hpositioned : w.positioned = true) : w.collides w.pose.x w.pose.y = .ok false := by
  have hboth : w.Settled ∧ w.Unobstructed := by
    refine h.invariant (P := fun w => w.Settled ∧ w.Unobstructed) ⟨settled_initial c, nofun⟩ ?_
    intro t ht e hresult hsucceeds ⟨hsettled, hclear⟩
    refine ⟨hsettled.step hsucceeds, hclear.step hsettled hsucceeds ?_⟩
    intro x y degrees hop
    have hplace : placedAt? t = some (toSingle x, toSingle y) := by rw [placedAt?, hop, hresult]
    exact hplaced t ht _ hplace
  exact hboth.2 hpositioned

theorem encounter_clear :
    let w := (((initial fastConfig).play 10 encounter).get encounter_ends).2
    w.obstacles = #[⟨10.0, 5.0, 2.0, 2.0⟩] ∧ w.collides w.pose.x w.pose.y = .ok false :=
  ⟨by decide +kernel,
    no_penetration (History.of_isSome encounter_ends) (by decide +kernel) (by decide +kernel)⟩

end Rover.World
