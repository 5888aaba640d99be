import Rover.Proofs.Heading

/-!
# What a recording display knows

The world and a recording display keep their own copies of the path, of the flags and of the obstacles. The display is told
of changes only, and the copies agree after every operation: `display_mirrors_world`. One operation at a time, what it tells
(`Display.Mirrors.step`) makes of the display what it makes of the world.
-/

namespace Rover

namespace Display

/-- What a display is told of operations. -/
def told (ts : List Transition) : List WorldEvent := (ts.flatMap Transition.events).filter shows

def posesOf (events : List WorldEvent) : List Pose :=
  events.filterMap fun
    | .position p => some p
    | _ => none

def obstaclesOf (events : List WorldEvent) : List Obstacle :=
  events.filterMap fun
    | .obstacle o => some o
    | _ => none

/-- The robot has not been placed, or its placement is told once, directly after its first position. -/
inductive Opens : Bool → List WorldEvent → Prop
  | unplaced {events : List WorldEvent} : posesOf events = [] → .positioned ∉ events → Opens false events
  | placed {before after : List WorldEvent} {p : Pose} : posesOf before = [] → .positioned ∉ before →
      .positioned ∉ after → Opens true (before ++ .position p :: .positioned :: after)

/-- The display agrees with the world. -/
structure Mirrors (d : Display) (w : World) : Prop where
  path_eq : d.path = w.path.toList
  positioned_eq : d.positioned = w.positioned
  trail_eq : d.trail = w.trail
  obstacles_eq : obstaclesOf d.events = w.obstacles.toList
  pose_eq : w.positioned = true → (posesOf d.events).getLast? = some w.pose
  opens : Opens w.positioned d.events

theorem pathOf_eq (events : List WorldEvent) : pathOf events = (posesOf events).map fun p => (p.x, p.y) := by
  rw [pathOf, posesOf, List.map_filterMap]
  congr 1
  funext e
  cases e <;> rfl

theorem positionedOf_iff {events : List WorldEvent} : positionedOf events = true ↔ .positioned ∈ events := by
  rw [positionedOf, List.any_eq_true]
  constructor
  · rintro ⟨e, he, hmatches⟩
    cases e with
    | positioned => exact he
    | _ => cases hmatches
  · exact fun h => ⟨_, h, rfl⟩

theorem told_snoc (ts : List Transition) (t : Transition) : told (ts ++ [t]) = told ts ++ t.events.filter shows := by
  simp [told]

namespace Opens

variable {events new : List WorldEvent} {b : Bool}

theorem positionedOf_eq (h : Opens b events) : positionedOf events = b := by
  cases h with
  | unplaced _ honce => exact Bool.eq_false_iff.2 (mt positionedOf_iff.1 honce)
  | placed => exact positionedOf_iff.2 (by simp)

theorem append (h : Opens b events) (hposes : b = false → posesOf new = []) (honce : .positioned ∉ new) :
    Opens b (events ++ new) := by
  cases h with
  | unplaced hnone hbefore =>
      refine .unplaced ?_ ?_
      · rw [posesOf, List.filterMap_append, ← posesOf, ← posesOf, hnone, hposes rfl, List.nil_append]
      · exact fun hmem => (List.mem_append.1 hmem).elim hbefore honce
  | @placed before after p hnone hbefore hafter =>
      rw [List.append_assoc]
      exact .placed hnone hbefore fun hmem => (List.mem_append.1 hmem).elim hafter honce

/-- The first position is told, and that it is the first. -/
theorem first (h : Opens false events) (p : Pose) : Opens true (events ++ [.position p, .positioned]) := by
  cases h with
  | unplaced hnone honce => exact .placed hnone honce List.not_mem_nil

end Opens

/-! ### What operations tell -/

namespace Mirrors

variable {events : List WorldEvent} {w w' : World}

theorem initial (c : Config) : (ofEvents []).Mirrors (.initial c) where
  path_eq := rfl
  positioned_eq := rfl
  trail_eq := rfl
  obstacles_eq := rfl
  pose_eq := nofun
  opens := .unplaced rfl List.not_mem_nil

variable (h : (ofEvents events).Mirrors w)

include h

/-- A new place of the robot, the first one or another. -/
theorem placeAt {new : List WorldEvent} (p : Pose)
    (hnew : new = if w.positioned then [.position p] else [.position p, .positioned]) :
    (ofEvents (events ++ new)).Mirrors (w.placeAt p.x p.y p.heading) := by
  have hposes : posesOf (events ++ new) = posesOf events ++ [p] := by
    rw [posesOf, List.filterMap_append, hnew]
    cases w.positioned <;> rfl
  have hopens : Opens true (events ++ new) := by
    have hbefore : Opens w.positioned events := h.opens
    cases hpositioned : w.positioned with
    | false =>
        rw [hpositioned] at hbefore hnew
        rw [hnew]
        exact hbefore.first p
    | true =>
        rw [hpositioned] at hbefore hnew
        rw [hnew]
        exact hbefore.append nofun (by simp)
  refine ⟨?_, hopens.positionedOf_eq, ?_, ?_, fun _ => ?_, hopens⟩
  · have hpath : pathOf events = w.path.toList := h.path_eq
    change pathOf (events ++ new) = (w.path.push (p.x, p.y)).toList
    rw [pathOf_eq, hposes, List.map_append, ← pathOf_eq, hpath, Array.toList_push]
    rfl
  · have htrail : trailOf events = w.trail := h.trail_eq
    change trailOf (events ++ new) = w.trail
    rw [trailOf, List.foldl_append, ← trailOf, htrail, hnew]
    cases w.positioned <;> rfl
  · have hobstacles : obstaclesOf events = w.obstacles.toList := h.obstacles_eq
    change obstaclesOf (events ++ new) = w.obstacles.toList
    rw [obstaclesOf, List.filterMap_append, ← obstaclesOf, hobstacles, hnew]
    cases w.positioned <;> exact List.append_nil _
  · change (posesOf (events ++ new)).getLast? = some p
    rw [hposes]
    exact List.getLast?_concat

/-- A change that has nothing to do with the place of the robot. -/
theorem elsewhere {e : WorldEvent} (hposes : posesOf [e] = []) (honce : e ≠ .positioned)
    (htrail : trailOf (events ++ [e]) = w'.trail) (hobstacles : obstaclesOf (events ++ [e]) = w'.obstacles.toList)
    (hpath : w'.path = w.path) (hpositioned : w'.positioned = w.positioned) (hpose : w'.pose = w.pose) :
    (ofEvents (events ++ [e])).Mirrors w' := by
  have hsame : posesOf (events ++ [e]) = posesOf events := by
    rw [posesOf, List.filterMap_append, ← posesOf, ← posesOf, hposes, List.append_nil]
  have hopens : Opens w.positioned (events ++ [e]) := h.opens.append (fun _ => hposes) (by simpa using honce.symm)
  refine ⟨?_, ?_, htrail, hobstacles, ?_, hpositioned ▸ hopens⟩
  · have hbefore : pathOf events = w.path.toList := h.path_eq
    change pathOf (events ++ [e]) = w'.path.toList
    rw [pathOf_eq, hsame, ← pathOf_eq, hbefore, hpath]
  · exact hopens.positionedOf_eq.trans hpositioned.symm
  · rw [hpositioned, hpose]
    change w.positioned = true → (posesOf (events ++ [e])).getLast? = some w.pose
    rw [hsame]
    exact h.pose_eq

theorem step {op : Operation} {e : Effect} (hsucceeds : w.Succeeds op e) :
    (ofEvents (events ++ e.events.filter shows)).Mirrors e.world := by
  cases hsucceeds with
  | @setPose x y degrees hvalid =>
      refine h.placeAt ⟨toSingle x, toSingle y, toSingle (heading degrees)⟩ ?_
      cases w.positioned <;> rfl
  | @move distance m hpositioned hend =>
      refine h.placeAt ⟨toSingle m.x, toSingle m.y, toSingle w.pose.heading⟩ ?_
      rw [hpositioned]
      cases m.blocked <;> rfl
  | @turn degrees hpositioned =>
      refine h.placeAt ⟨_, _, toSingle (heading (w.pose.heading + degrees))⟩ ?_
      rw [hpositioned]
      rfl
  | @addObstacle x y sizeX sizeY o ho hclear hinside =>
      have hobstacles : obstaclesOf events = w.obstacles.toList := h.obstacles_eq
      have htrail : trailOf events = w.trail := h.trail_eq
      refine h.elsewhere rfl nofun ?_ ?_ rfl rfl rfl
      · rw [trailOf, List.foldl_append, ← trailOf, htrail]
        rfl
      · rw [obstaclesOf, List.filterMap_append, ← obstaclesOf, hobstacles, Array.toList_push]
        rfl
  | @setTrail enabled =>
      have hobstacles : obstaclesOf events = w.obstacles.toList := h.obstacles_eq
      refine h.elsewhere rfl nofun ?_ ?_ rfl rfl rfl
      · rw [trailOf, List.foldl_append]
        rfl
      · rw [obstaclesOf, List.filterMap_append, ← obstaclesOf, hobstacles]
        exact List.append_nil _
  | feel =>
      rw [List.filter_nil, List.append_nil]
      exact h

end Mirrors

end Display

namespace World

theorem History.mirrors {c : Config} {ts : List Transition} {w : World} (h : History (initial c) ts w) :
    (Display.ofEvents (Display.told ts)).Mirrors w := by
  induction h with
  | nil => exact .initial c
  | @snoc ts t fuel _ hperform ih =>
      rw [Display.told_snoc]
      cases hresult : t.result with
      | error err =>
          rw [Transition.after_of_error hresult, Transition.events, hresult, List.filter_nil, List.append_nil]
          exact ih
      | ok e =>
          rw [hresult] at hperform
          rw [Transition.after_of_ok hresult, Transition.events, hresult]
          exact ih.step (succeeds_of_perform hperform)

theorem told_of_error {us : List Transition} {t : Transition} {err : WorldError} (h : t.result = .error err) :
    Display.told (us ++ [t]) = Display.told us ∧ t.after = t.before := by
  rw [Display.told_snoc, Transition.events, h]
  exact ⟨List.append_nil _, Transition.after_of_error h⟩

/-- After every history of operations a recording display agrees with the world, and none of the operations that failed has
been told to it. So does the display of every machine that programs lead to. -/
theorem display_mirrors_world (c : Config) :
    (∀ (ts : List Transition) (w : World), History (initial c) ts w →
      (Display.ofEvents (Display.told ts)).Mirrors w ∧
        ∀ (us : List Transition) (t : Transition) (err : WorldError), us ++ [t] <+: ts → t.result = .error err →
          Display.told (us ++ [t]) = Display.told us ∧ t.after = t.before) ∧
      ∀ m : Machine, m.Reachable c → (Display.ofEvents (Display.shown m.events.toList)).Mirrors m.world := by
  refine ⟨fun ts w h => ⟨h.mirrors, fun _ _ _ _ hfailed => told_of_error hfailed⟩, ?_⟩
  intro m hm
  obtain ⟨ts, hhistory, hshown⟩ := hm.history
  rw [hshown]
  exact hhistory.mirrors

/-- A turn that comes too early, an obstacle, a placement, a movement that the obstacle stops, and a placement that fails. -/
def inspection : List Operation :=
  [.turn 90.0, .setTrail true, .addObstacle 10.0 5.0 2.0 2.0, .setPose 5.0 5.0 0.0, .move 10.0, .setPose 0.5 25.0 0.0]

theorem inspection_ends : ((initial fastConfig).play 10 inspection).isSome = true := by decide +kernel

theorem inspection_mirrored :
    let r := ((initial fastConfig).play 10 inspection).get inspection_ends
    Display.told r.1 = [.trail true, .obstacle ⟨10.0, 5.0, 2.0, 2.0⟩, .position ⟨5.0, 5.0, 0.0⟩, .positioned,
        .position ⟨7.0, 5.0, 0.0⟩] ∧
      (Display.ofEvents (Display.told r.1)).Mirrors r.2 := by
  obtain ⟨hmirrors, -⟩ := (display_mirrors_world fastConfig).1 _ _ (History.of_isSome inspection_ends)
  exact ⟨by decide +kernel, hmirrors⟩

end World

end Rover
