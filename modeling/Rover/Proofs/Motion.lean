import Rover.Proofs.Heading

/-!
# Movements step by step

A movement is a loop over stances: the distance that is left, and the place. Each round of the loop is one application
of `Course.next`, so a movement that ends has taken some number of steps and ended as `halt` says, and one that does not
end goes on from every stance that it comes to. The place of a stance is in single precision already when it is tested,
and storing it changes nothing; so a robot that has met something finds the same thing in its way when it tries again:
`contact_is_stable`.
-/

namespace Rover

def Operation.isMove : Operation → Bool
  | move _ => true
  | _ => false

/-- Where a movement is between two steps: the distance that is left, and the place. -/
@[ext]
structure Stance where
  remaining : Float
  x : Float
  y : Float
  deriving DecidableEq

/-- What does not change during a movement: the cosine and the sine of the heading, 1 for forwards or -1 for backwards,
and the length of a step. -/
structure Course where
  cos : Float
  sin : Float
  direction : Float
  speed : Float

namespace Course

/-- The length of the next step, with the sign of the direction. -/
def stride (c : Course) (s : Stance) : Float :=
  (if s.remaining < c.speed then s.remaining else c.speed) * c.direction

/-- The stance after one more step. -/
def next (c : Course) (s : Stance) : Stance :=
  ⟨s.remaining - (c.stride s).abs, toSingle (s.x + c.stride s * c.cos), toSingle (s.y + c.stride s * c.sin)⟩

theorem stride_of_le {c : Course} {s : Stance} (h : c.speed ≤ s.remaining) : c.stride s = c.speed * c.direction := by
  obtain ⟨hspeed, hremaining⟩ := Double.isNaN_of_le h
  rw [stride, if_neg ((Double.not_lt_iff_le hremaining hspeed).2 h)]

end Course

namespace World

def course (w : World) (distance : Float) : Course where
  cos := cosine (radians w.pose.heading)
  sin := sine (radians w.pose.heading)
  direction := if distance ≥ 0.0 then 1.0 else -1.0
  speed := w.config.speed

/-- The stance at the start of a movement. -/
def start (w : World) (distance : Float) : Stance := ⟨distance.abs, w.pose.x, w.pose.y⟩

/-- The stance after so many steps, whether or not they are taken. -/
def stanceAfter (w : World) (distance : Float) (steps : Nat) : Stance :=
  (w.course distance).next^[steps] (w.start distance)

theorem stanceAfter_zero (w : World) (distance : Float) : w.stanceAfter distance 0 = w.start distance := rfl

theorem stanceAfter_succ (w : World) (distance : Float) (steps : Nat) :
    w.stanceAfter distance (steps + 1) = (w.course distance).next (w.stanceAfter distance steps) :=
  Function.iterate_succ_apply' _ _ _

/-- A movement takes another step from a stance: there is some way to go, and the next place is free. -/
def Goes (w : World) (distance : Float) (s : Stance) : Prop :=
  s.remaining > 0.0 ∧
    w.isBlocked ((w.course distance).next s).x ((w.course distance).next s).y = .ok false

/-- How a movement ends that does not go on from a stance. -/
def halt (w : World) (distance : Float) (s : Stance) (steps : Nat) : Except WorldError Motion :=
  if s.remaining > 0.0 then
    (w.isBlocked ((w.course distance).next s).x ((w.course distance).next s).y).map fun _ => ⟨s.x, s.y, steps, true⟩
  else .ok ⟨s.x, s.y, steps, false⟩

/-- The rest of a movement from a stance on. -/
def pace (w : World) (distance : Float) (fuel : Nat) (s : Stance) (steps : Nat) : Option (Except WorldError Motion) :=
  w.advance (w.course distance).cos (w.course distance).sin (w.course distance).direction fuel s.remaining s.x s.y steps

/-- What comes of testing the next place: an error, a stop, or the rest of the movement. -/
def onward (test : Except WorldError Bool) (stop : Motion) (rest : Option (Except WorldError Motion)) :
    Option (Except WorldError Motion) :=
  match test with
  | .error e => some (.error e)
  | .ok true => some (.ok stop)
  | .ok false => rest

section Pace

variable {w : World} {distance : Float} {s : Stance} {fuel steps : Nat}

theorem pace_succ : w.pace distance (fuel + 1) s steps =
    if s.remaining > 0.0 then
      onward (w.isBlocked ((w.course distance).next s).x ((w.course distance).next s).y) ⟨s.x, s.y, steps, true⟩
        (w.pace distance fuel ((w.course distance).next s) (steps + 1))
    else some (.ok ⟨s.x, s.y, steps, false⟩) := rfl

theorem pace_of_goes (h : w.Goes distance s) :
    w.pace distance (fuel + 1) s steps = w.pace distance fuel ((w.course distance).next s) (steps + 1) := by
  rw [pace_succ, if_pos h.1, h.2, onward]

theorem pace_of_not_goes (h : ¬ w.Goes distance s) :
    w.pace distance (fuel + 1) s steps = some (w.halt distance s steps) := by
  rw [pace_succ, halt]
  by_cases hway : s.remaining > 0.0
  · rw [if_pos hway, if_pos hway]
    cases hblocked : w.isBlocked ((w.course distance).next s).x ((w.course distance).next s).y with
    | error e => rfl
    | ok b =>
        cases b with
        | true => rfl
        | false => exact absurd ⟨hway, hblocked⟩ h
  · rw [if_neg hway, if_neg hway]

theorem pace_of_walk {k : Nat} (h : ∀ j < k, w.Goes distance ((w.course distance).next^[j] s)) :
    w.pace distance (k + fuel) s steps = w.pace distance fuel ((w.course distance).next^[k] s) (steps + k) := by
  induction k generalizing fuel with
  | zero => rw [Nat.zero_add, Function.iterate_zero, id_eq, Nat.add_zero]
  | succ k ih =>
      rw [Nat.succ_add_eq_add_succ, ih fun j hj => h j (by omega), pace_of_goes (h k k.lt_succ_self),
        Function.iterate_succ_apply', Nat.add_assoc]

/-- A movement that ends has gone on from some number of stances, and then no further. -/
theorem pace_eq_some {r : Except WorldError Motion} (h : w.pace distance fuel s steps = some r) :
    ∃ k < fuel, (∀ j < k, w.Goes distance ((w.course distance).next^[j] s)) ∧
      ¬ w.Goes distance ((w.course distance).next^[k] s) ∧
      r = w.halt distance ((w.course distance).next^[k] s) (steps + k) := by
  induction fuel generalizing s steps with
  | zero => cases h
  | succ fuel ih =>
      by_cases hgoes : w.Goes distance s
      · rw [pace_of_goes hgoes] at h
        obtain ⟨k, hk, hwalk, hstop, hr⟩ := ih h
        refine ⟨k + 1, by omega, ?_, hstop, ?_⟩
        · intro j hj
          cases j with
          | zero => exact hgoes
          | succ j => exact hwalk j (by omega)
        · rw [hr, Nat.add_assoc, Nat.add_comm 1 k]
          rfl
      · rw [pace_of_not_goes hgoes] at h
        exact ⟨0, fuel.succ_pos, by simp, hgoes, (Option.some.inj h).symm⟩

/-- A movement does not end exactly if it goes on from every stance. -/
theorem pace_eq_none_iff :
    (∀ fuel, w.pace distance fuel s steps = none) ↔ ∀ k, w.Goes distance ((w.course distance).next^[k] s) := by
  constructor
  · intro h k
    induction k using Nat.strong_induction_on with
    | _ k ih =>
        by_contra hstop
        have hend : w.pace distance 1 _ (steps + k) = some _ := pace_of_not_goes hstop
        rw [← pace_of_walk ih, h] at hend
        cases hend
  · intro h fuel
    rw [← Nat.add_zero fuel, pace_of_walk fun j _ => h j]
    rfl

end Pace

/-- Wherever the robot has a bearing, a movement is its loop. -/
theorem move_eq {w : World} (hpositioned : w.positioned = true) {b : Float × Float}
    (hbearing : bearing w.pose.heading = .ok b) (fuel : Nat) (distance : Float) :
    w.move fuel distance = (w.pace distance fuel (w.start distance) 0).map (·.map w.arrive) := by
  obtain ⟨cos, sin⟩ := b
  obtain ⟨rfl, rfl⟩ := bearing_ok hbearing
  unfold move
  rw [if_pos hpositioned, hbearing]
  rfl

/-! ### Contact -/

/-- What a robot may do without leaving what it has met: press on by at least one step, use its sensors, and set the
trail. -/
inductive Presses (speed distance : Float) : Operation → Prop
  | move {distance' : Float} : (distance' ≥ 0.0 ↔ distance ≥ 0.0) → speed ≤ distance'.abs →
      Presses speed distance (.move distance')
  | feel (sensor : Int) : Presses speed distance (.feel sensor)
  | setTrail (enabled : Bool) : Presses speed distance (.setTrail enabled)

/-- A placed robot, its pose in single precision, that something is in the way of, one whole step ahead. -/
structure Touches (w : World) (distance : Float) : Prop where
  positioned : w.positioned = true
  bearing : ∃ b, World.bearing w.pose.heading = .ok b
  single_x : toSingle w.pose.x = w.pose.x
  single_y : toSingle w.pose.y = w.pose.y
  single_heading : toSingle w.pose.heading = w.pose.heading
  blocked : w.isBlocked
    (toSingle (w.pose.x + w.config.speed * (w.course distance).direction * (w.course distance).cos))
    (toSingle (w.pose.y + w.config.speed * (w.course distance).direction * (w.course distance).sin)) = .ok true

namespace Touches

variable {w : World} {distance : Float}

theorem congr (h : w.Touches distance) (trail : Bool) (path : Array (Float × Float)) :
    Touches { w with trail, path } distance :=
  ⟨h.positioned, h.bearing, h.single_x, h.single_y, h.single_heading, h.blocked⟩

theorem commit (h : w.Touches distance) :
    (w.commit w.pose.x w.pose.y w.pose.heading).1 = { w with path := w.path.push (w.pose.x, w.pose.y) } := by
  simp only [World.commit, h.single_x, h.single_y, h.single_heading]

/-- The next place is the one that was found blocked, whatever the distance. -/
theorem blocked_next (h : w.Touches distance) {distance' : Float} (hside : distance' ≥ 0.0 ↔ distance ≥ 0.0)
    (hfar : w.config.speed ≤ distance'.abs) :
    w.isBlocked ((w.course distance').next (w.start distance')).x ((w.course distance').next (w.start distance')).y
      = .ok true := by
  have hcourse : w.course distance' = w.course distance := by simp only [course, hside]
  have hstride : (w.course distance).stride (w.start distance') = w.config.speed * (w.course distance).direction :=
    Course.stride_of_le hfar
  rw [hcourse, Course.next, hstride]
  exact h.blocked

theorem press (h : w.Touches distance) {distance' : Float} (hside : distance' ≥ 0.0 ↔ distance ≥ 0.0)
    (hfar : w.config.speed ≤ distance'.abs) :
    ∃ events, ∀ fuel, w.move (fuel + 1) distance' =
      some (.ok ⟨(), { w with path := w.path.push (w.pose.x, w.pose.y) }, events⟩) := by
  obtain ⟨b, hbearing⟩ := h.bearing
  have hblocked := h.blocked_next hside hfar
  have hstay : ¬ w.Goes distance' (w.start distance') := by
    rintro ⟨-, hfree⟩
    rw [hblocked] at hfree
    cases hfree
  have hhalt : ∃ stopped, w.halt distance' (w.start distance') 0 = .ok ⟨w.pose.x, w.pose.y, 0, stopped⟩ := by
    rw [halt, hblocked]
    split_ifs
    · exact ⟨true, rfl⟩
    · exact ⟨false, rfl⟩
  obtain ⟨stopped, hhalt⟩ := hhalt
  refine ⟨(w.arrive ⟨w.pose.x, w.pose.y, 0, stopped⟩).events, fun fuel => ?_⟩
  rw [move_eq h.positioned hbearing, pace_of_not_goes hstay, hhalt]
  change some (Except.ok (w.arrive _)) = _
  rw [← h.commit]
  rfl

/-- Pressing on changes the path at most, and setting the trail only the trail. -/
theorem step (h : w.Touches distance) {op : Operation} (hop : Presses w.config.speed distance op) {fuel : Nat}
    {result : Except WorldError Effect} (hperform : op.perform fuel w = some result) :
    ∃ trail, (Transition.mk w op result).after = { w with
      trail, path := w.path ++ Array.replicate op.isMove.toNat (w.pose.x, w.pose.y) } := by
  cases hop with
  | move hside hfar =>
      obtain ⟨b, hbearing⟩ := h.bearing
      obtain ⟨events, hmove⟩ := h.press hside hfar
      cases fuel with
      | zero =>
          rw [Operation.perform, move_eq h.positioned hbearing] at hperform
          cases hperform
      | succ fuel =>
          rw [Operation.perform, hmove] at hperform
          cases hperform
          exact ⟨w.trail, rfl⟩
  | feel sensor =>
      refine ⟨w.trail, ?_⟩
      obtain rfl := Option.some.inj hperform
      simp only [Operation.isMove, Bool.toNat_false, Array.replicate_zero, Array.append_empty]
      cases w.feel sensor with
      | error e => rfl
      | ok b => rfl
  | setTrail enabled =>
      obtain rfl := Option.some.inj hperform
      simp only [Operation.isMove, Bool.toNat_false, Array.replicate_zero, Array.append_empty]
      exact ⟨enabled, rfl⟩

theorem history (h : w.Touches distance) {us : List Transition} {w' : World} (hus : History w us w')
    (hpress : ∀ t ∈ us, Presses w.config.speed distance t.operation) :
    ∃ trail, w' = { w with
      trail, path := w.path ++ Array.replicate (us.countP (·.operation.isMove)) (w.pose.x, w.pose.y) } := by
  induction hus with
  | nil => exact ⟨w.trail, by simp⟩
  | @snoc us t fuel hist hperform ih =>
      obtain ⟨trail, hbefore⟩ := ih fun u hu => hpress u (List.mem_append_left _ hu)
      have hop := hpress t (List.mem_append_right _ List.mem_cons_self)
      obtain ⟨before, op, result⟩ := t
      dsimp only at hbefore hop hperform
      subst hbefore
      obtain ⟨trail', hafter⟩ := (h.congr trail _).step (w := { w with trail, path := _ }) hop hperform
      refine ⟨trail', ?_⟩
      rw [hafter, List.countP_append, List.countP_singleton, ← Array.replicate_append_replicate, ← Array.append_assoc]
      cases op.isMove <;> rfl

end Touches

theorem bearing_of_move {w : World} {fuel : Nat} {distance : Float} {change : Change Unit}
    (hmove : w.move fuel distance = some (.ok change)) :
    w.positioned = true ∧ ∃ b, bearing w.pose.heading = .ok b := by
  unfold move at hmove
  split at hmove
  · rename_i hpositioned
    refine ⟨hpositioned, ?_⟩
    split at hmove
    · cases hmove
    · exact ⟨_, by assumption⟩
  · cases hmove

theorem blocked_of_halt {w : World} {distance : Float} {s : Stance} {steps : Nat} {m : Motion}
    (hhalt : w.halt distance s steps = .ok m) (hstop : ¬ w.Goes distance s) (hblocked : m.blocked = true) :
    m = ⟨s.x, s.y, steps, true⟩ ∧
      w.isBlocked ((w.course distance).next s).x ((w.course distance).next s).y = .ok true := by
  unfold halt at hhalt
  split_ifs at hhalt with hway
  · cases htest : w.isBlocked ((w.course distance).next s).x ((w.course distance).next s).y with
    | error e =>
        rw [htest] at hhalt
        cases hhalt
    | ok b =>
        cases b with
        | false => exact absurd ⟨hway, htest⟩ hstop
        | true =>
            rw [htest] at hhalt
            exact ⟨(Except.ok.inj hhalt).symm, rfl⟩
  · cases hhalt
    cases hblocked

/-- Where a movement that was stopped has stopped. -/
theorem stopped_of_move {w : World} {fuel : Nat} {distance : Float} {change : Change Unit}
    (hmove : w.move fuel distance = some (.ok change)) {steps : Nat} {x y : Float}
    (hstopped : .stopped steps x y ∈ change.events) :
    x = (w.stanceAfter distance steps).x ∧ y = (w.stanceAfter distance steps).y ∧
      w.isBlocked (w.stanceAfter distance (steps + 1)).x (w.stanceAfter distance (steps + 1)).y = .ok true ∧
      change.world = (w.commit x y w.pose.heading).1 := by
  obtain ⟨hpositioned, b, hbearing⟩ := bearing_of_move hmove
  rw [move_eq hpositioned hbearing] at hmove
  obtain ⟨r, hpace, hr⟩ := Option.map_eq_some_iff.1 hmove
  obtain ⟨k, -, -, hstop, rfl⟩ := pace_eq_some hpace
  rw [Nat.zero_add] at hr
  cases hhalt : w.halt distance ((w.course distance).next^[k] (w.start distance)) k with
  | error e =>
      rw [hhalt] at hr
      cases hr
  | ok m =>
      rw [hhalt] at hr
      cases hr
      obtain ⟨hblocked, hplace⟩ : m.blocked = true ∧ .stopped steps x y = WorldEvent.stopped m.steps m.x m.y := by
        simp only [arrive, World.commit] at hstopped
        split at hstopped
        · exact ⟨by assumption, by simpa using hstopped⟩
        · simp at hstopped
      cases hplace
      obtain ⟨rfl, htest⟩ := blocked_of_halt hhalt hstop hblocked
      rw [stanceAfter_succ]
      exact ⟨rfl, rfl, htest, rfl⟩

theorem toSingle_stanceAfter {w : World} (h : w.Settled) (distance : Float) (steps : Nat) :
    toSingle (w.stanceAfter distance steps).x = (w.stanceAfter distance steps).x ∧
      toSingle (w.stanceAfter distance steps).y = (w.stanceAfter distance steps).y := by
  cases steps with
  | zero => exact ⟨h.single_x, h.single_y⟩
  | succ steps =>
      rw [stanceAfter_succ]
      exact ⟨toSingle_toSingle _, toSingle_toSingle _⟩

/-- A movement that something has stopped with a whole step to go leaves the robot in contact with it. -/
theorem touches_of_move {w : World} (hsettled : w.Settled) (hheading : toSingle w.pose.heading = w.pose.heading)
    {fuel : Nat} {distance : Float} {change : Change Unit} (hmove : w.move fuel distance = some (.ok change))
    {steps : Nat} {x y : Float} (hstopped : .stopped steps x y ∈ change.events)
    (hwhole : w.config.speed ≤ (w.stanceAfter distance steps).remaining) :
    change.world.Touches distance ∧ change.world.config = w.config ∧ change.world.pose = ⟨x, y, w.pose.heading⟩ := by
  obtain ⟨hpositioned, hbearing⟩ := bearing_of_move hmove
  obtain ⟨hx, hy, hblocked, hworld⟩ := stopped_of_move hmove hstopped
  obtain ⟨hsingleX, hsingleY⟩ := toSingle_stanceAfter hsettled distance steps
  rw [← hx] at hsingleX
  rw [← hy] at hsingleY
  have hworld' : change.world = w.placeAt x y w.pose.heading := by
    rw [hworld, commit_fst hpositioned, hsingleX, hsingleY, hheading]
  have hstride : (w.course distance).stride (w.stanceAfter distance steps)
      = w.config.speed * (w.course distance).direction := Course.stride_of_le hwhole
  rw [stanceAfter_succ, Course.next, hstride, ← hx, ← hy] at hblocked
  rw [hworld']
  exact ⟨⟨rfl, hbearing, hsingleX, hsingleY, hheading, hblocked⟩, rfl, rfl⟩

/-- A robot that has been stopped with at least a step to go is where it is, however often it tries to go on. After any
movements by at least a step in the same direction, and any use of the sensors and the trail in between, the world is the
one after the stop but for the trail and for the same place at the end of the path, once for each movement; and another
such movement ends at once and adds that place again. -/
theorem contact_is_stable {c : Config} {ts : List Transition} {w : World} (h : History (initial c) ts w) {fuel : Nat}
    {distance : Float} {after : World} {events : List WorldEvent}
    (hmove : w.move fuel distance = some (.ok ⟨(), after, events⟩)) {steps : Nat} {x y : Float}
    (hstopped : .stopped steps x y ∈ events) (hwhole : c.speed ≤ (w.stanceAfter distance steps).remaining)
    {us : List Transition} {w' : World} (hus : History after us w')
    (hpress : ∀ t ∈ us, Presses c.speed distance t.operation) :
    after.pose = ⟨x, y, w.pose.heading⟩ ∧
      (∃ trail, w' = { after with
        trail, path := after.path ++ Array.replicate (us.countP (·.operation.isMove)) (x, y) }) ∧
      ∀ distance' : Float, (distance' ≥ 0.0 ↔ distance ≥ 0.0) → c.speed ≤ distance'.abs →
        ∃ events, ∀ fuel, w'.move (fuel + 1) distance' =
          some (.ok ⟨(), { w' with path := w'.path.push (x, y) }, events⟩) := by
  obtain rfl : c = w.config := h.config_eq.symm
  obtain ⟨htouches, hconfig, hpose⟩ := touches_of_move h.settled h.oriented.single hmove hstopped hwhole
  dsimp only at htouches hconfig hpose
  rw [← hconfig] at hpress
  obtain ⟨trail, rfl⟩ := htouches.history hus hpress
  obtain ⟨rfl, rfl⟩ : after.pose.x = x ∧ after.pose.y = y := by simp [hpose]
  refine ⟨hpose, ⟨trail, rfl⟩, fun distance' hside hfar => ?_⟩
  exact (htouches.congr trail _).press hside (hconfig ▸ hfar)

theorem eq_some_get {r : Option (Except WorldError (Change Unit))} (h : (r.bind Except.toOption).isSome = true) :
    r = some (.ok ⟨(), ((r.bind Except.toOption).get h).world, ((r.bind Except.toOption).get h).events⟩) := by
  rcases r with _ | _ | change
  · cases h
  · cases h
  · rfl

namespace Facing

/-- A robot that faces an obstacle. -/
def operations : List Operation := [.addObstacle 10.0 5.0 2.0 2.0, .setPose 5.0 5.0 0.0]

/-- What the robot does once it has met the obstacle. -/
def pressing : List Operation := [.move 3.0, .feel 0, .setTrail true, .feel 9, .move 1.0]

theorem ends : ((initial fastConfig).play 0 operations).isSome = true := by decide +kernel

def world : World := (((initial fastConfig).play 0 operations).get ends).2

theorem meets : ((world.move 10 10.0).bind Except.toOption).isSome = true := by decide +kernel

def met : Change Unit := ((world.move 10 10.0).bind Except.toOption).get meets

theorem pressing_ends : (met.world.play 1 pressing).isSome = true := by decide +kernel

def pressed : List Transition × World := (met.world.play 1 pressing).get pressing_ends

/-- The world is reached, left by the movement, and left again by the pressing. -/
theorem played : (∃ ts, History (initial fastConfig) ts world) ∧
    world.move 10 10.0 = some (.ok ⟨(), met.world, met.events⟩) ∧ History met.world pressed.1 pressed.2 := by
  refine ⟨?_, ?_, ?_⟩
  · unfold world
    exact ⟨_, History.of_isSome ends⟩
  · unfold met
    exact eq_some_get meets
  · unfold pressed
    exact History.of_isSome pressing_ends

/-- What comes of the movement and of the pressing. -/
theorem outcome : (.stopped 2 7.0 5.0 ∈ met.events ∧ met.world.path = #[(5.0, 5.0), (7.0, 5.0)] ∧
      fastConfig.speed ≤ (world.stanceAfter 10.0 2).remaining) ∧
    pressed.1.map Transition.operation = pressing ∧
      pressed.2.path = #[(5.0, 5.0), (7.0, 5.0), (7.0, 5.0), (7.0, 5.0)] ∧ pressed.2.trail = true := by decide +kernel

/-- The movements are forwards, and by at least a step. -/
theorem forwards : ∀ d ∈ [3.0, 1.0, 2.5], (d ≥ 0.0 ↔ (10.0 : Float) ≥ 0.0) ∧ fastConfig.speed ≤ d.abs := by decide +kernel

theorem presses : ∀ t ∈ pressed.1, Presses fastConfig.speed 10.0 t.operation := by
  have hmove {d : Float} (hd : d ∈ [3.0, 1.0, 2.5]) : Presses fastConfig.speed 10.0 (.move d) :=
    .move (forwards d hd).1 (forwards d hd).2
  intro t ht
  have hmem : t.operation ∈ pressing := outcome.2.1 ▸ List.mem_map_of_mem ht
  simp only [pressing, List.mem_cons, List.not_mem_nil, or_false] at hmem
  rcases hmem with h | h | h | h | h <;> rw [h]
  · exact hmove List.mem_cons_self
  · exact .feel 0
  · exact .setTrail true
  · exact .feel 9
  · exact hmove (List.mem_cons_of_mem _ List.mem_cons_self)

theorem stays_in_contact :
    .stopped 2 7.0 5.0 ∈ met.events ∧ met.world.path = #[(5.0, 5.0), (7.0, 5.0)] ∧
      pressed.2.path = #[(5.0, 5.0), (7.0, 5.0), (7.0, 5.0), (7.0, 5.0)] ∧ pressed.2.trail = true ∧
      met.world.pose = ⟨7.0, 5.0, world.pose.heading⟩ ∧ ∃ events, ∀ fuel, pressed.2.move (fuel + 1) 2.5 =
        some (.ok ⟨(), ⟨pressed.2.config, pressed.2.pose, pressed.2.positioned, pressed.2.trail, pressed.2.obstacles,
          pressed.2.path.push (7.0, 5.0)⟩, events⟩) := by
  obtain ⟨⟨hstopped, hmet, hwhole⟩, -, hpressed, htrail⟩ := outcome
  obtain ⟨⟨ts, hhistory⟩, hmove, hpressing⟩ := played
  obtain ⟨hpose, -, hagain⟩ := contact_is_stable hhistory hmove hstopped hwhole hpressing presses
  obtain ⟨hside, hfar⟩ := forwards 2.5 (List.mem_of_getElem? (i := 2) rfl)
  exact ⟨hstopped, hmet, hpressed, htrail, hpose, hagain 2.5 hside hfar⟩

end Facing

end World

end Rover
