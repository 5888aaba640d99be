import Rover.Proofs.Single
import Rover.World.Basic

/-!
# Histories of a world

A world changes by operations, one after another. A history is the list of the operations that were tried, each with the
world before it and how it ended; an operation that fails leaves the world as it was. What one operation does when it
succeeds is said once, by `Succeeds`, and every invariant of a history is read off that.
-/

namespace Rover

/-- A world after an operation, and what there is to tell about the change. -/
structure Effect where
  world : World
  events : List WorldEvent

def Change.effect {α : Type} (c : Change α) : Effect := ⟨c.world, c.events⟩

inductive Operation where
  | setPose (x y degrees : Float)
  | move (distance : Float)
  | turn (degrees : Float)
  | addObstacle (x y sizeX sizeY : Float)
  | setTrail (enabled : Bool)
  | feel (sensor : Int)
  deriving DecidableEq

/-- How an operation ends in a world. The answer is `none` if the fuel does not last, which is possible for movements
only. -/
def Operation.perform (fuel : Nat) (w : World) : Operation → Option (Except WorldError Effect)
  | setPose x y degrees => some ((w.setPose x y degrees).map Change.effect)
  | move distance => (w.move fuel distance).map (·.map Change.effect)
  | turn degrees => some ((w.turn degrees).map Change.effect)
  | addObstacle x y sizeX sizeY => some ((w.addObstacle x y sizeX sizeY).map Change.effect)
  | setTrail enabled => some (.ok (w.setTrail enabled).effect)
  | feel sensor => some ((w.feel sensor).map fun _ => ⟨w, []⟩)

/-- An operation that was tried in a world, and how it ended. -/
structure Transition where
  before : World
  operation : Operation
  result : Except WorldError Effect

namespace Transition

def after (t : Transition) : World :=
  match t.result with
  | .ok e => e.world
  | .error _ => t.before

def events (t : Transition) : List WorldEvent :=
  match t.result with
  | .ok e => e.events
  | .error _ => []

theorem after_of_ok {t : Transition} {e : Effect} (h : t.result = .ok e) : t.after = e.world := by
  rw [after, h]

theorem after_of_error {t : Transition} {err : WorldError} (h : t.result = .error err) : t.after = t.before := by
  rw [after, h]

end Transition

namespace World

/-- `History w ts w'`: the operations of `ts`, tried one after another from `w` on, lead to `w'`. -/
inductive History (start : World) : List Transition → World → Prop
  | nil : History start [] start
  | snoc {ts : List Transition} {t : Transition} (fuel : Nat) : History start ts t.before →
      t.operation.perform fuel t.before = some t.result → History start (ts ++ [t]) t.after

theorem History.append {a b c : World} {ts us : List Transition} (h : History a ts b) (h' : History b us c) :
    History a (ts ++ us) c := by
  induction h' with
  | nil => rwa [List.append_nil]
  | snoc fuel _ hperform ih =>
      rw [← List.append_assoc]
      exact ih.snoc fuel hperform

theorem History.single {t : Transition} {fuel : Nat} (h : t.operation.perform fuel t.before = some t.result) :
    History t.before [t] t.after :=
  History.nil.snoc fuel h

theorem History.of_snoc {start w : World} {ts : List Transition} {t : Transition} (h : History start (ts ++ [t]) w) :
    w = t.after ∧ ∃ fuel, t.operation.perform fuel t.before = some t.result := by
  generalize hus : ts ++ [t] = us at h
  cases h with
  | nil => simp at hus
  | snoc fuel _ hperform =>
      obtain ⟨-, ht⟩ := List.append_inj' hus rfl
      cases ht
      exact ⟨rfl, fuel, hperform⟩

theorem History.truncate {start w : World} {ts us : List Transition} (h : History start ts w) (hus : us <+: ts) :
    ∃ w', History start us w' := by
  induction h with
  | nil =>
      rw [List.prefix_nil.1 hus]
      exact ⟨start, .nil⟩
  | snoc fuel hist hperform ih =>
      rcases List.prefix_concat_iff.1 hus with rfl | hus
      · exact ⟨_, hist.snoc fuel hperform⟩
      · exact ih hus

/-- Tries operations one after another. -/
def play (fuel : Nat) : List Operation → World → Option (List Transition × World)
  | [], w => some ([], w)
  | op :: ops, w => do
    let result ← op.perform fuel w
    let t : Transition := ⟨w, op, result⟩
    let (ts, w') ← play fuel ops t.after
    return (t :: ts, w')

theorem History.of_play {fuel : Nat} {ops : List Operation} {w w' : World} {ts : List Transition}
    (h : w.play fuel ops = some (ts, w')) : History w ts w' := by
  induction ops generalizing w ts with
  | nil =>
      cases h
      exact .nil
  | cons op ops ih =>
      obtain ⟨result, hresult, h⟩ := Option.bind_eq_some_iff.1 h
      obtain ⟨⟨us, w''⟩, hplay, h⟩ := Option.bind_eq_some_iff.1 h
      cases h
      exact (History.single (t := ⟨w, op, result⟩) hresult).append (ih hplay)

theorem History.of_isSome {fuel : Nat} {ops : List Operation} {w : World} (h : (w.play fuel ops).isSome = true) :
    History w ((w.play fuel ops).get h).1 ((w.play fuel ops).get h).2 :=
  .of_play (Option.some_get h).symm

/-! ### The end of a movement -/

/-- A place in single precision where the robot may be. -/
structure Free (w : World) (x y : Float) : Prop where
  single_x : toSingle x = x
  single_y : toSingle y = y
  valid : w.isValidPosition x y = true
  clear : w.collides x y = .ok false

theorem free_of_isBlocked {w : World} {x y : Float} (h : w.isBlocked (toSingle x) (toSingle y) = .ok false) :
    w.Free (toSingle x) (toSingle y) := by
  unfold isBlocked at h
  split at h
  · rename_i hvalid
    exact ⟨toSingle_toSingle x, toSingle_toSingle y, hvalid, h⟩
  · cases h

theorem advance_free {w : World} {cos sin direction : Float} {fuel : Nat} {remaining x y : Float} {steps : Nat}
    {m : Motion} (h : w.advance cos sin direction fuel remaining x y steps = some (.ok m)) :
    (m.x = x ∧ m.y = y) ∨ w.Free m.x m.y := by
  -- each step taken ends at a free place, so only the place of the first one may be something else
  induction fuel generalizing remaining x y steps with
  | zero => cases h
  | succ fuel ih =>
      unfold advance at h
      split at h
      · dsimp only at h
        split at h
        · cases h
        · cases h
          exact .inl ⟨rfl, rfl⟩
        · rename_i hfree
          rcases ih h with ⟨hx, hy⟩ | hend
          · rw [hx, hy]
            exact .inr (free_of_isBlocked hfree)
          · exact .inr hend
      · cases h
        exact .inl ⟨rfl, rfl⟩

/-- A movement by a distance ends with this motion. -/
def Ends (w : World) (distance : Float) (m : Motion) : Prop :=
  ∃ fuel, w.advance (cosine (radians w.pose.heading)) (sine (radians w.pose.heading))
    (if distance ≥ 0.0 then 1.0 else -1.0) fuel distance.abs w.pose.x w.pose.y 0 = some (.ok m)

theorem Ends.free {w : World} {distance : Float} {m : Motion} (h : w.Ends distance m) :
    (m.x = w.pose.x ∧ m.y = w.pose.y) ∨ w.Free m.x m.y := by
  obtain ⟨fuel, hadvance⟩ := h
  exact advance_free hadvance

/-! ### What a successful operation does -/

/-- Puts the robot at a place. -/
def placeAt (w : World) (x y heading : Float) : World :=
  { w with pose := ⟨x, y, heading⟩, positioned := true, path := w.path.push (x, y) }

@[simp] theorem placeAt_pose (w : World) (x y heading : Float) : (w.placeAt x y heading).pose = ⟨x, y, heading⟩ := rfl

theorem commit_fst {w : World} (hpositioned : w.positioned = true) (x y heading : Float) :
    (w.commit x y heading).1 = w.placeAt (toSingle x) (toSingle y) (toSingle heading) := by
  rw [placeAt, ← hpositioned]
  rfl

/-- The successful operations, with their conditions and their effects. -/
inductive Succeeds (w : World) : Operation → Effect → Prop
  | setPose {x y degrees : Float} (hvalid : w.isValidPosition (toSingle x) (toSingle y) = true) :
      Succeeds w (.setPose x y degrees)
        ⟨w.placeAt (toSingle x) (toSingle y) (toSingle (heading degrees)),
          .position ⟨toSingle x, toSingle y, toSingle (heading degrees)⟩ ::
            ((if w.positioned then [] else [.positioned]) ++ [.placed ⟨toSingle x, toSingle y, heading degrees⟩])⟩
  | move {distance : Float} {m : Motion} (hpositioned : w.positioned = true) (hend : w.Ends distance m) :
      Succeeds w (.move distance)
        ⟨w.placeAt (toSingle m.x) (toSingle m.y) (toSingle w.pose.heading),
          (if m.blocked then [.stopped m.steps m.x m.y] else []) ++
            [.position ⟨toSingle m.x, toSingle m.y, toSingle w.pose.heading⟩]⟩
  | turn {degrees : Float} (hpositioned : w.positioned = true) :
      Succeeds w (.turn degrees)
        ⟨w.placeAt (toSingle w.pose.x) (toSingle w.pose.y) (toSingle (heading (w.pose.heading + degrees))),
          [.position ⟨toSingle w.pose.x, toSingle w.pose.y, toSingle (heading (w.pose.heading + degrees))⟩]⟩
  | addObstacle {x y sizeX sizeY : Float} {o : Obstacle}
      (ho : o = ⟨toSingle x, toSingle y, toSingle sizeX, toSingle sizeY⟩)
      (hclear : w.positioned = true → intersects w.pose.x w.pose.y w.config.robotRadius o = .ok false)
      (hinside : w.sticksOut o = false) :
      Succeeds w (.addObstacle x y sizeX sizeY) ⟨{ w with obstacles := w.obstacles.push o }, [.obstacle o]⟩
  | setTrail {enabled : Bool} : Succeeds w (.setTrail enabled) ⟨{ w with trail := enabled }, [.trail enabled]⟩
  | feel {sensor : Int} : Succeeds w (.feel sensor) ⟨w, []⟩

theorem succeeds_setPose {w : World} {x y degrees : Float} {c : Change Bool} (h : w.setPose x y degrees = .ok c) :
    w.Succeeds (.setPose x y degrees) c.effect := by
  simp only [setPose] at h
  split at h
  · rename_i hvalid
    cases h
    convert Succeeds.setPose hvalid using 1
    simp only [Change.effect, commit, placeAt, toSingle_toSingle]
    cases w.positioned <;> rfl
  · cases h

theorem bearing_ok {degrees cos sin : Float} (h : bearing degrees = .ok (cos, sin)) :
    cos = cosine (radians degrees) ∧ sin = sine (radians degrees) := by
  unfold bearing at h
  dsimp only at h
  split at h
  · cases h
  · cases h
    exact ⟨rfl, rfl⟩

theorem succeeds_move {w : World} {fuel : Nat} {distance : Float} {c : Change Unit}
    (h : w.move fuel distance = some (.ok c)) : w.Succeeds (.move distance) c.effect := by
  unfold move at h
  split at h
  · rename_i hpositioned
    split at h
    · cases h
    rename_i cos sin hbearing
    obtain ⟨rfl, rfl⟩ := bearing_ok hbearing
    obtain ⟨r, hadvance, hr⟩ := Option.map_eq_some_iff.1 h
    cases r with
    | error e => cases hr
    | ok m =>
        cases hr
        convert Succeeds.move hpositioned ⟨fuel, hadvance⟩ using 1
        rw [← commit_fst hpositioned]
        simp only [Change.effect, arrive]
        cases m.blocked <;> rfl
  · cases h

theorem succeeds_turn {w : World} {degrees : Float} {c : Change Unit} (h : w.turn degrees = .ok c) :
    w.Succeeds (.turn degrees) c.effect := by
  unfold turn requirePositioned at h
  split at h
  · rename_i hpositioned
    cases h
    convert Succeeds.turn hpositioned using 1
    rw [← commit_fst hpositioned]
    rfl
  · cases h

theorem succeeds_addObstacle {w : World} {x y sizeX sizeY : Float} {c : Change Obstacle}
    (h : w.addObstacle x y sizeX sizeY = .ok c) : w.Succeeds (.addObstacle x y sizeX sizeY) c.effect := by
  unfold addObstacle at h
  generalize ho : Obstacle.mk (toSingle x) (toSingle y) (toSingle sizeX) (toSingle sizeY) = o at h
  have hclear : w.positioned = true → intersects w.pose.x w.pose.y w.config.robotRadius o = .ok false := by
    intro hpositioned
    simp only [hpositioned, if_true] at h
    cases hoverlap : intersects w.pose.x w.pose.y w.config.robotRadius o with
    | error e =>
        rw [hoverlap] at h
        cases h
    | ok overlap =>
        cases overlap with
        | false => rfl
        | true =>
            rw [hoverlap] at h
            cases h
  have hchecked : (if w.sticksOut o then .error WorldError.obstacleBounds
      else .ok ⟨o, { w with obstacles := w.obstacles.push o }, [.obstacle o]⟩) = Except.ok c := by
    rw [← h]
    by_cases hpositioned : w.positioned = true
    · rw [if_pos hpositioned, hclear hpositioned]
      rfl
    · rw [if_neg hpositioned]
      rfl
  split at hchecked
  · cases hchecked
  · rename_i hinside
    cases hchecked
    exact .addObstacle ho.symm hclear (Bool.eq_false_iff.2 hinside)

/-- An operation that ends well is one of the successful ones. -/
theorem succeeds_of_perform {w : World} {op : Operation} {fuel : Nat} {e : Effect}
    (h : op.perform fuel w = some (.ok e)) : w.Succeeds op e := by
  have hmap {α : Type} {r : Except WorldError α} {f : α → Effect} (hr : r.map f = .ok e) :
      ∃ a, r = .ok a ∧ f a = e := by
    cases r with
    | error err => cases hr
    | ok a => exact ⟨a, rfl, Except.ok.inj hr⟩
  cases op with
  | setPose x y degrees =>
      obtain ⟨c, hc, rfl⟩ := hmap (Option.some.inj h)
      exact succeeds_setPose hc
  | move distance =>
      obtain ⟨r, hmove, hr⟩ := Option.map_eq_some_iff.1 h
      obtain ⟨c, rfl, rfl⟩ := hmap hr
      exact succeeds_move hmove
  | turn degrees =>
      obtain ⟨c, hc, rfl⟩ := hmap (Option.some.inj h)
      exact succeeds_turn hc
  | addObstacle x y sizeX sizeY =>
      obtain ⟨c, hc, rfl⟩ := hmap (Option.some.inj h)
      exact succeeds_addObstacle hc
  | setTrail enabled =>
      cases h
      exact .setTrail
  | feel sensor =>
      obtain ⟨b, _, rfl⟩ := hmap (Option.some.inj h)
      exact .feel

/-! ### Invariants -/

/-- What holds at the start and is kept by every success of the history holds at its end. -/
theorem History.invariant {P : World → Prop} {start w : World} {ts : List Transition} (h : History start ts w)
    (hstart : P start)
    (hstep : ∀ t ∈ ts, ∀ e, t.result = .ok e → t.before.Succeeds t.operation e → P t.before → P e.world) : P w := by
  induction h with
  | nil => exact hstart
  | @snoc ts t fuel _ hperform ih =>
      have hbefore : P t.before := ih fun t' ht' => hstep t' (List.mem_append_left _ ht')
      cases hresult : t.result with
      | error err => rwa [Transition.after_of_error hresult]
      | ok e =>
          rw [Transition.after_of_ok hresult]
          rw [hresult] at hperform
          exact hstep t (List.mem_append_right _ List.mem_cons_self) e hresult (succeeds_of_perform hperform) hbefore

/-- Every operation of a history ends in a failure or as one of the successful ones. -/
theorem History.succeeds {start w : World} {ts : List Transition} (h : History start ts w) {t : Transition}
    (ht : t ∈ ts) {e : Effect} (hresult : t.result = .ok e) : t.before.Succeeds t.operation e := by
  induction h with
  | nil => cases ht
  | @snoc ts t' fuel _ hperform ih =>
      rcases List.mem_append.1 ht with ht | ht
      · exact ih ht
      · cases List.mem_singleton.1 ht
        rw [hresult] at hperform
        exact succeeds_of_perform hperform

end World

end Rover
