import Rover.Proofs.Magnitude
import Rover.Proofs.Motion

/-!
# Movements that do not end

There are finitely many stances, so a movement that does not end comes to one of them twice. In the meantime the distance
that is left has not grown and each coordinate has gone one way only; hence nothing has changed at all. A movement does not
end exactly if it comes to a stance at which a whole step is lost, in the distance that is left as in the place:
`move_ends_iff_never_stalls`.
-/

namespace Rover

instance finite_float : Finite Float := Finite.of_injective (fun x : Float => x.toBits.toFin) fun _ _ h =>
  Decimal.eq_of_toBits_eq (beq_iff_eq.2 (UInt64.toFin_inj.1 h))

instance finite_stance : Finite Stance := Finite.of_injective (fun s : Stance => (s.remaining, s.x, s.y)) fun _ _ h =>
  Stance.ext (congrArg Prod.fst h) (congrArg (·.2.1) h) (congrArg (·.2.2) h)

theorem eq_infinity {x : Float} {neg : Bool} (h : parts x = .infinite neg) : x = infinity neg :=
  parts_injective (h.trans (parts_infinity neg).symm)

theorem value_le_of_magnitude_le {x y : Float} (hx : 0.0 < x) (hfy : y.isFinite = true) (h : magnitude x ≤ magnitude y) :
    x.isFinite = true ∧ value x ≤ |value y| := by
  rw [magnitude_eq_value hfy] at h
  rcases pos_iff.1 hx with hinf | ⟨m, q, hfinite, -⟩
  · rw [magnitude_of_infinite hinf] at h
    exact absurd h (WithTop.coe_lt_top _).not_ge
  · have hfx := isFinite_of_parts hfinite
    rw [magnitude_eq_value hfx, WithTop.coe_le_coe, abs_of_pos ((pos_iff_value hfx).1 hx)] at h
    exact ⟨hfx, h⟩

/-- An infinite number is lost in nothing. -/
theorem isFinite_of_sub_eq_self {x y : Float} (hx : 0.0 < x) (hy : 0.0 < y) (h : x - y = x) : y.isFinite = true := by
  rcases pos_iff.1 hy with hinf | ⟨m, q, hfinite, -⟩
  · have hneg : parts (-y) = .infinite true := by rw [parts_neg, hinf, Parts.neg, Bool.not_false]
    rcases pos_iff.1 hx with hx' | ⟨m, q, hx', -⟩
    · rw [eq_infinity hinf, eq_infinity hx'] at h
      exact absurd h (by decide +kernel)
    · have hparts := parts_add_infinite (isFinite_of_parts hx') hneg
      rw [Double.add_neg, h, hx'] at hparts
      cases hparts
  · exact isFinite_of_parts hfinite

theorem sub_self_ne {x : Float} (hx : 0.0 < x) : x - x ≠ x := by
  intro h
  have hfx := isFinite_of_sub_eq_self hx hx h
  have hvx := (pos_iff_value hfx).1 hx
  have hlost := lt_of_sub_eq_self hx hx hfx hfx h
  linarith

theorem value_units : |value 1.0| = 1 ∧ |value (-1.0)| = 1 := by
  have hone : parts 1.0 = .finite false (2 ^ 52) (-52) := by decide +kernel
  have hneg : parts (-1.0) = .finite true (2 ^ 52) (-52) := by decide +kernel
  rw [value_of_parts hone, value_of_parts hneg]
  norm_num [withSign]

theorem abs_mul_unit {x d : Float} (hx : 0.0 < x) (hd : d = 1.0 ∨ d = -1.0) : (x * d).abs = x := by
  rcases pos_iff.1 hx with hinf | ⟨m, q, hfinite, -⟩
  · rw [eq_infinity hinf]
    rcases hd with rfl | rfl <;> decide +kernel
  · have hfx := isFinite_of_parts hfinite
    have hfd : d.isFinite = true := by rcases hd with rfl | rfl <;> decide +kernel
    have hvd : |value d| = 1 := by
      rcases hd with rfl | rfl
      · exact value_units.1
      · exact value_units.2
    exact abs_eq_of_isNearest hx hfx (isNearest_mul hfx hfd)
      (by rw [abs_mul, hvd, mul_one, abs_of_pos ((pos_iff_value hfx).1 hx)])

/-! ### Coordinates of one direction -/

theorem magnitude_sub_le {x c : Float} (hx : 0.0 < x) (hnext : 0.0 < x - c.abs) : magnitude (x - c.abs) ≤ magnitude x := by
  rw [← Double.add_neg] at hnext ⊢
  exact magnitude_add_le hx hnext (Signed.abs c).neg

/-- Places that are reached by steps of one sign are in order. -/
theorem monotone_or_antitone {p c : Nat → Float} (hpos : ∀ k, 0.0 < p k) (hsingle : ∀ k, toSingle (p k) = p k)
    (hstep : ∀ k, p (k + 1) = toSingle (p k + c k)) {neg : Bool} (hsign : ∀ k, Signed neg (c k)) :
    Monotone (fun k => magnitude (p k)) ∨ Antitone (fun k => magnitude (p k)) := by
  have hsum (k : Nat) : 0.0 < p k + c k := pos_of_toSingle (hstep k ▸ hpos (k + 1))
  cases neg with
  | false =>
      refine .inl (monotone_nat_of_le_succ fun k => ?_)
      rw [hstep]
      exact magnitude_le_toSingle (hpos k) (hsingle k) (magnitude_le_add (hpos k) (hsum k) (hsign k))
  | true =>
      refine .inr (antitone_nat_of_succ_le fun k => ?_)
      rw [hstep]
      exact magnitude_toSingle_le (hpos k) (hsingle k) (magnitude_add_le (hpos k) (hsum k) (hsign k))

/-- What is in order and comes back has not moved. -/
theorem eq_succ_of_eq {p : Nat → Float} (hpos : ∀ k, 0.0 < p k)
    (horder : Monotone (fun k => magnitude (p k)) ∨ Antitone (fun k => magnitude (p k))) {i j : Nat} (hij : i < j)
    (heq : p i = p j) : p (i + 1) = p i := by
  refine eq_of_magnitude_eq (hpos _) (hpos _) ?_
  rcases horder with horder | horder
  · exact le_antisymm (heq ▸ horder hij) (horder i.le_succ)
  · exact le_antisymm (horder i.le_succ) (heq ▸ horder hij)

namespace World

theorem direction_cases (w : World) (distance : Float) :
    (w.course distance).direction = 1.0 ∨ (w.course distance).direction = -1.0 := by
  rw [course]
  split_ifs
  · exact .inl rfl
  · exact .inr rfl

/-- A whole step is lost at a free stance: the distance that is left is the same after it, and so is the place. -/
structure Stalls (w : World) (distance : Float) (s : Stance) : Prop where
  way : 0.0 < s.remaining
  whole : w.config.speed ≤ s.remaining
  remaining : s.remaining - w.config.speed = s.remaining
  x : toSingle (s.x + w.config.speed * (w.course distance).direction * (w.course distance).cos) = s.x
  y : toSingle (s.y + w.config.speed * (w.course distance).direction * (w.course distance).sin) = s.y
  free : w.isBlocked s.x s.y = .ok false

section Stance

variable {w : World} {distance : Float} {s : Stance}

theorem next_of_whole (hspeed : 0.0 < w.config.speed) (hwhole : w.config.speed ≤ s.remaining) :
    (w.course distance).next s = ⟨s.remaining - w.config.speed,
      toSingle (s.x + w.config.speed * (w.course distance).direction * (w.course distance).cos),
      toSingle (s.y + w.config.speed * (w.course distance).direction * (w.course distance).sin)⟩ := by
  have hstride : (w.course distance).stride s = w.config.speed * (w.course distance).direction :=
    Course.stride_of_le hwhole
  rw [Course.next, hstride, abs_mul_unit hspeed (w.direction_cases distance)]

/-- A movement goes on from a stance to the same one exactly if it stalls there. -/
theorem stalls_iff (hspeed : 0.0 < w.config.speed) :
    w.Stalls distance s ↔ w.Goes distance s ∧ (w.course distance).next s = s := by
  constructor
  · intro h
    have hnext : (w.course distance).next s = s := by
      rw [next_of_whole hspeed h.whole, h.remaining, h.x, h.y]
    exact ⟨⟨h.way, by rw [hnext, h.free]⟩, hnext⟩
  · rintro ⟨⟨hway, hfree⟩, hnext⟩
    have hwhole : w.config.speed ≤ s.remaining := by
      rw [← Double.not_lt_iff_le (Double.isNaN_of_lt hway).2 (Double.isNaN_of_lt hspeed).2]
      intro hlast
      have hleft : s.remaining - s.remaining = s.remaining := by
        have hstride : (w.course distance).stride s = s.remaining * (w.course distance).direction :=
          congrArg (· * _) (if_pos hlast)
        have hremaining := congrArg Stance.remaining hnext
        rwa [Course.next, hstride, abs_mul_unit hway (w.direction_cases distance)] at hremaining
      exact sub_self_ne hway hleft
    rw [hnext] at hfree
    rw [next_of_whole hspeed hwhole] at hnext
    exact ⟨hway, hwhole, congrArg Stance.remaining hnext, congrArg Stance.x hnext, congrArg Stance.y hnext, hfree⟩

end Stance

/-- A movement that goes on from every stance. -/
def Endless (w : World) (distance : Float) : Prop := ∀ k, w.Goes distance (w.stanceAfter distance k)

theorem valid_of_free {w : World} {x y : Float} (h : w.isBlocked x y = .ok false) : w.isValidPosition x y = true := by
  by_contra hinvalid
  rw [isBlocked, if_neg hinvalid] at h
  cases h

theorem pos_of_valid {w : World} (hc : w.config.Accepted) {x y : Float} (h : w.isValidPosition x y = true) :
    0.0 < x ∧ 0.0 < y := by
  have hreach : 0.0 < w.config.robotRadius + w.config.margin :=
    pos_add (hc.get_pos (f := .robotRadius) rfl) (hc.get_nonneg .margin)
  simp only [isValidPosition, Bool.and_eq_true, decide_eq_true_eq] at h
  obtain ⟨⟨⟨hx, -⟩, hy⟩, -⟩ := h
  exact ⟨pos_of_nonneg_sub hreach hx, pos_of_nonneg_sub hreach hy⟩

theorem signed_stride {c : Course} {s : Stance} (hspeed : 0.0 < c.speed) (hway : 0.0 < s.remaining) {neg : Bool}
    (hdirection : Signed neg c.direction) : Signed neg (c.stride s) := by
  have hlength : Signed false (if s.remaining < c.speed then s.remaining else c.speed) := by
    split_ifs
    · exact .of_pos hway
    · exact .of_pos hspeed
  rw [← Bool.false_xor neg]
  exact hlength.mul hdirection

namespace Endless

variable {w : World} {distance : Float} (h : w.Endless distance)

include h

theorem pos_remaining (k : Nat) : 0.0 < (w.stanceAfter distance k).remaining := (h k).1

theorem antitone_remaining : Antitone fun k => magnitude (w.stanceAfter distance k).remaining := by
  refine antitone_nat_of_succ_le fun k => ?_
  have hnext := h.pos_remaining (k + 1)
  rw [stanceAfter_succ] at hnext ⊢
  exact magnitude_sub_le (h.pos_remaining k) hnext

variable (hc : w.config.Accepted) (hsettled : w.Settled) (hpositioned : w.positioned = true)

include hc hsettled hpositioned

theorem pos_place (k : Nat) : 0.0 < (w.stanceAfter distance k).x ∧ 0.0 < (w.stanceAfter distance k).y := by
  apply pos_of_valid hc
  cases k with
  | zero => exact hsettled.valid_pose hpositioned
  | succ k =>
      rw [stanceAfter_succ]
      exact valid_of_free (h k).2

theorem place_in_order :
    (Monotone (fun k => magnitude (w.stanceAfter distance k).x) ∨
      Antitone (fun k => magnitude (w.stanceAfter distance k).x)) ∧
    (Monotone (fun k => magnitude (w.stanceAfter distance k).y) ∨
      Antitone (fun k => magnitude (w.stanceAfter distance k).y)) := by
  have hspeed : 0.0 < (w.course distance).speed := hc.get_pos (f := .speed) rfl
  have hpos := h.pos_place hc hsettled hpositioned
  have hsingle := toSingle_stanceAfter hsettled distance
  obtain ⟨neg, hdirection⟩ := Signed.exists_sign (w.course distance).direction
  obtain ⟨negX, hcos⟩ := Signed.exists_sign (w.course distance).cos
  obtain ⟨negY, hsin⟩ := Signed.exists_sign (w.course distance).sin
  have hstride (k : Nat) := signed_stride hspeed (h.pos_remaining k) hdirection
  constructor
  · refine monotone_or_antitone (fun k => (hpos k).1) (fun k => (hsingle k).1) (fun k => ?_) fun k => (hstride k).mul hcos
    rw [stanceAfter_succ]
    rfl
  · refine monotone_or_antitone (fun k => (hpos k).2) (fun k => (hsingle k).2) (fun k => ?_) fun k => (hstride k).mul hsin
    rw [stanceAfter_succ]
    rfl

/-- A movement that goes on for ever stalls. -/
theorem exists_stalls : ∃ k, w.Stalls distance (w.stanceAfter distance k) := by
  obtain ⟨i, j, hij, heq⟩ : ∃ i j, i < j ∧ w.stanceAfter distance i = w.stanceAfter distance j := by
    obtain ⟨i, j, hne, heq⟩ := Finite.exists_ne_map_eq_of_infinite (w.stanceAfter distance)
    rcases lt_or_gt_of_ne hne with hij | hij
    · exact ⟨i, j, hij, heq⟩
    · exact ⟨j, i, hij, heq.symm⟩
  have hpos := h.pos_place hc hsettled hpositioned
  obtain ⟨hx, hy⟩ := h.place_in_order hc hsettled hpositioned
  refine ⟨i, (stalls_iff (hc.get_pos (f := .speed) rfl)).2 ⟨h i, ?_⟩⟩
  rw [← stanceAfter_succ]
  have hremaining := eq_succ_of_eq h.pos_remaining (.inr h.antitone_remaining) hij (congrArg Stance.remaining heq)
  have hplaceX := eq_succ_of_eq (fun k => (hpos k).1) hx hij (congrArg Stance.x heq)
  have hplaceY := eq_succ_of_eq (fun k => (hpos k).2) hy hij (congrArg Stance.y heq)
  exact Stance.ext hremaining hplaceX hplaceY

end Endless

/-- A movement that has come to a stance at which it stalls goes on for ever. -/
theorem endless_of_stalls {w : World} {distance : Float} (hspeed : 0.0 < w.config.speed) {k : Nat}
    (hwalk : ∀ j < k, w.Goes distance (w.stanceAfter distance j)) (hstalls : w.Stalls distance (w.stanceAfter distance k)) :
    w.Endless distance := by
  obtain ⟨hgoes, hnext⟩ := (stalls_iff hspeed).1 hstalls
  have hstays (i : Nat) : w.stanceAfter distance (k + i) = w.stanceAfter distance k := by
    induction i with
    | zero => rfl
    | succ i ih => rw [← Nat.add_assoc, stanceAfter_succ, ih, hnext]
  intro j
  rcases Nat.lt_or_ge j k with hj | hj
  · exact hwalk j hj
  · obtain ⟨i, rfl⟩ := Nat.exists_eq_add_of_le hj
    rw [hstays]
    exact hgoes

theorem History.bearing_ok {c : Config} {ts : List Transition} {w : World} (h : History (initial c) ts w) :
    ∃ b, bearing w.pose.heading = .ok b := by
  by_cases hfinite : ∀ a ∈ angles ts, a.isFinite = true
  · exact bearing_of_finite (h.oriented.inTurn hfinite).isFinite
  · rw [h.oriented.lost hfinite]
    exact bearing_notANumber

theorem move_ends_iff {w : World} {distance : Float} (hpositioned : w.positioned = true) {b : Float × Float}
    (hbearing : bearing w.pose.heading = .ok b) :
    (∃ fuel result, w.move fuel distance = some result) ↔ ¬ w.Endless distance := by
  have hendless : w.Endless distance ↔ ∀ fuel, w.pace distance fuel (w.start distance) 0 = none := pace_eq_none_iff.symm
  rw [hendless, not_forall]
  refine exists_congr fun fuel => ?_
  rw [move_eq hpositioned hbearing, ← Option.isSome_iff_exists, Option.isSome_map, Option.isSome_iff_ne_none]

/-- The step is at least this part of a distance that it is lost in. -/
theorem Endless.far {w : World} (hspeed : 0.0 < w.config.speed) {distance : Float} (hendless : w.Endless distance) {k : Nat}
    (hstalls : w.Stalls distance (w.stanceAfter distance k)) (hfinite : distance.isFinite = true) :
    2 ^ 52 * value w.config.speed < |value distance| := by
  have hfs := isFinite_of_sub_eq_self hstalls.way hspeed hstalls.remaining
  have hle : magnitude (w.stanceAfter distance k).remaining ≤ magnitude (w.stanceAfter distance 0).remaining :=
    hendless.antitone_remaining k.zero_le
  rw [stanceAfter_zero, start, magnitude_abs] at hle
  obtain ⟨hfr, hvalue⟩ := value_le_of_magnitude_le hstalls.way hfinite hle
  exact (lt_of_sub_eq_self hstalls.way hspeed hfr hfs hstalls.remaining).trans_le hvalue

/-- The step along an axis is at most this part of an arena that it is lost in. -/
theorem lost_of_place {w : World} (hc : w.config.Accepted) (hsize : w.config.envSize.isFinite = true) {x step : Float}
    (hx : 0.0 < x) (hsingle : toSingle x = x)
    (hbound : x + (w.config.robotRadius + w.config.margin) ≤ w.config.envSize) (hlost : toSingle (x + step) = x) :
    step.isFinite = true ∧ (|value step| < 2 ^ (-149 : Int) ∨ 2 ^ 23 * |value step| < value w.config.envSize) := by
  have hreach : 0.0 < w.config.robotRadius + w.config.margin :=
    pos_add (hc.get_pos (f := .robotRadius) rfl) (hc.get_nonneg .margin)
  have hpos := pos_add hx (Double.le_of_lt hreach)
  have hfinite := isFinite_of_between (Double.le_of_lt hpos) hbound isFinite_literals.1 hsize
  obtain ⟨hfx, hvalue⟩ := value_le_of_magnitude_le hx hfinite (magnitude_le_add hx hpos (.of_pos hreach))
  rw [abs_of_pos ((pos_iff_value hfinite).1 hpos)] at hvalue
  obtain ⟨hfstep, hsmall⟩ := lt_of_toSingle_add_eq_self hx hsingle hfx hlost
  refine ⟨hfstep, hsmall.imp_right fun hsmall => hsmall.trans_le (hvalue.trans ?_)⟩
  exact (le_iff_value hfinite hsize).1 hbound

/-- A step along an axis that is lost nowhere in an arena of this size. -/
def Outruns (size step : Float) : Prop :=
  step.isFinite = true → 2 ^ (-149 : Int) ≤ |value step| ∧ value size ≤ 2 ^ 23 * |value step|

/-- Wherever a movement stalls, its step is lost along both axes. -/
theorem Stalls.not_outruns {w : World} (hc : w.config.Accepted) (hsize : w.config.envSize.isFinite = true) {distance : Float}
    {s : Stance} (h : w.Stalls distance s) :
    ¬ Outruns w.config.envSize (w.config.speed * (w.course distance).direction * (w.course distance).cos) ∧
      ¬ Outruns w.config.envSize (w.config.speed * (w.course distance).direction * (w.course distance).sin) := by
  have hvalid := valid_of_free h.free
  obtain ⟨hx, hy⟩ := pos_of_valid hc hvalid
  have hsingleX : toSingle s.x = s.x := by rw [← h.x, toSingle_toSingle]
  have hsingleY : toSingle s.y = s.y := by rw [← h.y, toSingle_toSingle]
  simp only [isValidPosition, Bool.and_eq_true, decide_eq_true_eq] at hvalid
  obtain ⟨⟨⟨-, hboundX⟩, -⟩, hboundY⟩ := hvalid
  have hlost {step : Float} (hstep : step.isFinite = true ∧
      (|value step| < 2 ^ (-149 : Int) ∨ 2 ^ 23 * |value step| < value w.config.envSize)) :
      ¬ Outruns w.config.envSize step := by
    intro houtruns
    obtain ⟨hleast, hlarge⟩ := houtruns hstep.1
    rcases hstep.2 with hsmall | hsmall
    · exact hsmall.not_ge hleast
    · exact hsmall.not_ge hlarge
  exact ⟨hlost (lost_of_place hc hsize hx hsingleX hboundX h.x), hlost (lost_of_place hc hsize hy hsingleY hboundY h.y)⟩

/-- A movement of a placed robot ends if and only if it comes to no stance at which it stalls. So it ends if its distance is
not a number, or at most so many steps; and whatever its distance, if in a finite arena the step is nowhere lost along one of
the axes. -/
theorem move_ends_iff_never_stalls {c : Config} (hc : c.Accepted) {ts : List Transition} {w : World}
    (h : History (initial c) ts w) (hpositioned : w.positioned = true) (distance : Float) :
    ((∃ fuel result, w.move fuel distance = some result) ↔
        ¬ ∃ k, (∀ j < k, w.Goes distance (w.stanceAfter distance j)) ∧ w.Stalls distance (w.stanceAfter distance k)) ∧
      (distance.isNaN = true ∨
          (c.speed.isFinite = true → distance.isFinite = true ∧ |value distance| ≤ 2 ^ 52 * value c.speed) →
        ∃ fuel result, w.move fuel distance = some result) ∧
      (c.envSize.isFinite = true →
        Outruns c.envSize (c.speed * (w.course distance).direction * (w.course distance).cos) ∨
          Outruns c.envSize (c.speed * (w.course distance).direction * (w.course distance).sin) →
        ∃ fuel result, w.move fuel distance = some result) := by
  obtain rfl : c = w.config := h.config_eq.symm
  obtain ⟨b, hbearing⟩ := h.bearing_ok
  have hspeed : 0.0 < w.config.speed := hc.get_pos (f := .speed) rfl
  rw [move_ends_iff hpositioned hbearing]
  refine ⟨not_congr ⟨fun hendless => ?_, ?_⟩, fun hdistance hendless => ?_, fun hsize houtruns hendless => ?_⟩
  · obtain ⟨k, hstalls⟩ := hendless.exists_stalls hc h.settled hpositioned
    exact ⟨k, fun j _ => hendless j, hstalls⟩
  · rintro ⟨k, hwalk, hstalls⟩
    exact endless_of_stalls hspeed hwalk hstalls
  · rcases hdistance with hnan | hdistance
    · have hway : 0.0 < distance.abs := hendless.pos_remaining 0
      have hparts : parts distance.abs = .nan := by rw [parts_abs, isNaN_iff.1 hnan, Parts.abs]
      exact absurd (Double.isNaN_of_lt hway).2 (by rw [isNaN_iff.2 hparts]; decide)
    · obtain ⟨k, hstalls⟩ := hendless.exists_stalls hc h.settled hpositioned
      obtain ⟨hfinite, hnear⟩ := hdistance (isFinite_of_sub_eq_self hstalls.way hspeed hstalls.remaining)
      exact (hendless.far hspeed hstalls hfinite).not_ge hnear
  · obtain ⟨k, hstalls⟩ := hendless.exists_stalls hc h.settled hpositioned
    obtain ⟨hx, hy⟩ := hstalls.not_outruns hc hsize
    exact houtruns.elim hx hy

namespace Crawling

/-- Steps that are lost in nearly everything. -/
def config : Config := { Config.default with speed := 1e-30 }

theorem accepted : config.Accepted := ⟨fun f => if f = .speed then some (.number 1e-30) else none, by decide +kernel⟩

theorem ends : ((initial config).play 0 [.setPose 25.0 25.0 0.0]).isSome = true := by decide +kernel

def world : World := (((initial config).play 0 [.setPose 25.0 25.0 0.0]).get ends).2

theorem placed : (∃ ts, History (initial config) ts world) ∧ world.positioned = true := by
  constructor
  · unfold world
    exact ⟨_, History.of_isSome ends⟩
  · decide +kernel

/-- The robot gets nowhere on its way of a few billionths. -/
theorem stalls : world.Stalls 7.450580596923828e-09 (world.start 7.450580596923828e-09) := by
  have hlost : let c := world.course 7.450580596923828e-09
      (0.0 : Float) < 7.450580596923828e-09 ∧ world.config.speed ≤ 7.450580596923828e-09 ∧
        7.450580596923828e-09 - world.config.speed = 7.450580596923828e-09 ∧
        toSingle (world.pose.x + world.config.speed * c.direction * c.cos) = world.pose.x ∧
        toSingle (world.pose.y + world.config.speed * c.direction * c.sin) = world.pose.y ∧
        world.isBlocked world.pose.x world.pose.y = .ok false ∧
        Float.abs 7.450580596923828e-09 = 7.450580596923828e-09 := by decide +kernel
  obtain ⟨hway, hwhole, hremaining, hx, hy, hfree, habs⟩ := hlost
  rw [start, habs]
  exact ⟨hway, hwhole, hremaining, hx, hy, hfree⟩

/-- A way of a billion steps ends, and this much longer one does not. -/
theorem ends_if_near : (∃ fuel result, world.move fuel 1e-21 = some result) ∧
    ¬ ∃ fuel result, world.move fuel 7.450580596923828e-09 = some result := by
  obtain ⟨⟨ts, hhistory⟩, hpositioned⟩ := placed
  constructor
  · obtain ⟨-, hnear, -⟩ := move_ends_iff_never_stalls accepted hhistory hpositioned 1e-21
    exact hnear (.inr fun _ => by decide +kernel)
  · obtain ⟨hends, -⟩ := move_ends_iff_never_stalls accepted hhistory hpositioned 7.450580596923828e-09
    exact fun h => hends.1 h ⟨0, by simp, stalls⟩

/-- Not every movement ends. -/
theorem move_never_ends : ¬ ∀ (c : Config) (ts : List Transition) (w : World), c.Accepted → History (initial c) ts w →
    w.positioned = true → ∀ distance, ∃ fuel result, w.move fuel distance = some result := by
  intro h
  obtain ⟨⟨ts, hhistory⟩, hpositioned⟩ := placed
  obtain ⟨b, hbearing⟩ := hhistory.bearing_ok
  refine (move_ends_iff hpositioned hbearing).1 (h _ _ _ accepted hhistory hpositioned 7.450580596923828e-09) ?_
  have hspeed : 0.0 < world.config.speed := by
    rw [hhistory.config_eq]
    exact accepted.get_pos (f := .speed) rfl
  exact endless_of_stalls (k := 0) hspeed (by simp) stalls

end Crawling

end World

end Rover
