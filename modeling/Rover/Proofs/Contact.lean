import Rover.World.Basic
import Mathlib.Algebra.Order.Field.Rat
import Mathlib.Algebra.Order.Ring.Abs
import Mathlib.Tactic.Linarith
import Mathlib.Tactic.NormNum
import Mathlib.Tactic.Positivity
import Mathlib.Tactic.Ring

/-!
# Contact of a disk with a rectangle

The collision test never computes the point of the rectangle that is nearest to the disk. It tells far slabs, slabs along the
sides and four corners apart, by the distances along the two axes. `Measures.touches` is the test over any numbers: over
doubles it is the test of the arena. Along one axis, the nearest point is at the distance `gap`, and in exact arithmetic the
test compares the two gaps with the radius: `exact_touches`.
-/

namespace Rover

/-- A rectangle along the axes, by its centre and its sizes. -/
structure Rectangle (α : Type) where
  x : α
  y : α
  sizeX : α
  sizeY : α

/-- What the test does with numbers besides sums, differences and comparisons. -/
structure Measures (α : Type) where
  half : α → α
  abs : α → α
  square : α → Except WorldError α

/-- Whether the disk around (x, y) touches a rectangle, in the arithmetic of the numbers. -/
def Measures.touches {α : Type} [Add α] [Sub α] [LE α] [LT α] [DecidableLE α] [DecidableLT α] (m : Measures α)
    (x y radius : α) (o : Rectangle α) : Except WorldError Bool :=
  let halfX := m.half o.sizeX
  let halfY := m.half o.sizeY
  let dx := m.abs (x - o.x)
  let dy := m.abs (y - o.y)
  if dx > halfX + radius || dy > halfY + radius then .ok false
  else if dx ≤ halfX || dy ≤ halfY then .ok true
  else do
    let cornerX ← m.square (dx - halfX)
    let cornerY ← m.square (dy - halfY)
    let reach ← m.square radius
    return cornerX + cornerY ≤ reach

/-- Doubles, as the arena computes with them. -/
def Measures.double : Measures Float := ⟨fun x => x / 2.0, Float.abs, World.finiteSquare⟩

def Obstacle.rectangle (o : Obstacle) : Rectangle Float := ⟨o.x, o.y, o.sizeX, o.sizeY⟩

theorem World.intersects_eq (x y radius : Float) (o : Obstacle) :
    World.intersects x y radius o = Measures.double.touches x y radius o.rectangle := rfl

section Exact

variable {K : Type} [Field K] [LinearOrder K]

/-- Exact arithmetic: nothing is rounded and every number has a square. -/
def Measures.exact (K : Type) [Field K] [LinearOrder K] : Measures K := ⟨fun a => a / 2, fun a => |a|, fun a => .ok (a ^ 2)⟩

/-- The points of the rectangle, its sides among them. -/
def Rectangle.Covers (o : Rectangle K) (u v : K) : Prop := |u - o.x| ≤ o.sizeX / 2 ∧ |v - o.y| ≤ o.sizeY / 2

/-! ### One axis -/

/-- How far a number at the distance `d` from the middle of an interval is from the interval. -/
def gap (half d : K) : K := max 0 (d - half)

theorem gap_nonneg (half d : K) : 0 ≤ gap half d := le_max_left 0 (d - half)

variable [IsStrictOrderedRing K]

theorem gap_of_le {half d : K} (h : d ≤ half) : gap half d = 0 := max_eq_left (sub_nonpos.2 h)

theorem gap_of_lt {half d : K} (h : half < d) : gap half d = d - half := max_eq_right (sub_pos.2 h).le

theorem gap_le {half d radius : K} (hradius : 0 ≤ radius) (h : d ≤ half + radius) : gap half d ≤ radius :=
  max_le hradius (sub_le_iff_le_add'.2 h)

theorem lt_gap {half d radius : K} (h : half + radius < d) : radius < gap half d :=
  (lt_sub_iff_add_lt'.2 h).trans_le (le_max_right 0 (d - half))

/-- No point of the interval is nearer than the gap. -/
theorem gap_le_distance {half c x u : K} (hu : |u - c| ≤ half) : gap half |x - c| ≤ |u - x| := by
  refine max_le (abs_nonneg _) ?_
  have htriangle : |x - c| ≤ |x - u| + |u - c| := abs_sub_le x u c
  rw [abs_sub_comm x u] at htriangle
  linarith

/-- The point of the interval where `x` is moved to is as near as the gap. -/
theorem exists_at_gap {half : K} (hhalf : 0 ≤ half) (c x : K) : ∃ u, |u - c| ≤ half ∧ |u - x| = gap half |x - c| := by
  rcases le_or_gt |x - c| half with hinside | hbeyond
  · refine ⟨x, hinside, ?_⟩
    rw [gap_of_le hinside, sub_self, abs_zero]
  · rw [gap_of_lt hbeyond]
    rcases le_total c x with hside | hside
    · have hdistance : |x - c| = x - c := abs_of_nonneg (sub_nonneg.2 hside)
      refine ⟨c + half, ?_, ?_⟩
      · rw [add_sub_cancel_left, abs_of_nonneg hhalf]
      · rw [abs_of_nonpos (by linarith), hdistance]
        ring
    · have hdistance : |x - c| = c - x := by rw [abs_sub_comm, abs_of_nonneg (sub_nonneg.2 hside)]
      refine ⟨c - half, ?_, ?_⟩
      · rw [sub_sub_cancel_left, abs_neg, abs_of_nonneg hhalf]
      · rw [abs_of_nonneg (by linarith), hdistance]
        ring

/-! ### The plane -/

/-- The nearest point of the rectangle is at the gaps along the two axes. -/
theorem exists_covered_iff {o : Rectangle K} (hx : 0 ≤ o.sizeX) (hy : 0 ≤ o.sizeY) (x y radius : K) :
    (∃ u v, o.Covers u v ∧ (u - x) ^ 2 + (v - y) ^ 2 ≤ radius ^ 2) ↔
      gap (o.sizeX / 2) |x - o.x| ^ 2 + gap (o.sizeY / 2) |y - o.y| ^ 2 ≤ radius ^ 2 := by
  refine ⟨?_, fun h => ?_⟩
  · intro ⟨u, v, ⟨hu, hv⟩, h⟩
    refine le_trans (add_le_add ?_ ?_) h
    · rw [← sq_abs (u - x)]
      exact pow_le_pow_left₀ (gap_nonneg _ _) (gap_le_distance hu) 2
    · rw [← sq_abs (v - y)]
      exact pow_le_pow_left₀ (gap_nonneg _ _) (gap_le_distance hv) 2
  · obtain ⟨u, hu, hgapX⟩ := exists_at_gap (div_nonneg hx zero_le_two) o.x x
    obtain ⟨v, hv, hgapY⟩ := exists_at_gap (div_nonneg hy zero_le_two) o.y y
    refine ⟨u, v, ⟨hu, hv⟩, ?_⟩
    rwa [← sq_abs (u - x), ← sq_abs (v - y), hgapX, hgapY]

/-- In exact arithmetic the test compares the gaps with the radius. A slab along a side has no gap along one axis, so that
the other gap decides; it is within the radius unless the slab is a far one. -/
theorem exact_touches {radius : K} (hradius : 0 ≤ radius) (x y : K) (o : Rectangle K) :
    (Measures.exact K).touches x y radius o =
      .ok (decide (gap (o.sizeX / 2) |x - o.x| ^ 2 + gap (o.sizeY / 2) |y - o.y| ^ 2 ≤ radius ^ 2)) := by
  unfold Measures.touches
  dsimp only [Measures.exact]
  split_ifs with hfar hnear
  · -- a gap beyond the radius
    simp only [gt_iff_lt, Bool.or_eq_true, decide_eq_true_eq] at hfar
    congr 1
    refine (decide_eq_false (not_le.2 ?_)).symm
    rcases hfar with hfar | hfar
    · exact (pow_lt_pow_left₀ (lt_gap hfar) hradius two_ne_zero).trans_le (le_add_of_nonneg_right (sq_nonneg _))
    · exact (pow_lt_pow_left₀ (lt_gap hfar) hradius two_ne_zero).trans_le (le_add_of_nonneg_left (sq_nonneg _))
  · -- no gap along one axis
    simp only [gt_iff_lt, Bool.or_eq_true, decide_eq_true_eq, not_or, not_lt] at hfar hnear
    congr 1
    refine (decide_eq_true ?_).symm
    rcases hnear with hnear | hnear
    · rw [gap_of_le hnear, zero_pow two_ne_zero, zero_add]
      exact pow_le_pow_left₀ (gap_nonneg _ _) (gap_le hradius hfar.2) 2
    · rw [gap_of_le hnear, zero_pow two_ne_zero, add_zero]
      exact pow_le_pow_left₀ (gap_nonneg _ _) (gap_le hradius hfar.1) 2
  · -- a corner
    simp only [Bool.or_eq_true, decide_eq_true_eq, not_or, not_le] at hnear
    rw [gap_of_lt hnear.1, gap_of_lt hnear.2]
    rfl

end Exact

/-- The collision test is the geometric one. It is one test whatever the numbers, in doubles the one of the arena; in exact
rational arithmetic it always has an answer, and the answer is that a point of the closed rectangle lies in the closed
disk. -/
theorem touches_iff_common_point :
    (∀ (x y radius : Float) (o : Obstacle),
      World.intersects x y radius o = Measures.double.touches x y radius o.rectangle) ∧
    ∀ (x y radius : ℚ) (o : Rectangle ℚ), 0 ≤ radius → 0 ≤ o.sizeX → 0 ≤ o.sizeY →
      ∃ answer, (Measures.exact ℚ).touches x y radius o = .ok answer ∧
        (answer = true ↔
          ∃ u v : ℚ, |u - o.x| ≤ o.sizeX / 2 ∧ |v - o.y| ≤ o.sizeY / 2 ∧ (u - x) ^ 2 + (v - y) ^ 2 ≤ radius ^ 2) := by
  refine ⟨World.intersects_eq, ?_⟩
  intro x y radius o hradius hx hy
  refine ⟨_, exact_touches hradius x y o, ?_⟩
  rw [decide_eq_true_iff, ← exists_covered_iff hx hy]
  simp only [Rectangle.Covers, and_assoc]

/-- A disk that touches a rectangle of no height at its corner, and in no other point. -/
theorem corner_of_segment_touches :
    (0 : ℚ) ≤ 5 ∧ (0 : ℚ) ≤ 2 ∧ (0 : ℚ) ≤ 0 ∧
      (Measures.exact ℚ).touches 4 4 5 ⟨0, 0, 2, 0⟩ = .ok true ∧
      ∃ u v : ℚ, |u - 0| ≤ 2 / 2 ∧ |v - 0| ≤ 0 / 2 ∧ (u - 4) ^ 2 + (v - 4) ^ 2 ≤ 5 ^ 2 := by
  obtain ⟨answer, hanswer, hiff⟩ := touches_iff_common_point.2 4 4 5 ⟨0, 0, 2, 0⟩ (by norm_num) (by norm_num) (by norm_num)
  have htouches : (Measures.exact ℚ).touches 4 4 5 ⟨0, 0, 2, 0⟩ = .ok true := by decide +kernel
  rw [htouches] at hanswer
  cases hanswer
  exact ⟨by norm_num, by norm_num, by norm_num, htouches, hiff.1 rfl⟩

end Rover
