import Mathlib.Algebra.Order.Field.Basic
import Mathlib.Tactic.FieldSimp
import Mathlib.Tactic.LinearCombination
import Mathlib.Tactic.Linarith
import Mathlib.Tactic.Ring

/-
  Lib/Bezier.lean --- cubic and quadratic Bezier curves on one axis, over an ordered field.

  A cubic and the quadratic with the same ends and the control point
  `(3 (q1 + q2) - (q0 + q3)) / 4` differ by the third difference of the cubic times
  `t (1 - t) (2 t - 1) / 2` (`cubicAt_sub_reduced`), hence by at most a sixteenth of it
  (`abs_cubicAt_sub_reduced_le`).  Moving the ends and the control point of a quadratic
  moves its points by a weighted mean of the moves (`abs_quadAt_sub_le`).
-/
set_option autoImplicit false

namespace Pelorus.Lib

universe u

/-- The control points of a cubic, on one axis. -/
structure Controls (α : Type u) where
  p0 : α
  p1 : α
  p2 : α
  p3 : α
  deriving DecidableEq, Repr

def Controls.map {α β : Type u} (f : α → β) (c : Controls α) : Controls β := ⟨f c.p0, f c.p1, f c.p2, f c.p3⟩

/-- `p0 - 3 p1 + 3 p2 - p3`. -/
def thirdDifference {α : Type u} [Add α] [Sub α] [Mul α] [OfNat α 3] (c : Controls α) : α :=
  c.p0 - 3 * c.p1 + 3 * c.p2 - c.p3

variable {α : Type u} [Field α]

/-- The point of a cubic at `t`. -/
def cubicAt (c : Controls α) (t : α) : α :=
  (1 - t) ^ 3 * c.p0 + 3 * (1 - t) ^ 2 * t * c.p1 + 3 * (1 - t) * t ^ 2 * c.p2 + t ^ 3 * c.p3

/-- The point at `t` of the quadratic from `a` to `e` with control point `b`. -/
def quadAt (a b e t : α) : α := (1 - t) * ((1 - t) * a + t * b) + t * ((1 - t) * b + t * e)

variable [LinearOrder α] [IsStrictOrderedRing α]

/-- The error of reducing the degree. -/
theorem cubicAt_sub_reduced (c : Controls α) (t : α) :
    cubicAt c t - quadAt c.p0 ((3 * (c.p1 + c.p2) - (c.p0 + c.p3)) / 4) c.p3 t =
      t * (1 - t) * (2 * t - 1) / 2 * thirdDifference c := by
  simp only [cubicAt, quadAt, thirdDifference]
  field_simp
  ring

theorem abs_weight_le {t : α} (h0 : 0 ≤ t) (h1 : t ≤ 1) : |t * (1 - t) * (2 * t - 1)| ≤ 1 / 8 := by
  -- `t (1 - t) (2 t - 1)` changes sign under `t ↦ 1 - t`
  have half : ∀ s : α, 0 ≤ s → s ≤ 1 → s * (1 - s) * (2 * s - 1) ≤ 1 / 8 := by
    intro s hs0 hs1
    nlinarith [sq_nonneg (4 * s - 3), mul_nonneg hs0 (sq_nonneg (4 * s - 3)),
      mul_nonneg (sub_nonneg.mpr hs1) (sq_nonneg (4 * s - 3))]
  rw [abs_le]
  have hmirror := half (1 - t) (by linarith) (by linarith)
  have hflip : (1 - t) * (1 - (1 - t)) * (2 * (1 - t) - 1) = -(t * (1 - t) * (2 * t - 1)) := by ring
  rw [hflip] at hmirror
  exact ⟨by linarith, half t h0 h1⟩

theorem abs_cubicAt_sub_reduced_le (c : Controls α) {t : α} (h0 : 0 ≤ t) (h1 : t ≤ 1) :
    |cubicAt c t - quadAt c.p0 ((3 * (c.p1 + c.p2) - (c.p0 + c.p3)) / 4) c.p3 t| ≤
      |thirdDifference c| / 16 := by
  rw [cubicAt_sub_reduced, abs_mul, abs_div, abs_of_pos (by norm_num : (0 : α) < 2)]
  have hweight := abs_weight_le h0 h1
  calc |t * (1 - t) * (2 * t - 1)| / 2 * |thirdDifference c|
      ≤ 1 / 8 / 2 * |thirdDifference c| :=
        mul_le_mul_of_nonneg_right (by linarith) (abs_nonneg _)
    _ = |thirdDifference c| / 16 := by ring

/-- A quadratic whose ends move by at most `δ` and whose control point by at most `ε`. -/
theorem abs_quadAt_sub_le {a a' b b' e e' δ ε : α} (ha : |a - a'| ≤ δ) (hb : |b - b'| ≤ ε)
    (he : |e - e'| ≤ δ) {t : α} (h0 : 0 ≤ t) (h1 : t ≤ 1) :
    |quadAt a b e t - quadAt a' b' e' t| ≤ ((1 - t) ^ 2 + t ^ 2) * δ + 2 * t * (1 - t) * ε := by
  have hsplit : quadAt a b e t - quadAt a' b' e' t =
      (1 - t) ^ 2 * (a - a') + 2 * (1 - t) * t * (b - b') + t ^ 2 * (e - e') := by
    simp only [quadAt]
    ring
  have hweight : 0 ≤ 2 * (1 - t) * t := mul_nonneg (mul_nonneg (by norm_num) (by linarith)) h0
  rw [abs_le] at ha hb he ⊢
  rw [hsplit]
  constructor <;> nlinarith [mul_le_mul_of_nonneg_left ha.1 (sq_nonneg (1 - t)),
    mul_le_mul_of_nonneg_left ha.2 (sq_nonneg (1 - t)), mul_le_mul_of_nonneg_left hb.1 hweight,
    mul_le_mul_of_nonneg_left hb.2 hweight, mul_le_mul_of_nonneg_left he.1 (sq_nonneg t),
    mul_le_mul_of_nonneg_left he.2 (sq_nonneg t)]

end Pelorus.Lib
