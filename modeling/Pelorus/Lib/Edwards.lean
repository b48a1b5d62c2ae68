import Mathlib.Algebra.Field.Basic
import Mathlib.Algebra.Group.Even
import Mathlib.Tactic.FieldSimp
import Mathlib.Tactic.LinearCombination
import Mathlib.Tactic.Ring

/-
  Lib/Edwards.lean --- the group of a twisted Edwards curve -x^2 + y^2 = 1 + d x^2 y^2
  over a field in which -1 is a square and d is not.

  COMPLETENESS.  Under these two conditions the denominators of the addition law are
  not zero at any two points of the curve (`Curve.denominators_ne_zero`), so one
  formula adds every pair, the identity and doubling among them.

  ASSOCIATIVITY.  Cleared of denominators, the difference of the two sides is a
  combination of the three curve equations; `assoc_x` and `assoc_y` write out its
  coefficients.

  EXTENDED COORDINATES.  `Extended` says which point a quadruple X, Y, Z, T stands for,
  and `Extended.add` that the unified formula on quadruples is the addition of points.
-/
set_option autoImplicit false

namespace Pelorus.Lib.Edwards

universe u

/-- The parameters of a complete curve. -/
structure Curve (F : Type u) [Field F] where
  d : F
  /-- a square root of -1 -/
  i : F
  i_mul_i : i * i = -1
  d_nonsquare : ¬ IsSquare d
  two_ne_zero : (2 : F) ≠ 0

/-- The pair satisfies the equation of the curve. -/
def OnCurve {F : Type u} [Field F] (d x y : F) : Prop := y ^ 2 - x ^ 2 = 1 + d * x ^ 2 * y ^ 2

section Equation
variable {F : Type u} [Field F] {d x₁ y₁ x₂ y₂ x₃ y₃ : F}

/-- A product of 1 or -1 gives a square root of `d`, if the root's own denominator is not zero. -/
theorem isSquare_of_ne {i e : F} (hi : i * i = -1) (h₁ : OnCurve d x₁ y₁) (h₂ : OnCurve d x₂ y₂)
    (he : e * e = 1) (hproduct : d * x₁ * x₂ * y₁ * y₂ = e) (hne : i * x₂ + y₂ ≠ 0) : IsSquare d := by
  have hnonzero : d * x₁ * x₂ * y₁ * y₂ ≠ 0 := by
    intro hzero
    rw [← hproduct, hzero, zero_mul] at he
    exact zero_ne_one he
  have hx₁ : x₁ ≠ 0 := by
    rintro rfl
    simp at hnonzero
  have hy₁ : y₁ ≠ 0 := by
    rintro rfl
    simp at hnonzero
  have hroot : (i * x₁ + e * y₁) * (i * x₁ + e * y₁) =
      d * ((x₁ * y₁ * (i * x₂ + y₂)) * (x₁ * y₁ * (i * x₂ + y₂))) := by
    unfold OnCurve at h₁ h₂
    linear_combination x₁ ^ 2 * hi + y₁ ^ 2 * he - 2 * i * x₁ * y₁ * hproduct + h₁ - d * x₁ ^ 2 * y₁ ^ 2 * h₂ -
      d * x₁ ^ 2 * y₁ ^ 2 * x₂ ^ 2 * hi - (d * x₁ * x₂ * y₁ * y₂ + e) * hproduct - he
  have hdenominator : x₁ * y₁ * (i * x₂ + y₂) ≠ 0 := mul_ne_zero (mul_ne_zero hx₁ hy₁) hne
  refine ⟨(i * x₁ + e * y₁) / (x₁ * y₁ * (i * x₂ + y₂)), ?_⟩
  rw [div_mul_div_comm, hroot, mul_div_cancel_right₀ _ (mul_ne_zero hdenominator hdenominator)]

/-- The product in the denominators is neither 1 nor -1. -/
theorem isSquare_of_product {i e : F} (hi : i * i = -1) (htwo : (2 : F) ≠ 0) (h₁ : OnCurve d x₁ y₁)
    (h₂ : OnCurve d x₂ y₂) (he : e * e = 1) (hproduct : d * x₁ * x₂ * y₁ * y₂ = e) : IsSquare d := by
  by_cases hplus : i * x₂ + y₂ = 0
  · -- then the point below, with `-y₂`, does
    have hy₂ : y₂ ≠ 0 := by
      rintro rfl
      rw [← hproduct, mul_zero, mul_zero] at he
      exact zero_ne_one he
    have hminus : i * x₂ + -y₂ ≠ 0 := by
      intro hzero
      have hdouble : 2 * y₂ = 0 := by linear_combination hplus - hzero
      exact (mul_eq_zero.mp hdouble).elim htwo hy₂
    have hbelow : OnCurve d x₂ (-y₂) := by
      unfold OnCurve at h₂ ⊢
      linear_combination h₂
    exact isSquare_of_ne hi h₁ hbelow (show -e * -e = 1 by linear_combination he)
      (by linear_combination -hproduct) hminus
  · exact isSquare_of_ne hi h₁ h₂ he hproduct hplus

/-! ## The addition law -/

/-- The third pair is the sum of the other two, by a law whose denominators are not zero. -/
structure IsSum (d x₁ y₁ x₂ y₂ x y : F) : Prop where
  plus : 1 + d * x₁ * x₂ * y₁ * y₂ ≠ 0
  minus : 1 - d * x₁ * x₂ * y₁ * y₂ ≠ 0
  x_eq : x * (1 + d * x₁ * x₂ * y₁ * y₂) = x₁ * y₂ + y₁ * x₂
  y_eq : y * (1 - d * x₁ * x₂ * y₁ * y₂) = y₁ * y₂ + x₁ * x₂

theorem IsSum.unique {x y x' y' : F} (h : IsSum d x₁ y₁ x₂ y₂ x y) (h' : IsSum d x₁ y₁ x₂ y₂ x' y') :
    x = x' ∧ y = y' :=
  ⟨mul_right_cancel₀ h.plus (h.x_eq.trans h'.x_eq.symm), mul_right_cancel₀ h.minus (h.y_eq.trans h'.y_eq.symm)⟩

theorem IsSum.onCurve {x y : F} (h : IsSum d x₁ y₁ x₂ y₂ x y) (h₁ : OnCurve d x₁ y₁)
    (h₂ : OnCurve d x₂ y₂) : OnCurve d x y := by
  obtain ⟨hplus, hminus, hx, hy⟩ := h
  unfold OnCurve at *
  have hne : ((1 + d * x₁ * x₂ * y₁ * y₂) * (1 - d * x₁ * x₂ * y₁ * y₂)) ^ 2 ≠ 0 :=
    pow_ne_zero 2 (mul_ne_zero hplus hminus)
  apply mul_left_cancel₀ hne
  -- both sides in terms of the numerators
  have hcleared :
      (y₁ * y₂ + x₁ * x₂) ^ 2 * (1 + d * x₁ * x₂ * y₁ * y₂) ^ 2 -
          (x₁ * y₂ + y₁ * x₂) ^ 2 * (1 - d * x₁ * x₂ * y₁ * y₂) ^ 2 =
        ((1 + d * x₁ * x₂ * y₁ * y₂) * (1 - d * x₁ * x₂ * y₁ * y₂)) ^ 2 +
          d * (x₁ * y₂ + y₁ * x₂) ^ 2 * (y₁ * y₂ + x₁ * x₂) ^ 2 := by
    linear_combination
      (x₁ ^ 2 * y₁ ^ 2 * x₂ ^ 4 * d + 2 * x₁ ^ 2 * y₁ ^ 2 * x₂ ^ 2 * d + 2 * x₁ ^ 2 * y₁ ^ 2 * x₂ ^ 2 +
        x₁ ^ 2 * y₁ ^ 2 * y₂ ^ 4 * d - 2 * x₁ ^ 2 * y₁ ^ 2 * y₂ ^ 2 * d - 2 * x₁ ^ 2 * y₁ ^ 2 * y₂ ^ 2 +
        x₁ ^ 2 * y₁ ^ 2 * d + 2 * x₁ ^ 2 * y₁ ^ 2 - x₁ ^ 2 * x₂ ^ 2 + x₁ ^ 2 * y₂ ^ 2 - x₁ ^ 2 + y₁ ^ 2 * x₂ ^ 2 -
        y₁ ^ 2 * y₂ ^ 2 + y₁ ^ 2 + 1) * h₁ +
      (x₁ ^ 4 * y₁ ^ 4 * x₂ ^ 2 * y₂ ^ 2 * d ^ 3 - x₁ ^ 4 * y₁ ^ 4 * x₂ ^ 2 * d ^ 2 + x₁ ^ 4 * y₁ ^ 4 * y₂ ^ 2 * d ^ 2 -
        x₁ ^ 4 * y₁ ^ 4 * d ^ 2 - 2 * x₁ ^ 4 * y₁ ^ 4 * d - x₁ ^ 4 * y₁ ^ 2 * x₂ ^ 2 * d + x₁ ^ 4 * y₁ ^ 2 * y₂ ^ 2 * d -
        2 * x₁ ^ 4 * y₁ ^ 2 + x₁ ^ 4 + x₁ ^ 2 * y₁ ^ 4 * x₂ ^ 2 * d - x₁ ^ 2 * y₁ ^ 4 * y₂ ^ 2 * d +
        2 * x₁ ^ 2 * y₁ ^ 4 - 2 * x₁ ^ 2 * y₁ ^ 2 * d - 4 * x₁ ^ 2 * y₁ ^ 2 + y₁ ^ 4) * h₂
  rw [← hx, ← hy] at hcleared
  linear_combination hcleared

section Assoc
variable {x y X Y : F}

theorem assoc_x (h₁ : OnCurve d x₁ y₁) (h₂ : OnCurve d x₂ y₂) (h₃ : OnCurve d x₃ y₃)
    (hleft : IsSum d x₁ y₁ x₂ y₂ x y) (hright : IsSum d x₂ y₂ x₃ y₃ X Y) :
    (x * y₃ + y * x₃) * (1 + d * x₁ * X * y₁ * Y) = (x₁ * Y + y₁ * X) * (1 + d * x * x₃ * y * y₃) := by
  obtain ⟨hplus, hminus, hx, hy⟩ := hleft
  obtain ⟨hPlus, hMinus, hX, hY⟩ := hright
  unfold OnCurve at *
  apply mul_left_cancel₀ (mul_ne_zero (mul_ne_zero hplus hminus) (mul_ne_zero hPlus hMinus))
  have hcleared :
      ((x₁ * y₂ + y₁ * x₂) * (1 - d * x₁ * x₂ * y₁ * y₂) * y₃ +
            (y₁ * y₂ + x₁ * x₂) * (1 + d * x₁ * x₂ * y₁ * y₂) * x₃) *
          ((1 + d * x₂ * x₃ * y₂ * y₃) * (1 - d * x₂ * x₃ * y₂ * y₃) +
            d * x₁ * y₁ * (x₂ * y₃ + y₂ * x₃) * (y₂ * y₃ + x₂ * x₃)) =
        (x₁ * (y₂ * y₃ + x₂ * x₃) * (1 + d * x₂ * x₃ * y₂ * y₃) +
            y₁ * (x₂ * y₃ + y₂ * x₃) * (1 - d * x₂ * x₃ * y₂ * y₃)) *
          ((1 + d * x₁ * x₂ * y₁ * y₂) * (1 - d * x₁ * x₂ * y₁ * y₂) +
            d * (x₁ * y₂ + y₁ * x₂) * (y₁ * y₂ + x₁ * x₂) * x₃ * y₃) := by
    linear_combination
      d * x₂ * y₂ * (y₁ * (x₂ ^ 3 * (1 + d * y₂ ^ 2) * x₃ * y₃ ^ 2 + x₂ ^ 2 * y₂ * (y₃ ^ 3 - y₃) -
          x₂ * y₂ ^ 2 * (x₃ ^ 3 + x₃) - y₂ ^ 3 * (1 - d * x₂ ^ 2) * x₃ ^ 2 * y₃) -
        x₁ * (x₂ ^ 3 * (1 + d * y₂ ^ 2) * x₃ ^ 2 * y₃ + x₂ ^ 2 * y₂ * (x₃ ^ 3 + x₃) -
          x₂ * y₂ ^ 2 * (y₃ ^ 3 - y₃) - y₂ ^ 3 * (1 - d * x₂ ^ 2) * x₃ * y₃ ^ 2)) * h₁ +
      d * x₂ * y₂ * ((x₁ ^ 3 + x₁) * x₃ * y₃ * (x₂ * x₃ + y₂ * y₃) +
          (y₁ ^ 3 - y₁) * x₃ * y₃ * (x₂ * y₃ + y₂ * x₃) - x₁ * y₁ * (x₃ ^ 3 + x₃) * (x₁ * x₂ + y₁ * y₂) -
          x₁ * y₁ * (y₃ ^ 3 - y₃) * (x₁ * y₂ + y₁ * x₂)) * h₂ +
      d * x₂ * y₂ * ((x₁ ^ 3 + x₁) * x₂ * y₂ * (x₂ * x₃ + y₂ * y₃) -
          (y₁ ^ 3 - y₁) * x₂ * y₂ * (x₂ * y₃ + y₂ * x₃) +
          x₁ ^ 2 * y₁ * (x₂ ^ 3 * (1 + d * y₂ ^ 2) * x₃ + y₂ ^ 3 * (1 - d * x₂ ^ 2) * y₃) -
          x₁ * y₁ ^ 2 * (x₂ ^ 3 * (1 + d * y₂ ^ 2) * y₃ + y₂ ^ 3 * (1 - d * x₂ ^ 2) * x₃)) * h₃
  rw [← hx, ← hy, ← hX, ← hY] at hcleared
  linear_combination hcleared

theorem assoc_y (h₁ : OnCurve d x₁ y₁) (h₂ : OnCurve d x₂ y₂) (h₃ : OnCurve d x₃ y₃)
    (hleft : IsSum d x₁ y₁ x₂ y₂ x y) (hright : IsSum d x₂ y₂ x₃ y₃ X Y) :
    (y * y₃ + x * x₃) * (1 - d * x₁ * X * y₁ * Y) = (y₁ * Y + x₁ * X) * (1 - d * x * x₃ * y * y₃) := by
  obtain ⟨hplus, hminus, hx, hy⟩ := hleft
  obtain ⟨hPlus, hMinus, hX, hY⟩ := hright
  unfold OnCurve at *
  apply mul_left_cancel₀ (mul_ne_zero (mul_ne_zero hplus hminus) (mul_ne_zero hPlus hMinus))
  have hcleared :
      ((y₁ * y₂ + x₁ * x₂) * (1 + d * x₁ * x₂ * y₁ * y₂) * y₃ +
            (x₁ * y₂ + y₁ * x₂) * (1 - d * x₁ * x₂ * y₁ * y₂) * x₃) *
          ((1 + d * x₂ * x₃ * y₂ * y₃) * (1 - d * x₂ * x₃ * y₂ * y₃) -
            d * x₁ * y₁ * (x₂ * y₃ + y₂ * x₃) * (y₂ * y₃ + x₂ * x₃)) =
        (y₁ * (y₂ * y₃ + x₂ * x₃) * (1 + d * x₂ * x₃ * y₂ * y₃) +
            x₁ * (x₂ * y₃ + y₂ * x₃) * (1 - d * x₂ * x₃ * y₂ * y₃)) *
          ((1 + d * x₁ * x₂ * y₁ * y₂) * (1 - d * x₁ * x₂ * y₁ * y₂) -
            d * (x₁ * y₂ + y₁ * x₂) * (y₁ * y₂ + x₁ * x₂) * x₃ * y₃) := by
    linear_combination
      d * x₂ * y₂ * (x₁ * (x₂ ^ 3 * (1 + d * y₂ ^ 2) * x₃ * y₃ ^ 2 + x₂ ^ 2 * y₂ * (y₃ ^ 3 - y₃) -
          x₂ * y₂ ^ 2 * (x₃ ^ 3 + x₃) - y₂ ^ 3 * (1 - d * x₂ ^ 2) * x₃ ^ 2 * y₃) -
        y₁ * (x₂ ^ 3 * (1 + d * y₂ ^ 2) * x₃ ^ 2 * y₃ + x₂ ^ 2 * y₂ * (x₃ ^ 3 + x₃) -
          x₂ * y₂ ^ 2 * (y₃ ^ 3 - y₃) - y₂ ^ 3 * (1 - d * x₂ ^ 2) * x₃ * y₃ ^ 2)) * h₁ +
      d * x₂ * y₂ * (-(x₁ ^ 3 + x₁) * x₃ * y₃ * (x₂ * y₃ + y₂ * x₃) -
          (y₁ ^ 3 - y₁) * x₃ * y₃ * (x₂ * x₃ + y₂ * y₃) + x₁ * y₁ * (y₃ ^ 3 - y₃) * (x₁ * x₂ + y₁ * y₂) +
          x₁ * y₁ * (x₃ ^ 3 + x₃) * (x₁ * y₂ + y₁ * x₂)) * h₂ +
      d * x₂ * y₂ * ((x₁ ^ 3 + x₁) * x₂ * y₂ * (x₂ * y₃ + y₂ * x₃) -
          (y₁ ^ 3 - y₁) * x₂ * y₂ * (x₂ * x₃ + y₂ * y₃) +
          x₁ ^ 2 * y₁ * (x₂ ^ 3 * (1 + d * y₂ ^ 2) * y₃ + y₂ ^ 3 * (1 - d * x₂ ^ 2) * x₃) -
          x₁ * y₁ ^ 2 * (x₂ ^ 3 * (1 + d * y₂ ^ 2) * x₃ + y₂ ^ 3 * (1 - d * x₂ ^ 2) * y₃)) * h₃
  rw [← hx, ← hy, ← hX, ← hY] at hcleared
  linear_combination hcleared

end Assoc

end Equation

/-! ## The group -/

section Group
variable {F : Type u} [Field F]

/-- A point of the curve. -/
@[ext]
structure Point (E : Curve F) where
  x : F
  y : F
  onCurve : OnCurve E.d x y

variable {E : Curve F}

/-- The denominators of the addition law are not zero at any two points. -/
theorem Curve.denominators_ne_zero (P Q : Point E) :
    1 + E.d * P.x * Q.x * P.y * Q.y ≠ 0 ∧ 1 - E.d * P.x * Q.x * P.y * Q.y ≠ 0 := by
  constructor
  · intro hzero
    exact E.d_nonsquare (isSquare_of_product E.i_mul_i E.two_ne_zero P.onCurve Q.onCurve
      (show (-1 : F) * -1 = 1 by ring) (by linear_combination hzero))
  · intro hzero
    exact E.d_nonsquare (isSquare_of_product E.i_mul_i E.two_ne_zero P.onCurve Q.onCurve
      (show (1 : F) * 1 = 1 by ring) (by linear_combination -hzero))

/-- What x is divided by, when the equation is solved for it, is not zero. -/
theorem Curve.x_denominator_ne_zero (E : Curve F) (y : F) : E.d * (y * y) + 1 ≠ 0 := by
  intro hzero
  have hy : y ≠ 0 := by
    rintro rfl
    rw [mul_zero, mul_zero, zero_add] at hzero
    exact one_ne_zero hzero
  apply E.d_nonsquare
  refine ⟨E.i * y⁻¹, ?_⟩
  have hinv : y * y⁻¹ = 1 := mul_inv_cancel₀ hy
  linear_combination (y⁻¹ * y⁻¹) * hzero - E.d * (y * y⁻¹ + 1) * hinv - (y⁻¹ * y⁻¹) * E.i_mul_i

theorem isSum_div (P Q : Point E) : IsSum E.d P.x P.y Q.x Q.y
    ((P.x * Q.y + P.y * Q.x) / (1 + E.d * P.x * Q.x * P.y * Q.y))
    ((P.y * Q.y + P.x * Q.x) / (1 - E.d * P.x * Q.x * P.y * Q.y)) := by
  obtain ⟨hplus, hminus⟩ := Curve.denominators_ne_zero P Q
  exact ⟨hplus, hminus, div_mul_cancel₀ _ hplus, div_mul_cancel₀ _ hminus⟩

namespace Point

instance : Zero (Point E) := ⟨⟨0, 1, by simp [OnCurve]⟩⟩

instance : Neg (Point E) := ⟨fun P => ⟨-P.x, P.y, by
  have h := P.onCurve
  unfold OnCurve at h ⊢
  linear_combination h⟩⟩

/-- The addition law, which is complete. -/
instance : Add (Point E) := ⟨fun P Q =>
  ⟨(P.x * Q.y + P.y * Q.x) / (1 + E.d * P.x * Q.x * P.y * Q.y),
    (P.y * Q.y + P.x * Q.x) / (1 - E.d * P.x * Q.x * P.y * Q.y),
    (isSum_div P Q).onCurve P.onCurve Q.onCurve⟩⟩

@[simp] theorem zero_x : (0 : Point E).x = 0 := rfl
@[simp] theorem zero_y : (0 : Point E).y = 1 := rfl
@[simp] theorem neg_x (P : Point E) : (-P).x = -P.x := rfl
@[simp] theorem neg_y (P : Point E) : (-P).y = P.y := rfl

theorem isSum_add (P Q : Point E) : IsSum E.d P.x P.y Q.x Q.y (P + Q).x (P + Q).y := isSum_div P Q

/-- Whatever the law makes of two points is their sum. -/
theorem eq_add_of_isSum {P Q R : Point E} (h : IsSum E.d P.x P.y Q.x Q.y R.x R.y) : R = P + Q := by
  obtain ⟨hx, hy⟩ := h.unique (isSum_add P Q)
  exact Point.ext hx hy

theorem add_comm' (P Q : Point E) : P + Q = Q + P := by
  apply eq_add_of_isSum
  obtain ⟨hplus, hminus, hx, hy⟩ := isSum_add P Q
  have hsymm : E.d * Q.x * P.x * Q.y * P.y = E.d * P.x * Q.x * P.y * Q.y := by ring
  refine ⟨?_, ?_, ?_, ?_⟩
  · rwa [hsymm]
  · rwa [hsymm]
  · rw [hsymm, hx]
    ring
  · rw [hsymm, hy]
    ring

theorem add_assoc' (P Q R : Point E) : P + Q + R = P + (Q + R) := by
  apply eq_add_of_isSum
  obtain ⟨hplus, hminus⟩ := Curve.denominators_ne_zero P (Q + R)
  have hsum := isSum_add (P + Q) R
  have hx := assoc_x P.onCurve Q.onCurve R.onCurve (isSum_add P Q) (isSum_add Q R)
  have hy := assoc_y P.onCurve Q.onCurve R.onCurve (isSum_add P Q) (isSum_add Q R)
  refine ⟨hplus, hminus, ?_, ?_⟩
  · apply mul_right_cancel₀ hsum.plus
    rw [← hx, ← hsum.x_eq]
    ring
  · apply mul_right_cancel₀ hsum.minus
    rw [← hy, ← hsum.y_eq]
    ring

theorem zero_add' (P : Point E) : 0 + P = P := by
  refine (eq_add_of_isSum ⟨?_, ?_, ?_, ?_⟩).symm <;> simp

theorem neg_add_cancel' (P : Point E) : -P + P = 0 := by
  obtain ⟨hplus, hminus⟩ := Curve.denominators_ne_zero (-P) P
  have hcurve := P.onCurve
  unfold OnCurve at hcurve
  refine (eq_add_of_isSum ⟨hplus, hminus, ?_, ?_⟩).symm
  · simp only [zero_x, neg_x, neg_y]
    ring
  · simp only [zero_y, neg_x, neg_y]
    linear_combination -hcurve

/-- The points of a complete curve are a commutative group. -/
instance : AddCommGroup (Point E) where
  add_assoc := add_assoc'
  zero_add := zero_add'
  add_zero P := by rw [add_comm', zero_add']
  nsmul := nsmulRec
  zsmul := zsmulRec
  neg_add_cancel := neg_add_cancel'
  add_comm := add_comm'

end Point

/-! ## Extended coordinates -/

/-- The quadruple stands for the point: x is X / Z, y is Y / Z, and their product T / Z. -/
structure Extended (X Y Z T : F) (P : Point E) : Prop where
  z_ne_zero : Z ≠ 0
  x_eq : X = P.x * Z
  y_eq : Y = P.y * Z
  t_eq : T = P.x * P.y * Z

theorem extended_zero : Extended (0 : F) 1 1 0 (0 : Point E) := by
  refine ⟨one_ne_zero, ?_, ?_, ?_⟩ <;> simp

/-- The unified formula adds the points its quadruples stand for. -/
theorem Extended.add {X₁ Y₁ Z₁ T₁ X₂ Y₂ Z₂ T₂ e f g h : F} {P Q : Point E} (h₁ : Extended X₁ Y₁ Z₁ T₁ P)
    (h₂ : Extended X₂ Y₂ Z₂ T₂ Q) (he : e = (Y₁ + X₁) * (Y₂ + X₂) - (Y₁ - X₁) * (Y₂ - X₂))
    (hf : f = Z₁ * Z₂ + Z₁ * Z₂ - T₁ * (E.d + E.d) * T₂) (hg : g = Z₁ * Z₂ + Z₁ * Z₂ + T₁ * (E.d + E.d) * T₂)
    (hh : h = (Y₁ + X₁) * (Y₂ + X₂) + (Y₁ - X₁) * (Y₂ - X₂)) :
    Extended (e * f) (g * h) (f * g) (e * h) (P + Q) := by
  obtain ⟨hplus, hminus, hx, hy⟩ := Point.isSum_add P Q
  have hz : 2 * Z₁ * Z₂ ≠ 0 := mul_ne_zero (mul_ne_zero E.two_ne_zero h₁.z_ne_zero) h₂.z_ne_zero
  -- the four factors in terms of the affine law
  have he' : e = 2 * Z₁ * Z₂ * ((P + Q).x * (1 + E.d * P.x * Q.x * P.y * Q.y)) := by
    rw [he, h₁.x_eq, h₁.y_eq, h₂.x_eq, h₂.y_eq, hx]
    ring
  have hh' : h = 2 * Z₁ * Z₂ * ((P + Q).y * (1 - E.d * P.x * Q.x * P.y * Q.y)) := by
    rw [hh, h₁.x_eq, h₁.y_eq, h₂.x_eq, h₂.y_eq, hy]
    ring
  have hf' : f = 2 * Z₁ * Z₂ * (1 - E.d * P.x * Q.x * P.y * Q.y) := by
    rw [hf, h₁.t_eq, h₂.t_eq]
    ring
  have hg' : g = 2 * Z₁ * Z₂ * (1 + E.d * P.x * Q.x * P.y * Q.y) := by
    rw [hg, h₁.t_eq, h₂.t_eq]
    ring
  refine ⟨?_, ?_, ?_, ?_⟩
  · rw [hf', hg']
    exact mul_ne_zero (mul_ne_zero hz hminus) (mul_ne_zero hz hplus)
  · rw [he', hf', hg']
    ring
  · rw [hf', hg', hh']
    ring
  · rw [he', hf', hg', hh']
    ring

/-- Cross-multiplication compares the points. -/
theorem Extended.eq_iff {X₁ Y₁ Z₁ T₁ X₂ Y₂ Z₂ T₂ : F} {P Q : Point E} (h₁ : Extended X₁ Y₁ Z₁ T₁ P)
    (h₂ : Extended X₂ Y₂ Z₂ T₂ Q) : X₁ * Z₂ = X₂ * Z₁ ∧ Y₁ * Z₂ = Y₂ * Z₁ ↔ P = Q := by
  have hz : Z₁ * Z₂ ≠ 0 := mul_ne_zero h₁.z_ne_zero h₂.z_ne_zero
  rw [h₁.x_eq, h₁.y_eq, h₂.x_eq, h₂.y_eq]
  constructor
  · rintro ⟨hx, hy⟩
    apply Point.ext
    · apply mul_right_cancel₀ hz
      linear_combination hx
    · apply mul_right_cancel₀ hz
      linear_combination hy
  · rintro rfl
    constructor <;> ring

theorem Extended.eq_zero_iff {X Y Z T : F} {P : Point E} (h : Extended X Y Z T P) :
    X = 0 ∧ Y = Z ↔ P = 0 := by
  rw [← h.eq_iff extended_zero]
  simp

end Group

end Pelorus.Lib.Edwards
