import Mathlib.Data.List.GetD
import Mathlib.Data.Rat.Cast.Order
import Mathlib.Tactic.NormNum
import Pelorus.Lib.Bezier
import Pelorus.Lib.Checked

/-
  Text/Cubic.lean --- the cubics of an outline, drawn as quadratics.

  `cubicToQuads` splits a cubic into the fewest pieces, at most sixteen, whose degree
  reduction is off by at most a quarter of a font unit, and rounds every point half up.
  Two things are shown of it: no `i64` on the way overflows, and the path follows the cubic.

  An emitted point is clamped to the `i16` range.  The ends of a piece lie on the cubic and so
  in the range already.  The control point need not, and there the clamp shows: it moves the
  curve by what it takes off the control point, weighted with `2 t (1 - t)`.
-/
set_option autoImplicit false

namespace Pelorus.Text

open Lib (Checked Controls thirdDifference cubicAt quadAt)

/-- A point in font units. -/
structure Pt where
  x : Int
  y : Int
  deriving DecidableEq, Repr

/-- One path command. -/
inductive PathCmd where
  | moveTo (p : Pt)
  | lineTo (p : Pt)
  /-- Control point, end point. -/
  | quadTo (control «end» : Pt)
  | close
  deriving DecidableEq, Repr

/-- The most pieces a cubic is split into. -/
def MAX_SPLIT : Int := 16

/-! ## The code -/

/-- The nearest `i64`, as `saturating_mul` and `saturating_add` return. -/
def saturate (v : Int) : Int := max (-2 ^ 63) (min v (2 ^ 63 - 1))

/-- `n / d` rounded half up, for `d > 0`. -/
def divRound (n d : Int) : Option Int := do
  let twice ← (2 * (d : Checked 64)).value
  if twice = 0 then none else some (saturate (saturate (n * 2) + d) / twice)

/-- `abs` of an `i64`. -/
def abs64 (v : Int) : Option Int := if v = -2 ^ 63 then none else some |v|

/-- The number of pieces: while there are too few for a third difference of `d`, one more.
`left` of the sixteen have not been tried. -/
def splitFrom (d : Int) : Nat → Int → Option Int
  | 0, k => some k
  | left + 1, k => do
      let bound ← (4 * (k : Checked 64) * k * k).value
      if d > bound then
        let next ← ((k : Checked 64) + 1).value
        splitFrom d left next
      else some k

/-- The control points of the sub-cubic from blossom parameters `u`, `v`, `w` in `0..=k`,
scaled by `k^3`. -/
def blossom {α : Type} [Add α] [Sub α] [Mul α] (k u v w : α) (c : Controls α) : α :=
  let l1 := ((k - u) * c.p0 + u * c.p1, (k - u) * c.p1 + u * c.p2, (k - u) * c.p2 + u * c.p3)
  let l2 := ((k - v) * l1.1 + v * l1.2.1, (k - v) * l1.2.1 + v * l1.2.2)
  (k - w) * l2.1 + w * l2.2

def clamp (v : Int) : Int := max (-32768) (min v 32767)

/-- The control point and the end of the piece from `i / k` to `(i + 1) / k`, on one axis. -/
def piece (k : Int) (c : Controls Int) (i : Int) : Option (Int × Int) := do
  let a : Checked 64 := i
  let b : Checked 64 := a + 1
  let q := fun u v w => blossom (k : Checked 64) u v w (c.map (Checked.ofInt 64))
  let k3 ← ((k : Checked 64) * k * k).value
  let q3 ← (q b b b).value
  let n ← (3 * (q a a b + q a b b) - (q a a a + q b b b)).value
  let d ← (4 * (k3 : Checked 64)).value
  let control ← divRound n d
  let «end» ← divRound q3 k3
  some (clamp control, clamp «end»)

/-- The command that draws a piece. -/
def quadPiece (k : Int) (xs ys : Controls Int) (i : Nat) : Option PathCmd := do
  let (cx, ex) ← piece k xs i
  let (cy, ey) ← piece k ys i
  some (.quadTo ⟨cx, cy⟩ ⟨ex, ey⟩)

/-- Append quadratics that follow the cubic `p0 p1 p2 p3`.  The path is already at `p0`. -/
def cubicToQuads (p0 p1 p2 p3 : Pt) (out : List PathCmd) : Option (List PathCmd) := do
  let xs : Controls Int := ⟨p0.x, p1.x, p2.x, p3.x⟩
  let ys : Controls Int := ⟨p0.y, p1.y, p2.y, p3.y⟩
  let dx ← abs64 (← (thirdDifference (xs.map (Checked.ofInt 64))).value)
  let dy ← abs64 (← (thirdDifference (ys.map (Checked.ofInt 64))).value)
  let k ← splitFrom (max dx dy) (MAX_SPLIT - 1).toNat 1
  let quads ← (List.range k.toNat).mapM (quadPiece k xs ys)
  some (out ++ quads)

/-! ## No value on the way overflows -/

/-- `n / d` rounded half up. -/
def roundDiv (n d : Int) : Int := (n * 2 + d) / (2 * d)

variable {n d M : Int}

theorem divRound_eq (hn : |n| ≤ 2 ^ 40) (hd : 0 < d) (hd' : d ≤ 2 ^ 20) :
    divRound n d = some (roundDiv n d) := by
  have htwice : (2 * (d : Checked 64)).value = some (2 * d) :=
    ((Checked.Bounded.ofNat 2 (by decide)).mul (.ofInt ((abs_of_pos hd).trans_le hd') (by decide))
      (by decide)).is.value_eq
  have habs := abs_le.mp hn
  have hsat : saturate (saturate (n * 2) + d) = n * 2 + d := by
    have h2 : saturate (n * 2) = n * 2 := by
      unfold saturate
      omega
    rw [h2]
    unfold saturate
    omega
  rw [divRound, htwice, Option.bind_eq_bind, Option.bind_some, if_neg (by omega), hsat, roundDiv]

theorem splitFrom_eq_some (d : Int) (left : Nat) : ∀ k : Int, 1 ≤ k → k + left = MAX_SPLIT →
    ∃ k', splitFrom d left k = some k' ∧ 1 ≤ k' ∧ k' ≤ MAX_SPLIT ∧ (k' < MAX_SPLIT → d ≤ 4 * k' ^ 3) := by
  induction left with
  | zero => exact fun k h1 hk => ⟨k, rfl, h1, by omega, fun hlt => by omega⟩
  | succ left ih =>
      intro k h1 hk
      have hMAX : MAX_SPLIT = 16 := rfl
      have hkb : ((k : Checked 64)).Bounded k 16 := .ofInt (abs_le.mpr ⟨by omega, by omega⟩) (by decide)
      have hbound := (((Checked.Bounded.ofNat 4 (by decide)).mul hkb (by decide)).mul hkb (by decide)).mul
        hkb (by decide)
      have hnext := (hkb.add (Checked.Bounded.ofNat 1 (by decide)) (by decide)).is
      rw [splitFrom]
      rw [hbound.is.value_eq, Option.bind_eq_bind, Option.bind_some]
      split
      · rw [hnext.value_eq]
        exact ih (k + 1) (by omega) (by push_cast at hk; omega)
      · rename_i hle
        refine ⟨k, rfl, h1, by omega, fun _ => ?_⟩
        push_cast at hle
        linarith [Int.not_lt.mp hle, show 4 * k * k * k = 4 * k ^ 3 by ring]

theorem mix_bounded {k u a b : Checked 64} {k' u' a' b' : Int} (hk : k.Bounded k' 16)
    (hu : u.Bounded u' 16) (ha : a.Bounded a' M) (hb : b.Bounded b' M) (hM : 48 * M < 2 ^ 63)
    (h0 : 0 ≤ M) : ((k - u) * a + u * b).Bounded ((k' - u') * a' + u' * b') (48 * M) :=
  (((hk.sub hu (by decide)).mul ha (by norm_num; omega)).add (hu.mul hb (by norm_num; omega))
    (by norm_num; omega)).mono (by omega)

/-- The blossom of words is the blossom of their values. -/
theorem blossom_bounded {k u v w : Checked 64} {k' u' v' w' : Int} (hk : k.Bounded k' 16)
    (hu : u.Bounded u' 16) (hv : v.Bounded v' 16) (hw : w.Bounded w' 16) {c : Controls (Checked 64)}
    {c' : Controls Int} (h0 : c.p0.Bounded c'.p0 32768) (h1 : c.p1.Bounded c'.p1 32768)
    (h2 : c.p2.Bounded c'.p2 32768) (h3 : c.p3.Bounded c'.p3 32768) :
    (blossom k u v w c).Bounded (blossom k' u' v' w' c') 3623878656 := by
  have l10 := mix_bounded hk hu h0 h1 (by norm_num) (by norm_num)
  have l11 := mix_bounded hk hu h1 h2 (by norm_num) (by norm_num)
  have l12 := mix_bounded hk hu h2 h3 (by norm_num) (by norm_num)
  have l20 := mix_bounded hk hv l10 l11 (by norm_num) (by norm_num)
  have l21 := mix_bounded hk hv l11 l12 (by norm_num) (by norm_num)
  exact (mix_bounded hk hw l20 l21 (by norm_num) (by norm_num)).mono (by norm_num)

/-- The coordinates of an outline on one axis. -/
def InI16 (v : Int) : Prop := -32768 ≤ v ∧ v ≤ 32767

instance (v : Int) : Decidable (InI16 v) := inferInstanceAs (Decidable (_ ∧ _))

structure ControlsInI16 (c : Controls Int) : Prop where
  p0 : InI16 c.p0
  p1 : InI16 c.p1
  p2 : InI16 c.p2
  p3 : InI16 c.p3

/-- Four times the control point of a piece, and its ends, each scaled by `k^3`. -/
def controlNumerator (k : Int) (c : Controls Int) (i : Int) : Int :=
  3 * (blossom k i i (i + 1) c + blossom k i (i + 1) (i + 1) c) -
    (blossom k i i i c + blossom k (i + 1) (i + 1) (i + 1) c)

/-- The control point of a piece, rounded but not clamped. -/
def roundedControl (k : Int) (c : Controls Int) (i : Int) : Int := roundDiv (controlNumerator k c i) (4 * k ^ 3)

/-- The rounded point between two pieces. -/
def node (k : Int) (c : Controls Int) (i : Int) : Int := roundDiv (blossom k i i i c) (k ^ 3)

variable {c : Controls Int} {i : Int}

theorem ControlsInI16.bounded (h : ControlsInI16 c) :
    (Checked.ofInt 64 c.p0).Bounded c.p0 32768 ∧ (Checked.ofInt 64 c.p1).Bounded c.p1 32768 ∧
      (Checked.ofInt 64 c.p2).Bounded c.p2 32768 ∧ (Checked.ofInt 64 c.p3).Bounded c.p3 32768 := by
  have word : ∀ v : Int, InI16 v → (Checked.ofInt 64 v).Bounded v 32768 := fun v hv =>
    .ofInt (abs_le.mpr ⟨hv.1, hv.2.trans (by decide)⟩) (by decide)
  exact ⟨word _ h.p0, word _ h.p1, word _ h.p2, word _ h.p3⟩

theorem pow_three_bounds {k : Int} (h1 : 1 ≤ k) (h16 : k ≤ 16) : 0 < k ^ 3 ∧ k ^ 3 ≤ 4096 :=
  ⟨pow_pos (by omega) 3, (pow_le_pow_left₀ (by omega) h16 3).trans (by norm_num)⟩

theorem piece_eq {k : Int} (h1 : 1 ≤ k) (h16 : k ≤ 16) (hc : ControlsInI16 c) (hi0 : 0 ≤ i)
    (hik : i < k) :
    piece k c i = some (clamp (roundedControl k c i), clamp (node k c (i + 1))) := by
  obtain ⟨b0, b1, b2, b3⟩ := hc.bounded
  have hk : ((k : Checked 64)).Bounded k 16 := .ofInt (abs_le.mpr ⟨by omega, h16⟩) (by decide)
  have ha : ((i : Checked 64)).Bounded i 15 := .ofInt (abs_le.mpr ⟨by omega, by omega⟩) (by decide)
  have hb : ((i : Checked 64) + 1).Bounded (i + 1) 16 := ha.add (.ofNat 1 (by decide)) (by decide)
  have ha := ha.mono (show (15 : Int) ≤ 16 by decide)
  have q0 := blossom_bounded hk ha ha ha (c := c.map (Checked.ofInt 64)) b0 b1 b2 b3
  have q1 := blossom_bounded hk ha ha hb (c := c.map (Checked.ofInt 64)) b0 b1 b2 b3
  have q2 := blossom_bounded hk ha hb hb (c := c.map (Checked.ofInt 64)) b0 b1 b2 b3
  have q3 := blossom_bounded hk hb hb hb (c := c.map (Checked.ofInt 64)) b0 b1 b2 b3
  have hnum := ((Checked.Bounded.ofNat 3 (by decide)).mul (q1.add q2 (by norm_num)) (by norm_num)).sub
    (q0.add q3 (by norm_num)) (by norm_num)
  have hk3 : ((k : Checked 64) * k * k).value = some (k ^ 3) := by
    rw [((hk.mul hk (by norm_num)).mul hk (by norm_num)).is.value_eq, pow_three, mul_assoc]
  obtain ⟨hpos, hle⟩ := pow_three_bounds h1 h16
  have hd : (4 * ((k ^ 3 : Int) : Checked 64)).value = some (4 * k ^ 3) :=
    ((Checked.Bounded.ofNat 4 (by decide)).mul (.ofInt ((abs_of_pos hpos).trans_le hle) (by decide))
      (by norm_num)).is.value_eq
  have hcontrol := divRound_eq (hnum.abs_le.trans (by norm_num)) (show 0 < 4 * k ^ 3 by omega) (by omega)
  have hend := divRound_eq (q3.abs_le.trans (by norm_num)) hpos (by omega)
  simp only [piece, hk3, q3.is.value_eq, hnum.is.value_eq, hd, Option.bind_eq_bind, Option.bind_some]
  rw [hcontrol, Option.bind_some, hend, Option.bind_some]
  rfl

/-! ## The pieces follow the cubic -/

theorem roundDiv_le (hd : 0 < d) (h : n ≤ d * M) : roundDiv n d ≤ M := by
  rw [roundDiv]
  refine Int.lt_add_one_iff.mp ((Int.ediv_lt_iff_lt_mul (by omega)).mpr ?_)
  nlinarith

theorem le_roundDiv (hd : 0 < d) (h : d * M ≤ n) : M ≤ roundDiv n d := by
  rw [roundDiv]
  refine (Int.le_ediv_iff_mul_le (by omega)).mpr ?_
  nlinarith

/-- Rounding moves a quotient by at most a half. -/
theorem abs_roundDiv_sub_le (hd : 0 < d) : |(roundDiv n d : ℚ) - n / d| ≤ 1 / 2 := by
  have hd' : (0 : ℚ) < d := by exact_mod_cast hd
  have hlo : roundDiv n d * (2 * d) ≤ n * 2 + d := Int.ediv_mul_le _ (by omega)
  have hhi : n * 2 + d < (roundDiv n d + 1) * (2 * d) := Int.lt_ediv_add_one_mul_self _ (by omega)
  have hlo : (roundDiv n d : ℚ) * (2 * d) ≤ n * 2 + d := by exact_mod_cast hlo
  have hhi : (n : ℚ) * 2 + d < (roundDiv n d + 1) * (2 * d) := by exact_mod_cast hhi
  have hsub : (roundDiv n d : ℚ) - n / d = (roundDiv n d * d - n) / d := by
    field_simp
  rw [hsub, abs_div, abs_of_pos hd', div_le_iff₀ hd', abs_le]
  constructor <;> linarith

/-- Between two multiples of weights that add up to `k`. -/
theorem mix_le {k u a b : Int} (h0 : 0 ≤ u) (hu : u ≤ k) (ha : a ≤ M) (hb : b ≤ M) :
    (k - u) * a + u * b ≤ k * M := by
  have h1 := Int.mul_le_mul_of_nonneg_left ha (Int.sub_nonneg.mpr hu)
  have h2 := Int.mul_le_mul_of_nonneg_left hb h0
  linarith

theorem le_mix {k u a b : Int} (h0 : 0 ≤ u) (hu : u ≤ k) (ha : M ≤ a) (hb : M ≤ b) :
    k * M ≤ (k - u) * a + u * b := by
  have h1 := Int.mul_le_mul_of_nonneg_left ha (Int.sub_nonneg.mpr hu)
  have h2 := Int.mul_le_mul_of_nonneg_left hb h0
  linarith

/-- A node lies on the cubic, so between the extremes of its control points. -/
theorem inI16_node {k : Int} (h1 : 1 ≤ k) (hc : ControlsInI16 c) (h0 : 0 ≤ i) (hi : i ≤ k) :
    InI16 (node k c i) := by
  have hpos : 0 < k ^ 3 := pow_pos (by omega) 3
  constructor
  · refine le_roundDiv hpos ?_
    rw [pow_three, mul_assoc, mul_assoc]
    exact le_mix h0 hi
      (le_mix h0 hi (le_mix h0 hi hc.p0.1 hc.p1.1) (le_mix h0 hi hc.p1.1 hc.p2.1))
      (le_mix h0 hi (le_mix h0 hi hc.p1.1 hc.p2.1) (le_mix h0 hi hc.p2.1 hc.p3.1))
  · refine roundDiv_le hpos ?_
    rw [pow_three, mul_assoc, mul_assoc]
    exact mix_le h0 hi
      (mix_le h0 hi (mix_le h0 hi hc.p0.2 hc.p1.2) (mix_le h0 hi hc.p1.2 hc.p2.2))
      (mix_le h0 hi (mix_le h0 hi hc.p1.2 hc.p2.2) (mix_le h0 hi hc.p2.2 hc.p3.2))

theorem clamp_of_inI16 {v : Int} (h : InI16 v) : clamp v = v := by
  have := h.1
  have := h.2
  rw [clamp]
  omega

theorem roundDiv_mul (hd : 0 < d) (v : Int) : roundDiv (d * v) d = v :=
  Int.le_antisymm (roundDiv_le hd (Int.le_refl _)) (le_roundDiv hd (Int.le_refl _))

/-- The first node is the start of the cubic, the last its end. -/
theorem node_zero {k : Int} (h1 : 1 ≤ k) (c : Controls Int) : node k c 0 = c.p0 := by
  have hblossom : blossom k 0 0 0 c = k ^ 3 * c.p0 := by
    simp only [blossom]
    ring
  rw [node, hblossom, roundDiv_mul (pow_pos (by omega) 3)]

theorem node_last {k : Int} (h1 : 1 ≤ k) (c : Controls Int) : node k c k = c.p3 := by
  have hblossom : blossom k k k k c = k ^ 3 * c.p3 := by
    simp only [blossom]
    ring
  rw [node, hblossom, roundDiv_mul (pow_pos (by omega) 3)]

/-- How far a value is outside the `i16` range. -/
def outsideI16 (v : Int) : Int := max 0 (max (v - 32767) (-32768 - v))

theorem abs_clamp_sub (v : Int) : |clamp v - v| = outsideI16 v := by
  rw [clamp, outsideI16]
  rcases abs_cases (max (-32768) (min v 32767) - v) with ⟨h, _⟩ | ⟨h, _⟩ <;> rw [h] <;> omega

/-- The coordinates of a cubic, as rationals. -/
def ratControls (c : Controls Int) : Controls ℚ := c.map (Int.cast : Int → ℚ)

/-- The sub-cubic of the piece from `i / k` to `(i + 1) / k`. -/
def subCubic (k : Int) (c : Controls Int) (i : Int) : Controls ℚ :=
  ⟨blossom k i i i c / k ^ 3, blossom k i i (i + 1) c / k ^ 3, blossom k i (i + 1) (i + 1) c / k ^ 3,
    blossom k (i + 1) (i + 1) (i + 1) c / k ^ 3⟩

/-- The blossoms are the control points of the part of the cubic. -/
theorem cubicAt_subCubic {k : Int} (hk : k ≠ 0) (c : Controls Int) (i : Int) (t : ℚ) :
    cubicAt (subCubic k c i) t = cubicAt (ratControls c) ((i + t) / k) := by
  have hk : (k : ℚ) ≠ 0 := by exact_mod_cast hk
  simp only [cubicAt, subCubic, blossom, ratControls, Controls.map]
  push_cast
  field_simp
  ring

/-- Cutting a cubic into `k` pieces divides its third difference by `k^3`. -/
theorem thirdDifference_subCubic {k : Int} (hk : k ≠ 0) (c : Controls Int) (i : Int) :
    thirdDifference (subCubic k c i) = ((thirdDifference c : Int) : ℚ) / k ^ 3 := by
  have hk : (k : ℚ) ≠ 0 := by exact_mod_cast hk
  simp only [thirdDifference, subCubic, blossom]
  push_cast
  field_simp
  ring

/-- **A piece follows the cubic**, as far as its control point is not clamped. -/
theorem piece_follows {k : Int} (h1 : 1 ≤ k) (hc : ControlsInI16 c)
    (hdiff : |thirdDifference c| ≤ 4 * k ^ 3) (hi0 : 0 ≤ i) (hik : i < k) {t : ℚ} (h0 : 0 ≤ t)
    (ht : t ≤ 1) :
    |quadAt (node k c i : ℚ) (clamp (roundedControl k c i)) (clamp (node k c (i + 1))) t -
        cubicAt (ratControls c) ((i + t) / k)| ≤
      3 / 4 + 2 * t * (1 - t) * outsideI16 (roundedControl k c i) := by
  have hpos : 0 < k ^ 3 := pow_pos (by omega) 3
  have hpos' : (0 : ℚ) < k ^ 3 := by exact_mod_cast hpos
  rw [clamp_of_inI16 (inI16_node h1 hc (by omega) (by omega : i + 1 ≤ k)), ← cubicAt_subCubic (by omega)]
  generalize hq : subCubic k c i = q
  have hstart : |(node k c i : ℚ) - q.p0| ≤ 1 / 2 := by
    have := abs_roundDiv_sub_le (n := blossom k i i i c) hpos
    rw [← hq]
    push_cast at this
    exact this
  have hend : |(node k c (i + 1) : ℚ) - q.p3| ≤ 1 / 2 := by
    have := abs_roundDiv_sub_le (n := blossom k (i + 1) (i + 1) (i + 1) c) hpos
    rw [← hq]
    push_cast at this
    exact this
  have hcontrol : |(clamp (roundedControl k c i) : ℚ) - (3 * (q.p1 + q.p2) - (q.p0 + q.p3)) / 4| ≤
      1 / 2 + outsideI16 (roundedControl k c i) := by
    have hround : |(roundedControl k c i : ℚ) - (3 * (q.p1 + q.p2) - (q.p0 + q.p3)) / 4| ≤ 1 / 2 := by
      have := abs_roundDiv_sub_le (n := controlNumerator k c i) (d := 4 * k ^ 3) (by omega)
      have hexact : ((controlNumerator k c i : ℚ)) / ((4 * k ^ 3 : Int) : ℚ) =
          (3 * (q.p1 + q.p2) - (q.p0 + q.p3)) / 4 := by
        rw [← hq, controlNumerator, subCubic]
        push_cast
        field_simp
      rwa [hexact] at this
    have hclamp : |(clamp (roundedControl k c i) : ℚ) - roundedControl k c i| =
        outsideI16 (roundedControl k c i) := by
      exact_mod_cast congrArg (Int.cast : Int → ℚ) (abs_clamp_sub (roundedControl k c i))
    have := abs_sub_le (clamp (roundedControl k c i) : ℚ) (roundedControl k c i)
      ((3 * (q.p1 + q.p2) - (q.p0 + q.p3)) / 4)
    linarith
  have hquad := Lib.abs_quadAt_sub_le hstart hcontrol hend h0 ht
  have hreduce : |cubicAt q t - quadAt q.p0 ((3 * (q.p1 + q.p2) - (q.p0 + q.p3)) / 4) q.p3 t| ≤ 1 / 4 := by
    refine (Lib.abs_cubicAt_sub_reduced_le q h0 ht).trans ?_
    have hdiff' : |((thirdDifference c : Int) : ℚ)| ≤ 4 * k ^ 3 := by exact_mod_cast hdiff
    rw [← hq, thirdDifference_subCubic (by omega), abs_div, abs_of_pos hpos', div_div,
      div_le_iff₀ (by positivity)]
    linarith
  rw [abs_sub_comm] at hreduce
  refine (abs_sub_le _ (quadAt q.p0 ((3 * (q.p1 + q.p2) - (q.p0 + q.p3)) / 4) q.p3 t) _).trans ?_
  have hweights : ((1 - t) ^ 2 + t ^ 2) * (1 / 2) +
      2 * t * (1 - t) * (1 / 2 + outsideI16 (roundedControl k c i)) =
        1 / 2 + 2 * t * (1 - t) * outsideI16 (roundedControl k c i) := by ring
  rw [hweights] at hquad
  linarith

/-! ## The whole path -/

theorem mapM_eq_some_map {α β : Type} {f : α → Option β} {g : α → β} {l : List α}
    (h : ∀ a ∈ l, f a = some (g a)) : l.mapM f = some (l.map g) := by
  induction l with
  | nil => rfl
  | cons a l ih =>
      rw [List.mapM_cons, h a List.mem_cons_self, ih fun b hb => h b (List.mem_cons_of_mem _ hb)]
      rfl

/-- The control points of a cubic on one axis. -/
def onAxis (axis : Pt → Int) (p0 p1 p2 p3 : Pt) : Controls Int := ⟨axis p0, axis p1, axis p2, axis p3⟩

/-- Where each quadratic of a path starts: at the end of the one before, the first at `p0`. -/
def starts (p0 : Pt) (quads : List (Pt × Pt)) : List Pt := p0 :: quads.map Prod.snd

/-- Every quadratic follows its part of the cubic, on one axis. -/
def Follows (axis : Pt → Int) (p0 p1 p2 p3 : Pt) (quads : List (Pt × Pt)) : Prop :=
  ∀ (i : Nat) (start : Pt) (q : Pt × Pt), (starts p0 quads)[i]? = some start → quads[i]? = some q →
    ∀ t : ℚ, 0 ≤ t → t ≤ 1 →
      |quadAt (axis start : ℚ) (axis q.1) (axis q.2) t -
          cubicAt (ratControls (onAxis axis p0 p1 p2 p3)) ((i + t) / quads.length)| ≤
        3 / 4 + 2 * t * (1 - t) *
          outsideI16 (roundedControl quads.length (onAxis axis p0 p1 p2 p3) i)

/-- The point on both axes. -/
structure Pt.InI16 (p : Pt) : Prop where
  x : Text.InI16 p.x
  y : Text.InI16 p.y

/-- The quadratic of one piece. -/
def quadOf (k : Int) (xs ys : Controls Int) (i : Nat) : Pt × Pt :=
  (⟨clamp (roundedControl k xs i), clamp (roundedControl k ys i)⟩,
    ⟨clamp (node k xs (i + 1)), clamp (node k ys (i + 1))⟩)

theorem quadPiece_eq {k : Int} (h1 : 1 ≤ k) (h16 : k ≤ 16) {xs ys : Controls Int} (hx : ControlsInI16 xs)
    (hy : ControlsInI16 ys) {i : Nat} (hi : i < k.toNat) :
    quadPiece k xs ys i = some (.quadTo (quadOf k xs ys i).1 (quadOf k xs ys i).2) := by
  rw [quadPiece, piece_eq h1 h16 hx (Int.natCast_nonneg i) (by omega),
    piece_eq h1 h16 hy (Int.natCast_nonneg i) (by omega)]
  rfl

/-- The quadratics of a cubic cut into `k` pieces. -/
def pieces (k : Int) (xs ys : Controls Int) : List (Pt × Pt) := (List.range k.toNat).map (quadOf k xs ys)

section Path

variable {p0 p1 p2 p3 : Pt} {k : Int}

theorem length_pieces (h1 : 1 ≤ k) (xs ys : Controls Int) : ((pieces k xs ys).length : Int) = k := by
  rw [pieces, List.length_map, List.length_range]
  omega

variable {xs ys : Controls Int}

theorem start_of_piece (h1 : 1 ≤ k) (hx : ControlsInI16 xs) (hy : ControlsInI16 ys) (hx0 : p0.x = xs.p0)
    (hy0 : p0.y = ys.p0) {i : Nat} {start : Pt} (hik : (i : Int) < k)
    (h : (starts p0 (pieces k xs ys))[i]? = some start) : start = ⟨node k xs i, node k ys i⟩ := by
  cases i with
  | zero =>
      rw [starts, List.getElem?_cons_zero, Option.some.injEq] at h
      rw [← h, Int.natCast_zero, node_zero h1, node_zero h1, ← hx0, ← hy0]
  | succ i =>
      push_cast at hik ⊢
      have hi : i < k.toNat := by omega
      rw [starts, List.getElem?_cons_succ, pieces, List.map_map, List.getElem?_map,
        List.getElem?_range hi, Option.map_some, Option.some.injEq] at h
      rw [← h, Function.comp_apply, quadOf, clamp_of_inI16 (inI16_node h1 hx (by omega) (by omega)),
        clamp_of_inI16 (inI16_node h1 hy (by omega) (by omega))]

theorem pieces_follow (h1 : 1 ≤ k) (hx : ControlsInI16 xs) (hy : ControlsInI16 ys) (hx0 : p0.x = xs.p0)
    (hy0 : p0.y = ys.p0) (hdx : |thirdDifference xs| ≤ 4 * k ^ 3)
    (hdy : |thirdDifference ys| ≤ 4 * k ^ 3) {i : Nat} {start : Pt} {q : Pt × Pt}
    (hstart : (starts p0 (pieces k xs ys))[i]? = some start) (hq : (pieces k xs ys)[i]? = some q)
    {t : ℚ} (h0 : 0 ≤ t) (ht : t ≤ 1) :
    |quadAt (start.x : ℚ) q.1.x q.2.x t - cubicAt (ratControls xs) ((i + t) / k)| ≤
        3 / 4 + 2 * t * (1 - t) * outsideI16 (roundedControl k xs i) ∧
      |quadAt (start.y : ℚ) q.1.y q.2.y t - cubicAt (ratControls ys) ((i + t) / k)| ≤
        3 / 4 + 2 * t * (1 - t) * outsideI16 (roundedControl k ys i) := by
  have hi : i < k.toNat := by
    have := (List.getElem?_eq_some_iff.mp hq).1
    rwa [pieces, List.length_map, List.length_range] at this
  have hik : (i : Int) < k := by omega
  rw [pieces, List.getElem?_map, List.getElem?_range hi, Option.map_some, Option.some.injEq] at hq
  rw [start_of_piece h1 hx hy hx0 hy0 hik hstart, ← hq]
  exact ⟨piece_follows h1 hx hdx (Int.natCast_nonneg i) hik h0 ht,
    piece_follows h1 hy hdy (Int.natCast_nonneg i) hik h0 ht⟩

/-- The last piece ends at the end of the cubic. -/
theorem getLast_pieces (h1 : 1 ≤ k) (hx : ControlsInI16 xs) (hy : ControlsInI16 ys) :
    (pieces k xs ys).getLast?.map Prod.snd = some ⟨xs.p3, ys.p3⟩ := by
  obtain ⟨n, hn⟩ : ∃ n, k.toNat = n + 1 := ⟨k.toNat - 1, by omega⟩
  have hlast : ((n : Int) + 1) = k := by omega
  rw [pieces, hn, List.range_succ, List.map_append, List.map_singleton, List.getLast?_concat,
    Option.map_some, quadOf, hlast, clamp_of_inI16 (inI16_node h1 hx (by omega) (by omega)),
    clamp_of_inI16 (inI16_node h1 hy (by omega) (by omega)), node_last h1, node_last h1]

theorem thirdDifference_bounded {c : Controls Int} (hc : ControlsInI16 c) :
    (thirdDifference (c.map (Checked.ofInt 64))).Bounded (thirdDifference c) 262144 := by
  obtain ⟨b0, b1, b2, b3⟩ := hc.bounded
  have three : (3 : Checked 64).Bounded 3 3 := Checked.Bounded.ofNat 3 (by decide)
  exact (((b0.sub (three.mul b1 (by norm_num)) (by norm_num)).add (three.mul b2 (by norm_num))
    (by norm_num)).sub b3 (by norm_num)).mono (by norm_num)

theorem abs64_eq {v : Int} (h : |v| ≤ 262144) : abs64 v = some |v| := by
  have := abs_le.mp h
  exact if_neg (by omega)

/-- **Cubic outlines are followed.**  No value overflows; the path consists of one to sixteen
quadratics from `p0` to `p3`, each within three quarters of a unit of its part of the cubic and
what the clamp takes off its control point. -/
theorem cubic_followed (h0 : p0.InI16) (h1 : p1.InI16) (h2 : p2.InI16) (h3 : p3.InI16)
    (hdx : |thirdDifference (onAxis Pt.x p0 p1 p2 p3)| ≤ 16384)
    (hdy : |thirdDifference (onAxis Pt.y p0 p1 p2 p3)| ≤ 16384) (out : List PathCmd) :
    ∃ quads : List (Pt × Pt),
      cubicToQuads p0 p1 p2 p3 out = some (out ++ quads.map fun q => .quadTo q.1 q.2) ∧
        1 ≤ quads.length ∧ quads.length ≤ 16 ∧ quads.getLast?.map Prod.snd = some p3 ∧
        Follows Pt.x p0 p1 p2 p3 quads ∧ Follows Pt.y p0 p1 p2 p3 quads := by
  have hx : ControlsInI16 (onAxis Pt.x p0 p1 p2 p3) := ⟨h0.x, h1.x, h2.x, h3.x⟩
  have hy : ControlsInI16 (onAxis Pt.y p0 p1 p2 p3) := ⟨h0.y, h1.y, h2.y, h3.y⟩
  have hMAX : MAX_SPLIT = 16 := rfl
  obtain ⟨k, hsplit, hk1, hk16, hd⟩ := splitFrom_eq_some
    (max |thirdDifference (onAxis Pt.x p0 p1 p2 p3)| |thirdDifference (onAxis Pt.y p0 p1 p2 p3)|)
    (MAX_SPLIT - 1).toNat 1 (Int.le_refl 1) (by decide)
  have hd : max |thirdDifference (onAxis Pt.x p0 p1 p2 p3)|
      |thirdDifference (onAxis Pt.y p0 p1 p2 p3)| ≤ 4 * k ^ 3 := by
    rcases Int.lt_or_eq_of_le hk16 with hlt | rfl
    · exact hd hlt
    · exact max_le hdx hdy
  have hlen := length_pieces hk1 (onAxis Pt.x p0 p1 p2 p3) (onAxis Pt.y p0 p1 p2 p3)
  refine ⟨pieces k (onAxis Pt.x p0 p1 p2 p3) (onAxis Pt.y p0 p1 p2 p3), ?_, by omega, by omega,
    getLast_pieces hk1 hx hy, ?_, ?_⟩
  · have hquads := mapM_eq_some_map fun i hi => quadPiece_eq hk1 hk16 hx hy (List.mem_range.mp hi)
    have hbx := thirdDifference_bounded hx
    have hby := thirdDifference_bounded hy
    rw [onAxis] at hbx hby
    rw [onAxis, onAxis] at hsplit hquads
    simp only [cubicToQuads, hbx.is.value_eq, hby.is.value_eq, abs64_eq hbx.abs_le,
      abs64_eq hby.abs_le, Option.bind_eq_bind, Option.bind_some, hsplit] at hquads ⊢
    rw [hquads, Option.bind_some, pieces, List.map_map]
    rfl
  · intro i start q hstart hq t ht0 ht1
    rw [← Int.cast_natCast (pieces k _ _).length, hlen]
    exact (pieces_follow hk1 hx hy rfl rfl ((le_max_left _ _).trans hd) ((le_max_right _ _).trans hd)
      hstart hq ht0 ht1).1
  · intro i start q hstart hq t ht0 ht1
    rw [← Int.cast_natCast (pieces k _ _).length, hlen]
    exact (pieces_follow hk1 hx hy rfl rfl ((le_max_left _ _).trans hd) ((le_max_right _ _).trans hd)
      hstart hq ht0 ht1).2

end Path

/-- A curve of eight pieces. -/
theorem cubic_followed_eight :
    ∃ quads : List (Pt × Pt),
      cubicToQuads ⟨0, 0⟩ ⟨100, 200⟩ ⟨-300, 50⟩ ⟨500, 500⟩ [] =
          some ([] ++ quads.map fun q => .quadTo q.1 q.2) ∧
        1 ≤ quads.length ∧ quads.length ≤ 16 ∧ quads.getLast?.map Prod.snd = some ⟨500, 500⟩ ∧
        Follows Pt.x ⟨0, 0⟩ ⟨100, 200⟩ ⟨-300, 50⟩ ⟨500, 500⟩ quads ∧
        Follows Pt.y ⟨0, 0⟩ ⟨100, 200⟩ ⟨-300, 50⟩ ⟨500, 500⟩ quads :=
  cubic_followed ⟨by decide, by decide⟩ ⟨by decide, by decide⟩ ⟨by decide, by decide⟩ ⟨by decide, by decide⟩
    (by decide) (by decide) []

/-- An arch whose control points are at the end of the `i16` range: the quadratic's lies outside,
and in the middle the curve drawn is thousands of units off. -/
theorem clamped_arch :
    |thirdDifference (onAxis Pt.x ⟨0, 0⟩ ⟨32767, 0⟩ ⟨32767, 0⟩ ⟨0, 0⟩)| ≤ 16384 ∧
      cubicToQuads ⟨0, 0⟩ ⟨32767, 0⟩ ⟨32767, 0⟩ ⟨0, 0⟩ [] = some [.quadTo ⟨32767, 0⟩ ⟨0, 0⟩] ∧
        ¬ |quadAt (0 : ℚ) 32767 0 (1 / 2) - cubicAt ⟨0, 32767, 32767, 0⟩ (1 / 2)| ≤ 3 / 4 := by
  refine ⟨by decide, by decide, ?_⟩
  norm_num [quadAt, cubicAt]

end Pelorus.Text
