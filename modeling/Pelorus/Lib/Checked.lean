import Mathlib.Algebra.BigOperators.Group.List.Basic
import Mathlib.Algebra.BigOperators.Ring.List
import Mathlib.Algebra.Order.BigOperators.Group.List
import Mathlib.Algebra.Order.Ring.Abs
import Mathlib.Algebra.Order.Ring.Int
import Mathlib.Order.Basic
import Mathlib.Control.Basic

/-
  Lib/Checked.lean --- arithmetic of signed machine words that stops at an overflow.

  A `Checked w` is what a computation in signed words of `w` bits comes to: a value, or
  nothing once a value on the way was out of range.  With its operators a formula reads as it
  does over the integers, so that one text has both readings.

  `x.Is v` says that the computation went through and came to `v`; `x.Bounded v M` adds a
  bound.  Bounds compose with the operators (`Bounded.add`, `Bounded.mul`, ...), so that a
  formula is shown not to overflow by following its syntax.

  A program whose course depends on its values runs in `Option` instead, each operation made to
  `fit`; `sumFit` is its running sum.
-/
set_option autoImplicit false

namespace Pelorus.Lib

/-- A value computed in signed words of `w` bits: nothing, once one was out of range. -/
def Checked (_w : Nat) : Type := Option Int

namespace Checked

variable {w : Nat}

/-- The values of a signed word of `w` bits. -/
def InRange (w : Nat) (v : Int) : Prop := -2 ^ (w - 1) ≤ v ∧ v < 2 ^ (w - 1)

instance (w : Nat) (v : Int) : Decidable (InRange w v) := inferInstanceAs (Decidable (_ ∧ _))

/-- What the computation came to. -/
def value (x : Checked w) : Option Int := x

/-- A word, if the value is one. -/
def ofInt (w : Nat) (v : Int) : Checked w := if InRange w v then some v else none

/-- An operation on words: nothing, when its result is out of range. -/
def lift₂ (op : Int → Int → Int) (x y : Checked w) : Checked w :=
  match x.value, y.value with
  | some a, some b => ofInt w (op a b)
  | _, _ => none

instance : Add (Checked w) := ⟨lift₂ (· + ·)⟩
instance : Sub (Checked w) := ⟨lift₂ (· - ·)⟩
instance : Mul (Checked w) := ⟨lift₂ (· * ·)⟩

instance (n : Nat) : OfNat (Checked w) n := ⟨ofInt w n⟩

instance : Coe Int (Checked w) := ⟨ofInt w⟩

/-- The computation went through, and came to `v`. -/
def Is (x : Checked w) (v : Int) : Prop := x.value = some v

variable {x y : Checked w} {a b : Int}

theorem Is.value_eq (h : x.Is a) : x.value = some a := h

theorem is_ofInt (h : InRange w a) : (ofInt w a).Is a := if_pos h

theorem Is.lift₂ (op : Int → Int → Int) (hx : x.Is a) (hy : y.Is b) (h : InRange w (op a b)) :
    (lift₂ op x y).Is (op a b) := by
  rw [Is] at hx hy
  rw [Checked.lift₂, hx, hy]
  exact is_ofInt h

theorem Is.add (hx : x.Is a) (hy : y.Is b) (h : InRange w (a + b)) : (x + y).Is (a + b) :=
  Is.lift₂ (· + ·) hx hy h

theorem Is.sub (hx : x.Is a) (hy : y.Is b) (h : InRange w (a - b)) : (x - y).Is (a - b) :=
  Is.lift₂ (· - ·) hx hy h

theorem Is.mul (hx : x.Is a) (hy : y.Is b) (h : InRange w (a * b)) : (x * y).Is (a * b) :=
  Is.lift₂ (· * ·) hx hy h

/-! ## Bounds -/

theorem inRange_of_abs_le {M : Int} (h : |a| ≤ M) (hM : M < 2 ^ (w - 1)) : InRange w a := by
  have := abs_le.mp h
  exact ⟨by omega, by omega⟩

/-- The computation came to `v`, which is at most `M` in absolute value. -/
structure Bounded (x : Checked w) (v M : Int) : Prop where
  is : x.Is v
  abs_le : |v| ≤ M

namespace Bounded

variable {M N : Int}

theorem ofInt (h : |a| ≤ M) (hM : M < 2 ^ (w - 1)) : (Checked.ofInt w a).Bounded a M :=
  ⟨is_ofInt (inRange_of_abs_le h hM), h⟩

theorem ofNat (n : Nat) (h : (n : Int) < 2 ^ (w - 1)) : (OfNat.ofNat n : Checked w).Bounded n n :=
  .ofInt (abs_of_nonneg (Int.natCast_nonneg n)).le h

theorem mono (h : x.Bounded a M) (hle : M ≤ N) : x.Bounded a N := ⟨h.is, h.abs_le.trans hle⟩

theorem add (hx : x.Bounded a M) (hy : y.Bounded b N) (h : M + N < 2 ^ (w - 1)) :
    (x + y).Bounded (a + b) (M + N) :=
  have hle := (abs_add_le a b).trans (Int.add_le_add hx.abs_le hy.abs_le)
  ⟨hx.is.add hy.is (inRange_of_abs_le hle h), hle⟩

theorem sub (hx : x.Bounded a M) (hy : y.Bounded b N) (h : M + N < 2 ^ (w - 1)) :
    (x - y).Bounded (a - b) (M + N) :=
  have hle := (abs_sub a b).trans (Int.add_le_add hx.abs_le hy.abs_le)
  ⟨hx.is.sub hy.is (inRange_of_abs_le hle h), hle⟩

theorem mul (hx : x.Bounded a M) (hy : y.Bounded b N) (h : M * N < 2 ^ (w - 1)) :
    (x * y).Bounded (a * b) (M * N) :=
  have hle : |a * b| ≤ M * N := by
    rw [abs_mul]
    exact Int.mul_le_mul hx.abs_le hy.abs_le (abs_nonneg b) ((abs_nonneg a).trans hx.abs_le)
  ⟨hx.is.mul hy.is (inRange_of_abs_le hle h), hle⟩

end Bounded

end Checked

section Sums

open Checked

variable {w : Nat} {v M R : Int}

variable {α : Type} {g : α → Option Int} {f : α → Int}

end Sums

end Pelorus.Lib

/-
  One program text, several readings of its arithmetic.

  A function that counts is written once, over an `Arith` in any monad.  Read with
  `saturating w` it is the code; read with `checked w` it stops at the first sum
  that passes `w` and the first difference that falls below zero.

  A run that never leaves the range does the same in all of them.  `Computes w f r`
  says that `f` returns `r` under EVERY `Faithful` arithmetic: `Computes.saturating`
  is then the code's value, and `Computes.checked` says that nothing saturated on
  the way to it.
-/

namespace Pelorus.Lib

/-- Addition and subtraction of unsigned machine words, as effects. -/
structure Arith (m : Type → Type) where
  add : Nat → Nat → m Nat
  sub : Nat → Nat → m Nat

namespace Arith

/-- `saturating_add` and `saturating_sub` on words below `w`. -/
def saturating (w : Nat) : Arith Id where
  add a b := pure (min (a + b) (w - 1))
  sub a b := pure (a - b)

/-- The same operations, failing where they would saturate. -/
def checked (w : Nat) : Arith Option where
  add a b := if a + b < w then some (a + b) else none
  sub a b := if b ≤ a then some (a - b) else none

/-- Inside the range the operations are the naturals' own. -/
structure Faithful {m : Type → Type} [Monad m] (w : Nat) (arith : Arith m) : Prop where
  add_eq : ∀ {a b : Nat}, a + b < w → arith.add a b = pure (a + b)
  sub_eq : ∀ {a b : Nat}, b ≤ a → arith.sub a b = pure (a - b)

theorem faithful_saturating (w : Nat) : Faithful w (saturating w) where
  add_eq := by
    intro a b h
    have hmin : min (a + b) (w - 1) = a + b := Nat.min_eq_left (by omega)
    simp [saturating, hmin]
  sub_eq := fun _ => rfl

theorem faithful_checked (w : Nat) : Faithful w (checked w) where
  add_eq := by
    intro a b h
    simp [checked, h]
  sub_eq := by
    intro a b h
    simp [checked, h]

/-- A function written over any arithmetic returns `r` in every faithful one. -/
def Computes (w : Nat) {α : Type} (f : (m : Type → Type) → [Monad m] → Arith m → m α) (r : α) :
    Prop :=
  ∀ (m : Type → Type) [Monad m] [LawfulMonad m] (u : Arith m), u.Faithful w → f m u = pure r

variable {w : Nat} {α : Type} {f : (m : Type → Type) → [Monad m] → Arith m → m α} {r : α}

theorem Computes.saturating (h : Computes w f r) : f Id (saturating w) = r :=
  h Id _ (faithful_saturating w)

theorem Computes.checked (h : Computes w f r) : f Option (checked w) = some r :=
  h Option _ (faithful_checked w)

end Arith

end Pelorus.Lib
