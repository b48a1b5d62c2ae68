import Mathlib.FieldTheory.Finite.Basic
import Mathlib.NumberTheory.LegendreSymbol.Basic
import Mathlib.Tactic.NormNum.Prime
import Pelorus.Lib.Bytes
import Pelorus.Lib.Edwards

/-
  Update/Ed25519/Prime.lean --- the prime 2^255 - 19, its field, and the two facts of
  that field the signature scheme rests on.

  PRIMALITY.  Lucas's test at the prime, at the largest prime factor of the number before
  it, and so on down to primes of seven digits.

  RESIDUES.  Neither 2 nor the constant d of the curve is a square, by Euler's
  criterion; -1 is one, of a power of 2.  So the curve is complete.
-/
set_option autoImplicit false

namespace Pelorus.Update.Ed25519

open Lib Lib.Bytes Lib.Binary

/-- The prime of the field. -/
def P : Nat := 2 ^ 255 - 19

/-! ## Primality -/

/-- The powers that the test asks for. -/
theorem lucas_checks :
    lucasCheck 2773320623 5 [2, 2437, 569003] = true ∧
    lucasCheck 72106336199 7 [2, 13, 2773320623] = true ∧
    lucasCheck 1919519569386763 2 [2, 3, 7, 19, 47, 47, 127, 8574133] = true ∧
    lucasCheck 31757755568855353 10 [2, 2, 2, 3, 31, 107, 223, 4153, 430751] = true ∧
    lucasCheck 75445702479781427272750846543864801 7
      [2, 2, 2, 2, 2, 3, 3, 5, 5, 75707, 72106336199, 1919519569386763] = true ∧
    lucasCheck 74058212732561358302231226437062788676166966415465897661863160754340907 2
      [2, 3, 353, 57467, 132049, 1923133, 31757755568855353, 75445702479781427272750846543864801] = true ∧
    lucasCheck P 2
      [2, 2, 3, 65147, 74058212732561358302231226437062788676166966415465897661863160754340907] = true := by
  decide +kernel

/-- The largest prime factor of the number before the prime of the field. -/
theorem prime_factor :
    Nat.Prime 74058212732561358302231226437062788676166966415465897661863160754340907 := by
  obtain ⟨h₁, h₂, h₃, h₄, h₅, h₆, -⟩ := lucas_checks
  have hp₁ : Nat.Prime 2773320623 := prime_of_lucas 5 _ (by simp; norm_num) h₁
  have hp₂ : Nat.Prime 72106336199 := prime_of_lucas 7 _ (by simp [hp₁]; norm_num) h₂
  have hp₃ : Nat.Prime 1919519569386763 := prime_of_lucas 2 _ (by simp; norm_num) h₃
  have hp₄ : Nat.Prime 31757755568855353 := prime_of_lucas 10 _ (by simp; norm_num) h₄
  have hp₅ : Nat.Prime 75445702479781427272750846543864801 :=
    prime_of_lucas 7 _ (by simp [hp₂, hp₃]; norm_num) h₅
  exact prime_of_lucas 2 _ (by simp [hp₄, hp₅]; norm_num) h₆

theorem prime_P : P.Prime := by
  obtain ⟨-, -, -, -, -, -, h⟩ := lucas_checks
  exact prime_of_lucas 2 _ (by simp [prime_factor]; norm_num) h

instance : Fact P.Prime := ⟨prime_P⟩

/-- The field of 2^255 - 19 elements. -/
abbrev Field25519 : Type := ZMod P

/-! ## Residues -/

/-- A power in the field is the power the kernel can evaluate. -/
theorem pow_eq_powMod (a n : Nat) (hn : n < 256 ^ 32) :
    (a : Field25519) ^ n = (powMod P a (leBytes 32 n) : Nat) := by
  rw [powMod_eq, leNat_leBytes hn, ZMod.natCast_mod, Nat.cast_pow]

theorem natCast_P_sub_one : ((P - 1 : Nat) : Field25519) = -1 := by
  rw [Nat.cast_sub prime_P.one_lt.le, ZMod.natCast_self, Nat.cast_one, zero_sub]

theorem neg_one_ne_one : (-1 : Field25519) ≠ 1 := by
  intro h
  have hmod : (P - 1) % P = 1 % P := (ZMod.natCast_eq_natCast_iff' (P - 1) 1 P).mp (by
    rw [natCast_P_sub_one, h, Nat.cast_one])
  norm_num [P] at hmod

theorem two_ne_zero_field : (2 : Field25519) ≠ 0 := by
  intro h
  apply neg_one_ne_one
  linear_combination -h

/-- A number whose power to half the order is -1 is no square. -/
theorem not_isSquare_of_powMod {a : Nat} (h : powMod P a (leBytes 32 (P / 2)) = P - 1) :
    ¬ IsSquare (a : Field25519) := by
  have hpow : (a : Field25519) ^ (P / 2) = -1 := by
    rw [pow_eq_powMod a _ (by decide), h, natCast_P_sub_one]
  have hne : (a : Field25519) ≠ 0 := by
    intro hzero
    rw [hzero, zero_pow (by decide)] at hpow
    exact zero_ne_one (neg_eq_zero.mp hpow.symm).symm
  rw [ZMod.euler_criterion P hne, hpow]
  exact neg_one_ne_one

/-- The quotient -121665 / 121666 as a number. -/
def dNat : Nat := 37095705934669439343138083508754565189542113879843219016388785533085940283555

theorem dNat_mul : (dNat : Field25519) * 121666 = -121665 := by
  have hmod : (dNat * 121666) % P = (P - 121665) % P := by norm_num [P, dNat]
  have hcast := (ZMod.natCast_eq_natCast_iff' (dNat * 121666) (P - 121665) P).mpr hmod
  rw [Nat.cast_mul, Nat.cast_sub (by norm_num [P]), ZMod.natCast_self, zero_sub] at hcast
  exact_mod_cast hcast

/-- `d` of the curve. -/
noncomputable def d : Field25519 := -121665 * (121666 : Field25519)⁻¹

theorem ne_zero_121666 : (121666 : Field25519) ≠ 0 := by
  have hmod : ¬ 121666 % P = 0 % P := by norm_num [P]
  intro h
  apply hmod
  apply (ZMod.natCast_eq_natCast_iff' 121666 0 P).mp
  exact_mod_cast h

theorem d_eq : d = dNat := by
  rw [d, ← dNat_mul, mul_assoc, mul_inv_cancel₀ ne_zero_121666, mul_one]

/-- By Euler's criterion neither 2 nor the constant is a square. -/
theorem residue_checks :
    powMod P 2 (leBytes 32 (P / 2)) = P - 1 ∧ powMod P dNat (leBytes 32 (P / 2)) = P - 1 := by
  decide +kernel

/-- A square root of -1: the power of 2 of a quarter of the order. -/
noncomputable def sqrtM1 : Field25519 := 2 ^ ((P - 1) / 4)

theorem sqrtM1_mul_self : sqrtM1 * sqrtM1 = -1 := by
  have h := pow_eq_powMod 2 (P / 2) (by decide)
  rw [residue_checks.1, natCast_P_sub_one, Nat.cast_ofNat] at h
  rw [sqrtM1, ← pow_add, show (P - 1) / 4 + (P - 1) / 4 = P / 2 by norm_num [P], h]

/-- The curve of the signature scheme, which is complete. -/
noncomputable def curve : Edwards.Curve Field25519 where
  d := d
  i := sqrtM1
  i_mul_i := sqrtM1_mul_self
  d_nonsquare := by
    rw [d_eq]
    exact not_isSquare_of_powMod residue_checks.2
  two_ne_zero := two_ne_zero_field

theorem curve_d : curve.d = d := by
  simp only [curve]

/-- A point of the curve. -/
abbrev CurvePoint : Type := Edwards.Point curve

/-! ## Square roots -/

/-- The power the code takes, for the candidate of a root of u / v. -/
noncomputable def candidate (u v : Field25519) : Field25519 := u * v ^ 3 * (u * v ^ 7) ^ ((P - 5) / 8)

/-- The candidate by the products the code takes. -/
theorem candidate_eq (u v : Field25519) :
    u * (v * v * v) * (u * (v * v * v * (v * v * v) * v)) ^ ((P - 5) / 8) = candidate u v := by
  have h3 : v * v * v = v ^ 3 := by ring
  have h7 : v * v * v * (v * v * v) * v = v ^ 7 := by ring
  rw [h7, h3, candidate]

theorem mul_candidate_sq (u v : Field25519) : v * candidate u v ^ 2 = u * (u * v ^ 7) ^ ((P - 1) / 4) := by
  have hexponent : (P - 1) / 4 = (P - 5) / 8 * 2 + 1 := by norm_num [P]
  rw [hexponent, pow_succ (u * v ^ 7), pow_mul (u * v ^ 7), candidate]
  ring

theorem mul_candidate_sq_of_root {u v x : Field25519} (hv : v ≠ 0) (hx : v * x ^ 2 = u) :
    v * candidate u v ^ 2 = u ∨ v * candidate u v ^ 2 = -u := by
  rw [mul_candidate_sq]
  by_cases hu : u = 0
  · left
    rw [hu, zero_mul]
  · have hx0 : x ≠ 0 := by
      rintro rfl
      apply hu
      rw [← hx]
      simp
    -- the base of the power is a fourth power times a square
    have hbase : u * v ^ 7 = (v ^ 4 * x) ^ 2 := by
      rw [← hx]
      ring
    have hne : v ^ 4 * x ≠ 0 := mul_ne_zero (pow_ne_zero 4 hv) hx0
    have hhalf : ((u * v ^ 7) ^ ((P - 1) / 4)) = (v ^ 4 * x) ^ (P / 2) := by
      rw [hbase, ← pow_mul]
      congr 1
    rcases ZMod.pow_div_two_eq_neg_one_or_one P hne with h | h
    · left
      rw [hhalf, h, mul_one]
    · right
      rw [hhalf, h]
      ring

end Pelorus.Update.Ed25519
