import Pelorus.Lib.Numerals
import Pelorus.Update.Ed25519.Prime

/-
  Update/Ed25519/Field.lean --- arithmetic modulo 2^255 - 19 in five limbs of 51 bits
  (`px-update/src/ed25519/field.rs`).

  WHAT THE LIMBS STAND FOR.  `Fe.Is a x` says that the limbs of `a` are weakly reduced
  and that `a` stands for `x` in the field.  Each operation has one lemma, from this of
  its arguments to this of its result, and no proof looks into the limbs after that.

  NO SUM TRAPS.  The numbers of 64 bits are `UInt64`; on weakly reduced limbs no sum,
  difference or product of theirs passes the width, which is what the lemmas on
  carrying prove on the way.  The numbers of 128 bits are `Nat`; `mul_wide` bounds them.
-/
set_option autoImplicit false

namespace Pelorus.Update.Ed25519

open Lib Lib.Bytes

/-- The lowest 51 bits. -/
def MASK : UInt64 := 0x7ffffffffffff

/-- A field element: five limbs, the lowest first. -/
structure Fe where
  h0 : UInt64
  h1 : UInt64
  h2 : UInt64
  h3 : UInt64
  h4 : UInt64
  deriving DecidableEq, Repr

namespace Fe

/-! ## The operations -/

def ZERO : Fe := ⟨0, 0, 0, 0, 0⟩

def ONE : Fe := ⟨1, 0, 0, 0, 0⟩

/-- A small constant, below 2^51. -/
def small (v : UInt64) : Fe := ⟨v, 0, 0, 0, 0⟩

/-- `from_bytes`: the lowest 255 bits. -/
def fromBytes (b : Fixed 32) : Fe :=
  let w0 := Binary.word b.1 0
  let w1 := Binary.word b.1 1
  let w2 := Binary.word b.1 2
  let w3 := Binary.word b.1 3
  ⟨w0 &&& MASK,
    ((w0 >>> 51) ||| (w1 <<< 13)) &&& MASK,
    ((w1 >>> 38) ||| (w2 <<< 26)) &&& MASK,
    ((w2 >>> 25) ||| (w3 <<< 39)) &&& MASK,
    (w3 >>> 12) &&& MASK⟩

def carry (h : Fe) : Fe :=
  let h1 := h.h1 + (h.h0 >>> 51)
  let h0 := h.h0 &&& MASK
  let h2 := h.h2 + (h1 >>> 51)
  let h1 := h1 &&& MASK
  let h3 := h.h3 + (h2 >>> 51)
  let h2 := h2 &&& MASK
  let h4 := h.h4 + (h3 >>> 51)
  let h3 := h3 &&& MASK
  let h0 := h0 + (h4 >>> 51) * 19
  let h4 := h4 &&& MASK
  let h1 := h1 + (h0 >>> 51)
  let h0 := h0 &&& MASK
  ⟨h0, h1, h2, h3, h4⟩

def add (a o : Fe) : Fe := carry ⟨a.h0 + o.h0, a.h1 + o.h1, a.h2 + o.h2, a.h3 + o.h3, a.h4 + o.h4⟩

/-- Twice the prime, in limbs no weakly reduced limb passes. -/
def TWO_P : Fe :=
  ⟨0xfffffffffffda, 0xffffffffffffe, 0xffffffffffffe, 0xffffffffffffe, 0xffffffffffffe⟩

/-- `sub`: `self + 2p - o`. -/
def sub (a o : Fe) : Fe :=
  carry ⟨a.h0 + TWO_P.h0 - o.h0, a.h1 + TWO_P.h1 - o.h1, a.h2 + TWO_P.h2 - o.h2, a.h3 + TWO_P.h3 - o.h3,
    a.h4 + TWO_P.h4 - o.h4⟩

def neg (a : Fe) : Fe := ZERO.sub a

/-- `u64::try_from(v).unwrap_or(0)`. -/
def narrow (v : Nat) : UInt64 := if v < 2 ^ 64 then UInt64.ofNat v else 0

/-- The five columns of a product, before they are carried. -/
structure Columns where
  c0 : Nat
  c1 : Nat
  c2 : Nat
  c3 : Nat
  c4 : Nat

/-- The columns of `mul`; what passes the fifth limb comes back times 19. -/
def columns (a o : Fe) : Columns :=
  let a0 := a.h0.toNat
  let a1 := a.h1.toNat
  let a2 := a.h2.toNat
  let a3 := a.h3.toNat
  let a4 := a.h4.toNat
  let b0 := o.h0.toNat
  let b1 := o.h1.toNat
  let b2 := o.h2.toNat
  let b3 := o.h3.toNat
  let b4 := o.h4.toNat
  let b1_19 := b1 * 19
  let b2_19 := b2 * 19
  let b3_19 := b3 * 19
  let b4_19 := b4 * 19
  { c0 := a0 * b0 + a1 * b4_19 + a2 * b3_19 + a3 * b2_19 + a4 * b1_19
    c1 := a0 * b1 + a1 * b0 + a2 * b4_19 + a3 * b3_19 + a4 * b2_19
    c2 := a0 * b2 + a1 * b1 + a2 * b0 + a3 * b4_19 + a4 * b3_19
    c3 := a0 * b3 + a1 * b2 + a2 * b1 + a3 * b0 + a4 * b4_19
    c4 := a0 * b4 + a1 * b3 + a2 * b2 + a3 * b1 + a4 * b0 }

def mul (a o : Fe) : Fe :=
  let c := columns a o
  let m := MASK.toNat
  let c0 := c.c0
  let c1 := c.c1 + (c0 >>> 51)
  let c2 := c.c2 + (c1 >>> 51)
  let c3 := c.c3 + (c2 >>> 51)
  let c4 := c.c4 + (c3 >>> 51)
  let top := c4 >>> 51
  carry ⟨narrow ((c0 &&& m) + top * 19), narrow (c1 &&& m), narrow (c2 &&& m), narrow (c3 &&& m),
    narrow (c4 &&& m)⟩

def square (a : Fe) : Fe := a.mul a

/-- `pow`: the bits of the exponent in turn, from the highest. -/
def pow (a : Fe) (exp : Fixed 32) : Fe :=
  Binary.ladder (fun acc bit => if bit then acc.square.mul a else acc.square) ONE exp.1

/-- `low`, then 30 bytes of 0xff, then `high`. -/
def expBytes (low high : UInt8) : Fixed 32 := ⟨low :: List.replicate 30 0xff ++ [high], rfl⟩

/-- p - 2. -/
def P_MINUS_2 : Fixed 32 := expBytes 0xeb 0x7f

/-- (p - 5) / 8. -/
def P_MINUS_5_OVER_8 : Fixed 32 := expBytes 0xfd 0x0f

/-- (p - 1) / 4. -/
def P_MINUS_1_OVER_4 : Fixed 32 := expBytes 0xfb 0x1f

def invert (a : Fe) : Fe := a.pow P_MINUS_2

def powP58 (a : Fe) : Fe := a.pow P_MINUS_5_OVER_8

def sqrtM1 : Fe := (small 2).pow P_MINUS_1_OVER_4

/-- The words of `to_bytes`, from limbs below the prime. -/
def words (h : Fe) : List UInt64 :=
  [h.h0 ||| (h.h1 <<< 51), (h.h1 >>> 13) ||| (h.h2 <<< 38), (h.h2 >>> 26) ||| (h.h3 <<< 25),
    (h.h3 >>> 39) ||| (h.h4 <<< 12)]

/-- The limbs of `to_bytes`: reduced below the prime. -/
def canonical (a : Fe) : Fe :=
  let h := a.carry
  -- 1 exactly when the limbs reach the prime
  let q := (h.h0 + 19) >>> 51
  let q := (h.h1 + q) >>> 51
  let q := (h.h2 + q) >>> 51
  let q := (h.h3 + q) >>> 51
  let q := (h.h4 + q) >>> 51
  let h0 := h.h0 + 19 * q
  let h1 := h.h1 + (h0 >>> 51)
  let h0 := h0 &&& MASK
  let h2 := h.h2 + (h1 >>> 51)
  let h1 := h1 &&& MASK
  let h3 := h.h3 + (h2 >>> 51)
  let h2 := h2 &&& MASK
  let h4 := h.h4 + (h3 >>> 51)
  let h3 := h3 &&& MASK
  let h4 := h4 &&& MASK
  ⟨h0, h1, h2, h3, h4⟩

def toBytes (a : Fe) : Fixed 32 :=
  ⟨(words (canonical a)).flatMap fun w => leBytes 8 w.toNat, by simp [words]⟩

def eq (a o : Fe) : Bool := a.toBytes = o.toBytes

def isZero (a : Fe) : Bool := a.toBytes.1 = List.replicate 32 0

/-- `is_negative`: the lowest bit of the canonical encoding. -/
def isNegative (a : Fe) : Bool := a.toBytes.1.head?.any fun b => b &&& 1 = 1

/-! ## What limbs stand for -/

/-- The number the limbs write in base 2^51. -/
def value (a : Fe) : Nat :=
  a.h0.toNat + 2 ^ 51 * a.h1.toNat + 2 ^ 102 * a.h2.toNat + 2 ^ 153 * a.h3.toNat + 2 ^ 204 * a.h4.toNat

/-- Limbs as `carry` leaves them. -/
structure Weak (a : Fe) : Prop where
  h0 : a.h0.toNat < 2 ^ 51
  h1 : a.h1.toNat ≤ 2 ^ 51
  h2 : a.h2.toNat < 2 ^ 51
  h3 : a.h3.toNat < 2 ^ 51
  h4 : a.h4.toNat < 2 ^ 51

/-- The limbs are weakly reduced and stand for `x`. -/
structure Is (a : Fe) (x : Field25519) : Prop where
  weak : Weak a
  value : (a.value : Field25519) = x

/-! ## Words -/

theorem toNat_add_of_lt {x y : UInt64} (h : x.toNat + y.toNat < 2 ^ 64) : (x + y).toNat = x.toNat + y.toNat := by
  rw [UInt64.toNat_add, Nat.mod_eq_of_lt h]

theorem toNat_mul_of_lt {x y : UInt64} (h : x.toNat * y.toNat < 2 ^ 64) : (x * y).toNat = x.toNat * y.toNat := by
  rw [UInt64.toNat_mul, Nat.mod_eq_of_lt h]

theorem toNat_mask (x : UInt64) : (x &&& MASK).toNat = x.toNat % 2 ^ 51 := by
  rw [UInt64.toNat_and]
  exact Nat.and_two_pow_sub_one_eq_mod x.toNat 51

theorem toNat_shiftRight (x : UInt64) {k : UInt64} {n : Nat} (hk : k.toNat = n) (hn : n < 64) :
    (x >>> k).toNat = x.toNat / 2 ^ n := by
  rw [UInt64.toNat_shiftRight, hk, Nat.mod_eq_of_lt hn, Nat.shiftRight_eq_div_pow]

theorem toNat_carry (x : UInt64) : (x >>> 51).toNat = x.toNat / 2 ^ 51 := toNat_shiftRight x rfl (by decide)

/-- One step of a carry: the limb above takes what passes 51 bits. -/
theorem toNat_add_carry {x y : UInt64} (hx : x.toNat < 2 ^ 63) (hy : y.toNat < 2 ^ 64) :
    (x + (y >>> 51)).toNat = x.toNat + y.toNat / 2 ^ 51 := by
  rw [toNat_add_of_lt, toNat_carry]
  rw [toNat_carry]
  omega

/-! ## Carrying -/

/-- Carrying keeps the value modulo the prime, and reduces the limbs weakly. -/
theorem carry_spec {h : Fe} (h1 : h.h1.toNat < 2 ^ 63) (h2 : h.h2.toNat < 2 ^ 63)
    (h3 : h.h3.toNat < 2 ^ 63) (h4 : h.h4.toNat < 2 ^ 63) :
    Weak h.carry ∧ ∃ q, h.value = h.carry.value + q * (2 ^ 255 - 19) := by
  have e1 := toNat_add_carry h1 h.h0.toNat_lt
  generalize hk1 : h.h1 + (h.h0 >>> 51) = k1 at e1
  have e2 := toNat_add_carry h2 k1.toNat_lt
  generalize hk2 : h.h2 + (k1 >>> 51) = k2 at e2
  have e3 := toNat_add_carry h3 k2.toNat_lt
  generalize hk3 : h.h3 + (k2 >>> 51) = k3 at e3
  have e4 := toNat_add_carry h4 k3.toNat_lt
  generalize hk4 : h.h4 + (k3 >>> 51) = k4 at e4
  have htop : ((k4 >>> 51) * 19).toNat = k4.toNat / 2 ^ 51 * 19 := by
    have h19 : (19 : UInt64).toNat = 19 := rfl
    rw [toNat_mul_of_lt, toNat_carry, h19]
    rw [toNat_carry, h19]
    have := k4.toNat_lt
    omega
  have e0 : ((h.h0 &&& MASK) + (k4 >>> 51) * 19).toNat = h.h0.toNat % 2 ^ 51 + k4.toNat / 2 ^ 51 * 19 := by
    rw [toNat_add_of_lt, toNat_mask, htop]
    rw [toNat_mask, htop]
    have := k4.toNat_lt
    omega
  generalize hk0 : (h.h0 &&& MASK) + (k4 >>> 51) * 19 = k0 at e0
  have e1' : ((k1 &&& MASK) + (k0 >>> 51)).toNat = k1.toNat % 2 ^ 51 + k0.toNat / 2 ^ 51 := by
    rw [toNat_add_carry, toNat_mask]
    · rw [toNat_mask]
      omega
    · exact k0.toNat_lt
  have hcarry : h.carry = ⟨k0 &&& MASK, (k1 &&& MASK) + (k0 >>> 51), k2 &&& MASK, k3 &&& MASK, k4 &&& MASK⟩ := by
    simp only [carry, hk1, hk2, hk3, hk4, hk0]
  rw [hcarry]
  have := k4.toNat_lt
  refine ⟨⟨?_, ?_, ?_, ?_, ?_⟩, k4.toNat / 2 ^ 51, ?_⟩
  · rw [toNat_mask]
    omega
  · rw [e1']
    omega
  · rw [toNat_mask]
    omega
  · rw [toNat_mask]
    omega
  · rw [toNat_mask]
    omega
  · simp only [value, toNat_mask, e1']
    omega

/-- Limbs that carrying leaves stand for what their value was congruent to. -/
theorem is_carry {h : Fe} {x : Field25519} (h1 : h.h1.toNat < 2 ^ 63) (h2 : h.h2.toNat < 2 ^ 63)
    (h3 : h.h3.toNat < 2 ^ 63) (h4 : h.h4.toNat < 2 ^ 63) (hx : (h.value : Field25519) = x) :
    h.carry.Is x := by
  obtain ⟨hweak, q, hvalue⟩ := carry_spec h1 h2 h3 h4
  refine ⟨hweak, ?_⟩
  have hP : ((2 ^ 255 - 19 : Nat) : Field25519) = 0 := ZMod.natCast_self P
  rw [← hx, hvalue, Nat.cast_add, Nat.cast_mul, hP, mul_zero, add_zero]

theorem is_zero : ZERO.Is 0 := ⟨⟨by decide, by decide, by decide, by decide, by decide⟩, by simp [value, ZERO]⟩

theorem is_one : ONE.Is 1 := ⟨⟨by decide, by decide, by decide, by decide, by decide⟩, by simp [value, ONE]⟩

theorem is_small {v : UInt64} (h : v.toNat < 2 ^ 51) : (small v).Is v.toNat :=
  ⟨⟨h, by simp [small], by simp [small], by simp [small], by simp [small]⟩, by simp [value, small]⟩

section Arithmetic
variable {a o : Fe} {x y : Field25519}

theorem Is.add (ha : a.Is x) (ho : o.Is y) : (a.add o).Is (x + y) := by
  obtain ⟨⟨a0, a1, a2, a3, a4⟩, hx⟩ := ha
  obtain ⟨⟨o0, o1, o2, o3, o4⟩, hy⟩ := ho
  have e0 := @toNat_add_of_lt a.h0 o.h0 (by omega)
  have e1 := @toNat_add_of_lt a.h1 o.h1 (by omega)
  have e2 := @toNat_add_of_lt a.h2 o.h2 (by omega)
  have e3 := @toNat_add_of_lt a.h3 o.h3 (by omega)
  have e4 := @toNat_add_of_lt a.h4 o.h4 (by omega)
  refine is_carry (by simp only [e1]; omega) (by simp only [e2]; omega) (by simp only [e3]; omega)
    (by simp only [e4]; omega) ?_
  rw [← hx, ← hy, ← Nat.cast_add]
  congr 1
  simp only [Fe.value, e0, e1, e2, e3, e4]
  omega

/-- One limb of a difference: twice the prime keeps it above zero. -/
theorem toNat_sub_limb {x t y : UInt64} (hx : x.toNat ≤ 2 ^ 51) (ht : t.toNat < 2 ^ 52)
    (hy : y.toNat ≤ t.toNat) : (x + t - y).toNat = x.toNat + t.toNat - y.toNat := by
  have hsum := @toNat_add_of_lt x t (by omega)
  rw [UInt64.toNat_sub_of_le _ _ (UInt64.le_iff_toNat_le.mpr (by omega)), hsum]

theorem toNat_twoP : TWO_P.h0.toNat = 2 ^ 52 - 38 ∧ TWO_P.h1.toNat = 2 ^ 52 - 2 ∧
    TWO_P.h2.toNat = 2 ^ 52 - 2 ∧ TWO_P.h3.toNat = 2 ^ 52 - 2 ∧ TWO_P.h4.toNat = 2 ^ 52 - 2 := by
  decide

theorem Is.sub (ha : a.Is x) (ho : o.Is y) : (a.sub o).Is (x - y) := by
  obtain ⟨⟨a0, a1, a2, a3, a4⟩, hx⟩ := ha
  obtain ⟨⟨o0, o1, o2, o3, o4⟩, hy⟩ := ho
  obtain ⟨t0, t1, t2, t3, t4⟩ := toNat_twoP
  have e0 := @toNat_sub_limb a.h0 TWO_P.h0 o.h0 (by omega) (by omega) (by omega)
  have e1 := @toNat_sub_limb a.h1 TWO_P.h1 o.h1 (by omega) (by omega) (by omega)
  have e2 := @toNat_sub_limb a.h2 TWO_P.h2 o.h2 (by omega) (by omega) (by omega)
  have e3 := @toNat_sub_limb a.h3 TWO_P.h3 o.h3 (by omega) (by omega) (by omega)
  have e4 := @toNat_sub_limb a.h4 TWO_P.h4 o.h4 (by omega) (by omega) (by omega)
  refine is_carry (by simp only [e1]; omega) (by simp only [e2]; omega) (by simp only [e3]; omega)
    (by simp only [e4]; omega) ?_
  rw [eq_sub_iff_add_eq, ← hx, ← hy, ← Nat.cast_add]
  have hP : ((2 ^ 255 - 19 : Nat) : Field25519) = 0 := ZMod.natCast_self P
  have hsum : Fe.value ⟨a.h0 + TWO_P.h0 - o.h0, a.h1 + TWO_P.h1 - o.h1, a.h2 + TWO_P.h2 - o.h2,
      a.h3 + TWO_P.h3 - o.h3, a.h4 + TWO_P.h4 - o.h4⟩ + o.value = a.value + 2 * (2 ^ 255 - 19) := by
    simp only [Fe.value, e0, e1, e2, e3, e4]
    omega
  rw [hsum, Nat.cast_add, Nat.cast_mul, hP, mul_zero, add_zero]

theorem Is.neg (ha : a.Is x) : a.neg.Is (-x) := by
  rw [← zero_sub]
  exact is_zero.sub ha

/-! ## Products -/

theorem toNat_narrow {v : Nat} (h : v < 2 ^ 64) : (narrow v).toNat = v := by
  rw [narrow, if_pos h, UInt64.toNat_ofNat', Nat.mod_eq_of_lt h]

/-- A column is far below the 128 bits it is computed in. -/
structure Columns.Narrow (c : Columns) : Prop where
  c0 : c.c0 ≤ 77 * 2 ^ 102
  c1 : c.c1 ≤ 77 * 2 ^ 102
  c2 : c.c2 ≤ 77 * 2 ^ 102
  c3 : c.c3 ≤ 77 * 2 ^ 102
  c4 : c.c4 ≤ 5 * 2 ^ 102

theorem Weak.le (h : Weak a) : a.h0.toNat ≤ 2 ^ 51 ∧ a.h1.toNat ≤ 2 ^ 51 ∧ a.h2.toNat ≤ 2 ^ 51 ∧
    a.h3.toNat ≤ 2 ^ 51 ∧ a.h4.toNat ≤ 2 ^ 51 := by
  obtain ⟨h0, h1, h2, h3, h4⟩ := h
  omega

theorem mul_wide (ha : Weak a) (ho : Weak o) : (columns a o).Narrow := by
  obtain ⟨a0, a1, a2, a3, a4⟩ := ha.le
  obtain ⟨o0, o1, o2, o3, o4⟩ := ho.le
  have hone : ∀ {m n : Nat}, m ≤ 2 ^ 51 → n ≤ 2 ^ 51 → m * n ≤ 2 ^ 102 := fun hm hn =>
    (Nat.mul_le_mul hm hn).trans (by decide)
  have hback : ∀ {m n : Nat}, m ≤ 2 ^ 51 → n ≤ 2 ^ 51 → m * (n * 19) ≤ 19 * 2 ^ 102 := fun hm hn =>
    (Nat.mul_le_mul hm (Nat.mul_le_mul_right 19 hn)).trans (by decide)
  refine ⟨?_, ?_, ?_, ?_, ?_⟩
  · have := hone a0 o0
    have := hback a1 o4
    have := hback a2 o3
    have := hback a3 o2
    have := hback a4 o1
    simp only [columns]
    omega
  · have := hone a0 o1
    have := hone a1 o0
    have := hback a2 o4
    have := hback a3 o3
    have := hback a4 o2
    simp only [columns]
    omega
  · have := hone a0 o2
    have := hone a1 o1
    have := hone a2 o0
    have := hback a3 o4
    have := hback a4 o3
    simp only [columns]
    omega
  · have := hone a0 o3
    have := hone a1 o2
    have := hone a2 o1
    have := hone a3 o0
    have := hback a4 o4
    simp only [columns]
    omega
  · have := hone a0 o4
    have := hone a1 o3
    have := hone a2 o2
    have := hone a3 o1
    have := hone a4 o0
    simp only [columns]
    omega

/-- The number the columns write in base 2^51. -/
def Columns.value (c : Columns) : Nat :=
  c.c0 + 2 ^ 51 * c.c1 + 2 ^ 102 * c.c2 + 2 ^ 153 * c.c3 + 2 ^ 204 * c.c4

theorem value_columns (a o : Fe) :
    ((columns a o).value : Field25519) = (a.value : Field25519) * (o.value : Field25519) := by
  have hP : ((2 ^ 255 - 19 : Nat) : Field25519) = 0 := ZMod.natCast_self P
  have h19 : (2 : Field25519) ^ 255 = 19 := by
    rw [Nat.cast_sub (by decide), Nat.cast_pow, sub_eq_zero] at hP
    exact_mod_cast hP
  simp only [columns, Columns.value, Fe.value]
  push_cast
  generalize (a.h0.toNat : Field25519) = a0
  generalize (a.h1.toNat : Field25519) = a1
  generalize (a.h2.toNat : Field25519) = a2
  generalize (a.h3.toNat : Field25519) = a3
  generalize (a.h4.toNat : Field25519) = a4
  generalize (o.h0.toNat : Field25519) = b0
  generalize (o.h1.toNat : Field25519) = b1
  generalize (o.h2.toNat : Field25519) = b2
  generalize (o.h3.toNat : Field25519) = b3
  generalize (o.h4.toNat : Field25519) = b4
  -- a product of limbs whose places add up to five or more stands 2^255 higher
  linear_combination
    (-(a1 * b4 + a2 * b3 + a3 * b2 + a4 * b1) - 2 ^ 51 * (a2 * b4 + a3 * b3 + a4 * b2) -
      2 ^ 102 * (a3 * b4 + a4 * b3) - 2 ^ 153 * (a4 * b4)) * h19

theorem Is.mul (ha : a.Is x) (ho : o.Is y) : (a.mul o).Is (x * y) := by
  obtain ⟨w0, w1, w2, w3, w4⟩ := mul_wide ha.weak ho.weak
  rw [← ha.value, ← ho.value, ← value_columns]
  generalize hc : columns a o = c at *
  have hmask : ∀ n : Nat, n &&& MASK.toNat = n % 2 ^ 51 := fun n => Nat.and_two_pow_sub_one_eq_mod n 51
  have hshift : ∀ n : Nat, n >>> 51 = n / 2 ^ 51 := fun n => Nat.shiftRight_eq_div_pow n 51
  simp only [Fe.mul, hc, hmask, hshift]
  generalize hd1 : c.c1 + c.c0 / 2 ^ 51 = d1
  generalize hd2 : c.c2 + d1 / 2 ^ 51 = d2
  generalize hd3 : c.c3 + d2 / 2 ^ 51 = d3
  generalize hd4 : c.c4 + d3 / 2 ^ 51 = d4
  have e0 := @toNat_narrow (c.c0 % 2 ^ 51 + d4 / 2 ^ 51 * 19) (by omega)
  have e1 := @toNat_narrow (d1 % 2 ^ 51) (by omega)
  have e2 := @toNat_narrow (d2 % 2 ^ 51) (by omega)
  have e3 := @toNat_narrow (d3 % 2 ^ 51) (by omega)
  have e4 := @toNat_narrow (d4 % 2 ^ 51) (by omega)
  refine is_carry (by simp only [e1]; omega) (by simp only [e2]; omega) (by simp only [e3]; omega)
    (by simp only [e4]; omega) ?_
  have hP : ((2 ^ 255 - 19 : Nat) : Field25519) = 0 := ZMod.natCast_self P
  have hvalue : c.value = Fe.value ⟨narrow (c.c0 % 2 ^ 51 + d4 / 2 ^ 51 * 19), narrow (d1 % 2 ^ 51),
      narrow (d2 % 2 ^ 51), narrow (d3 % 2 ^ 51), narrow (d4 % 2 ^ 51)⟩ + d4 / 2 ^ 51 * (2 ^ 255 - 19) := by
    simp only [Fe.value, Columns.value, e0, e1, e2, e3, e4]
    omega
  rw [hvalue, Nat.cast_add, Nat.cast_mul, hP, mul_zero, add_zero]

theorem Is.square (ha : a.Is x) : a.square.Is (x * x) := ha.mul ha

theorem Is.pow (ha : a.Is x) (exp : Fixed 32) : (a.pow exp).Is (x ^ leNat exp.1) := by
  refine @Binary.ladder_spec Fe _ (fun acc n => acc.Is (x ^ n)) ONE (by simpa using is_one) ?_ exp.1
  intro acc n b hacc
  have hsquare : acc.square.Is (x ^ (2 * n)) := by
    rw [Nat.two_mul, pow_add]
    exact hacc.square
  cases b with
  | false => exact hsquare
  | true =>
      rw [Binary.push, Bool.toNat_true, pow_succ]
      exact hsquare.mul ha

/-- The constants are the exponents that their names say. -/
theorem leNat_exponents : leNat P_MINUS_2.1 = P - 2 ∧ leNat P_MINUS_5_OVER_8.1 = (P - 5) / 8 ∧
    leNat P_MINUS_1_OVER_4.1 = (P - 1) / 4 := by
  decide +kernel

theorem Is.invert (ha : a.Is x) : a.invert.Is x⁻¹ := by
  have h := ha.pow P_MINUS_2
  rw [leNat_exponents.1] at h
  have hinv : x ^ (P - 2) = x⁻¹ := by
    by_cases hx : x = 0
    · rw [hx, inv_zero, zero_pow (by norm_num [P])]
    · apply eq_inv_of_mul_eq_one_left
      rw [← pow_succ, show P - 2 + 1 = P - 1 by norm_num [P]]
      exact ZMod.pow_card_sub_one_eq_one hx
  rwa [hinv] at h

theorem Is.powP58 (ha : a.Is x) : a.powP58.Is (x ^ ((P - 5) / 8)) := by
  have h := ha.pow P_MINUS_5_OVER_8
  rwa [leNat_exponents.2.1] at h

theorem is_sqrtM1 : Fe.sqrtM1.Is Ed25519.sqrtM1 := by
  have h := (@is_small 2 (by decide)).pow P_MINUS_1_OVER_4
  rw [leNat_exponents.2.2] at h
  exact h

end Arithmetic

/-! ## Bytes -/

/-- A word shifted up over a smaller one. -/
theorem toNat_or_shiftLeft {x : UInt64} (y : UInt64) {k : UInt64} {n : Nat} (hk : k.toNat = n) (hn : n < 64)
    (hx : x.toNat < 2 ^ n) : (x ||| (y <<< k)).toNat = x.toNat + 2 ^ n * (y.toNat % 2 ^ (64 - n)) := by
  have hshift : (y <<< k).toNat = 2 ^ n * (y.toNat % 2 ^ (64 - n)) := by
    rw [UInt64.toNat_shiftLeft, hk, Nat.mod_eq_of_lt hn, Nat.shiftLeft_eq, Nat.mul_comm,
      ← Nat.mul_mod_mul_left, ← Nat.pow_add, Nat.add_sub_cancel' hn.le]
  rw [UInt64.toNat_or, hshift, Nat.or_comm, ← Nat.two_pow_add_eq_or_of_lt hx, Nat.add_comm]

/-- The lowest 255 bits stand for the number they are. -/
theorem is_fromBytes (b : Fixed 32) : (fromBytes b).Is (leNat b.1 % 2 ^ 255 : Nat) := by
  have hwords := Binary.leNat_words b.2
  have hlt0 := (Binary.word b.1 0).toNat_lt
  have hlt1 := (Binary.word b.1 1).toNat_lt
  have hlt2 := (Binary.word b.1 2).toNat_lt
  have hlt3 := (Binary.word b.1 3).toNat_lt
  have s0 := toNat_carry (Binary.word b.1 0)
  have s1 := @toNat_shiftRight (Binary.word b.1 1) 38 38 rfl (by decide)
  have s2 := @toNat_shiftRight (Binary.word b.1 2) 25 25 rfl (by decide)
  have s3 := @toNat_shiftRight (Binary.word b.1 3) 12 12 rfl (by decide)
  have o1 := @toNat_or_shiftLeft (Binary.word b.1 0 >>> 51) (Binary.word b.1 1) 13 13 rfl (by decide) (by omega)
  have o2 := @toNat_or_shiftLeft (Binary.word b.1 1 >>> 38) (Binary.word b.1 2) 26 26 rfl (by decide) (by omega)
  have o3 := @toNat_or_shiftLeft (Binary.word b.1 2 >>> 25) (Binary.word b.1 3) 39 39 rfl (by decide) (by omega)
  rw [s0] at o1
  rw [s1] at o2
  rw [s2] at o3
  refine ⟨⟨?_, ?_, ?_, ?_, ?_⟩, ?_⟩
  · simp only [fromBytes, toNat_mask]
    omega
  · simp only [fromBytes, toNat_mask]
    omega
  · simp only [fromBytes, toNat_mask]
    omega
  · simp only [fromBytes, toNat_mask]
    omega
  · simp only [fromBytes, toNat_mask]
    omega
  · congr 1
    simp only [Fe.value, fromBytes, toNat_mask, o1, o2, o3, s3]
    omega

/-- Limbs of 51 bits each, whose value is below the prime. -/
structure Canonical (a : Fe) : Prop where
  h0 : a.h0.toNat < 2 ^ 51
  h1 : a.h1.toNat < 2 ^ 51
  h2 : a.h2.toNat < 2 ^ 51
  h3 : a.h3.toNat < 2 ^ 51
  h4 : a.h4.toNat < 2 ^ 51

/-- The limbs that are written out are those of the remainder. -/
theorem canonical_spec {a : Fe} (ha : Weak a) :
    Canonical (canonical a) ∧ (canonical a).value = a.carry.value % (2 ^ 255 - 19) := by
  obtain ⟨a0, a1, a2, a3, a4⟩ := ha
  obtain ⟨⟨h0, h1, h2, h3, h4⟩, -⟩ := @carry_spec a (by omega) (by omega) (by omega) (by omega)
  generalize hcarry : a.carry = h at *
  have h19 : (19 : UInt64).toNat = 19 := rfl
  -- the carry of the value and 19, limb by limb
  have e0 := @toNat_add_of_lt h.h0 19 (by omega)
  rw [h19] at e0
  have eq1 := toNat_carry (h.h0 + 19)
  generalize hq1 : (h.h0 + 19) >>> 51 = q1 at eq1
  have e1 := @toNat_add_of_lt h.h1 q1 (by omega)
  have eq2 := toNat_carry (h.h1 + q1)
  generalize hq2 : (h.h1 + q1) >>> 51 = q2 at eq2
  have e2 := @toNat_add_of_lt h.h2 q2 (by omega)
  have eq3 := toNat_carry (h.h2 + q2)
  generalize hq3 : (h.h2 + q2) >>> 51 = q3 at eq3
  have e3 := @toNat_add_of_lt h.h3 q3 (by omega)
  have eq4 := toNat_carry (h.h3 + q3)
  generalize hq4 : (h.h3 + q3) >>> 51 = q4 at eq4
  have e4 := @toNat_add_of_lt h.h4 q4 (by omega)
  have eq5 := toNat_carry (h.h4 + q4)
  generalize hq5 : (h.h4 + q4) >>> 51 = q at eq5
  have hq : q.toNat = (h.value + 19) / 2 ^ 255 := by
    simp only [value]
    omega
  have hq_le : q.toNat ≤ 1 := by omega
  clear eq1 eq2 eq3 eq4 eq5 e0 e1 e2 e3 e4
  -- the value with 19 added when it reaches the prime, carried
  have em := @toNat_mul_of_lt 19 q (by
    rw [h19]
    omega)
  rw [h19] at em
  have f0 := @toNat_add_of_lt h.h0 (19 * q) (by omega)
  rw [em] at f0
  generalize hk0 : h.h0 + 19 * q = k0 at f0
  have f1 := @toNat_add_carry h.h1 k0 (by omega) k0.toNat_lt
  generalize hk1 : h.h1 + (k0 >>> 51) = k1 at f1
  have f2 := @toNat_add_carry h.h2 k1 (by omega) k1.toNat_lt
  generalize hk2 : h.h2 + (k1 >>> 51) = k2 at f2
  have f3 := @toNat_add_carry h.h3 k2 (by omega) k2.toNat_lt
  generalize hk3 : h.h3 + (k2 >>> 51) = k3 at f3
  have f4 := @toNat_add_carry h.h4 k3 (by omega) k3.toNat_lt
  generalize hk4 : h.h4 + (k3 >>> 51) = k4 at f4
  have hcanonical : canonical a = ⟨k0 &&& MASK, k1 &&& MASK, k2 &&& MASK, k3 &&& MASK, k4 &&& MASK⟩ := by
    simp only [canonical, hcarry, hq1, hq2, hq3, hq4, hq5, hk0, hk1, hk2, hk3, hk4]
  rw [hcanonical]
  have hsum : k0.toNat % 2 ^ 51 + 2 ^ 51 * (k1.toNat % 2 ^ 51) + 2 ^ 102 * (k2.toNat % 2 ^ 51) +
      2 ^ 153 * (k3.toNat % 2 ^ 51) + 2 ^ 204 * (k4.toNat % 2 ^ 51) + 2 ^ 255 * (k4.toNat / 2 ^ 51) =
      h.value + 19 * q.toNat := by
    simp only [value]
    omega
  have hlimb : ∀ k : UInt64, (k &&& MASK).toNat < 2 ^ 51 := fun k => by
    rw [toNat_mask]
    exact Nat.mod_lt _ (by decide)
  refine ⟨⟨hlimb k0, hlimb k1, hlimb k2, hlimb k3, hlimb k4⟩, ?_⟩
  have hvalue_lt : h.value < 2 * (2 ^ 255 - 19) := by
    simp only [value]
    omega
  have hlt : k0.toNat % 2 ^ 51 + 2 ^ 51 * (k1.toNat % 2 ^ 51) + 2 ^ 102 * (k2.toNat % 2 ^ 51) +
      2 ^ 153 * (k3.toNat % 2 ^ 51) + 2 ^ 204 * (k4.toNat % 2 ^ 51) < 2 ^ 255 := by omega
  have hmasked : Fe.value ⟨k0 &&& MASK, k1 &&& MASK, k2 &&& MASK, k3 &&& MASK, k4 &&& MASK⟩ =
      k0.toNat % 2 ^ 51 + 2 ^ 51 * (k1.toNat % 2 ^ 51) + 2 ^ 102 * (k2.toNat % 2 ^ 51) +
        2 ^ 153 * (k3.toNat % 2 ^ 51) + 2 ^ 204 * (k4.toNat % 2 ^ 51) := by
    simp only [value, toNat_mask]
  rw [hmasked]
  clear f0 f1 f2 f3 f4 hmasked
  generalize k0.toNat % 2 ^ 51 + 2 ^ 51 * (k1.toNat % 2 ^ 51) + 2 ^ 102 * (k2.toNat % 2 ^ 51) +
    2 ^ 153 * (k3.toNat % 2 ^ 51) + 2 ^ 204 * (k4.toNat % 2 ^ 51) = out at hsum hlt ⊢
  rcases (show q.toNat = 0 ∨ q.toNat = 1 by omega) with hsmall | hlarge
  · rw [Nat.mod_eq_of_lt (by omega)]
    omega
  · rw [Nat.mod_eq_sub_mod (by omega), Nat.mod_eq_of_lt (by omega)]
    omega

/-- The four words of limbs of 51 bits. -/
theorem leNat_flatMap_words {h : Fe} (hh : Canonical h) :
    leNat ((words h).flatMap fun w => leBytes 8 w.toNat) = h.value := by
  obtain ⟨h0, h1, h2, h3, h4⟩ := hh
  have hword : ∀ (w : UInt64) (rest : Bytes), leNat (leBytes 8 w.toNat ++ rest) = w.toNat + 2 ^ 64 * leNat rest := by
    intro w rest
    have h256 : 256 ^ 8 = 2 ^ 64 := rfl
    rw [Binary.leNat_append, length_leBytes, leNat_leBytes w.toNat_lt, h256]
  have s1 := @toNat_shiftRight h.h1 13 13 rfl (by decide)
  have s2 := @toNat_shiftRight h.h2 26 26 rfl (by decide)
  have s3 := @toNat_shiftRight h.h3 39 39 rfl (by decide)
  have o0 := @toNat_or_shiftLeft h.h0 h.h1 51 51 rfl (by decide) (by omega)
  have o1 := @toNat_or_shiftLeft (h.h1 >>> 13) h.h2 38 38 rfl (by decide) (by omega)
  have o2 := @toNat_or_shiftLeft (h.h2 >>> 26) h.h3 25 25 rfl (by decide) (by omega)
  have o3 := @toNat_or_shiftLeft (h.h3 >>> 39) h.h4 12 12 rfl (by decide) (by omega)
  simp only [words, List.flatMap_cons, List.flatMap_nil, hword, leNat, value]
  rw [o0, o1, o2, o3, s1, s2, s3]
  omega

section Encoding
variable {a o : Fe} {x y : Field25519}

/-- The bytes that are written out are those of the number below the prime. -/
theorem Is.leNat_toBytes (ha : a.Is x) : leNat a.toBytes.1 = x.val := by
  obtain ⟨hcanonical, hvalue⟩ := canonical_spec ha.weak
  obtain ⟨a0, a1, a2, a3, a4⟩ := ha.weak
  have hcarry := (@is_carry a x (by omega) (by omega) (by omega) (by omega) ha.value).value
  rw [toBytes, leNat_flatMap_words hcanonical, hvalue, ← hcarry, ZMod.val_natCast]
  rfl

theorem toBytes_inj {a o : Fixed 32} (h : leNat a.1 = leNat o.1) : a = o := by
  apply Subtype.ext
  rw [← leBytes_leNat a.1, ← leBytes_leNat o.1, h, a.2, o.2]

theorem Is.eq_iff (ha : a.Is x) (ho : o.Is y) : a.eq o = true ↔ x = y := by
  rw [Fe.eq, decide_eq_true_eq]
  constructor
  · intro h
    apply ZMod.val_injective P
    rw [← ha.leNat_toBytes, ← ho.leNat_toBytes, h]
  · rintro rfl
    apply toBytes_inj
    rw [ha.leNat_toBytes, ho.leNat_toBytes]

theorem Is.isZero_iff (ha : a.Is x) : a.isZero = true ↔ x = 0 := by
  have hzero : ZERO.toBytes.1 = List.replicate 32 0 := by decide
  have h := ha.eq_iff is_zero
  rw [Fe.eq, decide_eq_true_eq] at h
  rw [Fe.isZero, decide_eq_true_eq, ← h, ← hzero]
  exact Subtype.ext_iff.symm

theorem Is.isNegative_iff (ha : a.Is x) : a.isNegative = true ↔ x.val % 2 = 1 := by
  have hbytes := ha.leNat_toBytes
  have hlength := a.toBytes.2
  rw [Fe.isNegative]
  cases hcases : a.toBytes.1 with
  | nil =>
      rw [hcases] at hlength
      cases hlength
  | cons b rest =>
      rw [hcases, leNat] at hbytes
      have hand : b &&& 1 = 1 ↔ b.toNat % 2 = 1 := by
        rw [← UInt8.toNat_inj, UInt8.toNat_and]
        have : b.toNat &&& (1 : UInt8).toNat = b.toNat % 2 := Nat.and_two_pow_sub_one_eq_mod b.toNat 1
        rw [this]
        rfl
      simp only [List.head?_cons, Option.any_some, decide_eq_true_eq, hand]
      omega

end Encoding

end Fe

end Pelorus.Update.Ed25519
