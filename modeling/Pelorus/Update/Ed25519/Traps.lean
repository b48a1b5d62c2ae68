import Pelorus.Update.Ed25519.Field

/-
  Update/Ed25519/Traps.lean --- the limb arithmetic with its traps.

  THE CHECKED RUN.  Each operation again, in the order of the source, where every sum, difference
  and product of 64 or 128 bits is there only if it fits its width, and `narrow` only if it does
  not fall back.

  ONE BOUND IS ENOUGH.  On weakly reduced limbs the checked operation is the operation, and what
  it returns is weakly reduced again (`Fe.Is`).  So an expression of any length runs to its end
  and stands for what it denotes in the field.
-/
set_option autoImplicit false

namespace Pelorus.Update.Ed25519

open Lib Lib.Bytes

/-! ## Words that trap -/

def sum64 (x y : UInt64) : Option UInt64 := if x.toNat + y.toNat < 2 ^ 64 then some (x + y) else none

def diff64 (x y : UInt64) : Option UInt64 := if y.toNat ≤ x.toNat then some (x - y) else none

def prod64 (x y : UInt64) : Option UInt64 := if x.toNat * y.toNat < 2 ^ 64 then some (x * y) else none

def sum128 (m n : Nat) : Option Nat := if m + n < 2 ^ 128 then some (m + n) else none

def prod128 (m n : Nat) : Option Nat := if m * n < 2 ^ 128 then some (m * n) else none

/-- `u64::try_from(v)`, without the fallback. -/
def narrowed (v : Nat) : Option UInt64 := if v < 2 ^ 64 then some (UInt64.ofNat v) else none

theorem bind_of_some {α β : Type} {x : Option α} {v : α} (h : x = some v) (f : α → Option β) :
    (x >>= f) = f v := by rw [h, Option.bind_eq_bind, Option.bind_some]

/-- A sum of products, each and every sum on the way within 128 bits. -/
def dot (acc : Nat) : List (Nat × Nat) → Option Nat
  | [] => some acc
  | p :: ps => do
      let product ← prod128 p.1 p.2
      let acc ← sum128 acc product
      dot acc ps

theorem sum64_eq {x y : UInt64} (h : x.toNat + y.toNat < 2 ^ 64) : sum64 x y = some (x + y) := if_pos h

theorem prod64_eq {x y : UInt64} (h : x.toNat * y.toNat < 2 ^ 64) : prod64 x y = some (x * y) := if_pos h

theorem diff64_eq {x y : UInt64} (h : y.toNat ≤ x.toNat) : diff64 x y = some (x - y) := if_pos h

theorem sum128_eq {m n : Nat} (h : m + n < 2 ^ 128) : sum128 m n = some (m + n) := if_pos h

theorem prod128_eq {m n : Nat} (h : m * n < 2 ^ 128) : prod128 m n = some (m * n) := if_pos h

theorem narrowed_eq {v : Nat} (h : v < 2 ^ 64) : narrowed v = some (Fe.narrow v) := by
  rw [narrowed, if_pos h, Fe.narrow, if_pos h]

/-- A sum of products fits if it does at its end. -/
theorem dot_eq (ps : List (Nat × Nat)) : ∀ acc : Nat, acc + (ps.map fun p => p.1 * p.2).sum < 2 ^ 128 →
    dot acc ps = some (acc + (ps.map fun p => p.1 * p.2).sum) := by
  induction ps with
  | nil => exact fun _ _ => rfl
  | cons p ps ih =>
      intro acc h
      rw [List.map_cons, List.sum_cons, ← Nat.add_assoc] at h ⊢
      rw [dot, bind_of_some (prod128_eq (by omega)), bind_of_some (sum128_eq (by omega))]
      exact ih _ h

namespace Fe

/-! ## The operations with their traps -/

/-- `carry`. -/
def carryChecked (h : Fe) : Option Fe := do
  let h1 ← sum64 h.h1 (h.h0 >>> 51)
  let h2 ← sum64 h.h2 (h1 >>> 51)
  let h3 ← sum64 h.h3 (h2 >>> 51)
  let h4 ← sum64 h.h4 (h3 >>> 51)
  let back ← prod64 (h4 >>> 51) 19
  let h0 ← sum64 (h.h0 &&& MASK) back
  let r1 ← sum64 (h1 &&& MASK) (h0 >>> 51)
  some ⟨h0 &&& MASK, r1, h2 &&& MASK, h3 &&& MASK, h4 &&& MASK⟩

/-- `add`. -/
def addChecked (a o : Fe) : Option Fe := do
  let r0 ← sum64 a.h0 o.h0
  let r1 ← sum64 a.h1 o.h1
  let r2 ← sum64 a.h2 o.h2
  let r3 ← sum64 a.h3 o.h3
  let r4 ← sum64 a.h4 o.h4
  carryChecked ⟨r0, r1, r2, r3, r4⟩

/-- One limb of `sub`: `a + t - b`. -/
def limbDiff (a t b : UInt64) : Option UInt64 := do
  let s ← sum64 a t
  diff64 s b

/-- `sub`. -/
def subChecked (a o : Fe) : Option Fe := do
  let r0 ← limbDiff a.h0 TWO_P.h0 o.h0
  let r1 ← limbDiff a.h1 TWO_P.h1 o.h1
  let r2 ← limbDiff a.h2 TWO_P.h2 o.h2
  let r3 ← limbDiff a.h3 TWO_P.h3 o.h3
  let r4 ← limbDiff a.h4 TWO_P.h4 o.h4
  carryChecked ⟨r0, r1, r2, r3, r4⟩

/-- `neg`. -/
def negChecked (a : Fe) : Option Fe := subChecked ZERO a

/-- The columns of `mul`. -/
def columnsChecked (a o : Fe) : Option Columns := do
  let b1_19 ← prod128 o.h1.toNat 19
  let b2_19 ← prod128 o.h2.toNat 19
  let b3_19 ← prod128 o.h3.toNat 19
  let b4_19 ← prod128 o.h4.toNat 19
  let c0 ← dot 0 [(a.h0.toNat, o.h0.toNat), (a.h1.toNat, b4_19), (a.h2.toNat, b3_19), (a.h3.toNat, b2_19),
    (a.h4.toNat, b1_19)]
  let c1 ← dot 0 [(a.h0.toNat, o.h1.toNat), (a.h1.toNat, o.h0.toNat), (a.h2.toNat, b4_19),
    (a.h3.toNat, b3_19), (a.h4.toNat, b2_19)]
  let c2 ← dot 0 [(a.h0.toNat, o.h2.toNat), (a.h1.toNat, o.h1.toNat), (a.h2.toNat, o.h0.toNat),
    (a.h3.toNat, b4_19), (a.h4.toNat, b3_19)]
  let c3 ← dot 0 [(a.h0.toNat, o.h3.toNat), (a.h1.toNat, o.h2.toNat), (a.h2.toNat, o.h1.toNat),
    (a.h3.toNat, o.h0.toNat), (a.h4.toNat, b4_19)]
  let c4 ← dot 0 [(a.h0.toNat, o.h4.toNat), (a.h1.toNat, o.h3.toNat), (a.h2.toNat, o.h2.toNat),
    (a.h3.toNat, o.h1.toNat), (a.h4.toNat, o.h0.toNat)]
  some ⟨c0, c1, c2, c3, c4⟩

/-- The columns of a product, carried into limbs. -/
def foldChecked (c : Columns) : Option Fe := do
  let c1 ← sum128 c.c1 (c.c0 >>> 51)
  let c2 ← sum128 c.c2 (c1 >>> 51)
  let c3 ← sum128 c.c3 (c2 >>> 51)
  let c4 ← sum128 c.c4 (c3 >>> 51)
  let back ← prod128 (c4 >>> 51) 19
  let low ← sum128 (c.c0 &&& MASK.toNat) back
  let h0 ← narrowed low
  let h1 ← narrowed (c1 &&& MASK.toNat)
  let h2 ← narrowed (c2 &&& MASK.toNat)
  let h3 ← narrowed (c3 &&& MASK.toNat)
  let h4 ← narrowed (c4 &&& MASK.toNat)
  carryChecked ⟨h0, h1, h2, h3, h4⟩

/-- `mul`. -/
def mulChecked (a o : Fe) : Option Fe := do
  let c ← columnsChecked a o
  foldChecked c

/-- `square`. -/
def squareChecked (a : Fe) : Option Fe := mulChecked a a

/-- One bit of `pow`. -/
def powStep (a acc : Fe) (bit : Bool) : Option Fe := do
  let acc ← squareChecked acc
  if bit then mulChecked acc a else some acc

/-- `pow`. -/
def powChecked (a : Fe) (exp : Fixed 32) : Option Fe := (Binary.bits exp.1).foldlM (powStep a) ONE

/-- The limbs of `to_bytes`. -/
def canonicalChecked (a : Fe) : Option Fe := do
  let h ← carryChecked a
  let s0 ← sum64 h.h0 19
  let s1 ← sum64 h.h1 (s0 >>> 51)
  let s2 ← sum64 h.h2 (s1 >>> 51)
  let s3 ← sum64 h.h3 (s2 >>> 51)
  let s4 ← sum64 h.h4 (s3 >>> 51)
  let back ← prod64 19 (s4 >>> 51)
  let h0 ← sum64 h.h0 back
  let h1 ← sum64 h.h1 (h0 >>> 51)
  let h2 ← sum64 h.h2 (h1 >>> 51)
  let h3 ← sum64 h.h3 (h2 >>> 51)
  let h4 ← sum64 h.h4 (h3 >>> 51)
  some ⟨h0 &&& MASK, h1 &&& MASK, h2 &&& MASK, h3 &&& MASK, h4 &&& MASK⟩

/-- `to_bytes`. -/
def toBytesChecked (a : Fe) : Option (Fixed 32) := do
  let h ← canonicalChecked a
  some ⟨(words h).flatMap fun w => leBytes 8 w.toNat, by simp [words]⟩

/-- `eq`. -/
def eqChecked (a o : Fe) : Option Bool := do
  let x ← toBytesChecked a
  let y ← toBytesChecked o
  some (x = y)

/-- `is_zero`. -/
def isZeroChecked (a : Fe) : Option Bool := do
  let x ← toBytesChecked a
  some (x.1 = List.replicate 32 0)

/-! ## Nothing traps -/

theorem toNat_mask_lt (x : UInt64) : (x &&& MASK).toNat < 2 ^ 51 := by
  rw [toNat_mask]
  exact Nat.mod_lt _ (by decide)

theorem sum64_carry {x : UInt64} (y : UInt64) (hx : x.toNat < 2 ^ 63) :
    sum64 x (y >>> 51) = some (x + (y >>> 51)) := by
  apply sum64_eq
  rw [toNat_carry]
  have := y.toNat_lt
  omega

theorem carryChecked_eq {h : Fe} (h1 : h.h1.toNat < 2 ^ 63) (h2 : h.h2.toNat < 2 ^ 63)
    (h3 : h.h3.toNat < 2 ^ 63) (h4 : h.h4.toNat < 2 ^ 63) : carryChecked h = some h.carry := by
  have hmask : ∀ x : UInt64, (x &&& MASK).toNat < 2 ^ 63 := fun x => (toNat_mask_lt x).trans (by decide)
  have h19 : (19 : UInt64).toNat = 19 := rfl
  have hback : ∀ x : UInt64, ((x >>> 51) * 19).toNat = x.toNat / 2 ^ 51 * 19 ∧
      prod64 (x >>> 51) 19 = some ((x >>> 51) * 19) := by
    intro x
    have hfits : (x >>> 51).toNat * (19 : UInt64).toNat < 2 ^ 64 := by
      rw [toNat_carry, h19]
      have := x.toNat_lt
      omega
    exact ⟨by rw [toNat_mul_of_lt hfits, toNat_carry, h19], prod64_eq hfits⟩
  have hlow : ∀ x y : UInt64, sum64 (x &&& MASK) ((y >>> 51) * 19) = some ((x &&& MASK) + (y >>> 51) * 19) := by
    intro x y
    apply sum64_eq
    rw [(hback y).1]
    have := toNat_mask_lt x
    have := y.toNat_lt
    omega
  rw [carryChecked, bind_of_some (sum64_carry _ h1), bind_of_some (sum64_carry _ h2),
    bind_of_some (sum64_carry _ h3), bind_of_some (sum64_carry _ h4), bind_of_some (hback _).2,
    bind_of_some (hlow _ _), bind_of_some (sum64_carry _ (hmask _))]
  rfl

section Arithmetic
variable {a o : Fe}

theorem addChecked_eq (ha : Weak a) (ho : Weak o) : addChecked a o = some (a.add o) := by
  obtain ⟨a0, a1, a2, a3, a4⟩ := ha
  obtain ⟨o0, o1, o2, o3, o4⟩ := ho
  have e1 := @toNat_add_of_lt a.h1 o.h1 (by omega)
  have e2 := @toNat_add_of_lt a.h2 o.h2 (by omega)
  have e3 := @toNat_add_of_lt a.h3 o.h3 (by omega)
  have e4 := @toNat_add_of_lt a.h4 o.h4 (by omega)
  have s0 := @sum64_eq a.h0 o.h0 (by omega)
  have s1 := @sum64_eq a.h1 o.h1 (by omega)
  have s2 := @sum64_eq a.h2 o.h2 (by omega)
  have s3 := @sum64_eq a.h3 o.h3 (by omega)
  have s4 := @sum64_eq a.h4 o.h4 (by omega)
  rw [addChecked, bind_of_some s0, bind_of_some s1, bind_of_some s2, bind_of_some s3, bind_of_some s4]
  exact carryChecked_eq (by simp only [e1]; omega) (by simp only [e2]; omega) (by simp only [e3]; omega)
    (by simp only [e4]; omega)

/-- One limb of a difference does not trap, and is small. -/
theorem limbDiff_eq {x t y : UInt64} (hx : x.toNat ≤ 2 ^ 51) (ht : t.toNat < 2 ^ 52)
    (hy : y.toNat ≤ t.toNat) : limbDiff x t y = some (x + t - y) ∧ (x + t - y).toNat < 2 ^ 63 := by
  have hsum := @toNat_add_of_lt x t (by omega)
  rw [limbDiff, bind_of_some (sum64_eq (by omega)), diff64_eq (by omega), toNat_sub_limb hx ht hy]
  exact ⟨rfl, by omega⟩

section

variable (ha : Weak a)

include ha

theorem subChecked_eq (ho : Weak o) : subChecked a o = some (a.sub o) := by
  obtain ⟨a0, a1, a2, a3, a4⟩ := ha
  obtain ⟨o0, o1, o2, o3, o4⟩ := ho
  obtain ⟨t0, t1, t2, t3, t4⟩ := toNat_twoP
  obtain ⟨e0, -⟩ := @limbDiff_eq a.h0 TWO_P.h0 o.h0 (by omega) (by omega) (by omega)
  obtain ⟨e1, l1⟩ := @limbDiff_eq a.h1 TWO_P.h1 o.h1 (by omega) (by omega) (by omega)
  obtain ⟨e2, l2⟩ := @limbDiff_eq a.h2 TWO_P.h2 o.h2 (by omega) (by omega) (by omega)
  obtain ⟨e3, l3⟩ := @limbDiff_eq a.h3 TWO_P.h3 o.h3 (by omega) (by omega) (by omega)
  obtain ⟨e4, l4⟩ := @limbDiff_eq a.h4 TWO_P.h4 o.h4 (by omega) (by omega) (by omega)
  rw [subChecked, bind_of_some e0, bind_of_some e1, bind_of_some e2, bind_of_some e3, bind_of_some e4]
  exact carryChecked_eq l1 l2 l3 l4

theorem columnsChecked_eq (ho : Weak o) : columnsChecked a o = some (columns a o) := by
  obtain ⟨o0, o1, o2, o3, o4⟩ := ho.le
  have hdot : ∀ x₁ y₁ x₂ y₂ x₃ y₃ x₄ y₄ x₅ y₅ : Nat,
      x₁ * y₁ + x₂ * y₂ + x₃ * y₃ + x₄ * y₄ + x₅ * y₅ ≤ 77 * 2 ^ 102 →
      dot 0 [(x₁, y₁), (x₂, y₂), (x₃, y₃), (x₄, y₄), (x₅, y₅)] =
        some (x₁ * y₁ + x₂ * y₂ + x₃ * y₃ + x₄ * y₄ + x₅ * y₅) := by
    intro x₁ y₁ x₂ y₂ x₃ y₃ x₄ y₄ x₅ y₅ h
    have hsum : 0 + ([(x₁, y₁), (x₂, y₂), (x₃, y₃), (x₄, y₄), (x₅, y₅)].map fun p => p.1 * p.2).sum =
        x₁ * y₁ + x₂ * y₂ + x₃ * y₃ + x₄ * y₄ + x₅ * y₅ := by
      simp only [List.map_cons, List.map_nil, List.sum_cons, List.sum_nil]
      omega
    rw [dot_eq _ _ (by rw [hsum]; omega), hsum]
  obtain ⟨w0, w1, w2, w3, w4⟩ := mul_wide ha ho
  have p1 := @prod128_eq o.h1.toNat 19 (by omega)
  have p2 := @prod128_eq o.h2.toNat 19 (by omega)
  have p3 := @prod128_eq o.h3.toNat 19 (by omega)
  have p4 := @prod128_eq o.h4.toNat 19 (by omega)
  rw [columnsChecked, bind_of_some p1, bind_of_some p2, bind_of_some p3, bind_of_some p4,
    bind_of_some (hdot _ _ _ _ _ _ _ _ _ _ w0), bind_of_some (hdot _ _ _ _ _ _ _ _ _ _ w1),
    bind_of_some (hdot _ _ _ _ _ _ _ _ _ _ w2), bind_of_some (hdot _ _ _ _ _ _ _ _ _ _ w3),
    bind_of_some (hdot _ _ _ _ _ _ _ _ _ _ (w4.trans (by decide)))]
  rfl

/-- Narrow columns are carried without a trap, and `narrow` does not fall back. -/
theorem mulChecked_eq (ho : Weak o) : mulChecked a o = some (a.mul o) := by
  obtain ⟨w0, w1, w2, w3, w4⟩ := mul_wide ha ho
  have hmask : ∀ n : Nat, n &&& MASK.toNat = n % 2 ^ 51 := fun n => Nat.and_two_pow_sub_one_eq_mod n 51
  have hshift : ∀ n : Nat, n >>> 51 = n / 2 ^ 51 := fun n => Nat.shiftRight_eq_div_pow n 51
  rw [mulChecked, bind_of_some (columnsChecked_eq ha ho)]
  simp only [mul]
  generalize columns a o = c at w0 w1 w2 w3 w4
  have d0 := hshift c.c0
  have s1 := @sum128_eq c.c1 (c.c0 >>> 51) (by omega)
  generalize hk1 : c.c1 + c.c0 >>> 51 = k1 at s1
  have d1 := hshift k1
  have s2 := @sum128_eq c.c2 (k1 >>> 51) (by omega)
  generalize hk2 : c.c2 + k1 >>> 51 = k2 at s2
  have d2 := hshift k2
  have s3 := @sum128_eq c.c3 (k2 >>> 51) (by omega)
  generalize hk3 : c.c3 + k2 >>> 51 = k3 at s3
  have d3 := hshift k3
  have s4 := @sum128_eq c.c4 (k3 >>> 51) (by omega)
  generalize hk4 : c.c4 + k3 >>> 51 = k4 at s4
  have d4 := hshift k4
  have hback := @prod128_eq (k4 >>> 51) 19 (by omega)
  have m0 := hmask c.c0
  have hlow := @sum128_eq (c.c0 &&& MASK.toNat) (k4 >>> 51 * 19) (by omega)
  have hlimb : ∀ k : Nat, narrowed (k &&& MASK.toNat) = some (narrow (k &&& MASK.toNat)) ∧
      (narrow (k &&& MASK.toNat)).toNat < 2 ^ 63 := by
    intro k
    have hlt : k &&& MASK.toNat < 2 ^ 51 := by
      rw [hmask]
      exact Nat.mod_lt _ (by decide)
    refine ⟨narrowed_eq (hlt.trans (by decide)), ?_⟩
    rw [toNat_narrow (hlt.trans (by decide))]
    exact hlt.trans (by decide)
  rw [foldChecked, bind_of_some s1, bind_of_some s2, bind_of_some s3, bind_of_some s4, bind_of_some hback,
    bind_of_some hlow, bind_of_some (narrowed_eq (by omega)), bind_of_some (hlimb k1).1,
    bind_of_some (hlimb k2).1, bind_of_some (hlimb k3).1, bind_of_some (hlimb k4).1]
  exact carryChecked_eq (hlimb k1).2 (hlimb k2).2 (hlimb k3).2 (hlimb k4).2

theorem negChecked_eq : negChecked a = some a.neg := subChecked_eq is_zero.weak ha

theorem squareChecked_eq : squareChecked a = some a.square := mulChecked_eq ha ha

/-- Limbs stand for what they are worth. -/
theorem Weak.is : a.Is a.value := ⟨ha, rfl⟩

theorem Weak.square : Weak a.square := ha.is.square.weak

theorem powChecked_eq (exp : Fixed 32) : powChecked a exp = some (a.pow exp) := by
  have hstep : ∀ (acc : Fe) (bit : Bool), Weak acc →
      powStep a acc bit = some (if bit then acc.square.mul a else acc.square) ∧
        Weak (if bit then acc.square.mul a else acc.square) := by
    intro acc bit hacc
    rw [powStep, bind_of_some (squareChecked_eq hacc)]
    cases bit with
    | false => exact ⟨rfl, hacc.square⟩
    | true => exact ⟨mulChecked_eq hacc.square ha, (hacc.square.is.mul ha.is).weak⟩
  have hfold : ∀ (bits : List Bool) (acc : Fe), Weak acc → bits.foldlM (powStep a) acc =
      some (bits.foldl (fun acc bit => if bit then acc.square.mul a else acc.square) acc) := by
    intro bits
    induction bits with
    | nil => exact fun _ _ => rfl
    | cons bit bits ih =>
        intro acc hacc
        obtain ⟨hsome, hweak⟩ := hstep acc bit hacc
        rw [List.foldlM_cons, bind_of_some hsome, ih _ hweak, List.foldl_cons]
  exact hfold _ _ is_one.weak

/-- The limbs that are written out need no more than 64 bits either. -/
theorem canonicalChecked_eq : canonicalChecked a = some (canonical a) := by
  obtain ⟨a0, a1, a2, a3, a4⟩ := ha
  have hcarry := @carryChecked_eq a (by omega) (by omega) (by omega) (by omega)
  obtain ⟨⟨h0, h1, h2, h3, h4⟩, -⟩ := @carry_spec a (by omega) (by omega) (by omega) (by omega)
  have h19 : (19 : UInt64).toNat = 19 := rfl
  have hsmall : ∀ {x y : UInt64}, x.toNat ≤ 2 ^ 51 → sum64 x (y >>> 51) = some (x + (y >>> 51)) := fun hx =>
    sum64_carry _ (hx.trans_lt (by decide))
  rw [canonicalChecked, bind_of_some hcarry, canonical]
  generalize a.carry = h at h0 h1 h2 h3 h4
  rw [bind_of_some (sum64_eq (by omega)), bind_of_some (hsmall h1), bind_of_some (hsmall h2.le),
    bind_of_some (hsmall h3.le), bind_of_some (hsmall h4.le)]
  generalize h.h4 + ((h.h3 + ((h.h2 + ((h.h1 + ((h.h0 + 19) >>> 51)) >>> 51)) >>> 51)) >>> 51) = s4
  have hq := toNat_carry s4
  have hlt := s4.toNat_lt
  have hfits : (19 : UInt64).toNat * (s4 >>> 51).toNat < 2 ^ 64 := by
    rw [h19, hq]
    omega
  have htoNat := toNat_mul_of_lt hfits
  rw [h19, hq] at htoNat
  rw [bind_of_some (prod64_eq hfits), bind_of_some (sum64_eq (by omega)), bind_of_some (hsmall h1),
    bind_of_some (hsmall h2.le), bind_of_some (hsmall h3.le), bind_of_some (hsmall h4.le)]

theorem toBytesChecked_eq : toBytesChecked a = some a.toBytes := by
  rw [toBytesChecked, bind_of_some (canonicalChecked_eq ha)]
  rfl

theorem eqChecked_eq (ho : Weak o) : eqChecked a o = some (a.eq o) := by
  rw [eqChecked, bind_of_some (toBytesChecked_eq ha), bind_of_some (toBytesChecked_eq ho)]
  rfl

theorem isZeroChecked_eq : isZeroChecked a = some a.isZero := by
  rw [isZeroChecked, bind_of_some (toBytesChecked_eq ha)]
  rfl

end

end Arithmetic

/-! ## Expressions -/

/-- What a field element can be computed by. -/
inductive Expr where
  | zero
  | one
  | sqrtM1
  | fromBytes (b : Fixed 32)
  | small (v : UInt64) (below : v.toNat < 2 ^ 51)
  | add (a o : Expr)
  | sub (a o : Expr)
  | mul (a o : Expr)
  | neg (a : Expr)
  | square (a : Expr)
  | pow (a : Expr) (exp : Fixed 32)
  | invert (a : Expr)
  | powP58 (a : Expr)

namespace Expr

/-- The limbs that the code computes: nothing, when a word overflows or `narrow` falls back. -/
def run : Expr → Option Fe
  | zero => some ZERO
  | one => some ONE
  | sqrtM1 => powChecked (Fe.small 2) P_MINUS_1_OVER_4
  | fromBytes b => some (Fe.fromBytes b)
  | small v _ => some (Fe.small v)
  | add a o => do
      let a ← run a
      let o ← run o
      addChecked a o
  | sub a o => do
      let a ← run a
      let o ← run o
      subChecked a o
  | mul a o => do
      let a ← run a
      let o ← run o
      mulChecked a o
  | neg a => run a >>= negChecked
  | square a => run a >>= squareChecked
  | pow a exp => run a >>= fun a => powChecked a exp
  | invert a => run a >>= fun a => powChecked a P_MINUS_2
  | powP58 a => run a >>= fun a => powChecked a P_MINUS_5_OVER_8

/-- What the expression is in the field. -/
def denote : Expr → Field25519
  | zero => 0
  | one => 1
  | sqrtM1 => 2 ^ ((P - 1) / 4)
  | fromBytes b => (leNat b.1 % 2 ^ 255 : Nat)
  | small v _ => v.toNat
  | add a o => denote a + denote o
  | sub a o => denote a - denote o
  | mul a o => denote a * denote o
  | neg a => -denote a
  | square a => denote a * denote a
  | pow a exp => denote a ^ leNat exp.1
  | invert a => (denote a)⁻¹
  | powP58 a => denote a ^ ((P - 5) / 8)

/-- Nothing traps, and the limbs stand for what the expression is. -/
theorem run_is (e : Expr) : ∃ a, e.run = some a ∧ a.Is e.denote := by
  induction e with
  | zero => exact ⟨_, rfl, is_zero⟩
  | one => exact ⟨_, rfl, is_one⟩
  | sqrtM1 => exact ⟨_, powChecked_eq (is_small (by decide)).weak _, is_sqrtM1⟩
  | fromBytes b => exact ⟨_, rfl, is_fromBytes b⟩
  | small v below => exact ⟨_, rfl, is_small below⟩
  | add a o iha iho =>
      obtain ⟨a', hrun, ha⟩ := iha
      obtain ⟨o', hrun', ho⟩ := iho
      refine ⟨_, ?_, ha.add ho⟩
      rw [run, bind_of_some hrun, bind_of_some hrun', addChecked_eq ha.weak ho.weak]
  | sub a o iha iho =>
      obtain ⟨a', hrun, ha⟩ := iha
      obtain ⟨o', hrun', ho⟩ := iho
      refine ⟨_, ?_, ha.sub ho⟩
      rw [run, bind_of_some hrun, bind_of_some hrun', subChecked_eq ha.weak ho.weak]
  | mul a o iha iho =>
      obtain ⟨a', hrun, ha⟩ := iha
      obtain ⟨o', hrun', ho⟩ := iho
      refine ⟨_, ?_, ha.mul ho⟩
      rw [run, bind_of_some hrun, bind_of_some hrun', mulChecked_eq ha.weak ho.weak]
  | neg a iha =>
      obtain ⟨a', hrun, ha⟩ := iha
      exact ⟨_, by rw [run, bind_of_some hrun, negChecked_eq ha.weak], ha.neg⟩
  | square a iha =>
      obtain ⟨a', hrun, ha⟩ := iha
      exact ⟨_, by rw [run, bind_of_some hrun, squareChecked_eq ha.weak], ha.square⟩
  | pow a exp iha =>
      obtain ⟨a', hrun, ha⟩ := iha
      exact ⟨_, by rw [run, bind_of_some hrun, powChecked_eq ha.weak], ha.pow exp⟩
  | invert a iha =>
      obtain ⟨a', hrun, ha⟩ := iha
      exact ⟨_, by rw [run, bind_of_some hrun, powChecked_eq ha.weak, Fe.invert], ha.invert⟩
  | powP58 a iha =>
      obtain ⟨a', hrun, ha⟩ := iha
      exact ⟨_, by rw [run, bind_of_some hrun, powChecked_eq ha.weak, Fe.powP58], ha.powP58⟩

/-- No expression traps; its limbs are congruent to it, its bytes are those of the number below the prime
    that it is, and `is_zero` and `eq` decide equality. -/
theorem run_exact (e o : Expr) :
    ∃ a, e.run = some a ∧ (a.value : Field25519) = e.denote ∧
      (∃ b, toBytesChecked a = some b ∧ leNat b.1 = e.denote.val) ∧
      isZeroChecked a = some (decide (e.denote = 0)) ∧
      ∃ c, o.run = some c ∧ eqChecked a c = some (decide (e.denote = o.denote)) := by
  obtain ⟨a, hrun, ha⟩ := e.run_is
  obtain ⟨c, hrun', hc⟩ := o.run_is
  refine ⟨a, hrun, ha.value, ⟨a.toBytes, toBytesChecked_eq ha.weak, ha.leNat_toBytes⟩, ?_, c, hrun', ?_⟩
  · rw [isZeroChecked_eq ha.weak, Option.some_inj, Bool.eq_iff_iff, ha.isZero_iff, decide_eq_true_iff]
  · rw [eqChecked_eq ha.weak hc.weak, Option.some_inj, Bool.eq_iff_iff, ha.eq_iff hc, decide_eq_true_iff]

end Expr

end Fe

end Pelorus.Update.Ed25519
