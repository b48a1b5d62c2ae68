import Mathlib.Tactic.Ring
import Pelorus.Lib.Numerals

/-
  Update/Ed25519/Scalar.lean --- numbers modulo the order of the base point, in four
  limbs of 64 bits (`px-update/src/ed25519/scalar.rs`).

  Each function has one lemma, about the number its limbs write.  Reduction is a
  ladder: what it keeps is that the limbs write the remainder of the number read.
-/
set_option autoImplicit false

namespace Pelorus.Update.Ed25519

open Lib Lib.Bytes

/-- The order of the base point. -/
def ORDER : Nat := 2 ^ 252 + 27742317777372353535851937790883648493

/-- `[u64; 4]`, the lowest limb first. -/
structure Limbs where
  w0 : UInt64
  w1 : UInt64
  w2 : UInt64
  w3 : UInt64
  deriving DecidableEq, Repr

namespace Limbs

/-! ## The operations -/

def ZERO : Limbs := ⟨0, 0, 0, 0⟩

def L : Limbs := ⟨0x5812631a5cf5d3ed, 0x14def9dea2f79cd6, 0, 0x1000000000000000⟩

/-- `to_limbs`. -/
def ofBytes (b : Fixed 32) : Limbs :=
  ⟨Binary.word b.1 0, Binary.word b.1 1, Binary.word b.1 2, Binary.word b.1 3⟩

/-- `from_limbs`. -/
def toBytes (w : Limbs) : Fixed 32 :=
  ⟨leBytes 8 w.w0.toNat ++ (leBytes 8 w.w1.toNat ++ (leBytes 8 w.w2.toNat ++ leBytes 8 w.w3.toNat)),
    by simp⟩

/-- The loop of `gte` over limbs of both, the highest first. -/
def gteFrom : List (UInt64 × UInt64) → Bool
  | [] => true
  | (x, y) :: rest => if x ≠ y then x > y else gteFrom rest

/-- `gte`: `a >= b`. -/
def gte (a b : Limbs) : Bool := gteFrom [(a.w3, b.w3), (a.w2, b.w2), (a.w1, b.w1), (a.w0, b.w0)]

/-- One limb of a difference, and whether it borrows. -/
def subLimb (x y : UInt64) (borrow : Bool) : UInt64 × Bool :=
  let d1 := x - y
  let b1 := x < y
  let d2 := d1 - borrow.toUInt64
  let b2 := d1 < borrow.toUInt64
  (d2, b1 || b2)

/-- `sub`: `a - b`. -/
def sub (a b : Limbs) : Limbs :=
  let (o0, borrow) := subLimb a.w0 b.w0 false
  let (o1, borrow) := subLimb a.w1 b.w1 borrow
  let (o2, borrow) := subLimb a.w2 b.w2 borrow
  let (o3, _) := subLimb a.w3 b.w3 borrow
  ⟨o0, o1, o2, o3⟩

/-- `is_canonical`: the bytes write a number strictly below the order. -/
def isCanonical (s : Fixed 32) : Bool := !gte (ofBytes s) L

/-- The limbs shifted up by one, with a bit shifted in. -/
def shiftIn (acc : Limbs) (bit : Bool) : Limbs :=
  ⟨(acc.w0 <<< 1) ||| bit.toUInt64, (acc.w1 <<< 1) ||| (acc.w0 >>> 63), (acc.w2 <<< 1) ||| (acc.w1 >>> 63),
    (acc.w3 <<< 1) ||| (acc.w2 >>> 63)⟩

/-- One bit of `reduce`. -/
def reduceBit (acc : Limbs) (bit : Bool) : Limbs :=
  let acc := shiftIn acc bit
  if gte acc L then sub acc L else acc

/-- `reduce`: shift and subtract, over at most 64 bytes. -/
def reduce (bytes : Bytes) : Fixed 32 :=
  if bytes.length > 64 then ⟨List.replicate 32 0, List.length_replicate⟩
  else toBytes (Binary.ladder reduceBit ZERO bytes)

/-! ## What limbs write -/

/-- The number the limbs write. -/
def value (w : Limbs) : Nat :=
  w.w0.toNat + 2 ^ 64 * w.w1.toNat + 2 ^ 128 * w.w2.toNat + 2 ^ 192 * w.w3.toNat

theorem value_L : L.value = ORDER := by decide

theorem gteFrom_cons {x y : UInt64} {rest : List (UInt64 × UInt64)} :
    gteFrom ((x, y) :: rest) = true ↔ y.toNat < x.toNat ∨ x.toNat = y.toNat ∧ gteFrom rest = true := by
  rw [gteFrom]
  split
  · rename_i hne
    have hne : x.toNat ≠ y.toNat := fun h => hne (UInt64.toNat_inj.mp h)
    rw [decide_eq_true_eq, gt_iff_lt, UInt64.lt_iff_toNat_lt]
    exact ⟨Or.inl, fun h => h.resolve_right fun heq => hne heq.1⟩
  · rename_i heq
    rw [not_not] at heq
    simp [heq]

theorem gte_iff (a b : Limbs) : gte a b = true ↔ b.value ≤ a.value := by
  have := a.w0.toNat_lt
  have := a.w1.toNat_lt
  have := a.w2.toNat_lt
  have := b.w0.toNat_lt
  have := b.w1.toNat_lt
  have := b.w2.toNat_lt
  rw [gte, gteFrom_cons, gteFrom_cons, gteFrom_cons, gteFrom_cons]
  simp only [gteFrom, value, and_true]
  omega

theorem toNat_toUInt64 (b : Bool) : b.toUInt64.toNat = b.toNat := by cases b <;> rfl

theorem subLimb_spec (x y : UInt64) (borrow : Bool) :
    (subLimb x y borrow).1.toNat + y.toNat + borrow.toNat =
      x.toNat + 2 ^ 64 * (subLimb x y borrow).2.toNat := by
  have hx := x.toNat_lt
  have hy := y.toNat_lt
  have hborrow := toNat_toUInt64 borrow
  have hle := Bool.toNat_le borrow
  have hd1 : (x - y).toNat = (2 ^ 64 - y.toNat + x.toNat) % 2 ^ 64 := UInt64.toNat_sub x y
  have hd2 : (x - y - borrow.toUInt64).toNat = (2 ^ 64 - borrow.toUInt64.toNat + (x - y).toNat) % 2 ^ 64 :=
    UInt64.toNat_sub _ _
  simp only [subLimb]
  rw [hd2, hborrow, hd1]
  simp only [UInt64.lt_iff_toNat_lt, hborrow, hd1]
  by_cases h1 : x.toNat < y.toNat
  · simp only [h1, decide_true, Bool.true_or, Bool.toNat_true]
    omega
  · by_cases h2 : (2 ^ 64 - y.toNat + x.toNat) % 2 ^ 64 < borrow.toNat
    · simp only [h2, decide_true, Bool.or_true, Bool.toNat_true]
      omega
    · simp only [h1, h2, decide_false, Bool.or_false, Bool.toNat_false]
      omega

theorem value_sub {a b : Limbs} (h : b.value ≤ a.value) : (sub a b).value = a.value - b.value := by
  have e0 := subLimb_spec a.w0 b.w0 false
  generalize hs0 : subLimb a.w0 b.w0 false = s0 at e0
  obtain ⟨o0, c0⟩ := s0
  have e1 := subLimb_spec a.w1 b.w1 c0
  generalize hs1 : subLimb a.w1 b.w1 c0 = s1 at e1
  obtain ⟨o1, c1⟩ := s1
  have e2 := subLimb_spec a.w2 b.w2 c1
  generalize hs2 : subLimb a.w2 b.w2 c1 = s2 at e2
  obtain ⟨o2, c2⟩ := s2
  have e3 := subLimb_spec a.w3 b.w3 c2
  generalize hs3 : subLimb a.w3 b.w3 c2 = s3 at e3
  obtain ⟨o3, c3⟩ := s3
  have hsub : sub a b = ⟨o0, o1, o2, o3⟩ := by
    simp only [sub, hs0, hs1, hs2, hs3]
  rw [hsub]
  simp only [value, Bool.toNat_false] at *
  have := o0.toNat_lt
  have := o1.toNat_lt
  have := o2.toNat_lt
  have := o3.toNat_lt
  have := Bool.toNat_le c3
  omega

/-- A number below 2^255 can be doubled and take a bit. -/
theorem value_shiftIn {acc : Limbs} (bit : Bool) (h : acc.value < 2 ^ 255) :
    (shiftIn acc bit).value = 2 * acc.value + bit.toNat := by
  have hlimb : ∀ (x y : UInt64), y.toNat < 2 → ((x <<< 1) ||| y).toNat = 2 * (x.toNat % 2 ^ 63) + y.toNat := by
    intro x y hy
    have hshift : (x <<< 1).toNat = 2 ^ 1 * (x.toNat % 2 ^ 63) := by
      rw [UInt64.toNat_shiftLeft, show (1 : UInt64).toNat % 64 = 1 from rfl, Nat.shiftLeft_eq, Nat.mul_comm,
        show 2 ^ 64 = 2 ^ 1 * 2 ^ 63 from rfl, Nat.mul_mod_mul_left]
    rw [UInt64.toNat_or, hshift, ← Nat.two_pow_add_eq_or_of_lt hy]
  have htop : ∀ x : UInt64, (x >>> 63).toNat = x.toNat / 2 ^ 63 := by
    intro x
    rw [UInt64.toNat_shiftRight, show (63 : UInt64).toNat % 64 = 63 from rfl, Nat.shiftRight_eq_div_pow]
  have hsmall : ∀ x : UInt64, (x >>> 63).toNat < 2 := by
    intro x
    have := x.toNat_lt
    rw [htop]
    omega
  have hbit := Bool.toNat_le bit
  have := acc.w0.toNat_lt
  have := acc.w1.toNat_lt
  have := acc.w2.toNat_lt
  have := acc.w3.toNat_lt
  simp only [value] at h
  simp only [shiftIn, value, hlimb _ _ (hsmall _), hlimb _ bit.toUInt64 (by rw [toNat_toUInt64]; omega), htop,
    toNat_toUInt64]
  omega

theorem value_reduceBit {acc : Limbs} {n : Nat} (bit : Bool) (h : acc.value = n % ORDER) :
    (reduceBit acc bit).value = Binary.push n bit % ORDER := by
  have horder : ORDER < 2 ^ 253 := by decide
  have hpos : 0 < ORDER := by decide
  have hlt : n % ORDER < ORDER := Nat.mod_lt _ hpos
  have hbit := Bool.toNat_le bit
  have hshift := value_shiftIn bit (show acc.value < 2 ^ 255 by omega)
  have hmod : Binary.push n bit % ORDER = (2 * (n % ORDER) + bit.toNat) % ORDER := by
    rw [Binary.push, Nat.add_mod, Nat.mul_mod, Nat.add_mod (2 * (n % ORDER)), Nat.mul_mod 2 (n % ORDER), Nat.mod_mod]
  rw [reduceBit, hmod]
  clear hmod
  generalize n % ORDER = r at *
  split
  · rename_i hge
    have hge := (gte_iff _ _).mp hge
    rw [value_sub hge, value_L, hshift, h]
    rw [value_L, hshift, h] at hge
    rw [Nat.mod_eq_sub_mod hge, Nat.mod_eq_of_lt (by omega)]
  · rename_i hlt'
    have hlt' := (gte_iff _ _).not.mp hlt'
    rw [value_L, hshift, h] at hlt'
    rw [hshift, h, Nat.mod_eq_of_lt (by omega)]

/-! ## Bytes -/

theorem value_ofBytes (b : Fixed 32) : (ofBytes b).value = leNat b.1 := (Binary.leNat_words b.2).symm

theorem isCanonical_iff (s : Fixed 32) : isCanonical s = true ↔ leNat s.1 < ORDER := by
  rw [isCanonical, Bool.not_eq_true', ← Bool.not_eq_true, gte_iff, value_L, value_ofBytes, Nat.not_le]

theorem leNat_toBytes (w : Limbs) : leNat w.toBytes.1 = w.value := by
  have h256 : 256 ^ 8 = 2 ^ 64 := rfl
  rw [toBytes, Binary.leNat_append, Binary.leNat_append, Binary.leNat_append, length_leBytes, length_leBytes,
    length_leBytes, leNat_leBytes w.w0.toNat_lt, leNat_leBytes w.w1.toNat_lt, leNat_leBytes w.w2.toNat_lt,
    leNat_leBytes w.w3.toNat_lt, h256, value]
  ring

/-- The remainder of a number of at most 64 bytes. -/
theorem leNat_reduce {bytes : Bytes} (h : bytes.length ≤ 64) : leNat (reduce bytes).1 = leNat bytes % ORDER := by
  rw [reduce, if_neg (Nat.not_lt.mpr h), leNat_toBytes]
  refine @Binary.ladder_spec Limbs reduceBit (fun acc n => acc.value = n % ORDER) ZERO rfl ?_ bytes
  intro acc n bit hacc
  exact value_reduceBit bit hacc

end Limbs

end Pelorus.Update.Ed25519
