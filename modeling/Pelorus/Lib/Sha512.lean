import Mathlib.Data.Nat.Prime.Basic
import Pelorus.Lib.Bytes

/-
  Lib/Sha512.lean --- the 512-bit hash of FIPS 180-4, as the standard states it.

  THE CONSTANTS.  The standard gives a table; here it is a structure whose fields say what
  its words are: the first 64 bits of the fractional parts of the cube roots of the first
  80 primes and of the square roots of the first 8.

  THE SCHEDULE is the recurrence for W over all indices, and padding is a number of zeros,
  so that an implementation with a window of sixteen words, or one that pads the last
  blocks alone, has something to be compared with.
-/
set_option autoImplicit false

namespace Pelorus.Lib.Sha512

open Lib.Bytes

/-! ## Numbers with the highest byte first -/

/-- `to_be_bytes` of a number of `width` bytes. -/
def beBytes (width n : Nat) : Bytes := (leBytes width n).reverse

/-- `from_be_bytes`. -/
def beNat (bytes : Bytes) : Nat := leNat bytes.reverse

@[simp] theorem length_beBytes (width n : Nat) : (beBytes width n).length = width := by
  rw [beBytes, List.length_reverse, length_leBytes]

/-- The word of eight bytes at an index. -/
def beWord (bytes : Bytes) (i : Nat) : UInt64 := UInt64.ofNat (beNat ((bytes.drop (8 * i)).take 8))

/-! ## The functions -/

def rotr (x n : UInt64) : UInt64 := (x >>> n) ||| (x <<< (64 - n))

def ch (e f g : UInt64) : UInt64 := (e &&& f) ^^^ (~~~e &&& g)

def maj (a b c : UInt64) : UInt64 := (a &&& b) ^^^ (a &&& c) ^^^ (b &&& c)

/-- The upper-case sigmas. -/
def Sigma0 (x : UInt64) : UInt64 := rotr x 28 ^^^ rotr x 34 ^^^ rotr x 39

def Sigma1 (x : UInt64) : UInt64 := rotr x 14 ^^^ rotr x 18 ^^^ rotr x 41

/-- The lower-case sigmas. -/
def sigma0 (x : UInt64) : UInt64 := rotr x 1 ^^^ rotr x 8 ^^^ (x >>> 7)

def sigma1 (x : UInt64) : UInt64 := rotr x 19 ^^^ rotr x 61 ^^^ (x >>> 6)

/-! ## The constants -/

/-- The word is the first 64 bits of the fractional part of the `e`-th root of `n`. -/
def IsRootFraction (e n : Nat) (word : UInt64) : Prop :=
  ∃ whole < n, (whole * 2 ^ 64 + word.toNat) ^ e ≤ n * 2 ^ (64 * e) ∧
    n * 2 ^ (64 * e) < (whole * 2 ^ 64 + word.toNat + 1) ^ e

/-- The same, by trying every whole part. -/
def isRootFraction (e n : Nat) (word : UInt64) : Bool :=
  (List.range n).any fun whole => decide ((whole * 2 ^ 64 + word.toNat) ^ e ≤ n * 2 ^ (64 * e)) &&
    decide (n * 2 ^ (64 * e) < (whole * 2 ^ 64 + word.toNat + 1) ^ e)

theorem isRootFraction_iff {e n : Nat} {word : UInt64} : isRootFraction e n word = true ↔ IsRootFraction e n word := by
  simp only [isRootFraction, IsRootFraction, List.any_eq_true, List.mem_range, Bool.and_eq_true, decide_eq_true_eq]

instance (e n : Nat) (word : UInt64) : Decidable (IsRootFraction e n word) := decidable_of_iff _ isRootFraction_iff

/-- The eight working variables, and a hash value. -/
structure Vars where
  a : UInt64
  b : UInt64
  c : UInt64
  d : UInt64
  e : UInt64
  f : UInt64
  g : UInt64
  h : UInt64
  deriving DecidableEq, Repr

namespace Vars

def words (v : Vars) : List UInt64 := [v.a, v.b, v.c, v.d, v.e, v.f, v.g, v.h]

def add (v w : Vars) : Vars :=
  ⟨v.a + w.a, v.b + w.b, v.c + w.c, v.d + w.d, v.e + w.e, v.f + w.f, v.g + w.g, v.h + w.h⟩

end Vars

/-- Trial division, for numbers below 441. -/
def isPrime (n : Nat) : Bool :=
  Nat.ble 2 n && (List.range 21).all fun m => Nat.blt m 2 || Nat.blt n (m * m) || Nat.blt 0 (n % m)

/-- The first 80 primes: those below 410. -/
def primes : List Nat := (List.range 410).filter isPrime

structure Constants where
  K : List UInt64
  H : Vars
  cubes : List.Forall₂ (IsRootFraction 3) primes K
  squares : List.Forall₂ (IsRootFraction 2) (primes.take 8) H.words

/-! ## The hash -/

/-- The message schedule. -/
def W (M : Nat → UInt64) (t : Nat) : UInt64 :=
  if t < 16 then M t
  else sigma1 (W M (t - 2)) + W M (t - 7) + sigma0 (W M (t - 15)) + W M (t - 16)

def round (k w : UInt64) (v : Vars) : Vars :=
  let t1 := v.h + Sigma1 v.e + ch v.e v.f v.g + k + w
  let t2 := Sigma0 v.a + maj v.a v.b v.c
  ⟨t1 + t2, v.a, v.b, v.c, v.d + t1, v.e, v.f, v.g⟩

/-- The first `t` rounds. -/
def rounds (C : Constants) (M : Nat → UInt64) (v : Vars) : Nat → Vars
  | 0 => v
  | t + 1 => round (C.K.getD t 0) (W M t) (rounds C M v t)

def compress (C : Constants) (H : Vars) (block : Bytes) : Vars :=
  H.add (rounds C (beWord block) H 80)

/-- The least number of zeros with which a 1 bit, they and the length fill a block. -/
def zeros (length : Nat) : Nat := (239 - length % 128) % 128

def pad (message : Bytes) : Bytes :=
  message ++ 0x80 :: List.replicate (zeros message.length) 0 ++ beBytes 16 (8 * message.length)

/-- The whole blocks of a string, in order. -/
def blocks (size : Nat) (bytes : Bytes) : List Bytes :=
  (List.range (bytes.length / size)).map fun i => (bytes.drop (size * i)).take size

/-- What is left after the whole blocks. -/
def remainder (size : Nat) (bytes : Bytes) : Bytes := bytes.drop (size * (bytes.length / size))

def digest (C : Constants) (message : Bytes) : Bytes :=
  ((blocks 128 (pad message)).foldl (compress C) C.H).words.flatMap fun w => beBytes 8 w.toNat

/-! ## Laws -/

/-- The number of zeros is the one that fits, if it is less than a block. -/
theorem eq_zeros {length k : Nat} (hlt : k < 128) (hfits : (length + 1 + k) % 128 = 112) : k = zeros length := by
  unfold zeros
  omega

/-- Appending completes the remainder and leaves the whole blocks as they are. -/
theorem blocks_append {size : Nat} (hsize : 0 < size) (bytes rest : Bytes) :
    blocks size (bytes ++ rest) = blocks size bytes ++ blocks size (remainder size bytes ++ rest) := by
  have hle : size * (bytes.length / size) ≤ bytes.length := Nat.mul_div_le bytes.length size
  have hcount : (bytes ++ rest).length / size =
      bytes.length / size + (remainder size bytes ++ rest).length / size := by
    rw [List.length_append, List.length_append, remainder, List.length_drop, ← Nat.mul_add_div hsize]
    congr 1
    omega
  unfold blocks
  rw [hcount, List.range_add, List.map_append]
  congr 1
  · apply List.map_congr_left
    intro i hi
    have hi : i + 1 ≤ bytes.length / size := List.mem_range.mp hi
    have hfits : size * i + size ≤ bytes.length := calc
      size * i + size = size * (i + 1) := (Nat.mul_succ size i).symm
      _ ≤ size * (bytes.length / size) := Nat.mul_le_mul_left size hi
      _ ≤ bytes.length := hle
    rw [List.drop_append_of_le_length (by omega), List.take_append_of_le_length (by rw [List.length_drop]; omega)]
  · rw [List.map_map]
    apply List.map_congr_left
    intro i _
    have hdrop : (bytes ++ rest).drop (size * (bytes.length / size)) = remainder size bytes ++ rest :=
      List.drop_append_of_le_length hle
    rw [Function.comp_apply, Nat.mul_add, ← List.drop_drop, hdrop]

end Pelorus.Lib.Sha512
