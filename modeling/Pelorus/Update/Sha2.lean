import Mathlib.Data.List.Forall2
import Pelorus.Lib.Numerals
import Pelorus.Lib.Sha512

/-
  Update/Sha2.lean --- the hash of the signature scheme (`px-update/src/sha2.rs`), and
  that it is the one of the standard.

  The code keeps a window of sixteen words in place of the schedule, and pads the last
  blocks alone.  SHA-256 and SHA-384 are not modelled: nothing here reads them.
-/
set_option autoImplicit false

namespace Pelorus.Update.Sha2

open Lib Lib.Sha512

/-! ## Constants -/

def K512 : List UInt64 := [
  0x428a2f98d728ae22, 0x7137449123ef65cd, 0xb5c0fbcfec4d3b2f, 0xe9b5dba58189dbbc,
  0x3956c25bf348b538, 0x59f111f1b605d019, 0x923f82a4af194f9b, 0xab1c5ed5da6d8118,
  0xd807aa98a3030242, 0x12835b0145706fbe, 0x243185be4ee4b28c, 0x550c7dc3d5ffb4e2,
  0x72be5d74f27b896f, 0x80deb1fe3b1696b1, 0x9bdc06a725c71235, 0xc19bf174cf692694,
  0xe49b69c19ef14ad2, 0xefbe4786384f25e3, 0x0fc19dc68b8cd5b5, 0x240ca1cc77ac9c65,
  0x2de92c6f592b0275, 0x4a7484aa6ea6e483, 0x5cb0a9dcbd41fbd4, 0x76f988da831153b5,
  0x983e5152ee66dfab, 0xa831c66d2db43210, 0xb00327c898fb213f, 0xbf597fc7beef0ee4,
  0xc6e00bf33da88fc2, 0xd5a79147930aa725, 0x06ca6351e003826f, 0x142929670a0e6e70,
  0x27b70a8546d22ffc, 0x2e1b21385c26c926, 0x4d2c6dfc5ac42aed, 0x53380d139d95b3df,
  0x650a73548baf63de, 0x766a0abb3c77b2a8, 0x81c2c92e47edaee6, 0x92722c851482353b,
  0xa2bfe8a14cf10364, 0xa81a664bbc423001, 0xc24b8b70d0f89791, 0xc76c51a30654be30,
  0xd192e819d6ef5218, 0xd69906245565a910, 0xf40e35855771202a, 0x106aa07032bbd1b8,
  0x19a4c116b8d2d0c8, 0x1e376c085141ab53, 0x2748774cdf8eeb99, 0x34b0bcb5e19b48a8,
  0x391c0cb3c5c95a63, 0x4ed8aa4ae3418acb, 0x5b9cca4f7763e373, 0x682e6ff3d6b2b8a3,
  0x748f82ee5defb2fc, 0x78a5636f43172f60, 0x84c87814a1f0ab72, 0x8cc702081a6439ec,
  0x90befffa23631e28, 0xa4506cebde82bde9, 0xbef9a3f7b2c67915, 0xc67178f2e372532b,
  0xca273eceea26619c, 0xd186b8c721c0c207, 0xeada7dd6cde0eb1e, 0xf57d4f7fee6ed178,
  0x06f067aa72176fba, 0x0a637dc5a2c898a6, 0x113f9804bef90dae, 0x1b710b35131c471b,
  0x28db77f523047d84, 0x32caab7b40c72493, 0x3c9ebe0a15c9bebc, 0x431d67c49c100d4c,
  0x4cc5d4becb3e42b6, 0x597f299cfc657e2a, 0x5fcb6fab3ad6faec, 0x6c44198c4a475817]

def H512 : Vars :=
  ⟨0x6a09e667f3bcc908, 0xbb67ae8584caa73b, 0x3c6ef372fe94f82b, 0xa54ff53a5f1d36f1,
    0x510e527fade682d1, 0x9b05688c2b3e6c1f, 0x1f83d9abfb41bd6b, 0x5be0cd19137e2179⟩

theorem K512_cubes : List.Forall₂ (IsRootFraction 3) primes K512 := by decide +kernel

theorem H512_squares : List.Forall₂ (IsRootFraction 2) (primes.take 8) H512.words := by decide +kernel

/-- They are the constants of the standard. -/
def constants : Constants where
  K := K512
  H := H512
  cubes := K512_cubes
  squares := H512_squares

/-! ## The last blocks -/

/-- The zeros that bring a length to the target. -/
def missing (block target length : Nat) : Nat :=
  if length % block ≤ target then target - length % block else target + block - length % block

theorem missing_succ {block target length : Nat} (h : target < block) (hne : length % block ≠ target) :
    missing block target length = missing block target (length + 1) + 1 := by
  have hblock : 0 < block := Nat.zero_lt_of_lt h
  have hlt := Nat.mod_lt length hblock
  unfold missing
  by_cases hfull : length % block + 1 = block
  · have hnext : (length + 1) % block = 0 := by
      rw [← Nat.mod_add_mod, hfull, Nat.mod_self]
    rw [hnext, if_pos (Nat.zero_le target), if_neg (by omega)]
    omega
  · have hnext : (length + 1) % block = length % block + 1 := by
      rw [← Nat.mod_add_mod]
      exact Nat.mod_eq_of_lt (by omega)
    rw [hnext]
    split <;> split <;> omega

/-- The loop that appends zeros until the length fits. -/
def padZeros (block target : Nat) (h : target < block) (v : Bytes) : Bytes :=
  if v.length % block ≠ target then padZeros block target h (v ++ [0]) else v
  termination_by missing block target v.length
  decreasing_by
    rename_i hne
    rw [List.length_append, List.length_singleton, missing_succ h hne]
    exact Nat.lt_succ_self _

theorem padZeros_eq {block target : Nat} (h : target < block) (v : Bytes) :
    padZeros block target h v = v ++ List.replicate (missing block target v.length) 0 := by
  induction v using padZeros.induct block target h with
  | case1 v hne ih =>
      rw [padZeros, if_pos hne, ih, missing_succ h hne, List.length_append, List.length_singleton,
        List.append_assoc, List.replicate_succ, List.singleton_append]
  | case2 v heq =>
      rw [ne_eq, not_not] at heq
      rw [padZeros, if_neg (not_not_intro heq), missing, heq, if_pos le_rfl, Nat.sub_self, List.replicate_zero,
        List.append_nil]

def finalBlocks (tail : Bytes) (totalLen : UInt64) (block lenBytes : Nat) (h : block - lenBytes < block) : Bytes :=
  let v := padZeros block (block - lenBytes) h (tail ++ [0x80])
  let bits := totalLen.toNat * 8 % 2 ^ 128
  v ++ (beBytes 16 bits).drop (16 - lenBytes)

/-! ## Compression -/

/-- Words `t - 16` to `t - 1` of the schedule; in the first rounds, the rest of the block. -/
abbrev Window : Type := Vector UInt64 16

/-- `rotate_left(1)`, and the last word is set. -/
def slide (w : Window) (wt : UInt64) : Window := Vector.ofFn fun i => if h : i.1 + 1 < 16 then w[i.1 + 1] else wt

def nextWord (w : Window) (t : Nat) : UInt64 :=
  if t < 16 then w[0]
  else
    let s0 := sigma0 w[1]
    let s1 := sigma1 w[14]
    w[0] + s0 + w[9] + s1

/-- One turn of the loop of `compress512`. -/
def turn (acc : Window × Vars) (k : UInt64 × Nat) : Window × Vars :=
  let wt := nextWord acc.1 k.2
  (slide acc.1 wt, round k.1 wt acc.2)

def compress512 (state : Vars) (block : Bytes) : Vars :=
  let w : Window := Vector.ofFn fun i => beWord block i.1
  state.add (K512.zipIdx.foldl turn (w, state)).2

/-! ## The hash -/

def sha512Core (init : Vars) (data : Bytes) : Vars :=
  let state := (blocks 128 data).foldl compress512 init
  let fin := finalBlocks (remainder 128 data) (UInt64.ofNat data.length) 128 16 (by decide)
  (blocks 128 fin).foldl compress512 state

def sha512 (data : Bytes) : Fixed 64 :=
  ⟨(sha512Core H512 data).words.flatMap fun w => beBytes 8 w.toNat, by simp [Vars.words]⟩

/-! ## It is the hash of the standard -/

/-- What the window holds before round `t`: the words not yet used, then those made. -/
def Holds (M : Nat → UInt64) (t : Nat) (w : Window) : Prop :=
  ∀ (i : Nat) (h : i < 16), w[i] = if t + i < 16 then M (t + i) else W M (t + i - 16)

theorem Holds.nextWord_eq {M : Nat → UInt64} {t : Nat} {w : Window} (h : Holds M t w) : nextWord w t = W M t := by
  have h0 := h 0 (by decide)
  have h1 := h 1 (by decide)
  have h9 := h 9 (by decide)
  have h14 := h 14 (by decide)
  rw [nextWord, W]
  split
  · rename_i hlow
    rw [h0, Nat.add_zero, if_pos hlow]
  · rename_i hhigh
    rw [if_neg (by omega)] at h0 h1 h9 h14
    rw [h0, h1, h9, h14, show t + 0 - 16 = t - 16 by omega, show t + 1 - 16 = t - 15 by omega,
      show t + 9 - 16 = t - 7 by omega, show t + 14 - 16 = t - 2 by omega]
    ac_rfl

theorem Holds.slide {M : Nat → UInt64} {t : Nat} {w : Window} (h : Holds M t w) :
    Holds M (t + 1) (slide w (W M t)) := by
  intro i hi
  rw [Sha2.slide, Vector.getElem_ofFn]
  simp only
  by_cases hnext : i + 1 < 16
  · rw [dif_pos hnext, h (i + 1) hnext, show t + (i + 1) = t + 1 + i by omega]
  · have hfifteen : i = 15 := by omega
    rw [dif_neg hnext, if_neg (by omega), show t + 1 + i - 16 = t by omega]

theorem foldl_turn {C : Constants} {M : Nat → UInt64} {v : Vars} : ∀ (ks : List UInt64) (t : Nat) (w : Window),
    C.K.drop t = ks → Holds M t w →
    ((ks.zipIdx t).foldl turn (w, rounds C M v t)).2 = rounds C M v (t + ks.length)
  | [], _, _, _, _ => rfl
  | k :: ks, t, w, hks, hw => by
      have hk : C.K.getD t 0 = k := by
        rw [List.getD_eq_getElem?_getD, ← List.head?_drop, hks]
        rfl
      have hrest : C.K.drop (t + 1) = ks := by
        rw [← List.tail_drop, hks, List.tail_cons]
      have hturn : turn (w, rounds C M v t) (k, t) = (slide w (W M t), rounds C M v (t + 1)) := by
        rw [turn, hw.nextWord_eq, rounds, hk]
      rw [List.zipIdx_cons, List.foldl_cons, hturn, foldl_turn ks (t + 1) _ hrest hw.slide, List.length_cons,
        Nat.add_right_comm, Nat.add_assoc]

theorem compress512_eq (state : Vars) (block : Bytes) : compress512 state block = compress constants state block := by
  have hwindow : Holds (beWord block) 0 (Vector.ofFn fun i => beWord block i.1) := by
    intro i hi
    rw [Vector.getElem_ofFn, Nat.zero_add, if_pos hi]
  have hrounds := @foldl_turn constants (beWord block) state K512 0 _ rfl hwindow
  rw [rounds] at hrounds
  rw [compress512, compress, hrounds]
  rfl

/-- The last blocks are the remainder of the message and its padding. -/
theorem finalBlocks_eq {data : Bytes} (h : data.length < 2 ^ 64) :
    finalBlocks (remainder 128 data) (UInt64.ofNat data.length) 128 16 (by decide) = remainder 128 data ++
      (0x80 :: List.replicate (zeros data.length) 0 ++ beBytes 16 (8 * data.length)) := by
  have hlength : (remainder 128 data).length = data.length % 128 := by
    rw [remainder, List.length_drop]
    omega
  have hmissing : missing 128 (128 - 16) (remainder 128 data ++ [0x80]).length = zeros data.length := by
    rw [List.length_append, List.length_singleton, hlength]
    apply eq_zeros
    · unfold missing
      split <;> omega
    · unfold missing
      split <;> omega
  have hbits : (UInt64.ofNat data.length).toNat * 8 % 2 ^ 128 = 8 * data.length := by
    rw [UInt64.toNat_ofNat_of_lt' h]
    omega
  simp only [finalBlocks]
  rw [padZeros_eq, hmissing, hbits, Nat.sub_self, List.drop_zero]
  simp only [List.append_assoc, List.cons_append, List.nil_append]

/-- For every string there is room for in memory. -/
theorem sha512_eq {data : Bytes} (h : data.length < 2 ^ 64) : (sha512 data).1 = digest constants data := by
  have hcompress : compress512 = compress constants := by
    funext state block
    exact compress512_eq state block
  have hpad : pad data = data ++ (0x80 :: List.replicate (zeros data.length) 0 ++ beBytes 16 (8 * data.length)) := by
    rw [pad, List.append_assoc]
  rw [digest, hpad, blocks_append (by decide), List.foldl_append, ← finalBlocks_eq h, ← hcompress]
  rfl

end Pelorus.Update.Sha2
