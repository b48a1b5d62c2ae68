import Mathlib.Algebra.Group.Nat.Even
import Mathlib.Algebra.Order.Group.Nat
import Mathlib.Data.List.Basic
import Mathlib.NumberTheory.LucasPrimality

/-
  Lib/Bytes.lean --- byte strings, little-endian numbers, and a cursor over them.

  A cursor is the list of bytes still to be read, and a read returns what it read
  with the rest, or nothing when the bytes run out.  Each read has one lemma that
  says what it returns on what the matching writer wrote, followed by anything,
  and one that says what was there when it succeeded.
-/
set_option autoImplicit false

namespace Pelorus.Lib

/-- A byte string. -/
abbrev Bytes : Type := List UInt8

namespace Bytes

/-! ## Little-endian numbers -/

/-- `to_le_bytes` of a number of `width` bytes. -/
def leBytes : Nat → Nat → Bytes
  | 0, _ => []
  | width + 1, n => UInt8.ofNat n :: leBytes width (n / 256)

/-- `from_le_bytes`. -/
def leNat : Bytes → Nat
  | [] => 0
  | b :: rest => b.toNat + 256 * leNat rest

@[simp] theorem length_leBytes : ∀ width n : Nat, (leBytes width n).length = width
  | 0, _ => rfl
  | width + 1, n => by simp [leBytes, length_leBytes width]

theorem leNat_leBytes : ∀ {width n : Nat}, n < 256 ^ width → leNat (leBytes width n) = n
  | 0, n, h => by
      simp only [Nat.pow_zero, Nat.lt_one_iff] at h
      simp [leBytes, leNat, h]
  | width + 1, n, h => by
      have hdiv : n / 256 < 256 ^ width := by
        rw [Nat.div_lt_iff_lt_mul (by decide)]
        rwa [Nat.pow_succ] at h
      have hmod : (UInt8.ofNat n).toNat = n % 256 := by simp
      rw [leBytes, leNat, leNat_leBytes hdiv, hmod]
      omega

theorem leBytes_leNat : ∀ bytes : Bytes, leBytes bytes.length (leNat bytes) = bytes
  | [] => rfl
  | b :: rest => by
      have hlt : b.toNat < 256 := b.toNat_lt
      have hdiv : (b.toNat + 256 * leNat rest) / 256 = leNat rest := by omega
      have hhead : UInt8.ofNat (b.toNat + 256 * leNat rest) = b := by
        apply UInt8.toNat_inj.mp
        simp only [UInt8.toNat_ofNat']
        omega
      rw [List.length_cons, leNat, leBytes, hdiv, hhead, leBytes_leNat rest]

theorem leNat_lt : ∀ bytes : Bytes, leNat bytes < 256 ^ bytes.length
  | [] => by simp [leNat]
  | b :: rest => by
      have hlt : b.toNat < 256 := b.toNat_lt
      have ih := leNat_lt rest
      rw [leNat, List.length_cons, Nat.pow_succ]
      omega

/-! ## Reading -/

/-- `Reader::take`: the next `n` bytes. -/
def take? (n : Nat) (bytes : Bytes) : Option (Bytes × Bytes) :=
  if n ≤ bytes.length then some (bytes.take n, bytes.drop n) else none

/-- `Reader::u8`, `u16` and `u32`: a little-endian number of `width` bytes. -/
def number? (width : Nat) (bytes : Bytes) : Option (Nat × Bytes) :=
  (take? width bytes).map fun (raw, rest) => (leNat raw, rest)

theorem take?_append (a b : Bytes) : take? a.length (a ++ b) = some (a, b) := by
  simp [take?]

theorem take?_eq_some {n : Nat} {bytes a b : Bytes} :
    take? n bytes = some (a, b) ↔ bytes = a ++ b ∧ a.length = n := by
  constructor
  · intro h
    unfold take? at h
    split at h
    · rename_i hle
      cases h
      exact ⟨(List.take_append_drop n bytes).symm, List.length_take_of_le hle⟩
    · cases h
  · rintro ⟨rfl, rfl⟩
    exact take?_append a b

theorem take?_eq_none {n : Nat} {bytes : Bytes} : take? n bytes = none ↔ bytes.length < n := by
  unfold take?
  split <;> simp <;> omega

theorem number?_append {width n : Nat} (h : n < 256 ^ width) (rest : Bytes) :
    number? width (leBytes width n ++ rest) = some (n, rest) := by
  have htake := take?_append (leBytes width n) rest
  rw [length_leBytes] at htake
  simp [number?, htake, leNat_leBytes h]

theorem number?_eq_some {width n : Nat} {bytes rest : Bytes} :
    number? width bytes = some (n, rest) ↔ bytes = leBytes width n ++ rest ∧ n < 256 ^ width := by
  constructor
  · intro h
    obtain ⟨⟨raw, rest'⟩, htake, heq⟩ := Option.map_eq_some_iff.mp h
    obtain ⟨rfl, rfl⟩ := take?_eq_some.mp htake
    simp only [Prod.mk.injEq] at heq
    obtain ⟨rfl, rfl⟩ := heq
    exact ⟨by rw [leBytes_leNat], leNat_lt raw⟩
  · rintro ⟨rfl, hlt⟩
    exact number?_append hlt rest

end Bytes

end Pelorus.Lib

/-! # Loops over the bits of a number, the highest first

THE LADDER.  A loop that takes the bits of a number in turn, from the highest, keeps
any relation between its state and the number read so far that doubling, and adding
the next bit, keeps (`ladder_spec`).  Powers, multiples and remainders are computed
by such loops.

POWERS AND PRIMES.  `powMod` is one, and it is exact; with it the kernel evaluates the
powers a Lucas certificate asks for (`prime_of_lucas`). -/

namespace Pelorus.Lib.Binary

open Lib.Bytes

universe u

/-! ## Bits -/

theorem leNat_append (a b : Bytes) : leNat (a ++ b) = leNat a + 256 ^ a.length * leNat b := by
  induction a with
  | nil => simp [leNat]
  | cons x a ih =>
      rw [List.cons_append, leNat, ih, leNat, List.length_cons, Nat.pow_succ]
      ring

/-- The bits of a byte, the highest first. -/
def byteBits (b : UInt8) : List Bool := [7, 6, 5, 4, 3, 2, 1, 0].map fun i => b.toNat.testBit i

/-- The bits of a little-endian number, the highest first. -/
def bits (bytes : Bytes) : List Bool := bytes.reverse.flatMap byteBits

/-- The number read when one bit more is. -/
def push (n : Nat) (b : Bool) : Nat := 2 * n + b.toNat

theorem foldl_byteBits (n : Nat) (b : UInt8) : (byteBits b).foldl push n = 256 * n + b.toNat := by
  have hall : ∀ b < 256, ([7, 6, 5, 4, 3, 2, 1, 0].map fun i => Nat.testBit b i).foldl push 0 = b := by
    decide +kernel
  have hshift : ∀ (bs : List Bool) (n : Nat), bs.foldl push n = 2 ^ bs.length * n + bs.foldl push 0 := by
    intro bs
    induction bs with
    | nil => simp
    | cons b bs ih =>
        intro n
        rw [List.foldl_cons, List.foldl_cons, ih, ih (push 0 b), List.length_cons, push, push, Nat.pow_succ]
        ring
  have hlength : (byteBits b).length = 8 := by simp [byteBits]
  rw [hshift, hlength, byteBits, hall b.toNat b.toNat_lt]
  norm_num

theorem foldl_bits (n : Nat) (bytes : Bytes) :
    (bits bytes).foldl push n = 256 ^ bytes.length * n + leNat bytes := by
  induction bytes with
  | nil => simp [bits, leNat]
  | cons b bytes ih =>
      have hsplit : bits (b :: bytes) = bits bytes ++ byteBits b := by
        simp [bits, List.flatMap_append]
      rw [hsplit, List.foldl_append, ih, foldl_byteBits, List.length_cons, Nat.pow_succ, leNat]
      ring

/-! ## Words -/

/-- The word of eight bytes at an index. -/
def word (b : Bytes) (i : Nat) : UInt64 := UInt64.ofNat (leNat ((b.drop (8 * i)).take 8))

theorem leNat_words {b : Bytes} (hlength : b.length = 32) : leNat b = (word b 0).toNat + 2 ^ 64 * (word b 1).toNat +
    2 ^ 128 * (word b 2).toNat + 2 ^ 192 * (word b 3).toNat := by
  have h256 : 256 ^ 8 = 2 ^ 64 := rfl
  have hword : ∀ i k l, k = 8 * i → l = k + 8 → l ≤ 32 →
      leNat (b.drop k) = (word b i).toNat + 2 ^ 64 * leNat (b.drop l) := by
    intro i k l hk hl hle
    have htake : ((b.drop k).take 8).length = 8 := by
      rw [List.length_take, List.length_drop]
      omega
    have hlt := leNat_lt ((b.drop k).take 8)
    rw [htake, h256] at hlt
    have hsplit := leNat_append ((b.drop k).take 8) ((b.drop k).drop 8)
    rw [List.take_append_drop, List.drop_drop, htake, h256, ← hl] at hsplit
    rw [hsplit, word, ← hk, UInt64.toNat_ofNat', Nat.mod_eq_of_lt hlt]
  have h0 := hword 0 0 8 rfl rfl (by omega)
  have h1 := hword 1 8 16 rfl rfl (by omega)
  have h2 := hword 2 16 24 rfl rfl (by omega)
  have h3 := hword 3 24 32 rfl rfl (by omega)
  have hrest : leNat (b.drop 32) = 0 := by
    rw [List.drop_eq_nil_of_le (by omega)]
    rfl
  rw [List.drop_zero] at h0
  omega

/-! ## The ladder -/

/-- The loop over the bits of a little-endian number, the highest first. -/
def ladder {α : Type u} (step : α → Bool → α) (start : α) (bytes : Bytes) : α :=
  (bits bytes).foldl step start

/-- What doubling and adding a bit keeps, the loop keeps, for the number that was read. -/
theorem ladder_spec {α : Type u} {step : α → Bool → α} {R : α → Nat → Prop} {start : α}
    (hstart : R start 0) (hstep : ∀ a n b, R a n → R (step a b) (push n b)) (bytes : Bytes) :
    R (ladder step start bytes) (leNat bytes) := by
  have hfold : ∀ (bs : List Bool) (a : α) (n : Nat), R a n → R (bs.foldl step a) (bs.foldl push n) := by
    intro bs
    induction bs with
    | nil => exact fun _ _ h => h
    | cons b bs ih => exact fun a n h => ih _ _ (hstep a n b h)
  have h := hfold (bits bytes) start 0 hstart
  rwa [foldl_bits, Nat.mul_zero, Nat.zero_add] at h

/-! ## Powers -/

/-- The power modulo `m` whose exponent is the little-endian number. -/
def powMod (m a : Nat) (exponent : Bytes) : Nat :=
  ladder (fun acc b => if b then acc * acc % m * a % m else acc * acc % m) (1 % m) exponent

theorem powMod_eq (m a : Nat) (exponent : Bytes) : powMod m a exponent = a ^ leNat exponent % m := by
  refine ladder_spec (R := fun acc n => acc = a ^ n % m) rfl ?_ exponent
  rintro _ n b rfl
  have hsquare : a ^ n % m * (a ^ n % m) % m = a ^ (2 * n) % m := by
    rw [← Nat.mul_mod, Nat.two_mul, Nat.pow_add]
  cases b with
  | false => simpa [push] using hsquare
  | true =>
      simp only [if_true, push, Bool.toNat_true]
      rw [hsquare, Nat.pow_succ, Nat.mod_mul_mod]

/-- Lucas's test of a number by a base and the prime factors of the number before it, each as
often as it divides. -/
def lucasCheck (p a : Nat) (factors : List Nat) : Bool :=
  1 < p && p < 256 ^ 32 && factors.foldr (· * ·) 1 = p - 1 && powMod p a (leBytes 32 (p - 1)) = 1 &&
    factors.all fun q => powMod p a (leBytes 32 ((p - 1) / q)) ≠ 1

theorem mem_of_dvd_foldr {q : Nat} (hq : q.Prime) : ∀ {factors : List Nat}, (∀ r ∈ factors, r.Prime) →
    q ∣ factors.foldr (· * ·) 1 → q ∈ factors
  | [], _, h => absurd (Nat.dvd_one.mp h) hq.ne_one
  | r :: factors, hprime, h => by
      rcases hq.dvd_mul.mp h with h | h
      · rw [(Nat.prime_dvd_prime_iff_eq hq (hprime r (by simp))).mp h]
        exact List.mem_cons_self
      · exact List.mem_cons_of_mem r (mem_of_dvd_foldr hq (fun r' hr' => hprime r' (List.mem_cons_of_mem r hr')) h)

/-- A number that passes Lucas's test is prime. -/
theorem prime_of_lucas {p : Nat} (a : Nat) (factors : List Nat) (hprime : ∀ q ∈ factors, q.Prime)
    (hcheck : lucasCheck p a factors = true) : p.Prime := by
  simp only [lucasCheck, Bool.and_eq_true, decide_eq_true_eq, List.all_eq_true] at hcheck
  obtain ⟨⟨⟨⟨hone, hlt⟩, hproduct⟩, hfull⟩, hpart⟩ := hcheck
  have hpow : ∀ n, n ≤ p - 1 → (((a : ZMod p) ^ n = 1) ↔ powMod p a (leBytes 32 n) = 1) := by
    intro n hn
    rw [powMod_eq, leNat_leBytes (by omega), ← Nat.cast_pow, ← Nat.cast_one, ZMod.natCast_eq_natCast_iff',
      Nat.mod_eq_of_lt hone]
  refine lucas_primality p (a : ZMod p) ((hpow _ (Nat.le_refl _)).mpr hfull) ?_
  intro q hq hdvd
  rw [← hproduct] at hdvd
  rw [ne_eq, hpow _ (Nat.div_le_self _ _)]
  exact hpart q (mem_of_dvd_foldr hq hprime hdvd)

end Pelorus.Lib.Binary
