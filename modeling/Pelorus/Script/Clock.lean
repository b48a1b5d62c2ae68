import Mathlib.Algebra.Order.Group.Nat
import Mathlib.Data.List.Forall2
import Mathlib.Data.UInt

/-
  Script/Clock.lean --- the coarse clock that scripts read (`px-script/src/clock.rs`).

  WHERE A QUANTUM TURNS.  Inside a quantum a reading is rounded down up to an instant that
  the hash of the quantum fixes, and up after it.  So what a reading is rounded to does not
  decrease with time: the upper value of a quantum is the lower one of the next.

  THE FLOOR.  The clock never returns less than before.  By the above it never has to: on
  times that do not decrease, each reading is the rounded time itself (`readings_eq`).
-/
set_option autoImplicit false

namespace Pelorus.Script

/-! ## The clock -/

def QUANTUM_NS : UInt64 := 100000

/-- `saturating_add` of 64-bit words. -/
def saturatingAdd (a b : UInt64) : UInt64 :=
  if a.toNat + b.toNat < 2 ^ 64 then a + b else UInt64.ofNat (2 ^ 64 - 1)

/-- `saturating_mul` of 64-bit words. -/
def saturatingMul (a b : UInt64) : UInt64 :=
  if a.toNat * b.toNat < 2 ^ 64 then a * b else UInt64.ofNat (2 ^ 64 - 1)

/-- `mix`, the finaliser of splitmix64. -/
def mix (z : UInt64) : UInt64 :=
  let z := z ^^^ (z >>> 30)
  let z := z * 0xBF58476D1CE4E5B9
  let z := z ^^^ (z >>> 27)
  let z := z * 0x94D049BB133111EB
  z ^^^ (z >>> 31)

def quantumHash (seed q : UInt64) : UInt64 := mix (seed + q * 0x9E3779B97F4A7C15)

/-- What `coarsen_with_hash` rounds to, before it looks at the previous reading. -/
def rounded (tNs hash : UInt64) : UInt64 :=
  let q := tNs / QUANTUM_NS
  let frac := tNs % QUANTUM_NS
  let up : UInt64 := if hash % QUANTUM_NS < frac then 1 else 0
  saturatingMul (saturatingAdd q up) QUANTUM_NS

/-- `coarsen_with_hash`: the rounded time, or the previous reading if that is more. -/
def coarsenWithHash (tNs hash previous : UInt64) : UInt64 :=
  if rounded tNs hash ≤ previous then previous else rounded tNs hash

/-- `CoarseClock`, without the raw clock. -/
structure CoarseClock where
  seed : UInt64
  previous : UInt64
  deriving DecidableEq, Repr

namespace CoarseClock

def new (seed : UInt64) : CoarseClock := ⟨seed, 0⟩

variable (hash : UInt64 → UInt64 → UInt64)

/-- `now_ns`, when the raw clock reads `t`; the code's hash is `quantumHash`. -/
def nowNs (c : CoarseClock) (t : UInt64) : CoarseClock × UInt64 :=
  let out := coarsenWithHash t (hash c.seed (t / QUANTUM_NS)) c.previous
  ({ c with previous := out }, out)

/-- The readings at raw times in turn. -/
def readings (c : CoarseClock) : List UInt64 → List UInt64
  | [] => []
  | t :: times => (c.nowNs hash t).2 :: readings (c.nowNs hash t).1 times

end CoarseClock

/-! ## Rounding -/

/-- The last raw time that the next quantum can be reached from. -/
def LAST_NS : UInt64 := UInt64.ofNat (2 ^ 64 - 1) - QUANTUM_NS

theorem toNat_quantum : QUANTUM_NS.toNat = 100000 := by decide

theorem toNat_last : LAST_NS.toNat = 2 ^ 64 - 1 - 100000 := by decide

theorem toNat_saturatingAdd {a b : UInt64} (h : a.toNat + b.toNat < 2 ^ 64) :
    (saturatingAdd a b).toNat = a.toNat + b.toNat := by
  rw [saturatingAdd, if_pos h, UInt64.toNat_add, Nat.mod_eq_of_lt h]

theorem toNat_saturatingMul {a b : UInt64} (h : a.toNat * b.toNat < 2 ^ 64) :
    (saturatingMul a b).toNat = a.toNat * b.toNat := by
  rw [saturatingMul, if_pos h, UInt64.toNat_mul, Nat.mod_eq_of_lt h]

/-- Nothing saturates on the way to the rounded time. -/
theorem toNat_rounded {t : UInt64} (h : t ≤ LAST_NS) (hash : UInt64) : (rounded t hash).toNat =
    (t.toNat / 100000 + if hash.toNat % 100000 < t.toNat % 100000 then 1 else 0) * 100000 := by
  rw [UInt64.le_iff_toNat_le, toNat_last] at h
  have hq : (t / QUANTUM_NS).toNat = t.toNat / 100000 := by
    rw [UInt64.toNat_div, toNat_quantum]
  have hup : (if hash % QUANTUM_NS < t % QUANTUM_NS then 1 else 0 : UInt64).toNat =
      if hash.toNat % 100000 < t.toNat % 100000 then 1 else 0 := by
    have hlt : hash % QUANTUM_NS < t % QUANTUM_NS ↔ hash.toNat % 100000 < t.toNat % 100000 := by
      rw [UInt64.lt_iff_toNat_lt, UInt64.toNat_mod, UInt64.toNat_mod, toNat_quantum]
    rw [apply_ite UInt64.toNat, if_congr hlt rfl rfl]
    rfl
  have hle : (if hash.toNat % 100000 < t.toNat % 100000 then 1 else 0) ≤ 1 := by
    split
    · exact Nat.le_refl 1
    · exact Nat.zero_le 1
  have hsum := @toNat_saturatingAdd (t / QUANTUM_NS) (if hash % QUANTUM_NS < t % QUANTUM_NS then 1 else 0)
    (by rw [hq, hup]; omega)
  rw [hq, hup] at hsum
  have hproduct := @toNat_saturatingMul (saturatingAdd (t / QUANTUM_NS)
    (if hash % QUANTUM_NS < t % QUANTUM_NS then 1 else 0)) QUANTUM_NS (by rw [hsum, toNat_quantum]; omega)
  rw [hsum, toNat_quantum] at hproduct
  exact hproduct

/-- Later times are not rounded to less: inside a quantum by the one threshold, and from one
quantum to the next because the upper value of a quantum is the lower one of the next. -/
theorem rounded_mono (hash : UInt64 → UInt64) {s t : UInt64} (hst : s ≤ t) (ht : t ≤ LAST_NS) :
    rounded s (hash (s / QUANTUM_NS)) ≤ rounded t (hash (t / QUANTUM_NS)) := by
  have hs : s ≤ LAST_NS := UInt64.le_trans hst ht
  rw [UInt64.le_iff_toNat_le, toNat_rounded hs, toNat_rounded ht]
  rw [UInt64.le_iff_toNat_le] at hst
  by_cases hsame : s.toNat / 100000 = t.toNat / 100000
  · have hquantum : s / QUANTUM_NS = t / QUANTUM_NS := by
      rw [← UInt64.toNat_inj, UInt64.toNat_div, UInt64.toNat_div, toNat_quantum, hsame]
    rw [hquantum]
    split
    · rw [if_pos (by omega)]
      omega
    · omega
  · split <;> omega

theorem coarsenWithHash_of_le {t hash previous : UInt64} (h : previous ≤ rounded t hash) :
    coarsenWithHash t hash previous = rounded t hash := by
  unfold coarsenWithHash
  split
  · rename_i hle
    exact UInt64.le_antisymm h hle
  · rfl

namespace CoarseClock

/-- What a clock returns that never had to hold a reading back. -/
def ideal (hash : UInt64 → UInt64 → UInt64) (seed t : UInt64) : UInt64 := rounded t (hash seed (t / QUANTUM_NS))

/-- No reading is held back: the induction is on the times, and the clock has returned no more
than the first of them is rounded to. -/
theorem readings_eq (hash : UInt64 → UInt64 → UInt64) : ∀ {times : List UInt64} {c : CoarseClock},
    times.Pairwise (· ≤ ·) → (∀ t ∈ times, t ≤ LAST_NS) → (∀ t ∈ times, c.previous ≤ ideal hash c.seed t) →
    c.readings hash times = times.map (ideal hash c.seed)
  | [], _, _, _, _ => rfl
  | t :: times, c, hsorted, hlast, hprevious => by
      obtain ⟨hfirst, hsorted⟩ := List.pairwise_cons.mp hsorted
      have hnow : c.nowNs hash t = ({ c with previous := ideal hash c.seed t }, ideal hash c.seed t) := by
        rw [nowNs, coarsenWithHash_of_le (hprevious t List.mem_cons_self)]
        rfl
      have hrest : ∀ s ∈ times, ideal hash c.seed t ≤ ideal hash c.seed s := fun s hs =>
        rounded_mono (hash c.seed) (hfirst s hs) (hlast s (List.mem_cons_of_mem t hs))
      have ih := @readings_eq hash times { c with previous := ideal hash c.seed t } hsorted
        (fun s hs => hlast s (List.mem_cons_of_mem t hs)) hrest
      rw [readings, hnow, ih, List.map_cons]

theorem readings_new (hash : UInt64 → UInt64 → UInt64) (seed : UInt64) {times : List UInt64}
    (hsorted : times.Pairwise (· ≤ ·)) (hlast : ∀ t ∈ times, t ≤ LAST_NS) :
    (new seed).readings hash times = times.map (ideal hash seed) :=
  readings_eq hash hsorted hlast fun _ _ => UInt64.le_iff_toNat_le.mpr (Nat.zero_le _)

/-! ## What scripts read -/

/-- What is promised of the reading `out` at the raw time `t`. -/
structure Coarse (t out : UInt64) : Prop where
  quantised : QUANTUM_NS.toNat ∣ out.toNat
  close : out.toNat ≤ t.toNat + QUANTUM_NS.toNat ∧ t.toNat ≤ out.toNat + QUANTUM_NS.toNat
  boundary : out.toNat = t.toNat / QUANTUM_NS.toNat * QUANTUM_NS.toNat ∨
    out.toNat = (t.toNat / QUANTUM_NS.toNat + 1) * QUANTUM_NS.toNat

theorem coarse_ideal (hash : UInt64 → UInt64 → UInt64) (seed : UInt64) {t : UInt64} (h : t ≤ LAST_NS) :
    Coarse t (ideal hash seed t) := by
  have hout : (ideal hash seed t).toNat = _ := toNat_rounded h (hash seed (t / QUANTUM_NS))
  constructor
  · rw [hout, toNat_quantum]
    exact Nat.dvd_mul_left _ _
  · rw [hout, toNat_quantum]
    split <;> omega
  · rw [hout, toNat_quantum]
    split
    · exact .inr rfl
    · exact .inl rfl

/-- The upper of the two values of a quantum. -/
def Upper (t out : UInt64) : Prop := out.toNat = (t.toNat / QUANTUM_NS.toNat + 1) * QUANTUM_NS.toNat

theorem pairwise_ideal (hash : UInt64 → UInt64 → UInt64) (seed : UInt64) {times : List UInt64}
    (hsorted : times.Pairwise (· ≤ ·)) (hlast : ∀ t ∈ times, t ≤ LAST_NS) :
    times.Pairwise fun s t => ideal hash seed s ≤ ideal hash seed t :=
  hsorted.imp_of_mem fun _ ht hst => rounded_mono (hash seed) hst (hlast _ ht)

theorem upper_ideal (hash : UInt64 → UInt64 → UInt64) (seed : UInt64) {s t : UInt64} (ht : t ≤ LAST_NS)
    (hle : ideal hash seed s ≤ ideal hash seed t) (hsame : s / QUANTUM_NS = t / QUANTUM_NS)
    (hs : Upper s (ideal hash seed s)) : Upper t (ideal hash seed t) := by
  have hquantum : s.toNat / QUANTUM_NS.toNat = t.toNat / QUANTUM_NS.toNat := by
    rw [← UInt64.toNat_div, hsame, UInt64.toNat_div]
  rcases (coarse_ideal hash seed ht).boundary with hlow | hup
  · rw [UInt64.le_iff_toNat_le, hlow, hs, hquantum, toNat_quantum] at hle
    omega
  · exact hup

/-- On raw times that do not decrease, every reading is coarse and close, none is below an
earlier one, and within a quantum there are two values at most, the upper one last. -/
theorem coarse_clock_sound (hash : UInt64 → UInt64 → UInt64) (seed : UInt64) (times : List UInt64)
    (hsorted : times.Pairwise (· ≤ ·)) (hlast : ∀ t ∈ times, t ≤ LAST_NS) :
    List.Forall₂ Coarse times ((new seed).readings hash times) ∧
      ((new seed).readings hash times).Pairwise (· ≤ ·) ∧
      (times.zip ((new seed).readings hash times)).Pairwise fun earlier later =>
        earlier.1 / QUANTUM_NS = later.1 / QUANTUM_NS → Upper earlier.1 earlier.2 → Upper later.1 later.2 := by
  rw [readings_new hash seed hsorted hlast]
  have hmono := pairwise_ideal hash seed hsorted hlast
  refine ⟨?_, List.pairwise_map.mpr hmono, ?_⟩
  · rw [List.forall₂_map_right_iff, List.forall₂_same]
    exact fun t ht => coarse_ideal hash seed (hlast t ht)
  · have hzip := @List.zip_map' _ _ _ id (ideal hash seed) times
    rw [List.map_id] at hzip
    rw [hzip, List.pairwise_map]
    refine hmono.imp_of_mem ?_
    intro s t _ ht hle hsame hup
    exact upper_ideal hash seed (hlast t ht) hle hsame hup

/-- Three reads of one quantum and one of the next. -/
theorem coarse_clock_sound_reads :
    List.Forall₂ Coarse [200000, 250000, 299999, 300001] ((new 7).readings quantumHash [200000, 250000, 299999, 300001]) := by
  have hsorted : [200000, 250000, 299999, 300001].Pairwise fun s t : UInt64 => s ≤ t := by
    simp only [List.pairwise_cons, List.mem_cons, List.not_mem_nil, or_false, forall_eq_or_imp, forall_eq]
    simp
  have hlast : ∀ t ∈ ([200000, 250000, 299999, 300001] : List UInt64), t ≤ LAST_NS := by
    simp only [List.mem_cons, List.not_mem_nil, or_false, forall_eq_or_imp, forall_eq]
    exact ⟨by decide, by decide, by decide, by decide⟩
  exact (coarse_clock_sound quantumHash 7 [200000, 250000, 299999, 300001] hsorted hlast).1

end CoarseClock

end Pelorus.Script
