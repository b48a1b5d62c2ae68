import Pelorus.Lib.Bytes

/-
  Lib/Bits.lean --- bytes as streams of bits, and the numbers that stand in them.

  A NUMBER of a given width is its bits, the least significant first; written the other way
  round it is the same bits reversed.
-/
set_option autoImplicit false

namespace Pelorus.Lib.Bits

/-- The number that some bits make, the first of them the least significant. -/
def value : List Bool → Nat
  | [] => 0
  | b :: bits => b.toNat + 2 * value bits

/-- The bits of a number of this width, the least significant first. -/
def lowFirst : Nat → Nat → List Bool
  | 0, _ => []
  | width + 1, n => (n % 2 = 1) :: lowFirst width (n / 2)

/-- The bits of a number of this width, the most significant first. -/
def highFirst (width n : Nat) : List Bool := (lowFirst width n).reverse

/-- The bits of bytes, each byte's least significant bit first. -/
def ofBytes (bytes : Bytes) : List Bool := bytes.flatMap fun b => lowFirst 8 b.toNat

/-- The bits of bytes, each byte's most significant bit first. -/
def ofBytesHigh (bytes : Bytes) : List Bool := bytes.flatMap fun b => highFirst 8 b.toNat

/-- A number of this width and the bits behind it. -/
def read (width : Nat) (bits : List Bool) : Option (Nat × List Bool) :=
  if width ≤ bits.length then some (value (bits.take width), bits.drop width) else none

/-! ## Numbers and their bits -/

@[simp] theorem length_lowFirst (width n : Nat) : (lowFirst width n).length = width := by
  induction width generalizing n with
  | zero => rfl
  | succ width ih => rw [lowFirst, List.length_cons, ih]

@[simp] theorem length_highFirst (width n : Nat) : (highFirst width n).length = width := by
  rw [highFirst, List.length_reverse, length_lowFirst]

theorem value_lowFirst (width n : Nat) : value (lowFirst width n) = n % 2 ^ width := by
  induction width generalizing n with
  | zero => rw [Nat.pow_zero, Nat.mod_one, lowFirst, value]
  | succ width ih =>
      have hbit : (decide (n % 2 = 1)).toNat = n % 2 := by
        rcases Nat.mod_two_eq_zero_or_one n with h | h <;> rw [h] <;> rfl
      rw [lowFirst, value, ih, hbit, Nat.pow_succ, Nat.mul_comm (2 ^ width), Nat.mod_mul]

/-- The bits of a number are those of its lower part and those of its upper part. -/
theorem lowFirst_add (low high n : Nat) : lowFirst (low + high) n = lowFirst low n ++ lowFirst high (n / 2 ^ low) := by
  induction low generalizing n with
  | zero => rw [Nat.zero_add, Nat.pow_zero, Nat.div_one, lowFirst, List.nil_append]
  | succ low ih =>
      rw [Nat.succ_add, lowFirst, ih, lowFirst, Nat.div_div_eq_div_mul, Nat.pow_succ, Nat.mul_comm (2 ^ low), List.cons_append]

variable {n len : Nat} {β : Type}

/-- Some bits of a number, from a place on. -/
theorem value_slice {width start : Nat} (h : start + len ≤ width) :
    value (((lowFirst width n).drop start).take len) = n / 2 ^ start % 2 ^ len := by
  obtain ⟨rest, rfl⟩ := Nat.exists_eq_add_of_le h
  rw [Nat.add_assoc, lowFirst_add start, List.drop_left' (length_lowFirst start n), lowFirst_add len,
    List.take_left' (length_lowFirst len _), value_lowFirst]

/-- Some bits of a number written the other way round. -/
theorem value_slice_high {width start : Nat} (h : start + len ≤ width) :
    value (((highFirst width n).drop start).take len).reverse = n / 2 ^ (width - start - len) % 2 ^ len := by
  have hslice : (((highFirst width n).drop start).take len).reverse =
      ((lowFirst width n).drop (width - start - len)).take len := by
    rw [highFirst, List.drop_reverse, List.take_reverse, List.reverse_reverse, length_lowFirst, List.length_take,
      length_lowFirst, Nat.min_eq_left (Nat.sub_le _ _), List.drop_take]
    congr 1
    omega
  rw [hslice, value_slice (by omega)]

/-! ## Streams -/

/-- In a stream of pieces that are equally long, a piece stands at a multiple of the length. -/
theorem slice_flatMap {α β : Type} {f : α → List β} {len : Nat} :
    ∀ {l : List α} {i : Nat} {a : α}, (∀ a, a ∈ l → (f a).length = len) → l[i]? = some a →
      ((l.flatMap f).drop (i * len)).take len = f a
  | [], _, _, _, h => by cases h
  | b :: l, 0, _, hf, h => by
      cases h
      rw [List.flatMap_cons, Nat.zero_mul, List.drop_zero, List.take_left' (hf b List.mem_cons_self)]
  | b :: l, i + 1, a, hf, h => by
      have hdrop : (i + 1) * len = (f b).length + i * len := by
        rw [hf b List.mem_cons_self, Nat.succ_mul, Nat.add_comm]
      rw [List.flatMap_cons, hdrop, List.drop_length_add_append]
      exact slice_flatMap (fun a ha => hf a (List.mem_cons_of_mem _ ha)) h

theorem getElem?_flatMap {α : Type} {f : α → List β} {l : List α} {i c : Nat} {a : α}
    (hf : ∀ a, a ∈ l → (f a).length = len) (h : l[i]? = some a) (hc : c < len) : (l.flatMap f)[i * len + c]? = (f a)[c]? := by
  rw [← slice_flatMap hf h, List.getElem?_take_of_lt hc, List.getElem?_drop]

theorem length_flatMap {α : Type} {f : α → List β} {l : List α} (hf : ∀ a, a ∈ l → (f a).length = len) :
    (l.flatMap f).length = l.length * len := by
  induction l with
  | nil => exact (Nat.zero_mul len).symm
  | cons a l ih =>
      rw [List.flatMap_cons, List.length_append, hf a List.mem_cons_self, ih fun b hb => hf b (List.mem_cons_of_mem _ hb),
        List.length_cons, Nat.succ_mul, Nat.add_comm]

/-- A list is its equally long pieces. -/
theorem eq_flatMap_of_slices {f : Nat → List β} {l : List β} (hlen : l.length = n * len)
    (h : ∀ i, i < n → (l.drop (i * len)).take len = f i) : l = (List.range n).flatMap f := by
  induction n generalizing l with
  | zero =>
      rw [Nat.zero_mul] at hlen
      exact List.length_eq_zero_iff.mp hlen
  | succ n ih =>
      rw [Nat.succ_mul] at hlen
      have hinit : l.take (n * len) = (List.range n).flatMap f := by
        refine ih (List.length_take_of_le (by omega)) fun i hi => ?_
        have hle : i * len + len ≤ n * len := by
          rw [← Nat.succ_mul]
          exact Nat.mul_le_mul_right len hi
        rw [List.drop_take, List.take_take, Nat.min_eq_left (by omega)]
        exact h i (by omega)
      have hlast : l.drop (n * len) = f n := by
        have hfn := h n (by omega)
        rwa [List.take_of_length_le (by rw [List.length_drop]; omega)] at hfn
      rw [List.range_succ, List.flatMap_append, ← hinit, List.flatMap_singleton, ← hlast, List.take_append_drop]

end Pelorus.Lib.Bits
