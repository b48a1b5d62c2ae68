import Pelorus.Lib.Text

/-
  Lib/Numerals.lean --- numbers as text: what a formatter writes and a parser reads.

  READING.  An unsigned number is an optional plus sign and at least one digit of
  the radix, letters in either case; a signed one may start with a minus sign
  instead.  A value outside the type's range is refused.

  WRITING.  `Nat.toDigits` without leading zeros, `padded` with them.  Each form
  reads back as the number it was written from (`parseUnsigned_toDigits`,
  `parseUnsigned_padded`, `parseSigned_toDigits`), and contains digits only, so that
  it holds no separator (`not_mem_toDigits`, `not_mem_padded`).
-/
set_option autoImplicit false

namespace Pelorus.Lib.Numerals

/-! ## Reading -/

/-- `char::to_digit`. -/
def toDigit (radix : Nat) (c : Char) : Option Nat :=
  let n := c.toNat
  let d :=
    if 0x30 ≤ n ∧ n ≤ 0x39 then some (n - 0x30)
    else if 0x61 ≤ n ∧ n ≤ 0x7a then some (n - 0x61 + 10)
    else if 0x41 ≤ n ∧ n ≤ 0x5a then some (n - 0x41 + 10)
    else none
  d.filter fun d => d < radix

/-- Read digits, continuing from `acc`. -/
def digits (radix : Nat) : Nat → Text → Option Nat
  | acc, [] => some acc
  | acc, c :: s => (toDigit radix c).bind fun d => digits radix (acc * radix + d) s

/-- At least one digit, and a value below `bound`. -/
def magnitude (radix bound : Nat) (s : Text) : Option Nat :=
  if s.isEmpty then none else (digits radix 0 s).filter fun n => n < bound

/-- `from_str_radix` of an unsigned type with values below `bound`; `parse` is the case
of radix 10. -/
def parseUnsigned (radix bound : Nat) : Text → Option Nat
  | '+' :: s => magnitude radix bound s
  | s => magnitude radix bound s

/-- `parse` of a signed type with values from `-bound` up to but not including `bound`. -/
def parseSigned (bound : Nat) : Text → Option Int
  | '-' :: s => (magnitude 10 (bound + 1) s).map fun n : Nat => -(n : Int)
  | s => (parseUnsigned 10 bound s).map fun n : Nat => (n : Int)

variable {radix bound n : Nat} {s : Text}

theorem digits_of_magnitude (h : magnitude radix bound s = some n) : digits radix 0 s = some n := by
  unfold magnitude at h
  split at h
  · cases h
  · exact (Option.filter_eq_some_iff.mp h).1

theorem magnitude_lt (h : magnitude radix bound s = some n) : n < bound := by
  unfold magnitude at h
  split at h
  · cases h
  · simpa using (Option.filter_eq_some_iff.mp h).2

theorem parseUnsigned_lt (h : parseUnsigned radix bound s = some n) : n < bound := by
  unfold parseUnsigned at h
  split at h <;> exact magnitude_lt h

theorem parseSigned_lt {n : Int} (hb : 0 < bound)
    (h : parseSigned bound s = some n) : n < bound := by
  unfold parseSigned at h
  split at h
  · simp only [Option.map_eq_some_iff] at h
    obtain ⟨m, -, hm⟩ := h
    omega
  · simp only [Option.map_eq_some_iff] at h
    obtain ⟨m, hparse, hm⟩ := h
    have := parseUnsigned_lt hparse
    omega

/-! ## Writing -/

/-- A number in at least `width` digits, with leading zeros. -/
def padded (radix width n : Nat) : Text := (Nat.toDigits radix n).leftpad width '0'

/-! ## Digits written are digits read -/

theorem toDigit_digitChar {d : Nat} (hd : d < radix) (hr : radix ≤ 16) :
    toDigit radix d.digitChar = some d := by
  have hall : ∀ d < 16, toDigit 16 d.digitChar = some d := by decide
  have h := hall d (by omega)
  simp only [toDigit, Option.filter_eq_some_iff] at h ⊢
  exact ⟨h.1, by simpa using hd⟩

/-- Reading goes on after digits that were read. -/
theorem digits_append {radix : Nat} {t : Text} : ∀ {s : Text} {acc n : Nat},
    digits radix acc s = some n → digits radix acc (s ++ t) = digits radix n t
  | [], acc, n, h => by
      cases h
      rfl
  | c :: s, acc, n, h => by
      simp only [digits, List.cons_append] at h ⊢
      obtain ⟨d, hd, hrest⟩ := Option.bind_eq_some_iff.mp h
      rw [hd, Option.bind_some, digits_append hrest]

theorem digits_toDigits (hr : 1 < radix) (hr' : radix ≤ 16) (n : Nat) :
    digits radix 0 (Nat.toDigits radix n) = some n := by
  induction n using Nat.strongRecOn with
  | ind n ih =>
      by_cases hlt : n < radix
      · rw [Nat.toDigits_of_lt_base hlt]
        simp [digits, toDigit_digitChar hlt hr']
      · have hle : radix ≤ n := Nat.le_of_not_lt hlt
        have hpos : 0 < n := by omega
        have hsmaller : n / radix < n := Nat.div_lt_self hpos hr
        have hmod : n % radix < radix := Nat.mod_lt _ (by omega)
        rw [Nat.toDigits_of_base_le hr hle, digits_append (ih _ hsmaller)]
        simp [digits, toDigit_digitChar hmod hr', Nat.mul_comm, Nat.div_add_mod]

theorem mem_toDigits (hr : 1 < radix) {c : Char} (n : Nat) (h : c ∈ Nat.toDigits radix n) :
    ∃ d < radix, c = d.digitChar := by
  induction n using Nat.strongRecOn with
  | ind n ih =>
      by_cases hlt : n < radix
      · rw [Nat.toDigits_of_lt_base hlt, List.mem_singleton] at h
        exact ⟨n, hlt, h⟩
      · have hle : radix ≤ n := Nat.le_of_not_lt hlt
        rw [Nat.toDigits_of_base_le hr hle, List.mem_append, List.mem_singleton] at h
        rcases h with h | h
        · exact ih _ (Nat.div_lt_self (by omega) hr) h
        · exact ⟨n % radix, Nat.mod_lt _ (by omega), h⟩

theorem digits_zeros {radix : Nat} (hr : 0 < radix) (hr' : radix ≤ 16) : ∀ k : Nat,
    digits radix 0 (List.replicate k '0') = some 0
  | 0 => rfl
  | k + 1 => by
      have hzero : toDigit radix '0' = some 0 := toDigit_digitChar hr hr'
      simp [List.replicate_succ, digits, hzero, digits_zeros hr hr' k]

theorem digits_padded (hr : 1 < radix) (hr' : radix ≤ 16) (width n : Nat) :
    digits radix 0 (padded radix width n) = some n := by
  rw [padded, List.leftpad, digits_append (digits_zeros (by omega) hr' _),
    digits_toDigits hr hr']

theorem parseUnsigned_eq_magnitude (h : '+' ∉ s) :
    parseUnsigned radix bound s = magnitude radix bound s := by
  unfold parseUnsigned
  split
  · simp at h
  · rfl

theorem not_mem_of_digits {radix : Nat} {c : Char} (hc : toDigit radix c = none) :
    ∀ {s : Text} {acc n : Nat}, digits radix acc s = some n → c ∉ s
  | [], _, _, _ => List.not_mem_nil
  | c' :: s, acc, n, h => by
      obtain ⟨d, hd, hrest⟩ := Option.bind_eq_some_iff.mp h
      have hne : c ≠ c' := by
        rintro rfl
        rw [hc] at hd
        cases hd
      exact List.not_mem_cons_of_ne_of_not_mem hne (not_mem_of_digits hc hrest)

theorem not_mem_toDigits (hr : 1 < radix) (hr' : radix ≤ 16) {c : Char}
    (hc : toDigit radix c = none) (n : Nat) : c ∉ Nat.toDigits radix n :=
  not_mem_of_digits hc (digits_toDigits hr hr' n)

theorem not_mem_padded (hr : 1 < radix) (hr' : radix ≤ 16) {c : Char}
    (hc : toDigit radix c = none) (width n : Nat) : c ∉ padded radix width n :=
  not_mem_of_digits hc (digits_padded hr hr' width n)

theorem toDigit_plus (radix : Nat) : toDigit radix '+' = none := rfl

theorem parseUnsigned_of_digits (hs : s ≠ [])
    (h : digits radix 0 s = some n) (hn : n < bound) : parseUnsigned radix bound s = some n := by
  rw [parseUnsigned_eq_magnitude (not_mem_of_digits (toDigit_plus radix) h), magnitude,
    if_neg (by simpa using hs), h]
  simp [Option.filter, hn]

/-- A number written in a radix reads back. -/
theorem parseUnsigned_toDigits (hr : 1 < radix) (hr' : radix ≤ 16)
    (hn : n < bound) : parseUnsigned radix bound (Nat.toDigits radix n) = some n :=
  parseUnsigned_of_digits Nat.toDigits_ne_nil (digits_toDigits hr hr' n) hn

/-- Leading zeros do not matter. -/
theorem parseUnsigned_padded (hr : 1 < radix) (hr' : radix ≤ 16)
    (hn : n < bound) (width : Nat) : parseUnsigned radix bound (padded radix width n) = some n := by
  refine parseUnsigned_of_digits ?_ (digits_padded hr hr' width n) hn
  simp [padded, List.leftpad, Nat.toDigits_ne_nil]

/-- A natural number reads back as a signed one. -/
theorem parseSigned_toDigits (hn : n < bound) : parseSigned bound (Nat.toDigits 10 n) = some (n : Int) := by
  have hminus : '-' ∉ Nat.toDigits 10 n := not_mem_toDigits (by decide) (by decide) rfl n
  unfold parseSigned
  split
  · rename_i heq
    simp [heq] at hminus
  · rw [parseUnsigned_toDigits (by decide) (by decide) hn]
    rfl

/-- A number has fewer digits than it has. -/
theorem digits_lt {radix : Nat} : ∀ {s : Text} {acc n : Nat}, digits radix acc s = some n →
    n < (acc + 1) * radix ^ s.length
  | [], acc, n, h => by
      cases h
      simp
  | c :: s, acc, n, h => by
      obtain ⟨d, hd, hrest⟩ := Option.bind_eq_some_iff.mp h
      have hlt : d < radix := by simpa using (Option.filter_eq_some_iff.mp hd).2
      have hstep : acc * radix + d + 1 ≤ (acc + 1) * radix := by
        rw [Nat.add_mul, Nat.one_mul]
        omega
      calc n < (acc * radix + d + 1) * radix ^ s.length := digits_lt hrest
        _ ≤ (acc + 1) * radix * radix ^ s.length := Nat.mul_le_mul_right _ hstep
        _ = (acc + 1) * radix ^ (c :: s).length := by
            rw [List.length_cons, Nat.pow_succ', Nat.mul_assoc]

/-- A number is not below what was read of it. -/
theorem le_of_digits {radix : Nat} (hr : 0 < radix) : ∀ {s : Text} {acc n : Nat},
    digits radix acc s = some n → acc ≤ n
  | [], _, _, h => Nat.le_of_eq (Option.some.inj h)
  | c :: s, acc, n, h => by
      obtain ⟨d, _, hrest⟩ := Option.bind_eq_some_iff.mp h
      have hle := le_of_digits hr hrest
      have hmul : acc ≤ acc * radix := Nat.le_mul_of_pos_right acc hr
      omega

theorem isDigit_of_digits {c : Char} : ∀ {s : Text} {acc n : Nat}, digits 10 acc s = some n → c ∈ s →
    c.isDigit = true
  | d :: s, acc, n, h, hc => by
      obtain ⟨v, hv, hrest⟩ := Option.bind_eq_some_iff.mp h
      rcases List.mem_cons.mp hc with rfl | hc
      · simp only [toDigit, Option.filter_eq_some_iff, decide_eq_true_eq] at hv
        obtain ⟨hv, hlt⟩ := hv
        have hrange : 48 ≤ c.toNat ∧ c.toNat ≤ 57 := by
          split at hv
          · assumption
          · split at hv
            · cases hv
              omega
            · split at hv
              · cases hv
                omega
              · cases hv
        exact (Bool.and_eq_true _ _).mpr ⟨decide_eq_true (show 48 ≤ c.toNat from hrange.1),
          decide_eq_true (show c.toNat ≤ 57 from hrange.2)⟩
      · exact isDigit_of_digits hrest hc

/-- A number is written without a leading zero. -/
theorem head?_toDigits (hn : 0 < n) : (Nat.toDigits 10 n).head? ≠ some '0' := by
  induction n using Nat.strongRecOn with
  | ind n ih =>
      by_cases hlt : n < 10
      · have hall : ∀ d < 10, 0 < d → some d.digitChar ≠ some '0' := by decide
        rw [Nat.toDigits_of_lt_base hlt]
        exact hall n hlt hn
      · have hle : 10 ≤ n := Nat.le_of_not_lt hlt
        rw [Nat.toDigits_of_base_le (by decide) hle, List.head?_append_of_ne_nil _ Nat.toDigits_ne_nil]
        exact ih _ (Nat.div_lt_self hn (by decide)) (Nat.div_pos hle (by decide))

end Pelorus.Lib.Numerals

/-! # Bytes as lower-case hexadecimal, and byte strings of a fixed length

Upper case is refused, so that each value has one spelling. -/

namespace Pelorus.Lib

/-- `[u8; N]`. -/
abbrev Fixed (n : Nat) : Type := { bytes : Bytes // bytes.length = n }

namespace Hex

/-- The digits of one byte. -/
def byteDigits (b : UInt8) : Text := [(b.toNat / 16).digitChar, (b.toNat % 16).digitChar]

/-- Lower-case hexadecimal. -/
def encode (bytes : Bytes) : Text := bytes.flatMap byteDigits

/-- The value of a digit. -/
def nibble (c : Char) : Option Nat :=
  let n := c.toNat
  if 0x30 ≤ n ∧ n ≤ 0x39 then some (n - 0x30)
  else if 0x61 ≤ n ∧ n ≤ 0x66 then some (n - 0x61 + 10)
  else none

/-- Two digits a byte. -/
def decodePairs : Text → Option Bytes
  | [] => some []
  | [_] => none
  | a :: b :: s => do
      let high ← nibble a
      let low ← nibble b
      let bytes ← decodePairs s
      some (UInt8.ofNat (high * 16 + low) :: bytes)

/-- Exactly `n` bytes. -/
def decodeFixed (n : Nat) (s : Text) : Option (Fixed n) :=
  if s.len ≠ 2 * n then none
  else (decodePairs s).bind fun bytes => if h : bytes.length = n then some ⟨bytes, h⟩ else none

theorem nibble_digitChar {d : Nat} (hd : d < 16) : nibble d.digitChar = some d := by
  have hall : ∀ d < 16, nibble d.digitChar = some d := by decide
  exact hall d hd

theorem decodePairs_encode : ∀ bytes : Bytes, decodePairs (encode bytes) = some bytes
  | [] => rfl
  | b :: bytes => by
      have hlt : b.toNat < 256 := b.toNat_lt
      have hhigh := nibble_digitChar (show b.toNat / 16 < 16 by omega)
      have hlow := nibble_digitChar (show b.toNat % 16 < 16 by omega)
      have ih := decodePairs_encode bytes
      have hsum : b.toNat / 16 * 16 + b.toNat % 16 = b.toNat := by omega
      rw [encode, List.flatMap_cons, byteDigits, List.cons_append, List.cons_append, List.nil_append,
        decodePairs, hhigh, hlow]
      simp only [Option.bind_eq_bind, Option.bind_some]
      rw [show List.flatMap byteDigits bytes = encode bytes from rfl, ih, hsum]
      simp

theorem mem_encode {bytes : Bytes} {c : Char} (h : c ∈ encode bytes) : ∃ d < 16, c = d.digitChar := by
  obtain ⟨b, -, hc⟩ := List.mem_flatMap.mp h
  have hlt : b.toNat < 256 := b.toNat_lt
  simp only [byteDigits, List.mem_cons, List.not_mem_nil, or_false] at hc
  rcases hc with rfl | rfl
  · exact ⟨b.toNat / 16, by omega, rfl⟩
  · exact ⟨b.toNat % 16, by omega, rfl⟩

theorem length_encode (bytes : Bytes) : (encode bytes).length = 2 * bytes.length := by
  induction bytes with
  | nil => rfl
  | cons b bytes ih =>
      rw [encode, List.flatMap_cons, List.length_append, List.length_cons,
        show (List.flatMap byteDigits bytes).length = 2 * bytes.length from ih]
      simp only [byteDigits, List.length_cons, List.length_nil]
      omega

theorem isAscii_encode (bytes : Bytes) : (encode bytes).isAscii = true := by
  have hall : ∀ d < 16, decide (d.digitChar.val ≤ 127) = true := by decide
  refine List.all_eq_true.mpr fun c hc => ?_
  obtain ⟨d, hd, rfl⟩ := mem_encode hc
  exact hall d hd

theorem decodeFixed_encode {n : Nat} (b : Fixed n) : decodeFixed n (encode b.1) = some b := by
  have hlen : (encode b.1).len = 2 * n := by
    rw [Text.len_of_isAscii (isAscii_encode b.1), length_encode, b.2]
  rw [decodeFixed, if_neg (fun h => h hlen), decodePairs_encode, Option.bind_some, dif_pos b.2]

end Hex

end Pelorus.Lib
