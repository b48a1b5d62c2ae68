import Pelorus.Lib.Text

/-
  Lib/Postcard.lean --- the postcard wire format: numbers as varints, sequences and
  texts behind their length, structures field by field, enumerations behind the
  index of the variant.

  A CODEC is a writer and a reader with the law that ties them: what was written,
  followed by anything, reads back with what followed.  The law is a field, so a
  codec that breaks it cannot be built, and a codec made of codecs proves its own
  law from theirs.

  The reader accepts more than the writer writes: a varint may be padded with
  continuation bytes.  Whoever needs one form per value compares with what the
  writer writes.
-/
set_option autoImplicit false

namespace Pelorus.Lib.Postcard

open Lib

/-- A type's wire format. -/
structure Codec (α : Type) where
  write : α → Bytes
  read : Bytes → Option (α × Bytes)
  read_write : ∀ (a : α) (rest : Bytes), read (write a ++ rest) = some (a, rest)

attribute [simp] Codec.read_write

namespace Codec

variable {α β : Type}

/-- The values of `β`, written as values of `α`. -/
def imap (c : Codec α) (f : α → β) (g : β → α) (h : ∀ b, f (g b) = b) : Codec β where
  write b := c.write (g b)
  read bytes := (c.read bytes).map fun (a, rest) => (f a, rest)
  read_write b rest := by simp [h]

/-- The values of `β` are some of those of `α`. -/
def filterMap (c : Codec α) (f : α → Option β) (g : β → α) (h : ∀ b, f (g b) = some b) :
    Codec β where
  write b := c.write (g b)
  read bytes := (c.read bytes).bind fun (a, rest) => (f a).map fun b => (b, rest)
  read_write b rest := by simp [h]

end Codec

/-! ## Numbers -/

/-- A number as groups of seven bits, lowest first, in at most `k` bytes. -/
def writeVarint : Nat → Nat → Bytes
  | 0, _ => []
  | k + 1, n => if n < 128 then [UInt8.ofNat n] else UInt8.ofNat (n % 128 + 128) :: writeVarint k (n / 128)

/-- At most `k` bytes, of which the last possible one is at most `last`. -/
def readVarint (last : Nat) : Nat → Bytes → Option (Nat × Bytes)
  | 0, _ => none
  | _ + 1, [] => none
  | k + 1, b :: rest =>
      if b.toNat < 128 then if k = 0 ∧ last < b.toNat then none else some (b.toNat, rest)
      else (readVarint last k rest).map fun (n, rest) => (b.toNat - 128 + 128 * n, rest)

theorem readVarint_writeVarint {last : Nat} (hlast : last < 128) : ∀ {k n : Nat} (rest : Bytes),
    n < (last + 1) * 128 ^ k →
    readVarint last (k + 1) (writeVarint (k + 1) n ++ rest) = some (n, rest)
  | k, n, rest, h => by
      unfold writeVarint
      split
      · rename_i hn
        have hbyte : (UInt8.ofNat n).toNat = n := by
          rw [UInt8.toNat_ofNat', Nat.mod_eq_of_lt (by omega)]
        rw [List.singleton_append, readVarint, hbyte, if_pos hn, if_neg]
        rintro ⟨rfl, hlt⟩
        rw [Nat.pow_zero, Nat.mul_one] at h
        omega
      · rename_i hn
        have hbyte : (UInt8.ofNat (n % 128 + 128)).toNat = n % 128 + 128 := by
          rw [UInt8.toNat_ofNat', Nat.mod_eq_of_lt (by omega)]
        match k, h with
        | 0, h =>
            rw [Nat.pow_zero, Nat.mul_one] at h
            omega
        | k + 1, h =>
            have hdiv : n / 128 < (last + 1) * 128 ^ k := by
              rw [Nat.div_lt_iff_lt_mul (by decide), Nat.mul_assoc, ← Nat.pow_succ]
              exact h
            rw [List.cons_append, readVarint, hbyte, if_neg (by omega),
              readVarint_writeVarint hlast rest hdiv]
            simp only [Option.map_some, Option.some.injEq, Prod.mk.injEq, and_true]
            omega

/-- Numbers below `(last + 1) * 128 ^ k`, as varints. -/
def varint (last k : Nat) (hlast : last < 128) : Codec { n : Nat // n < (last + 1) * 128 ^ k } where
  write n := writeVarint (k + 1) n.1
  read bytes := (readVarint last (k + 1) bytes).bind fun (n, rest) =>
    if h : n < (last + 1) * 128 ^ k then some (⟨n, h⟩, rest) else none
  read_write n rest := by
    rw [readVarint_writeVarint hlast rest n.2]
    simp [n.2]

def u8 : Codec UInt8 where
  write b := [b]
  read
    | [] => none
    | b :: rest => some (b, rest)
  read_write _ _ := rfl

def u16 : Codec UInt16 :=
  (varint 3 2 (by decide)).imap (fun n => UInt16.ofNat n.1) (fun n => ⟨n.toNat, n.toNat_lt⟩) (by simp)

def u32 : Codec UInt32 :=
  (varint 15 4 (by decide)).imap (fun n => UInt32.ofNat n.1) (fun n => ⟨n.toNat, n.toNat_lt⟩) (by simp)

def u64 : Codec UInt64 :=
  (varint 1 9 (by decide)).imap (fun n => UInt64.ofNat n.1) (fun n => ⟨n.toNat, n.toNat_lt⟩) (by simp)

def bool : Codec Bool :=
  u8.filterMap (fun b => if b = 0 then some false else if b = 1 then some true else none)
    (fun b => if b then 1 else 0) (by decide)

/-- A signed number with the sign in the lowest bit. -/
def zigzag (n : Int) : Nat := if 0 ≤ n then (2 * n).toNat else (-2 * n - 1).toNat

def unzigzag (n : Nat) : Int := if n % 2 = 0 then (n / 2 : Nat) else -((n / 2 : Nat) : Int) - 1

theorem unzigzag_zigzag (n : Int) : unzigzag (zigzag n) = n := by
  unfold unzigzag zigzag
  split <;> split <;> omega

def i32 : Codec Int32 :=
  u32.imap (fun n => Int32.ofInt (unzigzag n.toNat)) (fun n => UInt32.ofNat (zigzag n.toInt)) (by
    intro n
    have hlow := n.le_toInt
    have hhigh := n.toInt_lt
    have hlt : zigzag n.toInt < 2 ^ 32 := by
      unfold zigzag
      split <;> omega
    rw [UInt32.toNat_ofNat', Nat.mod_eq_of_lt hlt, unzigzag_zigzag, Int32.ofInt_toInt])

/-! ## Sequences -/

section Sequences

variable {α : Type} (c : Codec α)

/-- The elements, one after the other. -/
def writeMany (l : List α) : Bytes := l.flatMap c.write

/-- So many elements. -/
def readMany : Nat → Bytes → Option (List α × Bytes)
  | 0, bytes => some ([], bytes)
  | n + 1, bytes => do
      let (a, bytes) ← c.read bytes
      let (l, bytes) ← readMany n bytes
      some (a :: l, bytes)

theorem readMany_writeMany : ∀ (l : List α) (rest : Bytes),
    readMany c l.length (writeMany c l ++ rest) = some (l, rest)
  | [], rest => rfl
  | a :: l, rest => by
      have ih := readMany_writeMany l rest
      simp only [writeMany] at ih
      simp [readMany, writeMany, List.append_assoc, ih]

theorem length_of_readMany : ∀ {n : Nat} {bytes rest : Bytes} {l : List α},
    readMany c n bytes = some (l, rest) → l.length = n
  | 0, _, _, _, h => by
      cases h
      rfl
  | n + 1, bytes, rest, l, h => by
      simp only [readMany, Option.bind_eq_bind, Option.bind_eq_some_iff, Prod.exists] at h
      obtain ⟨a, bytes', -, l', bytes'', hmany, heq⟩ := h
      cases heq
      rw [List.length_cons, length_of_readMany hmany]

end Sequences

/-- A list of at most `max` elements. -/
structure Bounded (α : Type) (max : Nat) where
  items : List α
  bound : items.length ≤ max
  deriving DecidableEq

/-- A sequence behind its length; a length over the bound is refused before an element is read. -/
def bounded {α : Type} (c : Codec α) (max : Nat) (hmax : max < 2 ^ 64) : Codec (Bounded α max) where
  write l := u64.write (UInt64.ofNat l.items.length) ++ writeMany c l.items
  read bytes := do
    let (declared, bytes) ← u64.read bytes
    if hle : declared.toNat ≤ max then
      match hread : readMany c declared.toNat bytes with
      | some (l, bytes) => some (⟨l, by rw [length_of_readMany c hread]; exact hle⟩, bytes)
      | none => none
    else none
  read_write l rest := by
    have hlen : (UInt64.ofNat l.items.length).toNat = l.items.length := by
      rw [UInt64.toNat_ofNat', Nat.mod_eq_of_lt (Nat.lt_of_le_of_lt l.bound hmax)]
    have hread := readMany_writeMany c l.items rest
    simp only [List.append_assoc, Codec.read_write, Option.bind_eq_bind, Option.bind_some]
    rw [dif_pos (by rw [hlen]; exact l.bound)]
    split
    · rename_i l' bytes hread'
      rw [hlen, hread] at hread'
      cases hread'
      rfl
    · rename_i hnone
      rw [hlen, hread] at hnone
      cases hnone

/-- A text of at most `max` bytes. -/
structure BoundedStr (max : Nat) where
  text : Text
  bound : text.len ≤ max
  deriving DecidableEq

/-- A text behind its length in bytes. -/
def boundedStr (max : Nat) (hmax : max < 2 ^ 64) : Codec (BoundedStr max) where
  write s := u64.write (UInt64.ofNat s.text.len) ++ s.text.utf8
  read bytes := do
    let (declared, bytes) ← u64.read bytes
    let (raw, bytes) ← Bytes.take? declared.toNat bytes
    let text ← Text.fromUtf8 raw
    if h : text.len ≤ max then some (⟨text, h⟩, bytes) else none
  read_write s rest := by
    have hlen : (UInt64.ofNat s.text.len).toNat = s.text.len := by
      rw [UInt64.toNat_ofNat', Nat.mod_eq_of_lt (Nat.lt_of_le_of_lt s.bound hmax)]
    have htake : Bytes.take? s.text.len (s.text.utf8 ++ rest) = some (s.text.utf8, rest) :=
      Bytes.take?_append s.text.utf8 rest
    simp [List.append_assoc, hlen, htake, Text.fromUtf8_utf8, s.bound]

/-- `n` values of one type, with no length before them. -/
def array {α : Type} (c : Codec α) (n : Nat) : Codec { l : List α // l.length = n } where
  write l := writeMany c l.1
  read bytes := match hread : readMany c n bytes with
    | some (l, bytes) => some (⟨l, length_of_readMany c hread⟩, bytes)
    | none => none
  read_write l rest := by
    obtain ⟨l, rfl⟩ := l
    split
    · rename_i l' bytes hread
      rw [readMany_writeMany] at hread
      cases hread
      rfl
    · rename_i hnone
      rw [readMany_writeMany] at hnone
      cases hnone

end Pelorus.Lib.Postcard
