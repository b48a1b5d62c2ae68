import Mathlib.Algebra.GroupWithZero.Nat
import Mathlib.Data.List.DropRight
import Mathlib.Data.List.Infix
import Pelorus.Lib.Bytes

/-
  Lib/Text.lean --- text as a list of Unicode scalar values, with the string
  functions a parser of headers and host names uses.

  Lengths are in BYTES of the UTF-8 form (`Text.len`), as they are wherever a
  limit on a text is checked; everything else is by characters.
-/
set_option autoImplicit false

namespace Pelorus.Lib

/-- A text: its characters in order. -/
abbrev Text : Type := List Char

namespace Text

/-! ## UTF-8 -/

/-- `as_bytes`. -/
def utf8 (s : Text) : Bytes := s.flatMap String.utf8EncodeChar

/-- `len`: the number of bytes. -/
def len (s : Text) : Nat := s.utf8.length

/-- `String::from_utf8`. -/
def fromUtf8 (bytes : Bytes) : Option Text := bytes.toByteArray.utf8Decode?.map Array.toList

def isAscii (s : Text) : Bool := s.all fun c => c.val ≤ 127

@[simp] theorem utf8_nil : utf8 [] = [] := rfl

@[simp] theorem utf8_append (s t : Text) : utf8 (s ++ t) = utf8 s ++ utf8 t := by
  simp [utf8]

@[simp] theorem len_append (s t : Text) : len (s ++ t) = len s + len t := by
  simp [len]

theorem fromUtf8_utf8 (s : Text) : fromUtf8 s.utf8 = some s := by
  have h : s.utf8.toByteArray.utf8Decode? = some s.toArray := List.utf8Decode?_utf8Encode
  simp [fromUtf8, h]

theorem utf8_injective : Function.Injective utf8 := by
  intro s t h
  have hs := fromUtf8_utf8 s
  rw [h, fromUtf8_utf8] at hs
  exact (Option.some.inj hs).symm

variable {s : Text} {c : Char} {p : Char → Bool}

/-- The bytes that decode as a text are the bytes of that text. -/
theorem utf8_of_fromUtf8 {bytes : Bytes} (h : fromUtf8 bytes = some s) : s.utf8 = bytes := by
  obtain ⟨chars, hchars, rfl⟩ := Option.map_eq_some_iff.mp h
  have hsome : bytes.toByteArray.utf8Decode?.isSome := by rw [hchars]; rfl
  have hbytes : (bytes.toByteArray.utf8Decode?.get hsome).toList.utf8Encode = bytes.toByteArray :=
    ByteArray.utf8Encode_get_utf8Decode?
  have hget : bytes.toByteArray.utf8Decode?.get hsome = chars := by simp [hchars]
  rw [hget, List.utf8Encode] at hbytes
  exact List.toByteArray_inj.mp hbytes

@[simp] theorem utf8_eq_nil : s.utf8 = [] ↔ s = [] :=
  ⟨fun h => utf8_injective (h.trans utf8_nil.symm), fun h => by rw [h, utf8_nil]⟩

/-- A text in ASCII has a byte a character. -/
theorem utf8_of_isAscii (h : s.isAscii) : s.utf8 = s.map fun c => UInt8.ofNat c.toNat := by
  induction s with
  | nil => rfl
  | cons c s ih =>
      simp only [isAscii, List.all_cons, Bool.and_eq_true, decide_eq_true_eq] at h
      have hval : c.val.toNat ≤ 127 := h.1
      have hone : String.utf8EncodeChar c = [UInt8.ofNat c.toNat] := by
        simp only [String.utf8EncodeChar, hval, if_true]
        rfl
      rw [utf8, List.flatMap_cons, hone, List.map_cons, ← ih h.2]
      rfl

/-- A character below 128 is a byte of its text. -/
theorem mem_utf8_of_lt (hc : c ∈ s) (hlt : c.val ≤ 127) : UInt8.ofNat c.toNat ∈ s.utf8 := by
  have hone : utf8 [c] = [UInt8.ofNat c.toNat] := by
    rw [utf8_of_isAscii (by simp [isAscii, hlt])]
    rfl
  have hself : String.utf8EncodeChar c = utf8 [c] := by simp [utf8]
  refine List.mem_flatMap.mpr ⟨c, hc, ?_⟩
  rw [hself, hone]
  exact List.mem_singleton_self _

theorem all_utf8_lt (h : s.isAscii) : ∀ b ∈ s.utf8, b < 128 := by
  intro b hb
  rw [utf8_of_isAscii h] at hb
  obtain ⟨c, hc, rfl⟩ := List.mem_map.mp hb
  have hval : c.toNat ≤ 127 := by
    have hall : c.val ≤ 127 := by simpa using List.all_eq_true.mp h c hc
    exact hall
  apply UInt8.lt_iff_toNat_lt.mpr
  simp
  omega

/-! ### Bytes below 128 -/

theorem toNat_ofByte {b : UInt8} (h : b < 128) : (Char.ofNat b.toNat).toNat = b.toNat := by
  have hlt : b.toNat < 128 := UInt8.lt_iff_toNat_lt.mp h
  have hvalid : b.toNat.isValidChar := Or.inl (by omega)
  rw [Char.ofNat, dif_pos hvalid]
  rfl

theorem toChar_isAscii {bytes : Bytes} (h : ∀ b ∈ bytes, b < 128) :
    isAscii (bytes.map fun b => Char.ofNat b.toNat) = true := by
  refine List.all_eq_true.mpr ?_
  intro c hc
  obtain ⟨b, hb, rfl⟩ := List.mem_map.mp hc
  have hnat := toNat_ofByte (h b hb)
  have hlt : b.toNat < 128 := UInt8.lt_iff_toNat_lt.mp (h b hb)
  refine decide_eq_true (UInt32.le_iff_toNat_le.mpr ?_)
  show (Char.ofNat b.toNat).toNat ≤ 127
  omega

/-- Bytes below 128 are the encoding of their text. -/
theorem utf8_ofBytes {bytes : Bytes} (h : ∀ b ∈ bytes, b < 128) :
    utf8 (bytes.map fun b => Char.ofNat b.toNat) = bytes := by
  rw [utf8_of_isAscii (toChar_isAscii h), List.map_map]
  refine (List.map_congr_left fun b hb => ?_).trans (List.map_id bytes)
  rw [Function.comp_apply, toNat_ofByte (h b hb)]
  exact UInt8.ofNat_toNat

/-- The bytes of a text in ASCII are its characters. -/
theorem ofBytes_utf8 (h : s.isAscii) : s.utf8.map (fun b => Char.ofNat b.toNat) = s :=
  utf8_injective (utf8_ofBytes (all_utf8_lt h))

/-- Bytes below 128 are a text of as many characters, and of no others. -/
theorem isAscii_of_utf8_lt (h : ∀ b ∈ s.utf8, b < 128) : s.isAscii := by
  have hascii := toChar_isAscii h
  rw [utf8_injective (utf8_ofBytes h)] at hascii
  exact hascii

theorem len_of_isAscii (h : s.isAscii) : s.len = s.length := by
  rw [len, utf8_of_isAscii h, List.length_map]

/-! ## Trimming -/

/-- `char::is_whitespace`: the characters with the property `White_Space`. -/
def isWhitespace (c : Char) : Bool :=
  let n := c.toNat
  (0x09 ≤ n && n ≤ 0x0d) || n = 0x20 || n = 0x85 || n = 0xa0 || n = 0x1680 ||
    (0x2000 ≤ n && n ≤ 0x200a) || n = 0x2028 || n = 0x2029 || n = 0x202f || n = 0x205f ||
    n = 0x3000

def trimStartMatches (p : Char → Bool) (s : Text) : Text := s.dropWhile p

def trimEndMatches (p : Char → Bool) (s : Text) : Text := s.rdropWhile p

def trim (s : Text) : Text := trimEndMatches isWhitespace (trimStartMatches isWhitespace s)

/-- Cutting at the end and at the start commute. -/
theorem dropWhile_rdropWhile (s : Text) : (s.rdropWhile p).dropWhile p = (s.dropWhile p).rdropWhile p := by
  induction s using List.reverseRecOn with
  | nil => rfl
  | append_singleton s c ih =>
      by_cases hc : p c = true
      · rw [List.rdropWhile_concat_pos p s c hc, ih, List.dropWhile_append]
        by_cases hs : (s.dropWhile p).isEmpty = true
        · simp [hc, List.isEmpty_iff.mp hs]
        · rw [if_neg hs, List.rdropWhile_concat_pos p _ c hc]
      · rw [List.rdropWhile_concat_neg p s c hc, List.dropWhile_append]
        by_cases hs : (s.dropWhile p).isEmpty = true
        · simp [hs, hc, List.rdropWhile_singleton]
        · rw [if_neg hs, List.rdropWhile_concat_neg p _ c hc]

/-- A character that stays keeps what is before it. -/
theorem rdropWhile_append_cons (hc : p c = false) (s t : Text) :
    (s ++ c :: t).rdropWhile p = s ++ c :: t.rdropWhile p := by
  induction t using List.reverseRecOn with
  | nil => exact List.rdropWhile_concat_neg p s c (by simp [hc])
  | append_singleton t d ih =>
      rw [← List.cons_append, ← List.append_assoc]
      by_cases hd : p d = true
      · rw [List.rdropWhile_concat_pos p _ d hd, ih, List.rdropWhile_concat_pos p _ d hd]
      · rw [List.rdropWhile_concat_neg p _ d hd, List.rdropWhile_concat_neg p _ d hd]
        simp

@[simp] theorem trim_trim (s : Text) : trim (trim s) = trim s := by
  simp only [trim, trimEndMatches, trimStartMatches, dropWhile_rdropWhile, List.dropWhile_idempotent,
    List.rdropWhile_idempotent]

/-- Trimming the end first changes nothing. -/
theorem trim_trimEnd (s : Text) : trim (trimEndMatches isWhitespace s) = trim s := by
  simp only [trim, trimEndMatches, trimStartMatches, dropWhile_rdropWhile, List.rdropWhile_idempotent]

theorem dropWhile_dropWhile {p q : Char → Bool} (h : ∀ c, p c = true → q c = true) : ∀ s : Text,
    (s.dropWhile p).dropWhile q = s.dropWhile q
  | [] => rfl
  | c :: s => by
      by_cases hc : p c = true
      · rw [List.dropWhile_cons_of_pos hc, List.dropWhile_cons_of_pos (h c hc), dropWhile_dropWhile h s]
      · rw [List.dropWhile_cons_of_neg hc]

theorem rdropWhile_rdropWhile {q : Char → Bool} (h : ∀ c, p c = true → q c = true) (s : Text) :
    (s.rdropWhile p).rdropWhile q = s.rdropWhile q := by
  unfold List.rdropWhile
  rw [List.reverse_reverse, dropWhile_dropWhile h]

/-- Trimming some of the whitespace first changes nothing. -/
theorem trim_of_trimmed (h : ∀ c, p c = true → isWhitespace c = true) (s : Text) :
    trim (trimEndMatches p (trimStartMatches p s)) = trim s := by
  unfold trim trimEndMatches trimStartMatches
  rw [← dropWhile_rdropWhile, rdropWhile_rdropWhile h, dropWhile_rdropWhile, dropWhile_dropWhile h]

theorem trim_of_no_whitespace (h : ∀ c ∈ s, isWhitespace c = false) : trim s = s := by
  have hstart : s.dropWhile isWhitespace = s := by
    rw [List.dropWhile_eq_self_iff]
    intro hpos
    simpa using h _ (List.getElem_mem hpos)
  rw [trim, trimStartMatches, hstart, trimEndMatches, List.rdropWhile_eq_self_iff]
  intro hne
  simpa using h _ (List.getLast_mem hne)

theorem trim_sublist (s : Text) : List.Sublist (trim s) s :=
  (List.rdropWhile_prefix _ _).sublist.trans (List.dropWhile_suffix _).sublist

theorem length_trim_lt (h : trim s ≠ s) : (trim s).length < s.length :=
  lt_of_le_of_ne (trim_sublist s).length_le fun heq => h ((trim_sublist s).eq_of_length heq)

/-! ## Letters -/

def toAsciiLowercase (s : Text) : Text := s.map Char.toLower

/-- `u8::to_ascii_lowercase`. -/
def lowerByte (b : UInt8) : UInt8 := if 0x41 ≤ b ∧ b ≤ 0x5a then b + 0x20 else b

/-- A letter in upper case becomes the one in lower case; another character stays. -/
theorem toLower_cases (c : Char) : c.toLower = c ∧ ¬ (65 ≤ c.toNat ∧ c.toNat ≤ 90) ∨
    c.toLower.toNat = c.toNat + 32 ∧ 65 ≤ c.toNat ∧ c.toNat ≤ 90 := by
  unfold Char.toLower
  split
  · rename_i h
    have hlow : 65 ≤ c.val.toNat := h.1
    have hhigh : c.val.toNat ≤ 90 := h.2
    refine Or.inr ⟨?_, hlow, hhigh⟩
    have hadd : (c.val + ('a'.val - 'A'.val)).toNat = c.val.toNat + 32 := by
      rw [UInt32.toNat_add]
      have hdiff : ('a'.val - 'A'.val).toNat = 32 := rfl
      rw [hdiff, Nat.mod_eq_of_lt (by omega)]
    exact hadd
  · rename_i h
    exact Or.inl ⟨rfl, fun hrange => h ⟨hrange.1, hrange.2⟩⟩

theorem toLower_toLower (c : Char) : c.toLower.toLower = c.toLower := by
  rcases toLower_cases c with ⟨h, -⟩ | ⟨h, hlow, hhigh⟩
  · rw [h, h]
  · rcases toLower_cases c.toLower with ⟨h', -⟩ | ⟨-, hlow', hhigh'⟩
    · exact h'
    · omega

/-- Lower case makes no character that is not a letter. -/
theorem toLower_eq_iff {d : Char} (hd : d.toNat < 65 ∨ 122 < d.toNat) : c.toLower = d ↔ c = d := by
  rcases toLower_cases c with ⟨h, -⟩ | ⟨h, hlow, hhigh⟩
  · rw [h]
  · constructor
    · rintro rfl
      omega
    · rintro rfl
      omega

theorem mem_toAsciiLowercase {d : Char} (hd : d.toNat < 65 ∨ 122 < d.toNat) {s : Text} :
    d ∈ toAsciiLowercase s ↔ d ∈ s := by
  simp only [toAsciiLowercase, List.mem_map, toLower_eq_iff hd, exists_eq_right]

@[simp] theorem toAsciiLowercase_idem (s : Text) :
    toAsciiLowercase (toAsciiLowercase s) = toAsciiLowercase s := by
  simp [toAsciiLowercase, Function.comp_def, toLower_toLower]

theorem utf8Size_toLower (c : Char) : c.toLower.utf8Size = c.utf8Size := by
  rcases toLower_cases c with ⟨h, -⟩ | ⟨h, hlow, hhigh⟩
  · rw [h]
  · have hone : c.utf8Size = 1 := Char.utf8Size_eq_one_iff.mpr (by
      apply UInt32.le_iff_toNat_le.mpr
      exact Nat.le_trans hhigh (by decide))
    have hone' : c.toLower.utf8Size = 1 := Char.utf8Size_eq_one_iff.mpr (by
      apply UInt32.le_iff_toNat_le.mpr
      have hnat : c.toLower.val.toNat = c.toNat + 32 := h
      rw [hnat]
      exact Nat.le_trans (Nat.add_le_add_right hhigh 32) (by decide))
    rw [hone, hone']

theorem len_eq_sum (s : Text) : s.len = (s.map Char.utf8Size).sum := by
  induction s with
  | nil => rfl
  | cons c s ih =>
      simp only [len, utf8, List.flatMap_cons, List.length_append, String.length_utf8EncodeChar,
        List.map_cons, List.sum_cons] at ih ⊢
      rw [ih]

@[simp] theorem len_toAsciiLowercase (s : Text) : (toAsciiLowercase s).len = s.len := by
  simp [len_eq_sum, toAsciiLowercase, Function.comp_def, utf8Size_toLower]

/-- A part of a text is no longer. -/
theorem len_le_of_sublist {t : Text} (h : List.Sublist s t) : s.len ≤ t.len := by
  rw [len_eq_sum, len_eq_sum]
  induction h with
  | slnil => exact Nat.le_refl _
  | cons c _ ih =>
      rw [List.map_cons, List.sum_cons]
      omega
  | cons_cons c _ ih =>
      rw [List.map_cons, List.map_cons, List.sum_cons, List.sum_cons]
      omega

/-! ## Printable characters -/

/-- `is_ascii_graphic`. -/
def isGraphic (c : Char) : Bool := 0x21 ≤ c.toNat && c.toNat ≤ 0x7e

/-- A graphic character or the space. -/
def isPrintable (c : Char) : Bool := c = ' ' || isGraphic c

theorem isPrintable_iff : isPrintable c = true ↔ 0x20 ≤ c.toNat ∧ c.toNat ≤ 0x7e := by
  have hspace : c = ' ' ↔ c.toNat = 0x20 :=
    ⟨fun h => by rw [h]; rfl, fun h => Char.ext (UInt32.toNat_inj.mp h)⟩
  simp only [isPrintable, isGraphic, Bool.or_eq_true, decide_eq_true_eq, Bool.and_eq_true, hspace]
  omega

theorem isWhitespace_of_isGraphic (h : isGraphic c = true) : isWhitespace c = false := by
  simp only [isGraphic, Bool.and_eq_true, decide_eq_true_eq] at h
  simp only [isWhitespace, Bool.or_eq_false_iff, Bool.and_eq_false_iff, decide_eq_false_iff_not]
  omega

theorem trim_of_isGraphic (h : ∀ c ∈ s, isGraphic c = true) : trim s = s :=
  trim_of_no_whitespace fun c hc => isWhitespace_of_isGraphic (h c hc)

theorem isGraphic_of_range {low high : Nat} (h : low ≤ c.toNat ∧ c.toNat ≤ high)
    (hlow : 0x21 ≤ low) (hhigh : high ≤ 0x7e) : isGraphic c = true := by
  simp only [isGraphic, Bool.and_eq_true, decide_eq_true_eq]
  omega

theorem isGraphic_digit (h : c.isDigit = true) : isGraphic c = true := by
  obtain ⟨hlow, hhigh⟩ := (Bool.and_eq_true _ _).mp h
  exact isGraphic_of_range (show 48 ≤ c.toNat ∧ c.toNat ≤ 57 from
    ⟨of_decide_eq_true hlow, of_decide_eq_true hhigh⟩) (by decide) (by decide)

theorem isGraphic_lower (h : c.isLower = true) : isGraphic c = true := by
  obtain ⟨hlow, hhigh⟩ := (Bool.and_eq_true _ _).mp h
  exact isGraphic_of_range (show 97 ≤ c.toNat ∧ c.toNat ≤ 122 from
    ⟨of_decide_eq_true hlow, of_decide_eq_true hhigh⟩) (by decide) (by decide)

theorem isGraphic_upper (h : c.isUpper = true) : isGraphic c = true := by
  have hrange : 65 ≤ c.toNat ∧ c.toNat ≤ 90 := of_decide_eq_true h
  exact isGraphic_of_range hrange (by decide) (by decide)

theorem isGraphic_alphanum (h : c.isAlphanum = true) : isGraphic c = true := by
  rcases (Bool.or_eq_true _ _).mp h with hletter | hdigit
  · rcases (Bool.or_eq_true _ _).mp hletter with hupper | hlower
    · exact isGraphic_upper hupper
    · exact isGraphic_lower hlower
  · exact isGraphic_digit hdigit

theorem isAscii_of_isGraphic (h : ∀ c ∈ s, isGraphic c = true) : s.isAscii = true := by
  refine List.all_eq_true.mpr fun c hc => ?_
  have hle := h c hc
  simp only [isGraphic, Bool.and_eq_true, decide_eq_true_eq] at hle
  exact decide_eq_true (show c.val.toNat ≤ 127 from Nat.le_trans hle.2 (by decide))

def eqIgnoreAsciiCase (s t : Text) : Bool := toAsciiLowercase s = toAsciiLowercase t

theorem eqIgnoreAsciiCase_iff {t : Text} :
    eqIgnoreAsciiCase s t = true ↔ toAsciiLowercase s = toAsciiLowercase t := decide_eq_true_iff

/-! ## Decoding with replacement -/

/-- What the second byte of a character may be, after its first. -/
def isSecondByte (first second : UInt8) : Bool :=
  if first = 0xE0 then 0xA0 ≤ second && second ≤ 0xBF
  else if first = 0xED then 0x80 ≤ second && second ≤ 0x9F
  else if first = 0xF0 then 0x90 ≤ second && second ≤ 0xBF
  else if first = 0xF4 then 0x80 ≤ second && second ≤ 0x8F
  else 0x80 ≤ second && second ≤ 0xBF

/-- How many bytes a character that starts with this byte has; none start one with 0. -/
def charWidth (first : UInt8) : Nat :=
  if first < 0x80 then 1
  else if 0xC2 ≤ first ∧ first ≤ 0xDF then 2
  else if 0xE0 ≤ first ∧ first ≤ 0xEF then 3
  else if 0xF0 ≤ first ∧ first ≤ 0xF4 then 4
  else 0

/-- How much of a broken character one replacement character stands for. -/
def brokenWidth (first : UInt8) (rest : Bytes) : Nat :=
  match rest with
  | second :: rest =>
      if charWidth first < 3 || !isSecondByte first second then 1
      else
        match rest with
        | third :: _ => if charWidth first < 4 || third < 0x80 || 0xBF < third then 2 else 3
        | [] => 2
  | [] => 1

/-- The text of the bytes after the first `skip`. -/
def fromUtf8LossyFrom : Nat → Bytes → Text
  | _, [] => []
  | skip + 1, _ :: rest => fromUtf8LossyFrom skip rest
  | 0, first :: rest =>
      match fromUtf8 ((first :: rest).take (charWidth first)) with
      | some [c] => c :: fromUtf8LossyFrom (charWidth first - 1) rest
      | _ => Char.ofNat 0xFFFD :: fromUtf8LossyFrom (brokenWidth first rest - 1) rest

/-- `String::from_utf8_lossy`. -/
def fromUtf8Lossy (bytes : Bytes) : Text := fromUtf8LossyFrom 0 bytes

/-! ## Cutting -/

/-- `split_once` at a character: before its first occurrence, and after. -/
def splitOnce (sep : Char) : Text → Option (Text × Text)
  | [] => none
  | c :: s => if c = sep then some ([], s) else (splitOnce sep s).map fun (a, b) => (c :: a, b)

theorem splitOnce_append {sep : Char} {a : Text} (h : sep ∉ a) (b : Text) :
    splitOnce sep (a ++ sep :: b) = some (a, b) := by
  induction a with
  | nil => simp [splitOnce]
  | cons c a ih =>
      simp only [List.mem_cons, not_or] at h
      simp [splitOnce, Ne.symm h.1, ih h.2]

theorem splitOnce_eq_some {sep : Char} : ∀ {s a b : Text}, splitOnce sep s = some (a, b) →
    s = a ++ sep :: b ∧ sep ∉ a
  | [], _, _, h => by cases h
  | c :: s, a, b, h => by
      unfold splitOnce at h
      split at h
      · rename_i hc
        cases h
        exact ⟨by rw [hc, List.nil_append], List.not_mem_nil⟩
      · rename_i hc
        obtain ⟨⟨a', b'⟩, hrest, heq⟩ := Option.map_eq_some_iff.mp h
        cases heq
        obtain ⟨rfl, hnot⟩ := splitOnce_eq_some hrest
        exact ⟨rfl, List.not_mem_cons_of_ne_of_not_mem (Ne.symm hc) hnot⟩

theorem splitOnce_eq_none {sep : Char} : ∀ {s : Text}, sep ∉ s → splitOnce sep s = none
  | [], _ => rfl
  | c :: s, h => by
      simp only [List.mem_cons, not_or] at h
      simp [splitOnce, Ne.symm h.1, splitOnce_eq_none h.2]

theorem not_mem_of_splitOnce {sep : Char} : ∀ {s : Text}, splitOnce sep s = none → sep ∉ s
  | [], _ => List.not_mem_nil
  | c :: s, h => by
      unfold splitOnce at h
      split at h
      · cases h
      · rename_i hc
        exact List.not_mem_cons_of_ne_of_not_mem (Ne.symm hc) (not_mem_of_splitOnce (Option.map_eq_none_iff.mp h))

/-- A piece holds no separator, and is part of the text. -/
theorem of_mem_splitOnP {α : Type} {p : α → Bool} : ∀ {s piece : List α}, piece ∈ s.splitOnP p →
    (∀ x ∈ piece, p x = false) ∧ List.Sublist piece s
  | [], piece, h => by
      rw [List.splitOnP_nil, List.mem_singleton] at h
      simp [h]
  | c :: s, piece, h => by
      rw [List.splitOnP_cons_eq_if_modifyHead] at h
      split at h
      · rcases List.mem_cons.mp h with rfl | h
        · simp
        · obtain ⟨hsep, hsub⟩ := of_mem_splitOnP h
          exact ⟨hsep, hsub.trans (List.sublist_cons_self c s)⟩
      · rename_i hc
        cases hs : s.splitOnP p with
        | nil => exact absurd hs (List.splitOnP_ne_nil p s)
        | cons first rest =>
            have hfirst := @of_mem_splitOnP _ p s first (by simp [hs])
            rw [hs, List.modifyHead_cons] at h
            rcases List.mem_cons.mp h with rfl | h
            · exact ⟨List.forall_mem_cons.mpr ⟨Bool.eq_false_iff.mpr hc, hfirst.1⟩, hfirst.2.cons_cons c⟩
            · obtain ⟨hsep, hsub⟩ := @of_mem_splitOnP _ p s piece (by simp [hs, h])
              exact ⟨hsep, hsub.trans (List.sublist_cons_self c s)⟩

theorem of_mem_splitOn {α : Type} [DecidableEq α] {sep : α} {s piece : List α} (h : piece ∈ s.splitOn sep) :
    sep ∉ piece ∧ List.Sublist piece s := by
  rw [List.splitOn_eq_splitOnP] at h
  obtain ⟨hsep, hsub⟩ := of_mem_splitOnP h
  exact ⟨fun hmem => by simpa using hsep sep hmem, hsub⟩

theorem mem_intercalate {c sep : Char} : ∀ {l : List Text}, c ∈ [sep].intercalate l → c = sep ∨ ∃ p ∈ l, c ∈ p
  | [], h => by cases h
  | [p], h => by
      rw [List.intercalate_singleton] at h
      exact Or.inr ⟨p, by simp, h⟩
  | p :: q :: l, h => by
      rw [List.intercalate_cons_cons] at h
      simp only [List.mem_append, List.mem_singleton] at h
      rcases h with (h | h) | h
      · exact Or.inr ⟨p, by simp, h⟩
      · exact Or.inl h
      · rcases mem_intercalate h with h | ⟨r, hr, hc⟩
        · exact Or.inl h
        · exact Or.inr ⟨r, List.mem_cons_of_mem _ hr, hc⟩

def stripSuffix (s tail : Text) : Option Text :=
  if tail.isSuffixOf s then some (s.take (s.length - tail.length)) else none

@[simp] theorem stripSuffix_append (s tail : Text) : stripSuffix (s ++ tail) tail = some s := by
  simp [stripSuffix]

theorem stripSuffix_eq_some {tail rest : Text} (h : stripSuffix s tail = some rest) : s = rest ++ tail := by
  unfold stripSuffix at h
  split at h
  · rename_i hsuffix
    obtain ⟨t, rfl⟩ := List.isSuffixOf_iff_suffix.mp hsuffix
    cases h
    simp
  · cases h

def stripPrefix (s head : Text) : Option Text :=
  if head.isPrefixOf s then some (s.drop head.length) else none

@[simp] theorem stripPrefix_append (head s : Text) : stripPrefix (head ++ s) head = some s := by
  simp [stripPrefix]

theorem stripPrefix_eq_some {head rest : Text}
    (h : stripPrefix s head = some rest) : s = head ++ rest := by
  unfold stripPrefix at h
  split at h
  · rename_i hprefix
    obtain ⟨t, rfl⟩ := List.isPrefixOf_iff_prefix.mp hprefix
    rw [List.drop_left] at h
    rw [Option.some.inj h]
  · cases h

theorem splitOn_ended (sep : Char) {lines : List Text} (h : ∀ l ∈ lines, sep ∉ l) :
    List.splitOn sep (lines.flatMap fun l => l ++ [sep]) = lines ++ [[]] := by
  induction lines with
  | nil => rfl
  | cons l lines ih =>
      have hrest := ih fun m hm => h m (by simp [hm])
      rw [List.flatMap_cons, List.append_assoc, List.singleton_append,
        List.splitOn_append_cons_self_of_not_mem (h l (by simp)), hrest]
      rfl

/-- The pieces of a text in which every piece but the first is led by a separator. -/
theorem splitOnP_led {α : Type} {p : α → Bool} {sep : α} (hsep : p sep = true) {first : List α} {pieces : List (List α)}
    (hfirst : ∀ x ∈ first, p x = false) (h : ∀ l ∈ pieces, ∀ x ∈ l, p x = false) :
    List.splitOnP p (first ++ pieces.flatMap fun l => sep :: l) = first :: pieces := by
  induction pieces generalizing first with
  | nil => simp [List.splitOnP_eq_singleton hfirst]
  | cons l pieces ih =>
      rw [List.flatMap_cons, List.cons_append, List.splitOnP_append_cons_of_forall_mem hfirst sep hsep,
        ih (h l (by simp)) fun q hq => h q (by simp [hq])]

theorem splitOn_led {α : Type} [DecidableEq α] (sep : α) {first : List α} {pieces : List (List α)} (hfirst : sep ∉ first)
    (h : ∀ p ∈ pieces, sep ∉ p) :
    List.splitOn sep (first ++ pieces.flatMap fun p => sep :: p) = first :: pieces := by
  have hother : ∀ {l : List α}, sep ∉ l → ∀ x ∈ l, (x == sep) = false := fun hl x hx =>
    beq_false_of_ne fun heq => hl (heq ▸ hx)
  rw [List.splitOn_eq_splitOnP]
  exact splitOnP_led (p := (· == sep)) (beq_self_eq_true sep) (hother hfirst) fun l hl => hother (h l hl)

/-- Ending every piece is leading every piece but the first, and ending the whole. -/
theorem flatMap_ended (sep : Char) (first : Text) (pieces : List Text) :
    ((first :: pieces).flatMap fun p => p ++ [sep]) =
      (first ++ pieces.flatMap fun p => sep :: p) ++ [sep] := by
  induction pieces generalizing first with
  | nil => simp
  | cons p pieces ih =>
      rw [List.flatMap_cons, ih p]
      simp

/-! ## Cutting at a text -/

/-- `contains`. -/
def containsText (s needle : Text) : Bool := s.tails.any fun t => needle.isPrefixOf t

/-- `split_once` at a text. -/
def splitOnceText (sep : Text) : Text → Option (Text × Text)
  | [] => if sep.isEmpty then some ([], []) else none
  | c :: s =>
      if sep.isPrefixOf (c :: s) then some ([], (c :: s).drop sep.length)
      else (splitOnceText sep s).map fun (a, b) => (c :: a, b)

/-- No occurrence starts in a part that has not its first character. -/
theorem splitOnceText_append {sep x : Text} (hx : c ∉ x) (s : Text) :
    splitOnceText (c :: sep) (x ++ s) = (splitOnceText (c :: sep) s).map fun p => (x ++ p.1, p.2) := by
  induction x with
  | nil => simp
  | cons d x ih =>
      simp only [List.mem_cons, not_or] at hx
      have hno : ((c :: sep).isPrefixOf (d :: (x ++ s))) = false := by
        simp [List.isPrefixOf, hx.1]
      rw [List.cons_append, splitOnceText, hno, ih hx.2, if_neg (by decide), Option.map_map]
      rfl

theorem containsText_eq (s needle : Text) : containsText s needle = (splitOnceText needle s).isSome := by
  unfold containsText
  induction s with
  | nil => cases needle <;> simp [splitOnceText]
  | cons c s ih =>
      rw [List.tails_cons, List.any_cons, ih, splitOnceText]
      split
      · rename_i h
        simp [h]
      · rename_i h
        simp [h]

/-- The pieces between the occurrences of a text, with `skip` characters of the last
occurrence still to be passed over. -/
def splitTextFrom (sep : Text) : Nat → Text → List Text
  | _, [] => [[]]
  | skip + 1, _ :: s => splitTextFrom sep skip s
  | 0, c :: s =>
      if sep.isPrefixOf (c :: s) then [] :: splitTextFrom sep (sep.length - 1) s
      else (splitTextFrom sep 0 s).modifyHead (c :: ·)

/-- `split` at a text that is not empty. -/
def splitText (sep s : Text) : List Text := splitTextFrom sep 0 s

/-- `replace` of a text by nothing. -/
def removeText (sep s : Text) : Text := (splitText sep s).flatten

end Text

end Pelorus.Lib

/-
  Which texts parse as an IP address (`std::net::IpAddr`).

  The standard library's parser, read for acceptance only: every reader returns
  the text left over, and the number it read where a bound on it decides.
  A reader that fails leaves its caller where it was (`read_atomically`).
-/

namespace Pelorus.Lib.IpText

/-- `char::to_digit`. -/
def toDigit (radix : Nat) (c : Char) : Option Nat :=
  let digit :=
    if '0' ≤ c ∧ c ≤ '9' then some (c.toNat - '0'.toNat)
    else if 'a' ≤ c ∧ c ≤ 'z' then some (c.toNat - 'a'.toNat + 10)
    else if 'A' ≤ c ∧ c ≤ 'Z' then some (c.toNat - 'A'.toNat + 10)
    else none
  digit.filter fun d => d < radix

/-- The digits at the start of a text: how many, their value, and the rest. -/
def readDigits (radix : Nat) : Nat → Nat → Text → Nat × Nat × Text
  | count, value, [] => (count, value, [])
  | count, value, c :: s =>
      match toDigit radix c with
      | some d => readDigits radix (count + 1) (value * radix + d) s
      | none => (count, value, c :: s)

/-- `read_number`, for numbers up to `max` with at most `maxDigits` digits. -/
def readNumber (radix maxDigits max : Nat) (allowZeroPrefix : Bool) (s : Text) : Option Text :=
  let (count, value, rest) := readDigits radix 0 0 s
  if count > maxDigits ∨ count = 0 then none
  else if ¬ allowZeroPrefix ∧ s.head? = some '0' ∧ count > 1 then none
  else if value > max then none
  else some rest

def readGivenChar (c : Char) : Text → Option Text
  | [] => none
  | c' :: s => if c' = c then some s else none

/-- `read_separator`: the separator is read before every item but the first. -/
def readSeparator (sep : Char) (index : Nat) (inner : Text → Option Text) (s : Text) :
    Option Text :=
  if index > 0 then (readGivenChar sep s).bind inner else inner s

/-- One number of a dotted quad: no octal. -/
def readOctet (s : Text) : Option Text := readNumber 10 3 255 false s

/-- `read_ipv4_addr`. -/
def readIpv4 (s : Text) : Option Text := do
  let s ← readSeparator '.' 0 readOctet s
  let s ← readSeparator '.' 1 readOctet s
  let s ← readSeparator '.' 2 readOctet s
  readSeparator '.' 3 readOctet s

/-- `read_groups` from group `i` on, with `left` groups of the array left: how many
groups were read, whether the last two were a dotted quad, and the rest. -/
def readGroups : Nat → Nat → Text → Nat × Bool × Text
  | 0, i, s => (i, false, s)
  | left + 1, i, s =>
      -- a dotted quad takes two groups
      match if left > 0 then readSeparator ':' i readIpv4 s else none with
      | some rest => (i + 2, true, rest)
      | none =>
          match readSeparator ':' i (readNumber 16 4 0xffff true) s with
          | some rest => readGroups left (i + 1) rest
          | none => (i, false, s)

/-- `read_ipv6_addr`. -/
def readIpv6 (s : Text) : Option Text :=
  let (headSize, headIpv4, s) := readGroups 8 0 s
  if headSize = 8 then some s
  else if headIpv4 then none
  else do
    let s ← readGivenChar ':' s
    let s ← readGivenChar ':' s
    let (_, _, s) := readGroups (8 - (headSize + 1)) 0 s
    return s

/-- `str::parse::<IpAddr>().is_ok()`: an address, and nothing after it. -/
def isIpAddr (s : Text) : Bool :=
  match (readIpv4 s).orElse fun _ => readIpv6 s with
  | some rest => rest.isEmpty
  | none => false

example : isIpAddr "::ffff:10.0.0.1".toList = true := by decide

end Pelorus.Lib.IpText
