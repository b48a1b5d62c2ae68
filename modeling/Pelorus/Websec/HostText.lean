import Pelorus.Websec.Web

/-
  Websec/HostText.lean --- a host that was parsed reads back from its text.

  EACH FORM takes its own way through the parser: a name has no character that is decoded or
  forbidden, four decimal numbers are read as an IPv4 address, and of an IPv6 address the
  pieces that were left out are those that are put back.
-/
set_option autoImplicit false

namespace Pelorus.Websec

open Lib Lib.Text Lib.Numerals

/-! ## Names -/

theorem percentDecode_of_not_mem {bytes : List UInt8} (h : (0x25 : UInt8) ∉ bytes) :
    percentDecode bytes = bytes := by
  fun_induction percentDecode bytes with
  | case1 => rfl
  | case2 => simp at h
  | case3 => simp at h
  | case4 c hi lo rest hc ih => rw [ih (List.not_mem_of_not_mem_cons h)]
  | case5 c rest hc ih => rw [ih (List.not_mem_of_not_mem_cons h)]

variable {s input : Text} {host : Host} {c : Char} {pieces : List UInt16}

theorem percentDecodeAscii_of_plain (h : s.isAscii) (hpercent : '%' ∉ s) :
    percentDecodeAscii s = some s := by
  have hmem : (0x25 : UInt8) ∉ s.utf8 := by
    rw [utf8_of_isAscii h]
    intro hc
    obtain ⟨c, hc, hbyte⟩ := List.mem_map.mp hc
    have hval : c.toNat ≤ 127 := by
      have hall : c.val ≤ 127 := by simpa using List.all_eq_true.mp h c hc
      exact hall
    have hnat : c.toNat = 0x25 := by
      have := congrArg UInt8.toNat hbyte
      simp at this
      omega
    have hchar : c = '%' := Char.ext (UInt32.toNat_inj.mp hnat)
    exact hpercent (hchar ▸ hc)
  have hall : (s.utf8.all fun b => b < 128) = true :=
    List.all_eq_true.mpr fun b hb => decide_eq_true (all_utf8_lt h b hb)
  simp only [percentDecodeAscii, percentDecode_of_not_mem hmem, hall, if_true, ofBytes_utf8 h]

/-- What a parsed name is. -/
structure IsName (name : Text) : Prop where
  ascii : name.isAscii
  lower : toAsciiLowercase name = name
  ne_nil : name ≠ []
  allowed : ∀ c ∈ name, forbiddenHostCp c = false ∧ c ≠ '%'
  plain : endsInNumber name = false

theorem isAscii_toAsciiLowercase (h : s.isAscii) : (toAsciiLowercase s).isAscii := by
  refine List.all_eq_true.mpr fun c hc => ?_
  obtain ⟨d, hd, rfl⟩ := List.mem_map.mp hc
  have hval : d.val ≤ 127 := by simpa using List.all_eq_true.mp h d hd
  rcases toLower_cases d with ⟨heq, -⟩ | ⟨heq, -, hhigh⟩
  · rw [heq]
    exact decide_eq_true hval
  · exact decide_eq_true (show d.toLower.toNat ≤ 127 by omega)

/-- A host of a special URL is a name, or an address. -/
theorem parseHost_cases (h : parseHost input true = some host) :
    (∃ name, host = .domain name ∧ IsName name) ∨ (∃ octets, host = .ipv4 octets) ∨ ∃ pieces, host = .ipv6 pieces := by
  unfold parseHost at h
  split at h
  · obtain ⟨_, _, h⟩ := Option.bind_eq_some_iff.mp h
    obtain ⟨pieces, _, h⟩ := Option.bind_eq_some_iff.mp h
    cases h
    exact Or.inr (Or.inr ⟨pieces, rfl⟩)
  · simp only [Bool.not_true, Bool.false_eq_true, if_false] at h
    obtain ⟨decoded, hdecoded, h⟩ := Option.bind_eq_some_iff.mp h
    split at h
    · cases h
    · rename_i hok
      split at h
      · obtain ⟨octets, _, rfl⟩ := Option.map_eq_some_iff.mp h
        exact Or.inr (Or.inl ⟨octets, rfl⟩)
      · rename_i hplain
        cases h
        simp only [Bool.or_eq_true, not_or, List.isEmpty_iff, List.any_eq_true, not_exists, not_and] at hok
        have hascii : decoded.isAscii := by
          simp only [percentDecodeAscii] at hdecoded
          split at hdecoded
          · rename_i hall
            cases hdecoded
            exact toChar_isAscii (by simpa using hall)
          · cases hdecoded
        refine Or.inl ⟨_, rfl, isAscii_toAsciiLowercase hascii, toAsciiLowercase_idem _, hok.1, ?_, by simpa using hplain⟩
        intro c hc
        have h := hok.2 c hc
        simp only [decide_eq_true_eq, Bool.not_eq_true] at h
        exact h

theorem parseHost_name {name : Text} (h : IsName name) : parseHost name true = some (.domain name) := by
  unfold parseHost
  split
  · exact absurd (h.allowed '[' List.mem_cons_self).1 (by decide)
  · have hpercent : '%' ∉ name := fun hc => (h.allowed '%' hc).2 rfl
    have hany : (name.any fun c => forbiddenHostCp c || c = '%') = false := by
      refine List.any_eq_false.mpr fun c hc => ?_
      obtain ⟨h₁, h₂⟩ := h.allowed c hc
      simp [h₁, h₂]
    simp only [Bool.not_true, Bool.false_eq_true, if_false, percentDecodeAscii_of_plain h.ascii hpercent,
      Option.bind_eq_bind, Option.bind_some, h.lower, hany, h.plain, Bool.or_false, List.isEmpty_iff, if_neg h.ne_nil]

/-! ## IPv4 addresses -/

theorem checkedDigits_of_digits {radix : Nat} (hr : 0 < radix) : ∀ {s : Text} {acc n : Nat},
    digits radix acc s = some n → n < 2 ^ 64 → checkedDigits radix acc s = some n
  | [], _, _, h, _ => h
  | c :: s, acc, n, h, hn => by
      obtain ⟨d, hd, hrest⟩ := Option.bind_eq_some_iff.mp h
      have hle := le_of_digits hr hrest
      have hsmall : acc * radix + d < 2 ^ 64 := by omega
      unfold checkedDigits
      rw [hd, Option.bind_eq_bind, Option.bind_some, if_pos hsmall]
      exact checkedDigits_of_digits hr hrest hn

theorem digits_decimalByte (n : UInt8) : digits 10 0 (decimalByte n) = some n.toNat :=
  digits_toDigits (by decide) (by decide) _

theorem decimalByte_ne_nil (n : UInt8) : decimalByte n ≠ [] := Nat.toDigits_ne_nil

theorem isDigit_decimalByte {n : UInt8} (h : c ∈ decimalByte n) : c.isDigit = true :=
  isDigit_of_digits (digits_decimalByte n) h

theorem not_mem_decimalByte (hc : c.isDigit = false) (n : UInt8) : c ∉ decimalByte n := by
  intro hmem
  rw [isDigit_decimalByte hmem] at hc
  cases hc

theorem parseIpv4Number_decimalByte (n : UInt8) : parseIpv4Number (decimalByte n) = some n.toNat := by
  have hne := decimalByte_ne_nil n
  have hx : ∀ c : Char, c.isDigit = false → stripPrefix (decimalByte n) ['0', c] = none := by
    intro c hc
    unfold stripPrefix
    refine if_neg fun hprefix => not_mem_decimalByte hc n ?_
    exact (List.isPrefixOf_iff_prefix.mp hprefix).subset (by simp)
  have hzero : ¬ (1 < (decimalByte n).length ∧ (decimalByte n).head? = some '0') := by
    rintro ⟨hlen, hhead⟩
    by_cases hn : n.toNat = 0
    · rw [decimalByte, hn] at hlen
      exact absurd hlen (by decide)
    · exact head?_toDigits (Nat.pos_of_ne_zero hn) hhead
  unfold parseIpv4Number
  rw [if_neg (by simpa using hne), show "0x".toList = ['0', 'x'] from rfl, show "0X".toList = ['0', 'X'] from rfl,
    hx 'x' rfl, Option.orElse_none, hx 'X' rfl]
  simp only [if_neg hzero, List.isEmpty_iff, if_neg hne]
  exact checkedDigits_of_digits (by decide) (digits_decimalByte n)
    (Nat.lt_trans (UInt8.toNat_lt n) (by decide))

theorem joined_decimalBytes {l : List UInt8} (hl : l ≠ []) :
    List.splitOn '.' (['.'].intercalate (l.map decimalByte)) = l.map decimalByte := by
  refine List.splitOn_intercalate '.' ?_ (by simpa using hl)
  intro t ht
  obtain ⟨n, _, rfl⟩ := List.mem_map.mp ht
  exact not_mem_decimalByte rfl n

/-- A character of a dotted quad is a digit or a dot. -/
theorem mem_serialize_ipv4 {octets : { l : List UInt8 // l.length = 4 }} {c : Char}
    (h : c ∈ (Host.ipv4 octets).serialize) : c = '.' ∨ c.isDigit = true := by
  rcases mem_intercalate h with rfl | ⟨p, hp, hc⟩
  · exact Or.inl rfl
  · obtain ⟨n, _, rfl⟩ := List.mem_map.mp hp
    exact Or.inr (isDigit_decimalByte hc)

theorem dottedParts_serialize (octets : { l : List UInt8 // l.length = 4 }) :
    dottedParts (Host.ipv4 octets).serialize = octets.1.map decimalByte := by
  have hne : octets.1 ≠ [] := List.ne_nil_of_length_eq_add_one octets.2
  have hsplit : List.splitOn '.' (Host.ipv4 octets).serialize = octets.1.map decimalByte := joined_decimalBytes hne
  unfold dottedParts
  rw [hsplit]
  refine if_neg ?_
  rintro ⟨hlast, _⟩
  rw [List.getLast?_map] at hlast
  obtain ⟨n, _, hn⟩ := Option.map_eq_some_iff.mp hlast
  exact decimalByte_ne_nil n hn

/-- The bytes of a number of four. -/
theorem ofNat_quad (a b c d : UInt8) :
    let ip := a.toNat * 256 ^ 3 + (b.toNat * 256 ^ 2 + (c.toNat * 256 ^ 1 + 0)) + d.toNat
    UInt8.ofNat (ip / 256 ^ 3) = a ∧ UInt8.ofNat (ip / 256 ^ 2) = b ∧ UInt8.ofNat (ip / 256) = c ∧
      UInt8.ofNat ip = d := by
  have ha := UInt8.toNat_lt a
  have hb := UInt8.toNat_lt b
  have hc := UInt8.toNat_lt c
  have hd := UInt8.toNat_lt d
  refine ⟨?_, ?_, ?_, ?_⟩ <;>
    · rw [← UInt8.toNat_inj, UInt8.toNat_ofNat']
      omega

theorem parseIpv4_serialize (octets : { l : List UInt8 // l.length = 4 }) :
    parseIpv4 (Host.ipv4 octets).serialize = some octets := by
  unfold parseIpv4
  rw [dottedParts_serialize]
  obtain ⟨l, hl⟩ := octets
  match l, hl with
  | [a, b, c, d], hl =>
      have hsmall : ([a.toNat, b.toNat, c.toNat].any fun n => decide (255 < n)) = false := by
        have ha := UInt8.toNat_lt a
        have hb := UInt8.toNat_lt b
        have hc := UInt8.toNat_lt c
        simp
        omega
      have hlast : ¬ 256 ^ (5 - (0 + 1 + 1 + 1 + 1)) ≤ d.toNat := by
        have hd := UInt8.toNat_lt d
        omega
      have hsum : ([a.toNat, b.toNat, c.toNat].mapIdx fun i n => n * 256 ^ (3 - i)).sum + d.toNat =
          a.toNat * 256 ^ 3 + (b.toNat * 256 ^ 2 + (c.toNat * 256 ^ 1 + 0)) + d.toNat := rfl
      obtain ⟨h₁, h₂, h₃, h₄⟩ := ofNat_quad a b c d
      simp only [List.map_cons, List.map_nil, List.length_cons, List.length_nil, List.mapM_cons, List.mapM_nil,
        parseIpv4Number_decimalByte, Option.bind_eq_bind, Option.bind_some, Option.pure_def]
      rw [if_neg (by decide)]
      simp only [List.getLast?_cons_cons, List.getLast?_singleton, Option.bind_some, List.dropLast_cons_cons,
        List.dropLast_singleton, hsmall, Bool.false_eq_true, if_false, if_neg hlast, hsum, h₁, h₂, h₃, h₄]

theorem quadChar_allowed (h : c = '.' ∨ c.isDigit = true) :
    c.val ≤ 127 ∧ c.toLower = c ∧ forbiddenHostCp c = false ∧ c ≠ '%' ∧ c ≠ '[' := by
  have hdigits : ∀ k < 10, (Char.ofNat (48 + k)).val ≤ 127 ∧ (Char.ofNat (48 + k)).toLower = Char.ofNat (48 + k) ∧
      forbiddenHostCp (Char.ofNat (48 + k)) = false ∧ Char.ofNat (48 + k) ≠ '%' ∧ Char.ofNat (48 + k) ≠ '[' := by
    decide
  rcases h with rfl | h
  · decide
  · obtain ⟨hlow, hhigh⟩ := (Bool.and_eq_true _ _).mp h
    have hrange : 48 ≤ c.toNat ∧ c.toNat ≤ 57 := ⟨of_decide_eq_true hlow, of_decide_eq_true hhigh⟩
    have heq : c = Char.ofNat (48 + (c.toNat - 48)) := by
      rw [Nat.add_sub_cancel' hrange.1, Char.ofNat_toNat]
    rw [heq]
    exact hdigits _ (by omega)

theorem parseHost_ipv4 (octets : { l : List UInt8 // l.length = 4 }) :
    parseHost (Host.ipv4 octets).serialize true = some (.ipv4 octets) := by
  have hchars := fun c hc => quadChar_allowed (@mem_serialize_ipv4 octets c hc)
  have hparts := dottedParts_serialize octets
  have hipv4 := parseIpv4_serialize octets
  generalize (Host.ipv4 octets).serialize = s at hchars hparts hipv4 ⊢
  have hascii : s.isAscii := List.all_eq_true.mpr fun c hc => decide_eq_true (hchars c hc).1
  have hlower : toAsciiLowercase s = s := (List.map_congr_left fun c hc => (hchars c hc).2.1).trans (List.map_id s)
  have hpercent : '%' ∉ s := fun hc => (hchars '%' hc).2.2.2.1 rfl
  have hne : s ≠ [] := by
    rintro rfl
    cases hipv4
  have hany : (s.any fun c => forbiddenHostCp c || c = '%') = false := by
    refine List.any_eq_false.mpr fun c hc => ?_
    obtain ⟨_, _, h₁, h₂, _⟩ := hchars c hc
    simp [h₁, h₂]
  have hnumber : endsInNumber s = true := by
    unfold endsInNumber
    rw [if_neg (by simpa using hne), hparts, List.getLast?_map,
      List.getLast?_eq_getLast_of_ne_nil (List.ne_nil_of_length_eq_add_one octets.2)]
    simp only [Option.map_some, Bool.or_eq_true, Bool.and_eq_true]
    refine Or.inl ⟨by simpa using decimalByte_ne_nil _, List.all_eq_true.mpr fun c hc => isDigit_decimalByte hc⟩
  unfold parseHost
  split
  · exact absurd rfl (hchars '[' List.mem_cons_self).2.2.2.2
  · simp only [Bool.not_true, Bool.false_eq_true, if_false, percentDecodeAscii_of_plain hascii hpercent,
      Option.bind_eq_bind, Option.bind_some, hlower, hany, hnumber, Bool.or_false, List.isEmpty_iff, if_neg hne, if_true,
      hipv4, Option.map_some]

/-! ## IPv6 addresses as text -/

/-- Pieces with a colon between any two. -/
def joinedPieces (pieces : List UInt16) : Text := [':'].intercalate (pieces.map hex)

theorem joinedPieces_cons {p : UInt16} (h : pieces ≠ []) :
    joinedPieces (p :: pieces) = hex p ++ ':' :: joinedPieces pieces := by
  obtain ⟨q, rest, rfl⟩ := List.exists_cons_of_ne_nil h
  rw [joinedPieces, List.map_cons, List.map_cons, List.intercalate_cons_cons, List.append_assoc]
  rfl

theorem joinedPieces_singleton (p : UInt16) : joinedPieces [p] = hex p := List.intercalate_singleton ..

theorem longestZeroRun_spec : ∀ {pieces : List UInt16} {i start len : Nat},
    longestZeroRun i pieces = some (start, len) →
    ∃ before after, pieces = before ++ List.replicate len 0 ++ after ∧ i + before.length = start ∧ 2 ≤ len
  | p :: pieces, i, start, len, h => by
      simp only [longestZeroRun] at h
      split at h
      · rename_i hrun
        cases h
        refine ⟨[], (p :: pieces).dropWhile fun p => p = 0, ?_, rfl, hrun.1⟩
        have hzero : (p :: pieces).takeWhile (fun p => p = 0) =
            List.replicate ((p :: pieces).takeWhile fun p => p = 0).length 0 := by
          refine List.eq_replicate_length.mpr fun q hq => ?_
          simpa using List.mem_takeWhile_imp hq
        rw [List.nil_append, ← hzero, List.takeWhile_append_dropWhile]
      · obtain ⟨before, after, rfl, hstart, hlen⟩ := longestZeroRun_spec h
        refine ⟨p :: before, after, rfl, ?_, hlen⟩
        rw [List.length_cons]
        omega

theorem serializeIpv6From_none : ∀ (i : Nat) (pieces : List UInt16),
    serializeIpv6From none i pieces = joinedPieces pieces
  | _, [] => rfl
  | i, p :: pieces => by
      rw [serializeIpv6From, serializeIpv6From_none (i + 1) pieces]
      cases pieces with
      | nil => simp [joinedPieces]
      | cons q rest => simp [joinedPieces_cons]

/-- Behind the run. -/
theorem serializeIpv6From_after {start len : Nat} : ∀ {i : Nat} (pieces : List UInt16), start < i → start + len ≤ i →
    serializeIpv6From (some (start, len)) i pieces = joinedPieces pieces
  | _, [], _, _ => rfl
  | i, p :: pieces, hlt, hle => by
      rw [serializeIpv6From, serializeIpv6From_after (i := i + 1) pieces (by omega) (by omega)]
      simp only [if_neg (Nat.ne_of_gt hlt), if_neg (show ¬ (start < i ∧ i < start + len) by omega),
        show ¬ i + 1 = start by omega, or_false]
      cases pieces with
      | nil => simp [joinedPieces]
      | cons q rest => simp [joinedPieces_cons]

/-- In the run. -/
theorem serializeIpv6From_within {start len : Nat} (after : List UInt16) : ∀ {i : Nat} (k : Nat), start < i →
    i + k = start + len →
    serializeIpv6From (some (start, len)) i (List.replicate k 0 ++ after) = joinedPieces after
  | i, 0, hlt, heq => serializeIpv6From_after after hlt (by omega)
  | i, k + 1, hlt, heq => by
      rw [List.replicate_succ, List.cons_append, serializeIpv6From]
      simp only [if_neg (Nat.ne_of_gt hlt), if_pos (show start < i ∧ i < start + len by omega)]
      exact serializeIpv6From_within after k (by omega) (by omega)

/-- Before the run, and all that follows. -/
theorem serializeIpv6From_before {start len : Nat} (after : List UInt16) (hlen : 2 ≤ len) :
    ∀ {i : Nat} (before : List UInt16), i + before.length = start →
    serializeIpv6From (some (start, len)) i (before ++ List.replicate len 0 ++ after) =
      joinedPieces before ++ ':' :: ':' :: joinedPieces after
  | i, [], heq => by
      obtain ⟨k, rfl⟩ : ∃ k, len = k + 1 := ⟨len - 1, by omega⟩
      rw [List.length_nil, Nat.add_zero] at heq
      rw [List.nil_append, List.replicate_succ, List.cons_append, serializeIpv6From]
      simp only [if_pos heq]
      rw [serializeIpv6From_within (i := i + 1) after k (by omega) (by omega)]
      rfl
  | i, p :: before, heq => by
      rw [List.length_cons] at heq
      have ih := @serializeIpv6From_before start len after hlen (i + 1) before (by omega)
      rw [List.cons_append, List.cons_append, serializeIpv6From, ih]
      simp only [if_neg (show ¬ i = start by omega), if_neg (show ¬ (start < i ∧ i < start + len) by omega)]
      cases before with
      | nil => simp [joinedPieces, show i + 1 = start by simpa using heq]
      | cons q rest =>
          have hne : ¬ i + 1 = start := by
            rw [List.length_cons] at heq
            omega
          simp [joinedPieces_cons, hne]

/-- An address as text: its pieces, or those before and behind a run of zeros that is left out. -/
theorem serializeIpv6_cases (pieces : List UInt16) :
    serializeIpv6 pieces = joinedPieces pieces ∨
      ∃ before len after, pieces = before ++ List.replicate len 0 ++ after ∧ 2 ≤ len ∧
        serializeIpv6 pieces = joinedPieces before ++ ':' :: ':' :: joinedPieces after := by
  unfold serializeIpv6
  cases h : longestZeroRun 0 pieces with
  | none => exact Or.inl (serializeIpv6From_none 0 pieces)
  | some run =>
      obtain ⟨start, len⟩ := run
      obtain ⟨before, after, rfl, hstart, hlen⟩ := longestZeroRun_spec h
      exact Or.inr ⟨before, len, after, rfl, hlen, serializeIpv6From_before after hlen before hstart⟩

/-! ## Reading an IPv6 address -/

theorem digits_hex (p : UInt16) : digits 16 0 (hex p) = some p.toNat := digits_toDigits (by decide) (by decide) _

theorem hex_ne_nil (p : UInt16) : hex p ≠ [] := Nat.toDigits_ne_nil

theorem not_mem_hex (hc : toDigit 16 c = none) (p : UInt16) : c ∉ hex p :=
  not_mem_of_digits hc (digits_hex p)

theorem isHexDigit_of_digits {radix : Nat} {c : Char} : ∀ {s : Text} {acc n : Nat}, digits radix acc s = some n →
    c ∈ s → (toDigit radix c).isSome = true
  | d :: s, acc, n, h, hc => by
      obtain ⟨v, hv, hrest⟩ := Option.bind_eq_some_iff.mp h
      rcases List.mem_cons.mp hc with rfl | hc
      · rw [hv]
        rfl
      · exact isHexDigit_of_digits hrest hc

/-- A character of the text of an address, without the brackets. -/
theorem mem_joinedPieces (h : c ∈ joinedPieces pieces) : c = ':' ∨ ∃ d < 16, c = d.digitChar := by
  rcases mem_intercalate h with rfl | ⟨p, hp, hc⟩
  · exact Or.inl rfl
  · obtain ⟨n, _, rfl⟩ := List.mem_map.mp hp
    exact Or.inr (mem_toDigits (by decide) _ hc)

theorem joinedPieces_head (p : UInt16) (pieces : List UInt16) :
    ∃ c t, joinedPieces (p :: pieces) = c :: t ∧ c ≠ ':' := by
  obtain ⟨c, t, ht⟩ := List.exists_cons_of_ne_nil (hex_ne_nil p)
  have hc : c ≠ ':' := by
    rintro rfl
    exact not_mem_hex (c := ':') (by decide) p (by rw [ht]; exact List.mem_cons_self)
  cases pieces with
  | nil => exact ⟨c, t, by rw [joinedPieces_singleton, ht], hc⟩
  | cons q rest => exact ⟨c, _, by rw [joinedPieces_cons (List.cons_ne_nil q rest), ht, List.cons_append], hc⟩

/-- No two colons follow each other in pieces that are joined. -/
theorem splitOnceText_joinedPieces (rest : Text) : ∀ pieces : List UInt16,
    splitOnceText [':', ':'] (joinedPieces pieces ++ rest) =
      (splitOnceText [':', ':'] rest).map fun p => (joinedPieces pieces ++ p.1, p.2)
  | [] => by simp [joinedPieces]
  | [p] => by
      rw [joinedPieces_singleton]
      exact splitOnceText_append (not_mem_hex (by decide) p) rest
  | p :: q :: pieces => by
      have ih := splitOnceText_joinedPieces rest (q :: pieces)
      obtain ⟨c, t, heq, hc⟩ := joinedPieces_head q pieces
      have hno : ([':', ':'].isPrefixOf (':' :: (joinedPieces (q :: pieces) ++ rest))) = false := by
        rw [heq]
        simp [List.isPrefixOf, Ne.symm hc]
      rw [joinedPieces_cons (List.cons_ne_nil _ _), List.append_assoc,
        splitOnceText_append (not_mem_hex (by decide) p), List.cons_append, splitOnceText, hno, ih,
        if_neg (by decide), Option.map_map, Option.map_map]
      congr 1
      funext x
      simp

theorem isAscii_of_digits {radix acc n : Nat} (h : digits radix acc s = some n) : s.isAscii := by
  refine List.all_eq_true.mpr fun c hc => decide_eq_true ?_
  have hsome := isHexDigit_of_digits h hc
  show c.toNat ≤ 127
  by_contra hbig
  have hnone : toDigit radix c = none := by
    unfold toDigit
    simp only [if_neg (show ¬ (0x30 ≤ c.toNat ∧ c.toNat ≤ 0x39) by omega),
      if_neg (show ¬ (0x61 ≤ c.toNat ∧ c.toNat ≤ 0x7a) by omega),
      if_neg (show ¬ (0x41 ≤ c.toNat ∧ c.toNat ≤ 0x5a) by omega), Option.filter_none]
  rw [hnone] at hsome
  cases hsome

theorem ipv6Group_hex (v4 : Bool) (p : UInt16) : ipv6Group v4 (hex p) = some [p] := by
  have hdot : (hex p).contains '.' = false := by
    simpa using not_mem_hex (c := '.') (by decide) p
  have hlen : ¬ 4 < (hex p).len := by
    rw [len_of_isAscii (isAscii_of_digits (digits_hex p))]
    exact Nat.not_lt.mpr (hex_length p)
  have hall : ((hex p).all fun c => (toDigit 16 c).isSome) = true :=
    List.all_eq_true.mpr fun c hc => isHexDigit_of_digits (digits_hex p) hc
  have hparse : parseUnsigned 16 65536 (hex p) = some p.toNat :=
    parseUnsigned_toDigits (by decide) (by decide) (UInt16.toNat_lt p)
  unfold ipv6Group
  rw [hdot, Bool.and_false]
  simp only [Bool.false_eq_true, if_false, List.isEmpty_iff, hex_ne_nil p, decide_false, hlen, hall, Bool.not_true,
    Bool.or_false, hparse, Option.bind_eq_bind, Option.bind_some, UInt16.ofNat_toNat]

/-- Each of the texts is one group. -/
theorem mapIdx_group : ∀ (pieces : List UInt16) (v4 : Nat → Bool),
    (pieces.map hex).mapIdx (fun i g => ipv6Group (v4 i) g) = pieces.map fun p => some [p]
  | [], _ => rfl
  | p :: pieces, v4 => by
      rw [List.map_cons, List.mapIdx_cons, ipv6Group_hex, mapIdx_group pieces fun i => v4 (i + 1), List.map_cons]

theorem foldr_groups : ∀ pieces : List UInt16,
    (pieces.map fun p => some [p]).foldr (fun (g rest : Option (List UInt16)) => do
      let g ← g
      let rest ← rest
      some (g ++ rest)) (some []) = some pieces
  | [] => rfl
  | p :: pieces => by
      rw [List.map_cons, List.foldr_cons, foldr_groups pieces]
      rfl

theorem joinedPieces_ne_nil (h : pieces ≠ []) : joinedPieces pieces ≠ [] := by
  obtain ⟨p, rest, rfl⟩ := List.exists_cons_of_ne_nil h
  obtain ⟨c, t, heq, _⟩ := joinedPieces_head p rest
  rw [heq]
  exact List.cons_ne_nil _ _

theorem ipv6Groups_joinedPieces (v4 : Bool) (pieces : List UInt16) :
    ipv6Groups v4 (joinedPieces pieces) = some pieces := by
  unfold ipv6Groups
  cases pieces with
  | nil => rfl
  | cons p rest =>
      have hsplit : (joinedPieces (p :: rest)).splitOn ':' = (p :: rest).map hex := by
        refine List.splitOn_intercalate ':' ?_ (by simp)
        intro t ht
        obtain ⟨n, _, rfl⟩ := List.mem_map.mp ht
        exact not_mem_hex (by decide) n
      rw [if_neg (by simpa using joinedPieces_ne_nil (List.cons_ne_nil p rest)), hsplit]
      dsimp only
      rw [mapIdx_group (p :: rest) fun i => v4 && i + 1 = ((p :: rest).map hex).length]
      exact foldr_groups (p :: rest)

theorem mem_serializeIpv6 (h : c ∈ serializeIpv6 pieces) : c = ':' ∨ ∃ d < 16, c = d.digitChar := by
  rcases serializeIpv6_cases pieces with heq | ⟨before, len, after, _, _, heq⟩
  · exact mem_joinedPieces (heq ▸ h)
  · rw [heq, List.mem_append, List.mem_cons, List.mem_cons] at h
    rcases h with h | h | h | h
    · exact mem_joinedPieces h
    · exact Or.inl h
    · exact Or.inl h
    · exact mem_joinedPieces h

theorem isAscii_serializeIpv6 (pieces : List UInt16) : (serializeIpv6 pieces).isAscii := by
  have hdigit : ∀ d < 16, (Nat.digitChar d).val ≤ 127 := by decide
  refine List.all_eq_true.mpr fun c hc => decide_eq_true ?_
  rcases mem_serializeIpv6 hc with rfl | ⟨d, hd, rfl⟩
  · decide
  · exact hdigit d hd

theorem parseIpv6_serialize (pieces : { l : List UInt16 // l.length = 8 }) :
    parseIpv6 (serializeIpv6 pieces.1) = some pieces := by
  have hlen : ¬ 45 < Text.len (serializeIpv6 pieces.1) := by
    have h := serializeIpv6From_length (longestZeroRun 0 pieces.1) 0 pieces.1
    rw [pieces.2] at h
    rw [len_of_isAscii (isAscii_serializeIpv6 pieces.1), serializeIpv6]
    omega
  have height : ∀ l : List UInt16, l = pieces.1 → eightPieces l = some pieces := by
    rintro l rfl
    exact dif_pos pieces.2
  unfold parseIpv6
  rw [if_neg hlen, show "::".toList = [':', ':'] from rfl]
  rcases serializeIpv6_cases pieces.1 with heq | ⟨before, len, after, hpieces, hrun, heq⟩
  · have hnone := splitOnceText_joinedPieces [] pieces.1
    rw [List.append_nil] at hnone
    rw [heq, hnone]
    simp only [splitOnceText, List.isEmpty_cons, Bool.false_eq_true, if_false, Option.map_none,
      ipv6Groups_joinedPieces, Option.bind_eq_bind, Option.bind_some]
    exact height _ rfl
  · have hsome := splitOnceText_joinedPieces (':' :: ':' :: joinedPieces after) before
    have hhere : splitOnceText [':', ':'] (':' :: ':' :: joinedPieces after) = some ([], joinedPieces after) := rfl
    have htail := splitOnceText_joinedPieces [] after
    rw [List.append_nil] at htail
    rw [hhere, Option.map_some, List.append_nil] at hsome
    have hcount : before.length + len + after.length = 8 := by
      rw [← pieces.2, hpieces, List.length_append, List.length_append, List.length_replicate]
    rw [heq, hsome]
    simp only [containsText_eq, htail, splitOnceText, List.isEmpty_cons, Bool.false_eq_true, if_false,
      Option.map_none, Option.isSome_none, ipv6Groups_joinedPieces, Option.bind_eq_bind, Option.bind_some]
    rw [if_neg (by omega), show 8 - before.length - after.length = len by omega]
    exact height _ hpieces.symm

/-! ## Hosts -/

theorem parseHost_ipv6 (pieces : { l : List UInt16 // l.length = 8 }) :
    parseHost (Host.ipv6 pieces).serialize true = some (.ipv6 pieces) := by
  unfold parseHost
  simp only [Host.serialize, List.cons_append, stripSuffix_append, parseIpv6_serialize, Option.bind_eq_bind,
    Option.bind_some]

/-- A host that was parsed reads back from its text. -/
theorem parseHost_serialize (h : parseHost input true = some host) :
    parseHost host.serialize true = some host := by
  rcases parseHost_cases h with ⟨name, rfl, hname⟩ | ⟨octets, rfl⟩ | ⟨pieces, rfl⟩
  · exact parseHost_name hname
  · exact parseHost_ipv4 octets
  · exact parseHost_ipv6 pieces

theorem lower_serialize (h : parseHost input true = some host) :
    toAsciiLowercase host.serialize = host.serialize := by
  have hmap : ∀ s : Text, (∀ c ∈ s, c.toLower = c) → toAsciiLowercase s = s := fun s hs =>
    (List.map_congr_left hs).trans (List.map_id s)
  rcases parseHost_cases h with ⟨name, rfl, hname⟩ | ⟨octets, rfl⟩ | ⟨pieces, rfl⟩
  · exact hname.lower
  · exact hmap _ fun c hc => (quadChar_allowed (mem_serialize_ipv4 hc)).2.1
  · have hdigit : ∀ d < 16, (Nat.digitChar d).toLower = Nat.digitChar d := by decide
    refine hmap _ fun c hc => ?_
    simp only [Host.serialize, List.cons_append, List.mem_cons, List.mem_append, List.not_mem_nil, or_false] at hc
    rcases hc with rfl | hc | rfl
    · decide
    · rcases mem_serializeIpv6 hc with rfl | ⟨d, hd, rfl⟩
      · decide
      · exact hdigit d hd
    · decide

/-! ## Authorities -/

/-- A text that has to be a host up to a colon: it is in brackets, or it has none. -/
inductive IsHostText : Text → Prop where
  | bracketed {host inner : Text} (heq : host = ('[' :: inner) ++ [']']) (hbracket : ']' ∉ '[' :: inner) :
      IsHostText host
  | plain {host : Text} (hne : host ≠ []) (hhead : host.head? ≠ some '[') (hcolon : ':' ∉ host) :
      IsHostText host

/-- A character that the text of a host may have. -/
def isHostChar (c : Char) : Bool :=
  isGraphic c && c ≠ '/' && c ≠ '?' && c ≠ '#' && c ≠ '\\' && c ≠ '@'

theorem isHostChar_alphanum (h : c.isAlphanum = true) : isHostChar c = true := by
  simp only [isHostChar, isGraphic_alphanum h, Bool.true_and, Bool.and_eq_true, decide_eq_true_eq]
  refine ⟨⟨⟨⟨?_, ?_⟩, ?_⟩, ?_⟩, ?_⟩ <;> (rintro rfl; exact absurd h (by decide))

theorem isHostChar_hex (h : (toDigit 16 c).isSome = true) : isHostChar c = true := by
  have hgraphic : isGraphic c = true := by
    obtain ⟨d, hd⟩ := Option.isSome_iff_exists.mp h
    simp only [toDigit] at hd
    obtain ⟨hd, _⟩ := Option.filter_eq_some_iff.mp hd
    split at hd
    · rename_i hrange
      exact isGraphic_of_range hrange (by decide) (by decide)
    · split at hd
      · rename_i hrange
        exact isGraphic_of_range hrange (by decide) (by decide)
      · split at hd
        · rename_i hrange
          exact isGraphic_of_range hrange (by decide) (by decide)
        · cases hd
  simp only [isHostChar, hgraphic, Bool.true_and, Bool.and_eq_true, decide_eq_true_eq]
  refine ⟨⟨⟨⟨?_, ?_⟩, ?_⟩, ?_⟩, ?_⟩ <;> (rintro rfl; exact absurd h (by decide))

theorem isHostChar_iff : isHostChar c = true ↔
    isGraphic c = true ∧ c ≠ '/' ∧ c ≠ '?' ∧ c ≠ '#' ∧ c ≠ '\\' ∧ c ≠ '@' := by
  simp only [isHostChar, Bool.and_eq_true, decide_eq_true_eq, and_assoc]

/-- The port of a URL as text, after its colon. -/
def portText : Option UInt16 → Option Text
  | some p => some (Nat.toDigits 10 p.toNat)
  | none => none

/-- An authority of a host and a port. -/
def authorityText (host : Text) (port : Option UInt16) : Text :=
  host ++
    match port with
    | some p => ':' :: Nat.toDigits 10 p.toNat
    | none => []

theorem digit_port {p : UInt16} (hc : c ∈ Nat.toDigits 10 p.toNat) : c.isDigit = true :=
  Nat.isDigit_of_mem_toDigits (by decide) (by decide) hc

theorem len_port (p : UInt16) : Text.len (Nat.toDigits 10 p.toNat) ≤ 5 := by
  rw [len_of_isAscii (isAscii_of_isGraphic fun c hc => isGraphic_digit (digit_port hc))]
  exact (Nat.length_toDigits_le_iff (by decide) (by decide)).mpr
    (Nat.lt_of_lt_of_le (UInt16.toNat_lt p) (by decide))

theorem splitHostPort_authorityText {host : Text} (h : IsHostText host) (port : Option UInt16) :
    splitHostPort (authorityText host port) = some (host, portText port) := by
  cases h with
  | bracketed heq hbracket =>
      rw [heq]
      unfold authorityText splitHostPort
      rw [if_pos (by simp)]
      cases port with
      | none =>
          rw [List.append_nil, splitOnce_append hbracket []]
          rfl
      | some p =>
          rw [List.append_assoc, List.singleton_append, splitOnce_append hbracket]
          rfl
  | plain hne hhead hcolon =>
      have hhead' : ∀ t, (host ++ t).head? ≠ some '[' := by
        intro t
        rwa [List.head?_append_of_ne_nil _ hne]
      unfold authorityText splitHostPort
      rw [if_neg (hhead' _)]
      cases port with
      | none => simp only [List.append_nil, rsplitOnce_eq_none hcolon, portText]
      | some p =>
          have hdigits : ':' ∉ Nat.toDigits 10 p.toNat := fun hc => absurd (digit_port hc) (by decide)
          simp only [rsplitOnce_append hdigits, portText]

end Pelorus.Websec
