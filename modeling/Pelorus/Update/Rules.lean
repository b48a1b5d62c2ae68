import Pelorus.Update.Manifest

/-
  Update/Rules.lean --- the field rules of a manifest, and what the parser's field
  readers do on what the encoder writes.

  The rules are stated on VALUES: nothing here speaks of a text except where the
  rule itself is about one (a token, a path).  A reader applied to a written field
  gives the field back; a field that was read keeps its rule.
-/
set_option autoImplicit false

namespace Pelorus.Update

open Lib Lib.Text

/-! ## The rules -/

/-- Components of at most nine digits. -/
structure Version.Valid (v : Version) : Prop where
  major : v.major.toNat < 10 ^ 9
  minor : v.minor.toNat < 10 ^ 9
  patch : v.patch.toNat < 10 ^ 9

/-- A size from 1 to the cap, and a plain relative path. -/
structure FileRef.Valid (cap : UInt64) (f : FileRef) : Prop where
  size_ne : f.size ≠ 0
  size_le : f.size ≤ cap
  path : validPath f.path = true

structure Artifact.Valid (a : Artifact) : Prop where
  platform : isToken a.platform 32 = true
  file : a.file.Valid MAX_ARTIFACT_SIZE

structure DataEntry.Valid (d : DataEntry) : Prop where
  version : dateToUnix d.version ≠ none
  file : d.file.Valid MAX_DATA_SIZE

/-- Issued at a time, and valid for a while of at most 90 days. -/
structure Window (issued expires : UInt64) : Prop where
  issued_ne : issued ≠ 0
  issued_lt : issued < expires
  expires_le : expires.toNat ≤ issued.toNat + MAX_VALIDITY_SECS.toNat

structure Release.Valid (r : Release) : Prop where
  channel : isToken r.channel 16 = true
  keyEpoch : 1 ≤ r.keyEpoch
  sequence : 1 ≤ r.sequence
  window : Window r.issued r.expires
  version : r.version.Valid
  count : r.artifacts.length ≤ MAX_ARTIFACTS
  artifacts : ∀ a ∈ r.artifacts, a.Valid
  platforms : r.artifacts.Pairwise fun a b => a.platform < b.platform
  data : ∀ d ∈ r.data, d.Valid
  kinds : r.data.Pairwise fun d e => d.kind.rank < e.kind.rank

structure Rotation.Valid (r : Rotation) : Prop where
  keyEpoch : 2 ≤ r.keyEpoch
  window : Window r.issued r.expires
  count : r.keys.length ≤ MAX_KEYS
  keys : r.keys.Pairwise fun k l => k.1 < l.1
  threshold_pos : 1 ≤ r.threshold
  threshold_le : r.threshold.toNat ≤ r.keys.length

/-- The field rules of a manifest. -/
def Manifest.Valid : Manifest → Prop
  | .release r => r.Valid
  | .rotation r => r.Valid

/-! ## Characters of the fields -/

/-- Every character is graphic: the text holds neither a space nor a line end. -/
def Graphic (s : Text) : Prop := ∀ c ∈ s, isGraphic c = true

instance (s : Text) : Decidable (Graphic s) :=
  decidable_of_iff (s.all isGraphic = true) List.all_eq_true

variable {s : Text} {cap : UInt64} {f : FileRef}

theorem Graphic.no_space (h : Graphic s) : ' ' ∉ s := fun hmem =>
  absurd (h ' ' hmem) (by decide)

theorem Graphic.isAscii (h : Graphic s) : s.isAscii = true := isAscii_of_isGraphic h

theorem Graphic.len (h : Graphic s) : s.len = s.length := len_of_isAscii h.isAscii

theorem Graphic.append {t : Text} (hs : Graphic s) (ht : Graphic t) : Graphic (s ++ t) := by
  intro c hc
  rcases List.mem_append.mp hc with hc | hc
  · exact hs c hc
  · exact ht c hc

theorem Graphic.cons {c : Char} {s : Text} (hc : isGraphic c = true) (hs : Graphic s) :
    Graphic (c :: s) := by
  intro d hd
  rcases List.mem_cons.mp hd with rfl | hd
  · exact hc
  · exact hs d hd

theorem graphic_decimal (n : Nat) : Graphic (decimal n) := fun _ hc =>
  isGraphic_digit (Nat.isDigit_of_mem_toDigits (by decide) (by decide) hc)

theorem graphic_encode (bytes : Bytes) : Graphic (Hex.encode bytes) := by
  have hall : ∀ d < 16, isGraphic d.digitChar = true := by decide
  intro c hc
  obtain ⟨d, hd, rfl⟩ := Hex.mem_encode hc
  exact hall d hd

theorem graphic_of_isToken {max : Nat} (h : isToken s max = true) : Graphic s := by
  simp only [isToken, Bool.and_eq_true, List.all_eq_true] at h
  intro c hc
  have hchar := h.2 c hc
  simp only [isTokenChar, Bool.or_eq_true, decide_eq_true_eq] at hchar
  rcases hchar with ((hlower | hdigit) | rfl) | rfl
  · exact isGraphic_lower hlower
  · exact isGraphic_digit hdigit
  · rfl
  · rfl

theorem graphic_of_validPath {p : Text} (h : validPath p = true) : Graphic p := by
  simp only [validPath, Bool.and_eq_true] at h
  intro c hc
  have hchar := List.all_eq_true.mp h.1.2 c hc
  simp only [isPathChar, Bool.or_eq_true, decide_eq_true_eq] at hchar
  rcases hchar with (((halphanum | rfl) | rfl) | rfl) | rfl
  · exact isGraphic_alphanum halphanum
  · rfl
  · rfl
  · rfl
  · rfl

theorem graphic_name (k : DataKind) : Graphic k.name := by
  cases k <;> decide

theorem graphic_version (v : Version) : Graphic v.text :=
  (graphic_decimal _).append (.cons rfl ((graphic_decimal _).append (.cons rfl (graphic_decimal _))))

/-! ## Lengths of the fields -/

theorem length_decimal_le {n k : Nat} (hk : 0 < k) (h : n < 10 ^ k) : (decimal n).length ≤ k :=
  (Nat.length_toDigits_le_iff (by decide) hk).mpr h

theorem length_of_isToken {max : Nat} (h : isToken s max = true) : s ≠ [] ∧ s.length ≤ max := by
  have hlen := (graphic_of_isToken h).len
  simp only [isToken, Bool.and_eq_true, Bool.not_eq_true', decide_eq_true_eq,
    List.isEmpty_eq_false_iff] at h
  exact ⟨h.1.1, hlen ▸ h.1.2⟩

theorem length_of_validPath {p : Text} (h : validPath p = true) : p.length ≤ 128 := by
  have hlen := (graphic_of_validPath h).len
  simp only [validPath, Bool.and_eq_true, decide_eq_true_eq] at h
  exact hlen ▸ h.1.1.2

theorem length_fileFields_le (h : f.Valid cap) : (fileFields f).length ≤ 343 := by
  have hsize := @length_decimal_le f.size.toNat 20 (by decide)
    (Nat.lt_of_lt_of_le f.size.toNat_lt (by decide))
  have hpath := length_of_validPath h.path
  have h256 : (Hex.encode f.sha256.1).length = 64 := by rw [Hex.length_encode, f.sha256.2]
  have h512 : (Hex.encode f.sha512.1).length = 128 := by rw [Hex.length_encode, f.sha512.2]
  simp only [fileFields, List.length_append, List.length_cons]
  omega

/-! ## Numbers -/

theorem isDecimal_decimal {n max : Nat} (hmax : 0 < max) (h : n < 10 ^ max) :
    isDecimal max (decimal n) = true := by
  have hne : decimal n ≠ [] := Nat.toDigits_ne_nil
  have hlen : (decimal n).len ≤ max := by
    rw [(graphic_decimal n).len]
    exact length_decimal_le hmax h
  have hdigits : (decimal n).all Char.isDigit = true := List.all_eq_true.mpr fun c hc =>
    Nat.isDigit_of_mem_toDigits (by decide) (by decide) hc
  simp [isDecimal, hne, hlen, hdigits]

theorem hasLeadingZero_decimal (n : Nat) : hasLeadingZero (decimal n) = false := by
  cases n with
  | zero => rfl
  | succ n =>
      have hhead := Numerals.head?_toDigits (Nat.succ_pos n)
      simp only [hasLeadingZero, decimal, hhead, decide_false, Bool.and_false]

theorem decU64_decimal (n : UInt64) : decU64 (decimal n.toNat) = .ok n := by
  have hdec := @isDecimal_decimal n.toNat 20 (by decide) (Nat.lt_of_lt_of_le n.toNat_lt (by decide))
  have hparse : Numerals.parseUnsigned 10 (2 ^ 64) (decimal n.toNat) = some n.toNat :=
    Numerals.parseUnsigned_toDigits (by decide) (by decide) n.toNat_lt
  rw [decU64, if_neg (not_not_intro hdec), hasLeadingZero_decimal, if_neg Bool.false_ne_true, hparse]
  simp

theorem decU32_decimal (n : UInt32) : decU32 (decimal n.toNat) = .ok n := by
  have hlt : n.toNat < 2 ^ 32 := n.toNat_lt
  have hread : decU64 (decimal n.toNat) = .ok n.toUInt64 := by
    rw [← decU64_decimal n.toUInt64, UInt32.toNat_toUInt64]
  rw [decU32, hread]
  simp only [bind, Except.bind, UInt32.toNat_toUInt64, hlt, if_true, UInt32.toUInt32_toUInt64]

/-! ## Versions and dates -/

theorem component_decimal {n : UInt32} (h : n.toNat < 10 ^ 9) :
    Version.component (decimal n.toNat) = some n := by
  have hdec := @isDecimal_decimal n.toNat 9 (by decide) h
  have hparse : Numerals.parseUnsigned 10 (2 ^ 32) (decimal n.toNat) = some n.toNat :=
    Numerals.parseUnsigned_toDigits (by decide) (by decide) n.toNat_lt
  rw [Version.component, if_neg (not_not_intro hdec), hasLeadingZero_decimal,
    if_neg Bool.false_ne_true, hparse]
  simp

theorem component_lt {n : UInt32} (h : Version.component s = some n) : n.toNat < 10 ^ 9 := by
  unfold Version.component at h
  split at h
  · cases h
  · rename_i hdec
    split at h
    · cases h
    · obtain ⟨m, hparse, rfl⟩ := Option.map_eq_some_iff.mp h
      simp only [isDecimal, Bool.and_eq_true, not_not, decide_eq_true_eq, List.all_eq_true] at hdec
      obtain ⟨⟨-, hlen⟩, hdigits⟩ := hdec
      have hgraphic : Graphic s := fun c hc => isGraphic_digit (hdigits c hc)
      rw [hgraphic.len] at hlen
      have hplus : '+' ∉ s := fun hmem => absurd (hdigits _ hmem) (by decide)
      rw [Numerals.parseUnsigned_eq_magnitude hplus] at hparse
      have hlt := Numerals.digits_lt (Numerals.digits_of_magnitude hparse)
      have hpow : 10 ^ s.length ≤ 10 ^ 9 := Nat.pow_le_pow_right (by decide) hlen
      rw [UInt32.toNat_ofNat']
      exact Nat.lt_of_le_of_lt (Nat.mod_le _ _) (by omega)

theorem splitOn_versionText (v : Version) : v.text.splitOn '.' =
    [decimal v.major.toNat, decimal v.minor.toNat, decimal v.patch.toNat] := by
  have hdot : ∀ n : Nat, '.' ∉ decimal n := fun n =>
    Numerals.not_mem_toDigits (by decide) (by decide) rfl n
  have hpieces : ∀ l ∈ [decimal v.minor.toNat, decimal v.patch.toNat], '.' ∉ l := by simp [hdot]
  have hled := splitOn_led '.' (hdot v.major.toNat) hpieces
  simpa [Version.text, decimal] using hled

theorem Version.parse_text {v : Version} (h : v.Valid) : Version.parse v.text = some v := by
  rw [Version.parse, splitOn_versionText]
  simp only [component_decimal h.major, component_decimal h.minor, component_decimal h.patch,
    Option.bind_eq_bind, Option.bind_some]

theorem Version.valid_of_parse {v : Version} (h : Version.parse s = some v) : v.Valid := by
  unfold Version.parse at h
  split at h
  · simp only [Option.bind_eq_bind, Option.bind_eq_some_iff, Option.some.injEq] at h
    obtain ⟨major, hmajor, minor, hminor, patch, hpatch, rfl⟩ := h
    exact ⟨component_lt hmajor, component_lt hminor, component_lt hpatch⟩
  · cases h

theorem DataKind.parse_name (k : DataKind) : DataKind.parse k.name = some k := by
  cases k <;> rfl

theorem validity_iff {issued expires : UInt64} :
    validity issued expires = .ok () ↔ Window issued expires := by
  have hwindow : Window issued expires ↔
      issued ≠ 0 ∧ issued < expires ∧ expires.toNat ≤ issued.toNat + MAX_VALIDITY_SECS.toNat :=
    ⟨fun h => ⟨h.1, h.2, h.3⟩, fun h => ⟨h.1, h.2.1, h.2.2⟩⟩
  rw [hwindow, validity]
  split
  · rename_i h
    refine ⟨fun h => (by cases h), fun hw => ?_⟩
    rcases h with h | h
    · exact absurd h hw.1
    · exact absurd hw.2.1 (UInt64.not_lt.mpr h)
  · rename_i h
    obtain ⟨hne, hlt⟩ := not_or.mp h
    have hlt := UInt64.not_le.mp hlt
    have hsub := UInt64.toNat_sub_of_le expires issued (UInt64.le_of_lt hlt)
    have hlt' := UInt64.lt_iff_toNat_lt.mp hlt
    split
    · rename_i hlong
      rw [UInt64.lt_iff_toNat_lt, hsub] at hlong
      refine ⟨fun h => (by cases h), fun hw => ?_⟩
      have := hw.2.2
      omega
    · rename_i hshort
      rw [UInt64.not_lt, UInt64.le_iff_toNat_le, hsub] at hshort
      exact ⟨fun _ => ⟨hne, hlt, by omega⟩, fun _ => rfl⟩

/-! ## Files -/

theorem fileRef_written (h : f.Valid cap) :
    fileRef (decimal f.size.toNat) (Hex.encode f.sha256.1) (Hex.encode f.sha512.1) f.path cap =
      .ok f := by
  have hsize : ¬ (f.size = 0 ∨ cap < f.size) :=
    not_or.mpr ⟨h.size_ne, UInt64.not_lt.mpr h.size_le⟩
  rw [fileRef, decU64_decimal]
  simp only [bind, Except.bind, hsize, if_false, Hex.decodeFixed_encode, h.path, not_true]

theorem valid_of_fileRef {size sha256 sha512 path : Text}
    (h : fileRef size sha256 sha512 path cap = .ok f) : f.Valid cap := by
  unfold fileRef at h
  cases hn : decU64 size with
  | error e =>
      rw [hn] at h
      cases h
  | ok n =>
      rw [hn] at h
      simp only [bind, Except.bind] at h
      split at h
      · cases h
      · rename_i hrange
        obtain ⟨hne, hle⟩ := not_or.mp hrange
        split at h
        · cases h
        · split at h
          · cases h
          · split at h
            · cases h
            · rename_i hpath
              cases h
              exact ⟨hne, UInt64.not_lt.mp hle, not_not.mp hpath⟩

end Pelorus.Update
