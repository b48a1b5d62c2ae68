import Mathlib.Data.List.Lex
import Pelorus.Net.Partition
import Pelorus.Store.Format

/-
  Store/PartId.lean --- the keys of the store: namespaces, partition ids and entry
  keys (`px-store/src/engine.rs`).

  A partition id is a partition key reduced to what is stored, and its fields are
  length-prefixed on disk.  `Stored` is what `from_key` establishes of it; an id
  that is stored and ASCII is read back as it was written (`decode_encoding`), and
  nothing else decodes (`decode_sound`).
-/
set_option autoImplicit false

namespace Pelorus.Store

open Lib Lib.Bytes

/-- A documented cap was hit; the write did not happen. -/
inductive QuotaError where
  | keyTooLarge (len : Nat)
  | valueTooLarge (len : Nat)
  | tooManyEntries
  | partitionFull (wouldUse : Nat)
  | globalFull (wouldUse : Nat)
  | partitionKeyTooLarge
  deriving DecidableEq, Repr

/-! ## Namespaces -/

/-- What a stored value is for. -/
inductive Namespace where
  | storage
  | cookies
  deriving DecidableEq, Repr

namespace Namespace

def code : Namespace → UInt8
  | storage => 0
  | cookies => 1

def fromCode (code : UInt8) : Option Namespace :=
  if code = 0 then some storage
  else if code = 1 then some cookies
  else none

@[simp] theorem fromCode_code (ns : Namespace) : fromCode ns.code = some ns := by
  cases ns <;> rfl

theorem code_of_fromCode {code : UInt8} {ns : Namespace} (h : fromCode code = some ns) :
    ns.code = code := by
  unfold fromCode at h
  split at h
  · rename_i hcode
    cases h
    exact hcode.symm
  · split at h
    · rename_i hcode
      cases h
      exact hcode.symm
    · cases h

end Namespace

/-! ## Partition ids -/

/-- `slice::is_ascii`. -/
def isAscii (bytes : Bytes) : Bool := bytes.all fun b => b < 128

/-- `"https"` and `"http"`. -/
def HTTPS : Bytes := Text.utf8 "https".toList

def HTTP : Bytes := Text.utf8 "http".toList

/-- A partition key reduced to what is stored.  The texts are in UTF-8, which is
also what their order compares. -/
structure PartId where
  site : Bytes
  scheme : Bytes
  host : Bytes
  port : UInt16
  deriving Repr

namespace PartId

/-- One length-prefixed field; a length past `u16` does not encode. -/
def encodeField (field : Bytes) : Option Bytes :=
  if field.length < 2 ^ 16 then some (leBytes 2 field.length ++ field) else none

/-- `PartId::encode`: `site_len u16, site, scheme_len u16, scheme, host_len u16,
host, port u16`. -/
def encode (id : PartId) : Option Bytes := do
  let site ← encodeField id.site
  let scheme ← encodeField id.scheme
  let host ← encodeField id.host
  return site ++ scheme ++ host ++ leBytes 2 id.port.toNat

def fromKey (key : Net.PartitionKey) : Except QuotaError PartId :=
  let id : PartId :=
    { site := key.topLevelSite.utf8
      scheme := key.origin.scheme.utf8
      host := key.origin.host.utf8
      port := key.origin.port }
  match id.encode with
  | none => .error .partitionKeyTooLarge
  | some bytes =>
      if bytes.length > MAX_PARTITION_ID_BYTES then .error .partitionKeyTooLarge else .ok id

/-- The `field` closure of `PartId::decode`. -/
def decodeField (bytes : Bytes) : Option (Bytes × Bytes) := do
  let (len, r) ← number? 2 bytes
  let (raw, r) ← take? len r
  if isAscii raw then some (raw, r) else none

def decode (bytes : Bytes) : Option PartId := do
  let (site, r) ← decodeField bytes
  let (scheme, r) ← decodeField r
  let (host, r) ← decodeField r
  let (port, r) ← number? 2 r
  if r ≠ [] ∨ site = [] ∨ host = [] then none
  else if scheme ≠ HTTPS ∧ scheme ≠ HTTP then none
  else some ⟨site, scheme, host, UInt16.ofNat port⟩

/-- The order `derive(PartialOrd, Ord)` gives: field by field, each bytewise. -/
def rank (id : PartId) : List (List Nat) :=
  [id.site.map UInt8.toNat, id.scheme.map UInt8.toNat, id.host.map UInt8.toNat, [id.port.toNat]]

theorem rank_injective : Function.Injective rank := by
  intro a b h
  have hinj : Function.Injective (List.map UInt8.toNat) :=
    List.map_injective_iff.mpr fun x y hxy => UInt8.toNat_inj.mp hxy
  simp only [rank, List.cons.injEq, and_true] at h
  obtain ⟨hsite, hscheme, hhost, hport⟩ := h
  cases a
  cases b
  simp only [PartId.mk.injEq]
  exact ⟨hinj hsite, hinj hscheme, hinj hhost, UInt16.toNat_inj.mp hport⟩

instance : LinearOrder PartId := LinearOrder.lift' rank rank_injective

/-! ## What is stored of an id -/

/-- What `from_key` establishes of an id. -/
structure Stored (id : PartId) : Prop where
  site_ne_nil : id.site ≠ []
  host_ne_nil : id.host ≠ []
  scheme_ok : id.scheme = HTTPS ∨ id.scheme = HTTP
  fits : 8 + id.site.length + id.scheme.length + id.host.length ≤ MAX_PARTITION_ID_BYTES

/-- Every text of the id is ASCII. -/
def Ascii (id : PartId) : Prop := isAscii id.site ∧ isAscii id.host

instance (id : PartId) : Decidable id.Ascii := inferInstanceAs (Decidable (_ ∧ _))

/-- One field as written. -/
def field (bytes : Bytes) : Bytes := leBytes 2 bytes.length ++ bytes

/-- The bytes `encode` writes. -/
def encoding (id : PartId) : Bytes :=
  field id.site ++ field id.scheme ++ field id.host ++ leBytes 2 id.port.toNat

theorem length_encoding (id : PartId) :
    id.encoding.length = 8 + id.site.length + id.scheme.length + id.host.length := by
  simp [encoding, field]
  omega

variable {id : PartId} {bytes : Bytes}

theorem encode_eq_some (h : id.encode = some bytes) : bytes = id.encoding := by
  simp only [encode, encodeField, Option.bind_eq_bind, Option.bind_eq_some_iff] at h
  obtain ⟨site, hsite, scheme, hscheme, host, hhost, h⟩ := h
  split at hsite
  · split at hscheme
    · split at hhost
      · cases hsite
        cases hscheme
        cases hhost
        cases h
        rfl
      · cases hhost
    · cases hscheme
  · cases hsite

theorem encode_of_fits
    (h : 8 + id.site.length + id.scheme.length + id.host.length ≤ MAX_PARTITION_ID_BYTES) :
    id.encode = some id.encoding := by
  simp only [MAX_PARTITION_ID_BYTES] at h
  have hsite : id.site.length < 2 ^ 16 := by omega
  have hscheme : id.scheme.length < 2 ^ 16 := by omega
  have hhost : id.host.length < 2 ^ 16 := by omega
  simp only [encode, encodeField, if_pos hsite, if_pos hscheme, if_pos hhost,
    Option.bind_eq_bind, Option.bind_some]
  rfl

theorem Stored.encode_eq (h : id.Stored) : id.encode = some id.encoding :=
  encode_of_fits h.fits

theorem Stored.length_le (h : id.Stored) : id.encoding.length ≤ MAX_PARTITION_ID_BYTES := by
  rw [length_encoding]
  exact h.fits

theorem isAscii_utf8 {s : Text} (h : s.isAscii) : isAscii s.utf8 := by
  simp only [isAscii, List.all_eq_true, decide_eq_true_eq]
  exact Text.all_utf8_lt h

theorem isAscii_of_utf8 {s : Text} (h : isAscii s.utf8) : s.isAscii :=
  Text.isAscii_of_utf8_lt fun b hb => of_decide_eq_true (List.all_eq_true.mp h b hb)

/-- A scheme is ASCII. -/
theorem isAscii_scheme {scheme : Bytes} (h : scheme = HTTPS ∨ scheme = HTTP) : isAscii scheme := by
  rcases h with rfl | rfl <;> decide

theorem fromKey_eq_ok {key : Net.PartitionKey} (h : fromKey key = .ok id) :
    id.Stored ∧ id.site = key.topLevelSite.utf8 ∧ isAscii id.host := by
  have hv := key.origin.valid
  simp only [fromKey] at h
  split at h
  · cases h
  · rename_i bytes hbytes
    split at h
    · cases h
    · rename_i hle
      cases h
      have hlen := length_encoding
        ⟨key.topLevelSite.utf8, key.origin.scheme.utf8, key.origin.host.utf8, key.origin.port⟩
      rw [← encode_eq_some hbytes] at hlen
      refine ⟨⟨?_, ?_, ?_, ?_⟩, rfl, isAscii_utf8 hv.host_ascii⟩
      · simpa using key.site_ne_nil
      · simpa using hv.host_ne_nil
      · rcases hv.scheme_ok with hs | hs
        · exact Or.inl (by rw [HTTPS, ← hs])
        · exact Or.inr (by rw [HTTP, ← hs])
      · simp only at hlen ⊢
        omega

theorem decodeField_field (hlen : bytes.length < 2 ^ 16) (ha : isAscii bytes)
    (rest : Bytes) : decodeField (field bytes ++ rest) = some (bytes, rest) := by
  have hlen' : bytes.length < 256 ^ 2 := by omega
  simp only [decodeField, field, List.append_assoc, number?_append hlen', Option.bind_eq_bind,
    Option.bind_some, take?_append, ha, if_true]

theorem decodeField_sound {raw rest : Bytes} (h : decodeField bytes = some (raw, rest)) :
    bytes = field raw ++ rest ∧ isAscii raw := by
  simp only [decodeField, Option.bind_eq_bind, Option.bind_eq_some_iff] at h
  obtain ⟨⟨len, r⟩, hnum, ⟨raw', r'⟩, htake, h⟩ := h
  obtain ⟨rfl, -⟩ := number?_eq_some.mp hnum
  obtain ⟨rfl, rfl⟩ := take?_eq_some.mp htake
  simp only at h
  split at h
  · rename_i ha
    cases h
    exact ⟨by simp [field], ha⟩
  · cases h

/-- An ASCII id is read back as it was written. -/
theorem decode_encoding (h : id.Stored) (ha : id.Ascii) : decode id.encoding = some id := by
  have hfits := h.fits
  simp only [MAX_PARTITION_ID_BYTES] at hfits
  have hport : id.port.toNat < 256 ^ 2 := id.port.toNat_lt
  have hempty := number?_append hport []
  rw [List.append_nil] at hempty
  have hne : ¬ (([] : Bytes) ≠ [] ∨ id.site = [] ∨ id.host = []) := by
    simp [h.site_ne_nil, h.host_ne_nil]
  have hscheme : ¬ (id.scheme ≠ HTTPS ∧ id.scheme ≠ HTTP) := by
    rintro ⟨h₁, h₂⟩
    rcases h.scheme_ok with hs | hs
    · exact h₁ hs
    · exact h₂ hs
  simp only [decode, encoding, List.append_assoc, Option.bind_eq_bind, Option.bind_some,
    decodeField_field (show id.site.length < 2 ^ 16 by omega) ha.1,
    decodeField_field (show id.scheme.length < 2 ^ 16 by omega) (isAscii_scheme h.scheme_ok),
    decodeField_field (show id.host.length < 2 ^ 16 by omega) ha.2, hempty, if_neg hne,
    if_neg hscheme]
  simp

/-- What decodes is the encoding of the id it decodes to, and that id is ASCII. -/
theorem decode_sound (h : decode bytes = some id) :
    bytes = id.encoding ∧ id.Ascii ∧
      (bytes.length ≤ MAX_PARTITION_ID_BYTES → id.Stored) := by
  simp only [decode, Option.bind_eq_bind, Option.bind_eq_some_iff] at h
  obtain ⟨⟨site, r₁⟩, h₁, ⟨scheme, r₂⟩, h₂, ⟨host, r₃⟩, h₃, ⟨port, r₄⟩, h₄, h⟩ := h
  obtain ⟨rfl, hsite⟩ := decodeField_sound h₁
  obtain ⟨rfl, -⟩ := decodeField_sound h₂
  obtain ⟨rfl, hhost⟩ := decodeField_sound h₃
  obtain ⟨rfl, hport⟩ := number?_eq_some.mp h₄
  simp only at h
  split at h
  · cases h
  · rename_i hne
    simp only [not_or, ne_eq, Decidable.not_not] at hne
    obtain ⟨rfl, hs, hh⟩ := hne
    split at h
    · cases h
    · rename_i hscheme
      cases h
      have hport' : (UInt16.ofNat port).toNat = port := by
        rw [UInt16.toNat_ofNat']
        exact Nat.mod_eq_of_lt hport
      have hbytes : field site ++ (field scheme ++ (field host ++ (leBytes 2 port ++ []))) =
          (PartId.mk site scheme host (UInt16.ofNat port)).encoding := by
        simp [encoding, hport']
      refine ⟨hbytes, ⟨hsite, hhost⟩, ?_⟩
      intro hlen
      rw [hbytes, length_encoding] at hlen
      refine ⟨hs, hh, ?_, hlen⟩
      by_contra hcon
      exact hscheme (not_or.mp hcon)

/-! ## Every id that is written -/

/-- A field tells where it ends. -/
theorem field_append_inj {x y r t : Bytes} (hx : x.length < 2 ^ 16) (hy : y.length < 2 ^ 16)
    (h : field x ++ r = field y ++ t) : x = y ∧ r = t := by
  simp only [field, List.append_assoc] at h
  have hread := @number?_append 2 x.length (by omega) (x ++ r)
  rw [h, number?_append (by omega)] at hread
  obtain ⟨hlength, htail⟩ := Prod.mk.inj (Option.some.inj hread)
  obtain ⟨hxy, hrt⟩ := List.append_inj htail hlength
  exact ⟨hxy.symm, hrt.symm⟩

theorem encode_fits (h : id.encode = some bytes) :
    id.site.length < 2 ^ 16 ∧ id.scheme.length < 2 ^ 16 ∧ id.host.length < 2 ^ 16 := by
  simp only [encode, encodeField, Option.bind_eq_bind, Option.bind_eq_some_iff] at h
  obtain ⟨site, hsite, scheme, hscheme, host, hhost, -⟩ := h
  refine ⟨?_, ?_, ?_⟩
  · by_contra hlong
    rw [if_neg hlong] at hsite
    cases hsite
  · by_contra hlong
    rw [if_neg hlong] at hscheme
    cases hscheme
  · by_contra hlong
    rw [if_neg hlong] at hhost
    cases hhost

theorem eq_of_encode_prefix {a b : PartId} {x y : Bytes} (ha : a.encode = some x) (hb : b.encode = some y)
    (h : x <+: y) : a = b := by
  obtain ⟨hasite, hascheme, hahost⟩ := encode_fits ha
  obtain ⟨hbsite, hbscheme, hbhost⟩ := encode_fits hb
  obtain ⟨rest, heq⟩ := h
  rw [encode_eq_some ha, encode_eq_some hb] at heq
  simp only [encoding, List.append_assoc] at heq
  obtain ⟨hsite, heq⟩ := field_append_inj hasite hbsite heq
  obtain ⟨hscheme, heq⟩ := field_append_inj hascheme hbscheme heq
  obtain ⟨hhost, heq⟩ := field_append_inj hahost hbhost heq
  have hport : a.port.toNat < 256 ^ 2 := a.port.toNat_lt
  have hread := number?_append hport rest
  rw [heq, ← List.append_nil (leBytes 2 b.port.toNat), number?_append (show b.port.toNat < 256 ^ 2 from b.port.toNat_lt)]
    at hread
  have hports := UInt16.toNat_inj.mp (Prod.mk.inj (Option.some.inj hread)).1
  cases a
  cases b
  cases hsite
  cases hscheme
  cases hhost
  cases hports
  rfl

/-- WHAT IS WRITTEN IS READ BACK IF ITS SITE IS ASCII, AND ONLY THEN.  The id of a partition key is
the one its encoding decodes to if and only if the site that the public suffix list gave for the
top-level host is ASCII; ids are told apart by their encodings, and none begins another. -/
theorem written_ids_read_back_iff (psl : Net.PublicSuffixList) :
    (∀ (topLevelHost : Text) (origin : Net.Origin) (key : Net.PartitionKey) (id : PartId),
        Net.PartitionKey.new psl topLevelHost origin = some key → fromKey key = .ok id →
      (id.encode.bind decode = some id ↔ key.topLevelSite.isAscii)) ∧
    ∀ (a b : PartId) (x y : Bytes), a.encode = some x → b.encode = some y → x <+: y → a = b := by
  refine ⟨?_, ?_⟩
  · intro topLevelHost origin key id _ hid
    obtain ⟨hstored, hsite, hhost⟩ := fromKey_eq_ok hid
    rw [hstored.encode_eq, Option.bind_some]
    constructor
    · intro hdecode
      have hascii := (decode_sound hdecode).2.1.1
      rw [hsite] at hascii
      exact isAscii_of_utf8 hascii
    · intro hascii
      refine decode_encoding hstored ⟨?_, hhost⟩
      rw [hsite]
      exact isAscii_utf8 hascii
  · intro a b x y ha hb h
    exact eq_of_encode_prefix ha hb h

theorem sampleOrigin_parts : Net.OriginParts "https".toList "example.com".toList :=
  ⟨Or.inl rfl, by decide, by decide, by decide⟩

/-- `https://example.com:443`. -/
def sampleOrigin : Net.Origin where
  scheme := "https".toList
  host := "example.com".toList
  port := 443
  valid := sampleOrigin_parts

/-- The key of that origin under a top-level site. -/
def sampleKey (site : Text) (h : site ≠ []) : Net.PartitionKey := ⟨site, sampleOrigin, h⟩

def sampleRules : Net.PublicSuffixList := ⟨[("com".toList, .normal)]⟩

/-- The id of the origin under its own site is read back. -/
theorem written_ids_read_back_example :
    ∃ id, fromKey (sampleKey "example.com".toList (by decide)) = .ok id ∧
      (id.encode.bind decode = some id ↔ Text.isAscii "example.com".toList) := by
  refine ⟨⟨Text.utf8 "example.com".toList, HTTPS, Text.utf8 "example.com".toList, 443⟩, by rfl, ?_⟩
  exact (written_ids_read_back_iff sampleRules).1 "www.example.com".toList sampleOrigin
    (sampleKey "example.com".toList (by decide)) _ (by rfl) (by rfl)

/-- A site with an umlaut is written, and what was written is refused. -/
theorem umlaut_site_not_read_back :
    Net.Origin.new "https".toList "example.com".toList 443 = some sampleOrigin ∧
    Net.PartitionKey.new sampleRules "bücher.com".toList sampleOrigin =
      some (sampleKey "bücher.com".toList (by decide)) ∧
    ∃ id bytes, fromKey (sampleKey "bücher.com".toList (by decide)) = .ok id ∧
      id.encode = some bytes ∧ decode bytes = none := by
  refine ⟨by rfl, by rfl, ⟨Text.utf8 "bücher.com".toList, HTTPS, Text.utf8 "example.com".toList, 443⟩, _,
    by rfl, by rfl, by rfl⟩

end PartId

/-- The key of an entry inside a partition: namespace code and key. -/
structure EntryKey where
  ns : UInt8
  key : Bytes
  deriving Repr

namespace EntryKey

/-- Tuples compare the namespace first, then the key bytewise. -/
def rank (k : EntryKey) : List Nat := k.ns.toNat :: k.key.map UInt8.toNat

theorem rank_injective : Function.Injective rank := by
  intro a b h
  have hinj : Function.Injective (List.map UInt8.toNat) :=
    List.map_injective_iff.mpr fun x y hxy => UInt8.toNat_inj.mp hxy
  simp only [rank, List.cons.injEq] at h
  cases a
  cases b
  simp only [EntryKey.mk.injEq]
  exact ⟨UInt8.toNat_inj.mp h.1, hinj h.2⟩

instance : LinearOrder EntryKey := LinearOrder.lift' rank rank_injective

end EntryKey

end Pelorus.Store
