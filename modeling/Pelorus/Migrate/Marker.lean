import Pelorus.Lib.Numerals
import Pelorus.Store.Format

/-
  Migrate/Marker.lean --- the manifest of a migration and the marker file it is
  recorded in (`px-store/src/migrate.rs`, the pure parts).

  THE MARKER.  One line for the source name, one for each entry of the manifest,
  and a trailer with their number.  Paths are written in hexadecimal; the source
  name is written AS IT IS.

  ROUND TRIP.  `parseMarker_encodeMarker`: what was written is read back, if the
  source name is plain and has no newline in it, the paths are safe, and there are
  no more entries than the bound.
-/
set_option autoImplicit false

namespace Pelorus.Migrate

open Lib Store

/-- Suffix of the staging directory. -/
def STAGING_SUFFIX : Text := ".migrating".toList

/-- Marker file written into the new profile. -/
def MARKER_NAME : Text := ".migrated".toList

/-- First line of the marker. -/
def MARKER_MAGIC : Text := "pxmigrate 1".toList

/-- Deepest directory that is scanned. -/
def MAX_DEPTH : Nat := 64

/-- Largest manifest. -/
def MAX_ENTRIES : Nat := 1000000

/-- What a manifest entry is. -/
inductive Kind where
  | dir
  | file (size : UInt64) (crc : UInt32) (fnv : UInt64)
  deriving DecidableEq

/-- A manifest entry, under its `/`-joined relative path. -/
structure Entry where
  rel : Text
  kind : Kind
  deriving DecidableEq

/-! ## Checksums of a file -/

/-- One turn of the loop of `hash_file`: another chunk was read. -/
def hashChunk : UInt64 × UInt32 × UInt64 → Bytes → UInt64 × UInt32 × UInt64
  | (size, crc, fnv), chunk =>
      (size + UInt64.ofNat chunk.length, crc32Update crc chunk, fnv1a64Update fnv chunk)

/-- `hash_file`, of the file's content. -/
def hashFile (content : Bytes) : UInt64 × UInt32 × UInt64 :=
  hashChunk (0, 0, FNV_OFFSET) content

/-! ## Names and paths -/

/-- A path component that can neither climb nor restart the path. -/
def componentIsSafe (c : Text) : Bool :=
  !c.isEmpty && c != ".".toList && c != "..".toList && !c.contains '\\' && !c.contains '\x00'

def relIsSafe (rel : Text) : Bool := !rel.isEmpty && (rel.splitOn '/').all componentIsSafe

/-- `name_is_plain`: a single component usable as a directory name. -/
def nameIsPlain (name : Text) : Bool :=
  relIsSafe name && !name.contains '/' && !name.contains ':'

/-! ## Hexadecimal text -/

/-- `hex`: two digits for every byte. -/
def hex (s : Text) : Text :=
  s.utf8.flatMap fun b => [Nat.digitChar (b.toNat / 16), Nat.digitChar (b.toNat % 16)]

/-- Two digits for every byte, read back. -/
def unhexBytes : Text → Option Bytes
  | [] => some []
  | [_] => none
  | c :: d :: s =>
      (Numerals.parseUnsigned 16 256 [c, d]).bind fun b =>
        (unhexBytes s).map fun bytes => UInt8.ofNat b :: bytes

/-- `unhex`.  A character outside ASCII is never a digit, so that cutting the text into
pairs of characters refuses what cutting it into pairs of bytes refuses. -/
def unhex (s : Text) : Option Text := (unhexBytes s).bind Text.fromUtf8

theorem unhexBytes_hex : ∀ bytes : Bytes,
    unhexBytes (bytes.flatMap fun b =>
      [Nat.digitChar (b.toNat / 16), Nat.digitChar (b.toNat % 16)]) = some bytes
  | [] => rfl
  | b :: bytes => by
      have hlt : b.toNat < 256 := b.toNat_lt
      have hhigh : b.toNat / 16 < 16 := by omega
      have hlow : b.toNat % 16 < 16 := Nat.mod_lt _ (by decide)
      have hdigits : Numerals.digits 16 0
          [Nat.digitChar (b.toNat / 16), Nat.digitChar (b.toNat % 16)] = some b.toNat := by
        simp only [Numerals.digits, Numerals.toDigit_digitChar hhigh (by decide),
          Numerals.toDigit_digitChar hlow (by decide), Option.bind_some, Option.some.injEq]
        omega
      have hpair := Numerals.parseUnsigned_of_digits (by simp) hdigits hlt
      simp [unhexBytes, hpair, unhexBytes_hex bytes]

theorem unhex_hex (s : Text) : unhex (hex s) = some s := by
  rw [unhex, hex, unhexBytes_hex, Option.bind_some, Text.fromUtf8_utf8]

theorem not_mem_hex {c : Char} (hc : Numerals.toDigit 16 c = none) (s : Text) : c ∉ hex s := by
  intro hmem
  obtain ⟨b, -, hb⟩ := List.mem_flatMap.mp hmem
  have hlt : b.toNat < 256 := b.toNat_lt
  have hdigit : ∀ d < 16, c ≠ Nat.digitChar d := by
    rintro d hd rfl
    rw [Numerals.toDigit_digitChar hd (by decide)] at hc
    cases hc
  simp only [List.mem_cons, List.not_mem_nil, or_false] at hb
  rcases hb with hb | hb
  · exact hdigit _ (by omega) hb
  · exact hdigit _ (by omega) hb

/-! ## Writing the marker -/

/-- The fields of an entry's line. -/
def entryFields (e : Entry) : List Text :=
  match e.kind with
  | .dir => ["D".toList, hex e.rel]
  | .file size crc fnv =>
      ["F".toList, Nat.toDigits 10 size.toNat, Numerals.padded 16 8 crc.toNat,
        Numerals.padded 16 16 fnv.toNat, hex e.rel]

/-- An entry's line. -/
def entryLine (e : Entry) : Text := [' '].intercalate (entryFields e)

/-- The lines of the marker. -/
def markerLines (source : Text) (entries : List Entry) : List Text :=
  MARKER_MAGIC :: ("from ".toList ++ source) ::
    (entries.map entryLine ++ ["end ".toList ++ Nat.toDigits 10 entries.length])

def encodeMarker (source : Text) (entries : List Entry) : Text :=
  (markerLines source entries).flatMap fun line => line ++ ['\n']

/-! ## Reading it -/

/-- An entry's line, read. -/
def parseEntry (line : Text) : Option Entry :=
  match line.splitOn ' ' with
  | [tag, rel] =>
      if tag = "D".toList then (unhex rel).map fun rel => { rel, kind := .dir } else none
  | [tag, size, crc, fnv, rel] =>
      if tag = "F".toList then do
        let size ← Numerals.parseUnsigned 10 (2 ^ 64) size
        let crc ← Numerals.parseUnsigned 16 (2 ^ 32) crc
        let fnv ← Numerals.parseUnsigned 16 (2 ^ 64) fnv
        let kind := .file (UInt64.ofNat size) (UInt32.ofNat crc) (UInt64.ofNat fnv)
        return { rel := ← unhex rel, kind }
      else none
  | _ => none

/-- The loop of `parse_marker`: entries up to the trailer, after which the text ends. -/
def parseLines (entries : List Entry) : List Text → Option (List Entry)
  | [] => none
  | line :: lines =>
      match Text.stripPrefix line "end ".toList with
      | some n =>
          (Numerals.parseUnsigned 10 (2 ^ 64) n).bind fun n =>
            if n = entries.length ∧ lines = [[]] then some entries else none
      | none =>
          (parseEntry line).bind fun entry =>
            if relIsSafe entry.rel ∧ entries.length < MAX_ENTRIES then
              parseLines (entries ++ [entry]) lines
            else none

def parseMarker (text : Text) : Option (Text × List Entry) :=
  match text.splitOn '\n' with
  | magic :: line :: lines =>
      if magic = MARKER_MAGIC then
        (Text.stripPrefix line "from ".toList).bind fun source =>
          if nameIsPlain source then (parseLines [] lines).map fun entries => (source, entries)
          else none
      else none
  | _ => none

/-! ## Reading what was written -/

theorem splitOn_entryLine (e : Entry) : (entryLine e).splitOn ' ' = entryFields e := by
  refine List.splitOn_intercalate ' ' ?_ ?_
  · intro field hfield
    have hhex : ' ' ∉ hex e.rel := not_mem_hex rfl e.rel
    unfold entryFields at hfield
    split at hfield
    · simp only [List.mem_cons, List.not_mem_nil, or_false] at hfield
      rcases hfield with rfl | rfl
      · decide
      · exact hhex
    · simp only [List.mem_cons, List.not_mem_nil, or_false] at hfield
      rcases hfield with rfl | rfl | rfl | rfl | rfl
      · decide
      · exact Numerals.not_mem_toDigits (by decide) (by decide) rfl _
      · exact Numerals.not_mem_padded (by decide) (by decide) rfl _ _
      · exact Numerals.not_mem_padded (by decide) (by decide) rfl _ _
      · exact hhex
  · unfold entryFields
    split <;> simp

theorem parseEntry_entryLine (e : Entry) : parseEntry (entryLine e) = some e := by
  obtain ⟨rel, kind⟩ := e
  rw [parseEntry, splitOn_entryLine]
  cases kind with
  | dir => simp [entryFields, unhex_hex]
  | file size crc fnv =>
      have hsize : Numerals.parseUnsigned 10 (2 ^ 64) (Nat.toDigits 10 size.toNat) = some size.toNat :=
        Numerals.parseUnsigned_toDigits (by decide) (by decide) size.toNat_lt
      have hcrc : Numerals.parseUnsigned 16 (2 ^ 32) (Numerals.padded 16 8 crc.toNat) =
          some crc.toNat := Numerals.parseUnsigned_padded (by decide) (by decide) crc.toNat_lt 8
      have hfnv : Numerals.parseUnsigned 16 (2 ^ 64) (Numerals.padded 16 16 fnv.toNat) =
          some fnv.toNat := Numerals.parseUnsigned_padded (by decide) (by decide) fnv.toNat_lt 16
      simp only [entryFields, if_true, unhex_hex, hsize, hcrc, hfnv]
      simp

/-- The trailer is told from an entry by its first letter. -/
theorem stripPrefix_entryLine (e : Entry) : Text.stripPrefix (entryLine e) "end ".toList = none := by
  obtain ⟨rel, kind⟩ := e
  cases kind with
  | dir => rfl
  | file size crc fnv => rfl

/-- The loop reads the remaining entries and the trailer. -/
theorem parseLines_markerLines {entries : List Entry} (hmax : entries.length ≤ MAX_ENTRIES) :
    ∀ (rest acc : List Entry), acc ++ rest = entries → (∀ e ∈ rest, relIsSafe e.rel = true) →
    parseLines acc (rest.map entryLine ++ ["end ".toList ++ Nat.toDigits 10 entries.length, []]) =
      some entries
  | [], acc, hacc, _ => by
      rw [List.append_nil] at hacc
      have hlt : entries.length < 2 ^ 64 := Nat.lt_of_le_of_lt hmax (by decide)
      have hnum : Numerals.parseUnsigned 10 (2 ^ 64) (Nat.toDigits 10 entries.length) =
          some entries.length := Numerals.parseUnsigned_toDigits (by decide) (by decide) hlt
      rw [List.map_nil, List.nil_append, parseLines, Text.stripPrefix_append]
      simp only [hnum, Option.bind_some, hacc, true_and, if_true]
  | e :: rest, acc, hacc, hsafe => by
      have hlt : acc.length < MAX_ENTRIES := by
        have hlen := congrArg List.length hacc
        simp only [List.length_append, List.length_cons] at hlen
        omega
      have ih := parseLines_markerLines hmax rest (acc ++ [e]) (by simpa using hacc)
        fun e' he' => hsafe e' (by simp [he'])
      rw [List.map_cons, List.cons_append, parseLines, stripPrefix_entryLine]
      simp only [parseEntry_entryLine, Option.bind_some, hsafe e (by simp), hlt, and_self, if_true, ih]

/-- Fields without a newline make a line without one. -/
theorem newline_not_mem_entryLine (e : Entry) : '\n' ∉ entryLine e := by
  have hhex : '\n' ∉ hex e.rel := not_mem_hex rfl e.rel
  rw [entryLine, entryFields]
  split
  · simpa [List.intercalate] using hhex
  · rename_i size crc fnv _
    have hsize : '\n' ∉ Nat.toDigits 10 size.toNat :=
      Numerals.not_mem_toDigits (by decide) (by decide) rfl _
    have hcrc : '\n' ∉ Numerals.padded 16 8 crc.toNat :=
      Numerals.not_mem_padded (by decide) (by decide) rfl _ _
    have hfnv : '\n' ∉ Numerals.padded 16 16 fnv.toNat :=
      Numerals.not_mem_padded (by decide) (by decide) rfl _ _
    simp [List.intercalate, hsize, hcrc, hfnv, hhex]

/-- The marker that was written is read back. -/
theorem parseMarker_encodeMarker {source : Text} {entries : List Entry}
    (hplain : nameIsPlain source = true) (hline : '\n' ∉ source)
    (hsafe : ∀ e ∈ entries, relIsSafe e.rel = true) (hmax : entries.length ≤ MAX_ENTRIES) :
    parseMarker (encodeMarker source entries) = some (source, entries) := by
  have hlines : ∀ line ∈ markerLines source entries, '\n' ∉ line := by
    intro line hmem
    simp only [markerLines, List.mem_cons, List.mem_append, List.mem_map, List.not_mem_nil,
      or_false] at hmem
    rcases hmem with rfl | rfl | ⟨e, -, rfl⟩ | rfl
    · decide
    · simpa using hline
    · exact newline_not_mem_entryLine e
    · have hnum : '\n' ∉ Nat.toDigits 10 entries.length :=
        Numerals.not_mem_toDigits (by decide) (by decide) rfl _
      simpa using hnum
  have hrest := parseLines_markerLines hmax entries [] rfl hsafe
  rw [parseMarker, encodeMarker, Text.splitOn_ended '\n' hlines]
  simp only [markerLines, List.cons_append, List.append_assoc, List.nil_append,
    Text.stripPrefix_append, Option.bind_some, hplain, if_true, hrest, Option.map_some]

/-- The marker of the source's own test, by hand. -/
example :
    encodeMarker "old".toList [⟨"d".toList, .dir⟩,
        ⟨"d/f".toList, .file 5 0xdeadbeef 0x0123456789abcdef⟩] =
      "pxmigrate 1\nfrom old\nD 64\nF 5 deadbeef 0123456789abcdef 642f66\nend 2\n".toList := by
  decide +kernel

end Pelorus.Migrate
