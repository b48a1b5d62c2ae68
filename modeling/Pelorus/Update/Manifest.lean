import Pelorus.Lib.Numerals

/-
  Update/Manifest.lean --- release versions and the dates of data files
  (`px-update/src/version.rs`).

  A version is three canonical decimals of at most nine digits.  A date is a number
  `YYYYMMDD`, and its time is the one of its midnight.
-/
set_option autoImplicit false

namespace Pelorus.Update

open Lib

/-- Between one and `max` decimal digits. -/
def isDecimal (max : Nat) (s : Text) : Bool := !s.isEmpty && s.len ≤ max && s.all Char.isDigit

/-- A zero before other digits. -/
def hasLeadingZero (s : Text) : Bool := 1 < s.len && s.head? = some '0'

/-- `MAJOR.MINOR.PATCH`. -/
structure Version where
  major : UInt32
  minor : UInt32
  patch : UInt32
  deriving DecidableEq, Repr

namespace Version

/-- The derived order compares the components in turn. -/
def lt (v w : Version) : Bool :=
  v.major < w.major || v.major = w.major && (v.minor < w.minor || v.minor = w.minor && v.patch < w.patch)

/-- One number of a version. -/
def component (s : Text) : Option UInt32 :=
  if ¬ isDecimal 9 s then none
  else if hasLeadingZero s then none
  else (Numerals.parseUnsigned 10 (2 ^ 32) s).map UInt32.ofNat

def parse (s : Text) : Option Version :=
  match s.splitOn '.' with
  | [major, minor, patch] => do
      let major ← component major
      let minor ← component minor
      let patch ← component patch
      some ⟨major, minor, patch⟩
  | _ => none

/-- `Display` of a version. -/
def text (v : Version) : Text :=
  Nat.toDigits 10 v.major.toNat ++ '.' :: (Nat.toDigits 10 v.minor.toNat ++
    '.' :: Nat.toDigits 10 v.patch.toNat)

end Version

/-- The days of a month. -/
def daysInMonth (year month : Nat) : Nat :=
  if month = 2 then if year % 4 = 0 ∧ (year % 100 ≠ 0 ∨ year % 400 = 0) then 29 else 28
  else if month = 4 ∨ month = 6 ∨ month = 9 ∨ month = 11 then 30
  else 31

/-- `date_to_unix`: the time of a `YYYYMMDD` date. -/
def dateToUnix (yyyymmdd : UInt32) : Option UInt64 :=
  let year := yyyymmdd.toNat / 10000
  let month := yyyymmdd.toNat / 100 % 100
  let day := yyyymmdd.toNat % 100
  if ¬ (1970 ≤ year ∧ year ≤ 9999) ∨ ¬ (1 ≤ month ∧ month ≤ 12) then none
  else if day < 1 ∨ daysInMonth year month < day then none
  else
    let y := if month ≤ 2 then year - 1 else year
    let era := y / 400
    let yoe := y - era * 400
    let mp := (month + 9) % 12
    let doy := (153 * mp + 2) / 5 + day - 1
    let doe := yoe * 365 + yoe / 4 - yoe / 100 + doy
    let days := era * 146097 + doe - 719468
    some (UInt64.ofNat (days * 86400))

end Pelorus.Update

/-! # The update manifest (`px-update/src/manifest.rs`): its values, its canonical text and its parser

A document is a list of records `key SP value`, one a line.  The parser reads the
records in order, with one record of lookahead, and finally compares the document
with the encoding of what it read. -/

namespace Pelorus.Update

open Lib Lib.Text

def FORMAT_VERSION : Nat := 1

def MAX_MANIFEST_BYTES : Nat := 16 * 1024

def MAX_LINES : Nat := 64

def MAX_LINE_BYTES : Nat := 512

def MAX_ARTIFACTS : Nat := 16

def MAX_KEYS : Nat := 8

def MAX_ARTIFACT_SIZE : UInt64 := 1073741824

def MAX_DATA_SIZE : UInt64 := 67108864

/-- 90 days. -/
def MAX_VALIDITY_SECS : UInt64 := 7776000

def MAX_PATH_BYTES : Nat := 128

/-- Why a document was refused: the text names the rule. -/
structure ParseError where
  why : String
  deriving DecidableEq, Repr

/-- The data files that ride the update channel, in the order they must appear. -/
inductive DataKind where
  | psl
  | hsts
  | roots
  deriving DecidableEq, Repr

namespace DataKind

def name : DataKind → Text
  | psl => "psl".toList
  | hsts => "hsts".toList
  | roots => "roots".toList

def all : List DataKind := [psl, hsts, roots]

def parse (s : Text) : Option DataKind := all.find? fun k => k.name = s

/-- The declaration order. -/
def rank : DataKind → Nat
  | psl => 0
  | hsts => 1
  | roots => 2

end DataKind

/-- A file the manifest points at, with the checks a download must pass. -/
structure FileRef where
  size : UInt64
  sha256 : Fixed 32
  sha512 : Fixed 64
  path : Text
  deriving DecidableEq

structure Artifact where
  platform : Text
  file : FileRef
  deriving DecidableEq

structure DataEntry where
  kind : DataKind
  /-- `YYYYMMDD`. -/
  version : UInt32
  file : FileRef
  deriving DecidableEq

structure Release where
  channel : Text
  keyEpoch : UInt32
  sequence : UInt64
  issued : UInt64
  expires : UInt64
  version : Version
  artifacts : List Artifact
  data : List DataEntry
  deriving DecidableEq

structure Rotation where
  keyEpoch : UInt32
  issued : UInt64
  expires : UInt64
  threshold : UInt8
  keys : List (Fixed 32)
  deriving DecidableEq

inductive Manifest where
  | release (r : Release)
  | rotation (r : Rotation)
  deriving DecidableEq

/-! ## Encoding -/

/-- A number in decimal. -/
def decimal (n : Nat) : Text := Nat.toDigits 10 n

def fileFields (f : FileRef) : Text :=
  decimal f.size.toNat ++ ' ' :: (Hex.encode f.sha256.1 ++ ' ' :: (Hex.encode f.sha512.1 ++
    ' ' :: f.path))

/-- A line: key, space, value. -/
def line (key : String) (value : Text) : Text := key.toList ++ ' ' :: value

namespace Manifest

/-- The lines after the first. -/
def body : Manifest → List Text
  | release r =>
      [line "type" "release".toList, line "channel" r.channel,
        line "key-epoch" (decimal r.keyEpoch.toNat), line "sequence" (decimal r.sequence.toNat),
        line "issued" (decimal r.issued.toNat), line "expires" (decimal r.expires.toNat),
        line "version" r.version.text] ++
      r.artifacts.map (fun a => line "artifact" (a.platform ++ ' ' :: fileFields a.file)) ++
      r.data.map fun d => line "data" (d.kind.name ++ ' ' :: (decimal d.version.toNat ++
        ' ' :: fileFields d.file))
  | rotation r =>
      [line "type" "rotation".toList, line "key-epoch" (decimal r.keyEpoch.toNat),
        line "issued" (decimal r.issued.toNat), line "expires" (decimal r.expires.toNat),
        line "threshold" (decimal r.threshold.toNat)] ++
      r.keys.map fun k => line "key" (Hex.encode k.1)

def encode (m : Manifest) : Text :=
  (line "manifest-format" (decimal FORMAT_VERSION) :: m.body).flatMap fun l => l ++ ['\n']

end Manifest

/-! ## Parsing -/

def err {α : Type} (why : String) : Except ParseError α := .error ⟨why⟩

def decU64 (v : Text) : Except ParseError UInt64 :=
  if ¬ isDecimal 20 v then err "number is not a canonical decimal"
  else if hasLeadingZero v then err "number has a leading zero"
  else
    match Numerals.parseUnsigned 10 (2 ^ 64) v with
    | some n => .ok (UInt64.ofNat n)
    | none => err "number out of range"

def decU32 (v : Text) : Except ParseError UInt32 := do
  let n ← decU64 v
  if n.toNat < 2 ^ 32 then .ok n.toUInt32 else err "number out of range"

def isTokenChar (c : Char) : Bool := c.isLower || c.isDigit || c = '-' || c = '_'

def isToken (s : Text) (max : Nat) : Bool := !s.isEmpty && s.len ≤ max && s.all isTokenChar

def isPathChar (c : Char) : Bool :=
  c.isAlphanum || c = '.' || c = '_' || c = '/' || c = '-'

def validPath (p : Text) : Bool :=
  !p.isEmpty && p.len ≤ MAX_PATH_BYTES && p.all isPathChar &&
    (p.splitOn '/').all fun seg => !seg.isEmpty && seg.head? ≠ some '.'

def fileRef (size sha256 sha512 path : Text) (cap : UInt64) : Except ParseError FileRef := do
  let size ← decU64 size
  if size = 0 ∨ cap < size then err "file size is zero or above the cap"
  else
    match Hex.decodeFixed 32 sha256 with
    | none => err "sha256 is not 64 lowercase hex characters"
    | some sha256 =>
        match Hex.decodeFixed 64 sha512 with
        | none => err "sha512 is not 128 lowercase hex characters"
        | some sha512 =>
            if ¬ validPath path then err "path is not a plain relative path"
            else .ok { size, sha256, sha512, path }

/-- A record of the document. -/
abbrev Record : Type := Text × Text

/-- A parser of records. -/
abbrev Lines : Type → Type := StateT (List Record) (Except ParseError)

namespace Lines

def expect (key : String) : Lines Text := fun
  | (k, v) :: rest =>
      if k = key.toList then .ok (v, rest) else err "a required field is missing or out of order"
  | [] => err "a required field is missing or out of order"

end Lines

def validity (issued expires : UInt64) : Except ParseError Unit :=
  if issued = 0 ∨ expires ≤ issued then err "expires must be after issued"
  else if MAX_VALIDITY_SECS < expires - issued then err "validity window exceeds 90 days"
  else .ok ()

/-- One turn of the artifact loop: the value of the record, after the artifacts so far. -/
def parseArtifact (artifacts : List Artifact) (v : Text) : Except ParseError Artifact :=
  if MAX_ARTIFACTS ≤ artifacts.length then err "too many artifacts"
  else
    match v.splitOn ' ' with
    | [platform, size, s256, s512, path] =>
        if ¬ isToken platform 32 then err "platform is not a short lowercase token"
        else if (artifacts.getLast?.any fun p => ¬ p.platform < platform) then
          err "artifacts are not in strictly ascending platform order"
        else do
          let file ← fileRef size s256 s512 path MAX_ARTIFACT_SIZE
          .ok { platform, file }
    | _ => err "artifact needs platform size sha256 sha512 path"

/-- One turn of the data loop. -/
def parseData (data : List DataEntry) (v : Text) : Except ParseError DataEntry :=
  match v.splitOn ' ' with
  | [kind, version, size, s256, s512, path] =>
      match DataKind.parse kind with
      | none => err "unknown data kind"
      | some kind =>
          if (data.getLast?.any fun p => kind.rank ≤ p.kind.rank) then
            err "data entries are not in strictly ascending kind order"
          else do
            let version ← decU32 version
            if dateToUnix version = none then err "data version is not a YYYYMMDD date"
            else
              let file ← fileRef size s256 s512 path MAX_DATA_SIZE
              .ok { kind, version, file }
  | _ => err "data needs kind version size sha256 sha512 path"

/-- One turn of the key loop. -/
def parseKey (keys : List (Fixed 32)) (v : Text) : Except ParseError (Fixed 32) :=
  if MAX_KEYS ≤ keys.length then err "too many keys"
  else
    match Hex.decodeFixed 32 v with
    | none => err "key is not 64 lowercase hex characters"
    | some k =>
        if (keys.getLast?.any fun p => ¬ p.1 < k.1) then err "keys are not in strictly ascending order"
        else .ok k

/-- The loops: while the next record has this key, read its value after what was read. -/
def repeated {α : Type} (key : String) (item : List α → Text → Except ParseError α) :
    List α → List Record → Except ParseError (List α × List Record)
  | acc, [] => .ok (acc, [])
  | acc, (k, v) :: rest =>
      if k = key.toList then
        match item acc v with
        | .ok a => repeated key item (acc ++ [a]) rest
        | .error e => .error e
      else .ok (acc, (k, v) :: rest)

def parseRelease : Lines Release := do
  let channel ← Lines.expect "channel"
  if ¬ isToken channel 16 then err "channel is not a short lowercase token"
  else
    let keyEpoch ← decU32 (← Lines.expect "key-epoch")
    let sequence ← decU64 (← Lines.expect "sequence")
    let issued ← decU64 (← Lines.expect "issued")
    let expires ← decU64 (← Lines.expect "expires")
    match Version.parse (← Lines.expect "version") with
    | none => err "version is not MAJOR.MINOR.PATCH"
    | some version =>
        if keyEpoch = 0 ∨ sequence = 0 then err "key-epoch and sequence start at 1"
        else
          validity issued expires
          let artifacts ← repeated "artifact" parseArtifact []
          let data ← repeated "data" parseData []
          return { channel, keyEpoch, sequence, issued, expires, version, artifacts, data }

def parseRotation : Lines Rotation := do
  let keyEpoch ← decU32 (← Lines.expect "key-epoch")
  let issued ← decU64 (← Lines.expect "issued")
  let expires ← decU64 (← Lines.expect "expires")
  let threshold ← decU32 (← Lines.expect "threshold")
  if keyEpoch < 2 then err "a rotation creates epoch 2 or later"
  else
    validity issued expires
    let keys ← repeated "key" parseKey []
    if ¬ threshold.toNat < 2 ^ 8 then err "threshold out of range"
    else
      let threshold := threshold.toUInt8
      if keys.isEmpty ∨ threshold = 0 ∨ keys.length < threshold.toNat then
        err "threshold must be between 1 and the number of keys"
      else return { keyEpoch, issued, expires, threshold, keys }

/-- The records of the lines, with `recs` of them read. -/
def records : Nat → List Text → Except ParseError (List Record)
  | _, [] => .ok []
  | recs, l :: lines =>
      if MAX_LINES ≤ recs then err "too many lines"
      else if MAX_LINE_BYTES < l.len then err "line too long"
      else
        match splitOnce ' ' l with
        | none => err "line is not `key value`"
        | some (k, v) =>
            if k.isEmpty ∨ v.isEmpty then err "empty key or value"
            else do
              let rest ← records (recs + 1) lines
              .ok ((k, v) :: rest)

namespace Manifest

/-- Which of the two kinds of manifest follows. -/
def parseBody : Lines Manifest := do
  let format ← Lines.expect "manifest-format"
  if format ≠ decimal FORMAT_VERSION then err "unsupported manifest format version"
  else
    let type ← Lines.expect "type"
    if type = "release".toList then release <$> parseRelease
    else if type = "rotation".toList then rotation <$> parseRotation
    else err "unknown manifest type"

def parse (bytes : Bytes) : Except ParseError Manifest :=
  if bytes.isEmpty then err "empty"
  else if MAX_MANIFEST_BYTES < bytes.length then err "larger than the manifest size cap"
  else if ¬ bytes.all fun b => b = 0x0a || (0x20 ≤ b && b ≤ 0x7e) then
    err "byte outside printable ASCII and LF"
  else
    match fromUtf8 bytes with
    | none => err "not ASCII"
    | some text =>
        match stripSuffix text ['\n'] with
        | none => err "no final newline"
        | some body => do
            let recs ← records 0 (body.splitOn '\n')
            let (manifest, rest) ← parseBody.run recs
            if ¬ rest.isEmpty then err "unexpected trailing field"
            else if manifest.encode.utf8 ≠ bytes then err "not the canonical encoding"
            else .ok manifest

end Manifest

end Pelorus.Update
