import Pelorus.Lib.Numerals

/-
  Websec/Url.lean --- absolute URLs and their hosts (`px-websec/src/origin/url.rs`).

  A text is cut where the source cuts it; every cut falls at an ASCII character, so a
  list of characters does for the byte offsets.  Lengths are in bytes.
-/
set_option autoImplicit false

namespace Pelorus.Websec

open Lib Lib.Text Lib.Numerals

def MAX_URL_BYTES : Nat := 8192

inductive Host where
  | domain (name : Text)
  | ipv4 (octets : { l : List UInt8 // l.length = 4 })
  | ipv6 (pieces : { l : List UInt16 // l.length = 8 })
  | opaqueHost (name : Text)
  | empty
  deriving DecidableEq

/-! ## Serialising hosts -/

/-- The first longest run, of two pieces or more, of zero pieces: where it starts, and its
length.  `i` is the position of the first piece of the list. -/
def longestZeroRun : Nat → List UInt16 → Option (Nat × Nat)
  | _, [] => none
  | i, p :: pieces =>
      let len := ((p :: pieces).takeWhile fun p => p = 0).length
      let later := longestZeroRun (i + 1) pieces
      if 2 ≤ len ∧ later.all (fun (_, best) => best ≤ len) then some (i, len) else later

def hex (n : UInt16) : Text := Nat.toDigits 16 n.toNat

/-- `serialize_ipv6`: the pieces from position `i` on, where `best` is the run that is left
out. -/
def serializeIpv6From (best : Option (Nat × Nat)) : Nat → List UInt16 → Text
  | _, [] => []
  | i, p :: pieces =>
      match best with
      | some (start, len) =>
          if i = start then ':' :: ':' :: serializeIpv6From best (i + 1) pieces
          else if start < i ∧ i < start + len then serializeIpv6From best (i + 1) pieces
          else
            hex p ++ (if pieces.isEmpty ∨ i + 1 = start then [] else [':']) ++
              serializeIpv6From best (i + 1) pieces
      | none =>
          hex p ++ (if pieces.isEmpty then [] else [':']) ++ serializeIpv6From best (i + 1) pieces

def serializeIpv6 (pieces : List UInt16) : Text :=
  serializeIpv6From (longestZeroRun 0 pieces) 0 pieces

def decimalByte (n : UInt8) : Text := Nat.toDigits 10 n.toNat

def Host.serialize : Host → Text
  | .domain d => d
  | .opaqueHost d => d
  | .ipv4 a => List.intercalate ['.'] (a.1.map decimalByte)
  | .ipv6 p => '[' :: serializeIpv6 p.1 ++ [']']
  | .empty => []

/-! ## Parsing hosts -/

def forbiddenHostCp (c : Char) : Bool :=
  c ≤ ' ' || c = Char.ofNat 0x7f || "#/:<>?@[\\]^|".toList.contains c

def isAsciiChar (c : Char) : Bool := c.val ≤ 127

/-- `percent_decode_ascii`, on the bytes. -/
def percentDecode : List UInt8 → List UInt8
  | [] => []
  | c :: h :: l :: rest =>
      if c = 0x25 then
        match toDigit 16 (Char.ofNat h.toNat), toDigit 16 (Char.ofNat l.toNat) with
        | some h, some l => UInt8.ofNat (h * 16 + l) :: percentDecode rest
        | _, _ => c :: percentDecode (h :: l :: rest)
      else c :: percentDecode (h :: l :: rest)
  | c :: rest => c :: percentDecode rest

def percentDecodeAscii (s : Text) : Option Text :=
  let out := percentDecode s.utf8
  if out.all fun b => b < 128 then some (out.map fun b => Char.ofNat b.toNat) else none

/-- Digits of a number below `2 ^ 64`. -/
def checkedDigits (radix : Nat) : Nat → Text → Option Nat
  | v, [] => some v
  | v, c :: s => do
      let d ← toDigit radix c
      if v * radix + d < 2 ^ 64 then checkedDigits radix (v * radix + d) s else none

def parseIpv4Number (s : Text) : Option Nat :=
  if s.isEmpty then none
  else
    let (digits, radix) :=
      match (stripPrefix s "0x".toList).orElse fun _ => stripPrefix s "0X".toList with
      | some r => (r, 16)
      | none => if 1 < s.length ∧ s.head? = some '0' then (s.drop 1, 8) else (s, 10)
    if digits.isEmpty then some 0 else checkedDigits radix 0 digits

/-- The parts of a dotted name, without an empty one at the end. -/
def dottedParts (s : Text) : List Text :=
  let parts := s.splitOn '.'
  if parts.getLast? = some [] ∧ 1 < parts.length then parts.dropLast else parts

def endsInNumber (s : Text) : Bool :=
  if s.isEmpty then false
  else
    match (dottedParts s).getLast? with
    | none => false
    | some last =>
        (!last.isEmpty && last.all Char.isDigit) ||
          (("0x".toList.isPrefixOf last || "0X".toList.isPrefixOf last) &&
            (last.drop 2).all fun c => (toDigit 16 c).isSome)

def parseIpv4 (s : Text) : Option { l : List UInt8 // l.length = 4 } := do
  let parts := dottedParts s
  if 4 < parts.length then none
  else
    let nums ← parts.mapM parseIpv4Number
    let last ← nums.getLast?
    let init := nums.dropLast
    if init.any fun n => 255 < n then none
    else if 256 ^ (5 - nums.length) ≤ last then none
    else
      let ip := (init.mapIdx fun i n => n * 256 ^ (3 - i)).sum + last
      some ⟨[UInt8.ofNat (ip / 256 ^ 3), UInt8.ofNat (ip / 256 ^ 2), UInt8.ofNat (ip / 256),
        UInt8.ofNat ip], rfl⟩

/-- One octet of an IPv4 address at the end of an IPv6 address. -/
def ipv6Octet (o : Text) : Option Nat :=
  if o.isEmpty || 3 < o.len || (1 < o.len && o.head? = some '0') || !o.all Char.isDigit then none
  else parseUnsigned 10 256 o

/-- The pieces of one group of an IPv6 address. -/
def ipv6Group (v4 : Bool) (g : Text) : Option (List UInt16) :=
  if v4 && g.contains '.' then
    match g.splitOn '.' with
    | [a, b, c, d] => do
        let a ← ipv6Octet a
        let b ← ipv6Octet b
        let c ← ipv6Octet c
        let d ← ipv6Octet d
        some [UInt16.ofNat (a * 256 + b), UInt16.ofNat (c * 256 + d)]
    | _ => none
  else if g.isEmpty || 4 < g.len || !g.all fun c => (toDigit 16 c).isSome then none
  else do
    let n ← parseUnsigned 16 65536 g
    some [UInt16.ofNat n]

/-- `groups`. -/
def ipv6Groups (allowV4Tail : Bool) (part : Text) : Option (List UInt16) :=
  if part.isEmpty then some []
  else
    let items := part.splitOn ':'
    (items.mapIdx fun i g => ipv6Group (allowV4Tail && i + 1 = items.length) g).foldr
      (fun g rest => do
        let g ← g
        let rest ← rest
        some (g ++ rest))
      (some [])

/-- Pieces as an address, if there are eight of them. -/
def eightPieces (g : List UInt16) : Option { l : List UInt16 // l.length = 8 } :=
  if h : g.length = 8 then some ⟨g, h⟩ else none

def parseIpv6 (s : Text) : Option { l : List UInt16 // l.length = 8 } :=
  if 45 < s.len then none
  else
    match splitOnceText "::".toList s with
    | none => do
        let g ← ipv6Groups true s
        eightPieces g
    | some (head, tail) =>
        if containsText tail "::".toList then none
        else do
          let h ← ipv6Groups false head
          let t ← ipv6Groups true tail
          if 7 < h.length + t.length then none
          else eightPieces (h ++ List.replicate (8 - h.length - t.length) 0 ++ t)

def parseHost (input : Text) (special : Bool) : Option Host :=
  match input with
  | '[' :: inner => do
      let inner ← stripSuffix inner [']']
      let pieces ← parseIpv6 inner
      some (.ipv6 pieces)
  | _ =>
      if !special then
        if input.isEmpty || input.any fun c => forbiddenHostCp c || !isAsciiChar c then none
        else some (.opaqueHost input)
      else do
        let decoded ← percentDecodeAscii input
        let lower := toAsciiLowercase decoded
        if lower.isEmpty || lower.any fun c => forbiddenHostCp c || c = '%' then none
        else if endsInNumber lower then (parseIpv4 lower).map .ipv4
        else some (.domain lower)

/-! ## URLs -/

structure Url where
  scheme : Text
  username : Text
  password : Text
  host : Option Host
  port : Option UInt16
  path : Text
  query : Option Text
  fragment : Option Text
  deriving DecidableEq

def defaultPort (scheme : Text) : Option UInt16 :=
  if scheme = "http".toList ∨ scheme = "ws".toList then some 80
  else if scheme = "https".toList ∨ scheme = "wss".toList then some 443
  else if scheme = "ftp".toList then some 21
  else none

def isSpecialScheme (scheme : Text) : Bool :=
  ["http", "https", "ws", "wss", "ftp", "file"].any fun s => s.toList = scheme

def splitScheme (s : Text) : Option (Text × Text) := do
  let (scheme, rest) ← splitOnce ':' s
  let first ← scheme.head?
  if first.isAlpha && (scheme.drop 1).all fun c => c.isAlphanum || c = '+' || c = '-' || c = '.' then
    some (toAsciiLowercase scheme, rest)
  else none

/-- `rfind` of a character, and what is before and after it. -/
def rsplitOnce (sep : Char) (s : Text) : Option (Text × Text) :=
  (splitOnce sep s.reverse).map fun (after, before) => (before.reverse, after.reverse)

/-- What an authority says: username, password, host, port. -/
structure Authority where
  username : Text
  password : Text
  host : Host
  port : Option UInt16

/-- The host and the port of an authority, as texts. -/
def splitHostPort (hostport : Text) : Option (Text × Option Text) :=
  if hostport.head? = some '[' then do
    let (inner, rest) ← splitOnce ']' hostport
    match rest with
    | [] => some (inner ++ [']'], none)
    | ':' :: p => some (inner ++ [']'], some p)
    | _ => none
  else
    match rsplitOnce ':' hostport with
    | some (h, p) => some (h, some p)
    | none => some (hostport, none)

def parseAuthority (auth : Text) (special : Bool) : Option Authority := do
  let (userinfo, hostport) := (rsplitOnce '@' auth).getD ([], auth)
  let (username, password) := (splitOnce ':' userinfo).getD (userinfo, [])
  let (hostS, portS) ← splitHostPort hostport
  if hostS.isEmpty then
    if special || !userinfo.isEmpty || portS.isSome then none
    else some { username, password, host := .empty, port := none }
  else
    let host ← parseHost hostS special
    match portS with
    | none => some { username, password, host, port := none }
    | some p =>
        if p.isEmpty then some { username, password, host, port := none }
        else if !p.all Char.isDigit || 5 < p.len then none
        else
          let n ← parseUnsigned 10 65536 p
          some { username, password, host, port := some (UInt16.ofNat n) }

/-- Cut at the first character with a property, which stays with the second part. -/
def cutAt (p : Char → Bool) (s : Text) : Text × Text := s.span fun c => !p c

/-- The part of `Url::parse` that reads the authority: what it says, if there is one, and
what is after it. -/
def parseAfterScheme (scheme rest : Text) : Option (Option Authority × Text) :=
  let special := isSpecialScheme scheme
  let isSlash : Char → Bool := fun c => c = '/' || (special && c = '\\')
  if scheme = "file".toList then
    match rest with
    | a :: b :: body =>
        if isSlash a && isSlash b then
          let (auth, tail) := cutAt isSlash body
          if auth.isEmpty then some (some ⟨[], [], .empty, none⟩, tail)
          else do
            let host ← parseHost auth true
            let host := if host = .domain "localhost".toList then .empty else host
            some (some ⟨[], [], host, none⟩, tail)
        else some (some ⟨[], [], .empty, none⟩, rest)
    | _ => some (some ⟨[], [], .empty, none⟩, rest)
  else if special then do
    let (auth, tail) := cutAt isSlash (rest.dropWhile isSlash)
    let authority ← parseAuthority auth true
    some (some authority, tail)
  else
    match rest with
    | '/' :: '/' :: body => do
        let (auth, tail) := cutAt (fun c => c = '/') body
        let authority ← parseAuthority auth false
        some (some authority, tail)
    | _ => some (none, rest)

namespace Url

def parse (input : Text) : Option Url := do
  if MAX_URL_BYTES < input.len then none
  else
    let trimmed := trimEndMatches (fun c => c ≤ ' ') (trimStartMatches (fun c => c ≤ ' ') input)
    let cleaned := trimmed.filter fun c => !(c = '\t' || c = '\n' || c = '\r')
    let (scheme, rest) ← splitScheme cleaned
    let (rest, fragment) := ((splitOnce '#' rest).map fun (a, f) => (a, some f)).getD (rest, none)
    let (rest, query) := ((splitOnce '?' rest).map fun (a, q) => (a, some q)).getD (rest, none)
    let (authority, afterAuth) ← parseAfterScheme scheme rest
    let path :=
      if isSpecialScheme scheme then
        let p := afterAuth.map fun c => if c = '\\' then '/' else c
        if p.isEmpty then ['/'] else p
      else afterAuth
    let port := authority.bind Authority.port
    some
      { scheme
        username := (authority.map Authority.username).getD []
        password := (authority.map Authority.password).getD []
        host := authority.map Authority.host
        port := if port.isSome ∧ port = defaultPort scheme then none else port
        path
        query
        fragment }

def effectivePort (u : Url) : Option UInt16 := u.port.or (defaultPort u.scheme)

def isSpecial (u : Url) : Bool := isSpecialScheme u.scheme

def hasCredentials (u : Url) : Bool := !u.username.isEmpty || !u.password.isEmpty

def stripCredentials (u : Url) : Url := { u with username := [], password := [] }

def stripFragment (u : Url) : Url := { u with fragment := none }

def upgradedToHttps (u : Url) : Option Url :=
  if u.scheme ≠ "http".toList then none
  else
    some
      { u with
        scheme := "https".toList
        port := if u.port = some 80 ∨ u.port = some 443 then none else u.port }

def setOriginOnly (u : Url) : Url := { u with path := ['/'], query := none }

def serialize (u : Url) (excludeFragment : Bool) : Text :=
  let authority :=
    match u.host with
    | none => []
    | some h =>
        "//".toList ++
          (if u.hasCredentials then
            u.username ++ (if u.password.isEmpty then [] else ':' :: u.password) ++ ['@']
          else []) ++
          h.serialize ++
          (match u.port with
            | some p => ':' :: Nat.toDigits 10 p.toNat
            | none => [])
  let query :=
    match u.query with
    | some q => '?' :: q
    | none => []
  let fragment :=
    match u.fragment with
    | some f => if excludeFragment then [] else '#' :: f
    | none => []
  u.scheme ++ [':'] ++ authority ++ u.path ++ query ++ fragment

end Url

end Pelorus.Websec
