import Pelorus.Websec.Url

/-
  Websec/Csp/Source.lean --- the URLs and origins of the CSP engine
  (`px-websec/src/csp/url.rs`).

  A SECOND PARSER, and a small one: it takes absolute URLs that are already in canonical
  form and refuses all others, and it keeps no query, no fragment and no credentials.
-/
set_option autoImplicit false

namespace Pelorus.Websec.Csp

open Lib Lib.Text Lib.Numerals

def MAX_URL_BYTES : Nat := 64 * 1024

def defaultPort (scheme : Text) : Option UInt16 :=
  if scheme = "http".toList ∨ scheme = "ws".toList then some 80
  else if scheme = "https".toList ∨ scheme = "wss".toList then some 443
  else if scheme = "ftp".toList then some 21
  else none

def isSpecialScheme (scheme : Text) : Bool :=
  ["http", "https", "ws", "wss", "ftp"].any fun s => s.toList = scheme

structure CspUrl where
  scheme : Text
  host : Option Text
  port : Option UInt16
  path : Text
  deriving DecidableEq

def isSchemeChar (c : Char) (first : Bool) : Bool :=
  if first then c.isAlpha else c.isAlphanum || c = '+' || c = '-' || c = '.'

def isDotSegment (s : Text) : Bool := s = ['.'] || eqIgnoreAsciiCase s "%2e".toList

def isDoubleDotSegment (s : Text) : Bool :=
  s = ['.', '.'] || eqIgnoreAsciiCase s ".%2e".toList || eqIgnoreAsciiCase s "%2e.".toList ||
    eqIgnoreAsciiCase s "%2e%2e".toList

/-- The segments that are left, where `out` are those kept so far, the last first. -/
def normalizeSegments : List Text → List Text → List Text
  | out, [] => out.reverse
  | out, seg :: segs =>
      let closed : List Text := if segs.isEmpty then [[]] else []
      if isDotSegment seg then normalizeSegments (closed ++ out) segs
      else if isDoubleDotSegment seg then normalizeSegments (closed ++ out.tail) segs
      else normalizeSegments (seg :: out) segs

def normalizePath (path : Text) : Text :=
  let rest := (stripPrefix path ['/']).getD path
  '/' :: ['/'].intercalate (normalizeSegments [] (rest.splitOn '/'))

def validSpecialHost (host : Text) : Bool :=
  !host.isEmpty && host.all fun c => c.isAlphanum || c = '-' || c = '.' || c = '_'

/-- `is_ascii_hexdigit`. -/
def isHexDigit (c : Char) : Bool := (toDigit 16 c).isSome

def validIpv6Literal (host : Text) : Bool :=
  3 ≤ host.length && host.head? = some '[' && host.getLast? = some ']' &&
    ((host.drop 1).dropLast.all fun c => isHexDigit c || c = ':' || c = '.') && host.contains ':'

/-- What stands after the `:` of an authority, if anything does; `none` is a refusal. -/
def parsePort : Option Text → Option (Option UInt16)
  | none => some none
  | some p =>
      if p.isEmpty then some none
      else if 5 < p.len || !p.all Char.isDigit then none
      else (parseUnsigned 10 65536 p).map fun n => some (UInt16.ofNat n)

/-- The host of a URL whose scheme is special. -/
def parseHost (host : Text) : Option Text :=
  let host := toAsciiLowercase host
  if (if host.head? = some '[' then validIpv6Literal host else validSpecialHost host) then some host
  else none

namespace CspUrl

/-- The part of `CspUrl::parse` after the scheme, for a special one. -/
def parseSpecial (scheme rest : Text) : Option CspUrl := do
  let after ← stripPrefix (rest.map fun c => if c = '\\' then '/' else c) "//".toList
  let (authority, tail) := after.span fun c => c ≠ '/' && c ≠ '?'
  let hostport := ((rsplitOnce '@' authority).map Prod.snd).getD authority
  let (host, portStr) ← splitHostPort hostport
  let host ← parseHost host
  let port ← parsePort portStr
  let pathPart := tail.takeWhile fun c => c ≠ '?'
  some
    { scheme
      host := some host
      port := if port.isSome ∧ port = defaultPort scheme then none else port
      path := if pathPart.isEmpty then ['/'] else normalizePath pathPart }

def parse (input : Text) : Option CspUrl :=
  if MAX_URL_BYTES < input.len then none
  else if input.any fun c => c ≤ ' ' || Char.ofNat 0x7f ≤ c then none
  else do
    let (schemeRaw, rest) ← splitOnce ':' input
    let first ← schemeRaw.head?
    if !isSchemeChar first true || !(schemeRaw.drop 1).all fun c => isSchemeChar c false then none
    else
      let scheme := toAsciiLowercase schemeRaw
      let rest := rest.takeWhile fun c => c ≠ '#'
      if isSpecialScheme scheme then parseSpecial scheme rest
      else some { scheme, host := none, port := none, path := rest.takeWhile fun c => c ≠ '?' }

def fromParts (scheme host : Text) (port : Option UInt16) (path : Text) : Option CspUrl :=
  let p :=
    match port with
    | some p => ':' :: Nat.toDigits 10 p.toNat
    | none => []
  parse (scheme ++ "://".toList ++ host ++ p ++ path)

def effectivePort (u : CspUrl) : Option UInt16 := u.port.or (defaultPort u.scheme)

end CspUrl

/-! ## Origins -/

inductive Origin where
  | opaqueOrigin
  | tuple (scheme host : Text) (port : UInt16)
  deriving DecidableEq

def CspUrl.origin (u : CspUrl) : Origin :=
  match u.host, u.effectivePort with
  | some host, some port => if isSpecialScheme u.scheme then .tuple u.scheme host port else .opaqueOrigin
  | _, _ => .opaqueOrigin

namespace Origin

def fromUrlStr (s : Text) : Origin := ((CspUrl.parse s).map CspUrl.origin).getD .opaqueOrigin

/-- `same_origin`: an opaque origin is not even its own. -/
def sameOrigin : Origin → Origin → Bool
  | .tuple s h p, .tuple s' h' p' => s = s' && h = h' && p = p'
  | _, _ => false

/-- `scheme`. -/
def scheme? : Origin → Option Text
  | .tuple scheme _ _ => some scheme
  | .opaqueOrigin => none

end Origin

/-! ## Addresses -/

def isIpLiteral (host : Text) : Bool :=
  host.head? = some '[' ||
    ((host.splitOn '.').length = 4 &&
      (host.splitOn '.').all fun p => !p.isEmpty && p.length ≤ 3 && p.all Char.isDigit)

def isLoopbackHost (host : Text) : Bool :=
  host = "localhost".toList || ".localhost".toList.isSuffixOf host || host = "[::1]".toList ||
    (isIpLiteral host && "127.".toList.isPrefixOf host)

def isPotentiallyTrustworthy (url : CspUrl) : Bool :=
  if ["https", "wss", "data", "blob", "about", "file", "filesystem"].any fun s => s.toList = url.scheme then
    true
  else if url.scheme = "http".toList ∨ url.scheme = "ws".toList then url.host.any isLoopbackHost
  else false

example : (CspUrl.parse "HTTPS://Example.COM:443/a/./b/../c?q=1#f".toList) =
    some ⟨"https".toList, some "example.com".toList, none, "/a/c".toList⟩ := by decide

end Pelorus.Websec.Csp

/-! # Source expressions and source lists (`px-websec/src/csp/source.rs`), as far as a request is matched against them -/

namespace Pelorus.Websec.Csp

open Lib Lib.Text Lib.Numerals

/-! ## Hashes -/

inductive HashAlg where
  | sha256
  | sha384
  | sha512
  deriving DecidableEq

namespace HashAlg

def parse (s : Text) : Option HashAlg :=
  if eqIgnoreAsciiCase s "sha256".toList then some .sha256
  else if eqIgnoreAsciiCase s "sha384".toList then some .sha384
  else if eqIgnoreAsciiCase s "sha512".toList then some .sha512
  else none

def digestLen : HashAlg → Nat
  | .sha256 => 32
  | .sha384 => 48
  | .sha512 => 64

end HashAlg

structure HashValue where
  alg : HashAlg
  digest : Bytes
  deriving DecidableEq

/-- The six bits of a character of either base64 alphabet. -/
def base64Value (c : Char) : Option Nat :=
  if c.isUpper then some (c.toNat - 65)
  else if c.isLower then some (c.toNat - 97 + 26)
  else if c.isDigit then some (c.toNat - 48 + 52)
  else if c = '+' ∨ c = '-' then some 62
  else if c = '/' ∨ c = '_' then some 63
  else none

/-- The bytes of a base64 text, where `acc` holds the last `bits` bits that are not out yet. -/
def base64Bytes (acc bits : Nat) : Text → Option Bytes
  | [] => some []
  | c :: s => do
      let v ← base64Value c
      let acc := acc * 64 + v
      let bits := bits + 6
      if 8 ≤ bits then
        let rest ← base64Bytes (acc % 2 ^ (bits - 8)) (bits - 8) s
        some (UInt8.ofNat (acc / 2 ^ (bits - 8)) :: rest)
      else base64Bytes acc bits s

def decodeBase64 (s : Text) : Option Bytes :=
  let trimmed := ((stripSuffix s "==".toList).orElse fun _ => stripSuffix s "=".toList).getD s
  if trimmed.contains '=' || trimmed.len % 4 = 1 then none else base64Bytes 0 0 trimmed

def HashValue.parse (s : Text) : Option HashValue := do
  let (alg, value) ← splitOnce '-' s
  let alg ← HashAlg.parse alg
  let digest ← decodeBase64 value
  if digest.length ≠ alg.digestLen then none else some { alg, digest }

/-! ## Expressions -/

inductive Keyword where
  | none_
  | selfOrigin
  | unsafeInline
  | unsafeEval
  | strictDynamic
  | unsafeHashes
  | reportSample
  | unsafeAllowRedirects
  | wasmUnsafeEval
  | inlineSpeculationRules
  deriving DecidableEq

/-- The keywords and what they are written as. -/
def keywordTable : List (Text × Keyword) :=
  [("none".toList, .none_), ("self".toList, .selfOrigin), ("unsafe-inline".toList, .unsafeInline),
    ("unsafe-eval".toList, .unsafeEval), ("strict-dynamic".toList, .strictDynamic),
    ("unsafe-hashes".toList, .unsafeHashes), ("report-sample".toList, .reportSample),
    ("unsafe-allow-redirects".toList, .unsafeAllowRedirects),
    ("wasm-unsafe-eval".toList, .wasmUnsafeEval),
    ("inline-speculation-rules".toList, .inlineSpeculationRules)]

def keyword (inner : Text) : Option Keyword :=
  (keywordTable.find? fun e => eqIgnoreAsciiCase inner e.1).map Prod.snd

inductive PortPart where
  | absent
  | any
  | num (port : UInt16)
  deriving DecidableEq

structure HostSource where
  scheme : Option Text
  host : Text
  port : PortPart
  path : Option Text
  deriving DecidableEq

inductive SourceExpr where
  | keyword (k : Keyword)
  | nonce (value : Text)
  | hash (value : HashValue)
  | scheme (scheme : Text)
  | host (source : HostSource)
  | unrecognized
  deriving DecidableEq

def SourceExpr.isHash : SourceExpr → Bool
  | .hash _ => true
  | _ => false

def SourceExpr.isHashBy (alg : HashAlg) : SourceExpr → Bool
  | .hash h => h.alg = alg
  | _ => false

def isScheme (s : Text) : Bool :=
  match s with
  | [] => false
  | c :: s => isSchemeChar c true && s.all fun c => isSchemeChar c false

def isBase64Value (s : Text) : Bool :=
  let body := trimEndMatches (· = '=') s
  !body.isEmpty && s.length - body.length ≤ 2 &&
    body.all fun c => c.isAlphanum || c = '+' || c = '/' || c = '-' || c = '_'

def validHostPart (h : Text) : Bool :=
  let body := (stripPrefix h "*.".toList).getD h
  h = ['*'] ||
    (!body.isEmpty && (body.splitOn '.').all fun l => !l.isEmpty && l.all fun c => c.isAlphanum || c = '-')

/-- The port that a host-source writes. -/
def parsePortPart (p : Text) : Option PortPart :=
  if p = ['*'] then some .any
  else if p.isEmpty || 5 < p.len || !p.all Char.isDigit then none
  else (parseUnsigned 10 65536 p).map fun n => .num (UInt16.ofNat n)

def parseHostSource (token : Text) : Option HostSource := do
  if token.contains '?' || token.contains '#' then none
  else
    let (scheme, rest) ←
      match splitOnceText "://".toList token with
      | some (s, r) => if isScheme s then some (some (toAsciiLowercase s), r) else none
      | none => some (none, token)
    let (authority, path) := rest.span fun c => c ≠ '/'
    let (host, port) ←
      match rsplitOnce ':' authority with
      | some (h, p) => (parsePortPart p).map fun port => (h, port)
      | none => some (authority, .absent)
    if !validHostPart host then none
    else some { scheme, host := toAsciiLowercase host, port, path := if path.isEmpty then none else some path }

/-- The expression between two quotes. -/
def parseQuoted (inner : Text) : SourceExpr :=
  match keyword inner with
  | some k => .keyword k
  | none =>
      if eqIgnoreAsciiCase (inner.take 6) "nonce-".toList then
        if isBase64Value (inner.drop 6) then .nonce (inner.drop 6) else .unrecognized
      else
        match splitOnce '-' inner with
        | none => .unrecognized
        | some (alg, value) =>
            match HashAlg.parse alg with
            | none => .unrecognized
            | some alg =>
                -- a hash that cannot match is still a hash
                if isBase64Value value then .hash ((HashValue.parse inner).getD { alg, digest := [] })
                else .unrecognized

def parseSource (token : Text) : SourceExpr :=
  match token with
  | '\'' :: inner => ((stripSuffix inner ['\'']).map parseQuoted).getD .unrecognized
  | _ =>
      match stripSuffix token [':'] with
      | some s => if isScheme s then .scheme (toAsciiLowercase s) else .unrecognized
      | none => ((parseHostSource token).map SourceExpr.host).getD .unrecognized

/-! ## Matching -/

def schemePartMatches (policyScheme urlScheme : Text) : Bool :=
  policyScheme = urlScheme ||
    (policyScheme = "http".toList && urlScheme = "https".toList) ||
    (policyScheme = "ws".toList &&
      (urlScheme = "wss".toList || urlScheme = "http".toList || urlScheme = "https".toList)) ||
    (policyScheme = "wss".toList && urlScheme = "https".toList)

def isNetworkScheme (s : Text) : Bool := ["ftp", "http", "https", "ws", "wss"].any fun n => n.toList = s

def pathPartMatches (policyPath urlPath : Text) : Bool :=
  if policyPath.isEmpty then true
  else
    let exact := policyPath.getLast? ≠ some '/'
    let a := ((stripPrefix policyPath ['/']).getD policyPath).splitOn '/'
    let b := ((stripPrefix urlPath ['/']).getD urlPath).splitOn '/'
    if b.length < a.length then false
    else if exact ∧ a.length ≠ b.length then false
    else
      ((if exact then a else a.dropLast).zip b).all fun pair =>
        percentDecode (utf8 pair.1) = percentDecode (utf8 pair.2)

def hostPartMatches (policyHost urlHost : Text) : Bool :=
  if policyHost = ['*'] then true
  else
    match stripPrefix policyHost ['*'] with
    | some remaining =>
        !isIpLiteral urlHost && remaining.len < urlHost.len &&
          remaining.isSuffixOf (toAsciiLowercase urlHost)
    | none => policyHost = toAsciiLowercase urlHost

def selfMatches (url : CspUrl) (origin : Origin) : Bool :=
  match origin with
  | .opaqueOrigin => false
  | .tuple oScheme oHost oPort =>
      if origin.sameOrigin url.origin then true
      else
        match url.host, url.effectivePort with
        | some uHost, some uPort =>
            let upgraded :=
              (oScheme = "http".toList &&
                (url.scheme = "https".toList || url.scheme = "ws".toList || url.scheme = "wss".toList)) ||
              (oScheme = "https".toList && url.scheme = "wss".toList)
            uHost = oHost && upgraded &&
              (oPort = uPort ||
                (defaultPort oScheme = some oPort && defaultPort url.scheme = some uPort))
        | _, _ => false

def hostSourceMatches (h : HostSource) (url : CspUrl) (origin : Origin) (redirects : UInt32) : Bool :=
  if h.host = ['*'] ∧ h.scheme = none ∧ h.port = .absent ∧ h.path = none then
    isNetworkScheme url.scheme || origin.scheme? = some url.scheme
  else
    let schemeOk :=
      match h.scheme with
      | some s => schemePartMatches s url.scheme
      | none => origin.scheme?.any fun s => schemePartMatches s url.scheme
    let portOk :=
      match h.port with
      | .any => true
      | .num n => url.effectivePort = some n
      | .absent => url.port.isNone
    let pathOk :=
      match h.path with
      | some p => if redirects = 0 then pathPartMatches p url.path else true
      | none => true
    schemeOk && url.host.any (hostPartMatches h.host) && portOk && pathOk

def exprMatchesUrl (e : SourceExpr) (url : CspUrl) (origin : Origin) (redirects : UInt32) : Bool :=
  match e with
  | .keyword .selfOrigin => selfMatches url origin
  | .keyword _ | .nonce _ | .hash _ | .unrecognized => false
  | .scheme s => schemePartMatches s url.scheme
  | .host h => hostSourceMatches h url origin redirects

inductive InlineType where
  | script
  | scriptAttribute
  | style
  | styleAttribute
  | navigation
  deriving DecidableEq

structure SourceList where
  exprs : List SourceExpr
  deriving DecidableEq

namespace SourceList

def parse (tokens : List Text) : SourceList := ⟨tokens.map parseSource⟩

def isNone (l : SourceList) : Bool := l.exprs = [] || l.exprs = [.keyword .none_]

def hasKeyword (l : SourceList) (k : Keyword) : Bool := l.exprs.contains (.keyword k)

def hasHash (l : SourceList) : Bool := l.exprs.any SourceExpr.isHash

def nonceMatches (l : SourceList) (nonce : Text) : Bool := !nonce.isEmpty && l.exprs.contains (.nonce nonce)

def containsHash (l : SourceList) (h : HashValue) : Bool := l.exprs.contains (.hash h)

def matchesUrl (l : SourceList) (url : CspUrl) (origin : Origin) (redirectCount : UInt32) : Bool :=
  !l.isNone && l.exprs.any fun e => exprMatchesUrl e url origin redirectCount

/-- `hash_matches_text`, where `digest` is `HashAlg::digest`. -/
def hashMatchesText (digest : HashAlg → Bytes → Bytes) (l : SourceList) (text : Text) : Bool :=
  l.hasHash &&
    [HashAlg.sha256, .sha384, .sha512].any fun alg =>
      l.exprs.any (SourceExpr.isHashBy alg) && l.containsHash { alg, digest := digest alg text.utf8 }

/-- The loop of `allows_all_inline`, where `allow` is what was found so far. -/
def allowsInlineFrom (scriptLike : Bool) : Bool → List SourceExpr → Bool
  | allow, [] => allow
  | _, .nonce _ :: _ => false
  | _, .hash _ :: _ => false
  | allow, .keyword .strictDynamic :: es => if scriptLike then false else allowsInlineFrom scriptLike allow es
  | _, .keyword .unsafeInline :: es => allowsInlineFrom scriptLike true es
  | allow, _ :: es => allowsInlineFrom scriptLike allow es

def allowsAllInline (l : SourceList) (ty : InlineType) : Bool :=
  allowsInlineFrom (ty = .script || ty = .scriptAttribute || ty = .navigation) false l.exprs

end SourceList

example : parseSource "HTTPS://*.Example.com:8443/a".toList =
    .host ⟨some "https".toList, "*.example.com".toList, .num 8443, some "/a".toList⟩ := by decide

end Pelorus.Websec.Csp
