import Mathlib.Data.List.Dedup
import Mathlib.Data.List.Sort
import Pelorus.Websec.Mixed

/-
  Websec/Cors.lean --- the CORS protocol (`px-websec/src/cors.rs`): what is simple and
  what needs a preflight, what a preflight grants, who may read a response, and the
  cache of preflights.

  Header values are bytes; a value that is read as a list is cut on commas outside
  quoted strings.
-/
set_option autoImplicit false

namespace Pelorus.Websec.Cors

open Lib Lib.Text

def MAX_AGE_CAP_SECS : Nat := 7200

def DEFAULT_MAX_AGE_SECS : Nat := 5

def MAX_CACHE_ENTRIES : Nat := 512

def SAFELIST_VALUE_MAX : Nat := 128

def SAFELIST_TOTAL_MAX : Nat := 1024

inductive CredentialsMode where
  | omit_
  | sameOrigin
  | include_
  deriving DecidableEq

inductive RequestMode where
  | cors
  | noCors
  | sameOrigin
  | navigate
  deriving DecidableEq

structure Header where
  name : Text
  value : Bytes
  deriving DecidableEq

def Header.new (name value : Text) : Header := ⟨name, value.utf8⟩

/-- What the protocol looks at of a request. -/
structure CorsRequest where
  method : Text
  url : Url
  origin : Origin
  headers : List Header
  credentials : CredentialsMode
  mode : RequestMode
  useCorsPreflightFlag : Bool
  originTainted : Bool
  deriving DecidableEq

/-- What the protocol looks at of a response. -/
structure CorsResponse where
  status : UInt16
  headers : List Header
  deriving DecidableEq

inductive CorsError where
  | missingAllowOrigin
  | originMismatch
  | credentialsNotAllowed
  | preflightStatus
  | methodNotAllowed
  | headerNotAllowed (name : Text)
  | crossOriginForbidden
  | unsupportedScheme
  deriving DecidableEq

inductive Tainting where
  | basic
  | cors
  | opaque_
  deriving DecidableEq

/-- Why a preflight is required. -/
structure PreflightReasons where
  unsafeMethod : Bool
  unsafeHeaders : List Text
  flag : Bool
  deriving DecidableEq

inductive Classification where
  | simple
  | preflighted (reasons : PreflightReasons)
  deriving DecidableEq

/-! ## Methods and header names -/

def normalizeMethod (m : Text) : Text :=
  ((["DELETE", "GET", "HEAD", "OPTIONS", "POST", "PUT"].map String.toList).find?
    fun k => eqIgnoreAsciiCase m k).getD m

def isSafelistedMethod (m : Text) : Bool := m = "GET".toList || m = "HEAD".toList || m = "POST".toList

def isForbiddenMethod (m : Text) : Bool :=
  ["CONNECT", "TRACE", "TRACK"].any fun f => eqIgnoreAsciiCase m f.toList

def isHttpWs (b : UInt8) : Bool := b = 0x09 || b = 0x0a || b = 0x0d || b = 0x20

def trimHttpWs (bytes : Bytes) : Bytes := (bytes.dropWhile isHttpWs).rdropWhile isHttpWs

/-- The pieces of a list-valued header: those that are done, the one that is being read,
whether it is inside a quoted string, and whether after a backslash there. -/
def splitListFrom (done : List Text) (cur : Bytes) (inQ esc : Bool) : Bytes → List Text
  | [] => done ++ [fromUtf8Lossy (trimHttpWs cur)]
  | b :: rest =>
      if inQ then
        if esc then splitListFrom done (cur ++ [b]) true false rest
        else if b = 0x5c then splitListFrom done (cur ++ [b]) true true rest
        else if b = 0x22 then splitListFrom done (cur ++ [b]) false false rest
        else splitListFrom done (cur ++ [b]) true false rest
      else if b = 0x22 then splitListFrom done (cur ++ [b]) true esc rest
      else if b = 0x2c then splitListFrom (done ++ [fromUtf8Lossy (trimHttpWs cur)]) [] false esc rest
      else splitListFrom done (cur ++ [b]) false esc rest

def splitList (value : Bytes) : List Text := splitListFrom [] [] false false value

def isForbiddenRequestHeader (name : Text) (value : Bytes) : Bool :=
  let n := toAsciiLowercase name
  if (["accept-charset", "accept-encoding", "access-control-request-headers",
        "access-control-request-method", "connection", "content-length", "cookie", "cookie2",
        "date", "dnt", "expect", "host", "keep-alive", "origin", "referer", "set-cookie", "te",
        "trailer", "transfer-encoding", "upgrade", "via"].map String.toList).contains n
      || "proxy-".toList.isPrefixOf n || "sec-".toList.isPrefixOf n then true
  else if (["x-http-method", "x-http-method-override", "x-method-override"].map String.toList).contains n then
    match fromUtf8 value with
    | none => true
    | some v => (splitList v.utf8).any isForbiddenMethod
  else false

def isForbiddenResponseHeader (name : Text) : Bool :=
  eqIgnoreAsciiCase name "set-cookie".toList || eqIgnoreAsciiCase name "set-cookie2".toList

/-! ## Safelisted headers -/

def isCorsUnsafeByte (b : UInt8) : Bool :=
  (b < 0x20 && b ≠ 0x09) ||
    [0x22, 0x28, 0x29, 0x3a, 0x3c, 0x3e, 0x3f, 0x40, 0x5b, 0x5c, 0x5d, 0x7b, 0x7d, 0x7f].contains b

def isAsciiDigit (b : UInt8) : Bool := 0x30 ≤ b && b ≤ 0x39

def isAsciiAlphanumeric (b : UInt8) : Bool :=
  isAsciiDigit b || (0x41 ≤ b && b ≤ 0x5a) || (0x61 ≤ b && b ≤ 0x7a)

def isTokenByte (b : UInt8) : Bool :=
  isAsciiAlphanumeric b ||
    [0x21, 0x23, 0x24, 0x25, 0x26, 0x27, 0x2a, 0x2b, 0x2d, 0x2e, 0x5e, 0x5f, 0x60, 0x7c, 0x7e].contains b

def mimeEssence (value : Bytes) : Option Text :=
  let essence := trimHttpWs ((trimHttpWs value).takeWhile fun b => b ≠ 0x3b)
  let (t, rest) := essence.span fun b => b ≠ 0x2f
  match rest with
  | [] => none
  | _ :: s =>
      if t.isEmpty || s.isEmpty || !(t ++ s).all isTokenByte then none
      else some (toAsciiLowercase (fromUtf8Lossy essence))

/-- Digits, and at least one. -/
def isDigits (s : Text) : Bool := !s.isEmpty && s.all Char.isDigit

def parseSingleRangeStart (v : Bytes) : Bool :=
  match (fromUtf8 v).bind fun s => (stripPrefix s "bytes=".toList).bind (splitOnce '-') with
  | none => false
  | some (a, b) =>
      if !isDigits a then false
      else if b.isEmpty then true
      else if !isDigits b then false
      else
        match Numerals.parseUnsigned 10 (2 ^ 64) a, Numerals.parseUnsigned 10 (2 ^ 64) b with
        | some a, some b => a ≤ b
        | _, _ => false

def isSafelistedRequestHeader (name : Text) (value : Bytes) : Bool :=
  let n := toAsciiLowercase name
  if SAFELIST_VALUE_MAX < value.length then false
  else if n = "accept".toList then !value.any isCorsUnsafeByte
  else if n = "accept-language".toList ∨ n = "content-language".toList then
    value.all fun b => isAsciiAlphanumeric b || [0x20, 0x2a, 0x2c, 0x2d, 0x2e, 0x3b, 0x3d].contains b
  else if n = "content-type".toList then
    if value.any isCorsUnsafeByte then false
    else
      let essence := mimeEssence value
      essence = some "application/x-www-form-urlencoded".toList ||
        essence = some "multipart/form-data".toList || essence = some "text/plain".toList
  else if n = "range".toList then parseSingleRangeStart value
  else false

/-- A header's own reason to be unsafe. -/
def isUnsafeHeader (h : Header) : Bool := !isSafelistedRequestHeader h.name h.value

/-- The bytes in the values of safelisted headers. -/
def safelistedTotal (headers : List Header) : Nat :=
  ((headers.filter fun h => !isUnsafeHeader h).map fun h => h.value.length).sum

/-- `unsafe_header_names`: in lower case, sorted, each once. -/
def unsafeHeaderNames (headers : List Header) : List Text :=
  let unsafeNames := (headers.filter isUnsafeHeader).map fun h => toAsciiLowercase h.name
  let potentially := (headers.filter fun h => !isUnsafeHeader h).map fun h => toAsciiLowercase h.name
  ((if SAFELIST_TOTAL_MAX < safelistedTotal headers then unsafeNames ++ potentially
    else unsafeNames).dedup).insertionSort fun a b => a.utf8 ≤ b.utf8

/-- `get_combined`: every value of a header, joined. -/
def getCombined (headers : List Header) (name : Text) : Option Bytes :=
  match headers.filter fun h => eqIgnoreAsciiCase h.name name with
  | [] => none
  | found => some ([0x2c, 0x20].intercalate (found.map fun h => trimHttpWs h.value))

def extractList (headers : List Header) (name : Text) : Option (List Text) :=
  (getCombined headers name).map splitList

/-! ## Classification -/

def classify (request : CorsRequest) : Classification :=
  let unsafeMethod := !isSafelistedMethod request.method
  let unsafeHeaders := unsafeHeaderNames request.headers
  if !unsafeMethod && unsafeHeaders.isEmpty && !request.useCorsPreflightFlag then .simple
  else .preflighted { unsafeMethod, unsafeHeaders, flag := request.useCorsPreflightFlag }

def serializeRequestOrigin (request : CorsRequest) : Text := request.origin.serialize

def shouldSendOriginHeader (request : CorsRequest) (taint : Tainting) : Bool :=
  taint = .cors || !(request.method = "GET".toList || request.method = "HEAD".toList)

/-- Whether a policy keeps the origin of a request from its destination. -/
def hidesOrigin (fresh : UInt64) (request : CorsRequest) : ReferrerPolicy → Bool
  | .noReferrer => true
  | .noReferrerWhenDowngrade | .strictOrigin | .strictOriginWhenCrossOrigin =>
      request.origin.scheme? = some "https".toList && request.url.scheme ≠ "https".toList
  | .sameOrigin => !request.origin.sameOrigin (Origin.fromUrl fresh request.url)
  | .origin | .originWhenCrossOrigin | .unsafeUrl => false

def originHeaderValue (fresh : UInt64) (request : CorsRequest) (taint : Tainting) (policy : ReferrerPolicy) :
    Option Text :=
  let serialized := serializeRequestOrigin request
  if taint = .cors then some serialized
  else if !shouldSendOriginHeader request taint then none
  else if request.mode ≠ .cors ∧ hidesOrigin fresh request policy = true then some "null".toList
  else some serialized

/-! ## Preflights -/

structure PreflightRequest where
  method : Text
  url : Url
  headers : List Header
  originHeader : Text
  credentials : CredentialsMode
  deriving DecidableEq

def preflightRequest (request : CorsRequest) : PreflightRequest :=
  let names := unsafeHeaderNames request.headers
  { method := "OPTIONS".toList
    url := request.url
    headers :=
      [Header.new "Accept".toList "*/*".toList,
        Header.new "Access-Control-Request-Method".toList request.method] ++
      (if names.isEmpty then []
      else [Header.new "Access-Control-Request-Headers".toList ([','].intercalate names)])
    originHeader := serializeRequestOrigin request
    credentials := .sameOrigin }

structure PreflightGrant where
  methods : List Text
  headerNames : List Text
  maxAge : Nat
  deriving DecidableEq

def corsCheck (request : CorsRequest) (responseHeaders : List Header) : Except CorsError Unit :=
  match getCombined responseHeaders "Access-Control-Allow-Origin".toList with
  | none => .error .missingAllowOrigin
  | some acao =>
      if request.credentials ≠ .include_ ∧ acao = utf8 "*".toList then .ok ()
      else if acao ≠ (serializeRequestOrigin request).utf8 then .error .originMismatch
      else if request.credentials ≠ .include_ then .ok ()
      else
        match getCombined responseHeaders "Access-Control-Allow-Credentials".toList with
        | some c => if c = utf8 "true".toList then .ok () else .error .credentialsNotAllowed
        | none => .error .credentialsNotAllowed

def headerListed (list : List Text) (name : Text) : Bool := list.any fun i => eqIgnoreAsciiCase i name

/-- An author set the header `Authorization`. -/
def hasAuthorization (headers : List Header) : Bool :=
  headers.any fun h => eqIgnoreAsciiCase h.name "authorization".toList

/-- `parse_delta_seconds`, saturating. -/
def parseDeltaSeconds (v : Bytes) : Option Nat :=
  let v := trimHttpWs v
  if v.isEmpty || !v.all isAsciiDigit then none
  else
    some (v.foldl (fun n d => min (min (n * 10) (2 ^ 64 - 1) + (d.toNat - 0x30)) (2 ^ 64 - 1)) 0)

/-- The methods a preflight response lists. -/
def grantedMethods (request : CorsRequest) (response : CorsResponse) : List Text :=
  let methods := extractList response.headers "Access-Control-Allow-Methods".toList
  (if methods.isNone ∧ request.useCorsPreflightFlag = true then some [request.method] else methods).getD []

/-- The header names a preflight response lists. -/
def grantedHeaders (response : CorsResponse) : List Text :=
  (extractList response.headers "Access-Control-Allow-Headers".toList).getD []

/-- For how long a preflight response may be kept. -/
def grantedAge (response : CorsResponse) : Nat :=
  min
    (((getCombined response.headers "Access-Control-Max-Age".toList).bind parseDeltaSeconds).getD
      DEFAULT_MAX_AGE_SECS)
    MAX_AGE_CAP_SECS

def validatePreflight (request : CorsRequest) (response : CorsResponse) : Except CorsError PreflightGrant :=
  match corsCheck request response.headers with
  | .error e => .error e
  | .ok () =>
      if response.status < 200 ∨ 300 ≤ response.status then .error .preflightStatus
      else
        let plain : Bool := request.credentials ≠ .include_
        let methods := grantedMethods request response
        let headerNames := grantedHeaders response
        let methodStar := plain && methods.contains "*".toList
        if !methods.contains request.method && !isSafelistedMethod request.method && !methodStar then
          .error .methodNotAllowed
        -- the wildcard never covers `Authorization`
        else if hasAuthorization request.headers && !headerListed headerNames "authorization".toList then
          .error (.headerNotAllowed "authorization".toList)
        else
          let star := plain && headerNames.contains "*".toList
          match (unsafeHeaderNames request.headers).find? fun n => !headerListed headerNames n && !star with
          | some n => .error (.headerNotAllowed n)
          | none => .ok { methods, headerNames, maxAge := grantedAge response }

/-! ## The cache of preflights -/

structure CacheEntry where
  partition : Text
  origin : Origin
  url : Text
  credentials : Bool
  method : Option Text
  header : Option Text
  expiresAt : Nat
  deriving DecidableEq

/-- `PreflightCache`, oldest entry first. -/
structure PreflightCache where
  entries : List CacheEntry
  deriving DecidableEq

namespace PreflightCache

def new : PreflightCache := ⟨[]⟩

def forgetPartition (cache : PreflightCache) (partition : Text) : PreflightCache :=
  ⟨cache.entries.filter fun e => e.partition ≠ partition⟩

def baseMatch (e : CacheEntry) (partition : Text) (request : CorsRequest) (now : Nat) : Bool :=
  now < e.expiresAt && e.partition = partition && e.origin = request.origin &&
    e.url = request.url.serialize true && (e.credentials || request.credentials ≠ .include_)

/-- The entries are of one grant but for the time they expire. -/
def sameGrant (e e' : CacheEntry) : Bool := { e with expiresAt := e'.expiresAt } = e'

/-- The first entry that is of the same grant, refreshed. -/
def refresh (entry : CacheEntry) : List CacheEntry → Option (List CacheEntry)
  | [] => none
  | e :: entries =>
      if sameGrant e entry then some ({ e with expiresAt := entry.expiresAt } :: entries)
      else (refresh entry entries).map (e :: ·)

/-- The closure `add` of `store`. -/
def add (entries : List CacheEntry) (entry : CacheEntry) : List CacheEntry :=
  match refresh entry entries with
  | some entries => entries
  | none => (if MAX_CACHE_ENTRIES ≤ entries.length then entries.drop 1 else entries) ++ [entry]

/-- The entries a grant makes. -/
def grantEntries (partition : Text) (request : CorsRequest) (grant : PreflightGrant) (now : Nat) :
    List CacheEntry :=
  let entry (method header : Option Text) : CacheEntry :=
    { partition
      origin := request.origin
      url := request.url.serialize true
      credentials := request.credentials = .include_
      method
      header
      expiresAt := min (now + grant.maxAge) (2 ^ 64 - 1) }
  (grant.methods.map fun m => entry (some m) none) ++
    grant.headerNames.map fun h => entry none (some (toAsciiLowercase h))

def store (cache : PreflightCache) (partition : Text) (request : CorsRequest) (grant : PreflightGrant)
    (now : Nat) : PreflightCache :=
  if grant.maxAge = 0 then cache
  else
    ⟨(grantEntries partition request grant now).foldl add
      (cache.entries.filter fun e => now < e.expiresAt)⟩

/-- An entry covers a method. -/
def coversMethod (request : CorsRequest) (e : CacheEntry) : Bool :=
  e.method.any fun m => m = request.method || (m = "*".toList && request.credentials ≠ .include_)

/-- An entry covers a header. -/
def coversHeader (request : CorsRequest) (name : Text) (e : CacheEntry) : Bool :=
  e.header.any fun h =>
    h = name || (h = "*".toList && request.credentials ≠ .include_ && name ≠ "authorization".toList)

def covers (cache : PreflightCache) (partition : Text) (request : CorsRequest) (now : Nat) : Bool :=
  let live := cache.entries.filter fun e => baseMatch e partition request now
  let methodOk :=
    live.any (coversMethod request) ||
      (isSafelistedMethod request.method && !request.useCorsPreflightFlag)
  methodOk &&
    (!hasAuthorization request.headers || live.any (coversHeader request "authorization".toList)) &&
    (unsafeHeaderNames request.headers).all fun n => live.any (coversHeader request n)

end PreflightCache

/-! ## Responses -/

def taint (fresh : UInt64) (request : CorsRequest) : Except CorsError Tainting :=
  if request.url.scheme = "data".toList ∨ request.mode = .navigate then .ok .basic
  else if (Origin.fromUrl fresh request.url).sameOrigin request.origin && !request.originTainted then
    .ok .basic
  else
    match request.mode with
    | .sameOrigin => .error .crossOriginForbidden
    | .noCors => .ok .opaque_
    | .cors | .navigate =>
        if request.url.scheme = "http".toList ∨ request.url.scheme = "https".toList then .ok .cors
        else .error .unsupportedScheme

def validateResponse (request : CorsRequest) (taint : Tainting) (response : CorsResponse) :
    Except CorsError Unit :=
  match taint with
  | .cors => corsCheck request response.headers
  | .basic | .opaque_ => .ok ()

structure FilteredResponse where
  status : UInt16
  headers : List Header
  isOpaque : Bool
  deriving DecidableEq

/-- `SAFE`: the response headers that script may always read. -/
def SAFE : List Text :=
  ["cache-control", "content-language", "content-length", "content-type", "expires", "last-modified",
    "pragma"].map String.toList

/-- What `Access-Control-Expose-Headers` names. -/
def exposed (response : CorsResponse) : List Text :=
  (extractList response.headers "Access-Control-Expose-Headers".toList).getD []

def filterResponse (request : CorsRequest) (taint : Tainting) (response : CorsResponse) : FilteredResponse :=
  match taint with
  | .opaque_ => { status := 0, headers := [], isOpaque := true }
  | .basic =>
      { status := response.status
        headers := response.headers.filter fun h => !isForbiddenResponseHeader h.name
        isOpaque := false }
  | .cors =>
      let wildcard := request.credentials ≠ .include_ && (exposed response).contains "*".toList
      { status := response.status
        headers :=
          response.headers.filter fun h =>
            !isForbiddenResponseHeader h.name &&
              (SAFE.contains (toAsciiLowercase h.name) || wildcard ||
                headerListed (exposed response) h.name)
        isOpaque := false }

end Pelorus.Websec.Cors
