import Pelorus.Websec.Csp.Policy

/-
  Websec/Origin.lean --- origins and sites (`px-websec/src/origin/mod.rs`).

  OPAQUE ORIGINS are numbered by a counter of the process.  A function that may make a
  new one takes the number that the counter would give, and says nothing of the counter.
-/
set_option autoImplicit false

namespace Pelorus.Websec

open Lib Lib.Text

inductive Origin where
  | opaqueOrigin (id : UInt64)
  | tuple (scheme : Text) (host : Host) (port : Option UInt16)
  deriving DecidableEq

namespace Origin

/-- `Origin::tuple`. -/
def ofParts (scheme : Text) (host : Host) (port : Option UInt16) : Option Origin :=
  let scheme := toAsciiLowercase scheme
  if !isSpecialScheme scheme || scheme = "file".toList then none
  else
    match host with
    | .empty => none
    | .opaqueHost _ => none
    | _ => some (.tuple scheme host (if port.isSome ∧ port = defaultPort scheme then none else port))

/-- `from_url_inner`, where `fresh` is the number of a new opaque origin. -/
def fromUrlInner (fresh : UInt64) (url : Url) : Origin :=
  if url.isSpecial && url.scheme ≠ "file".toList then
    (url.host.bind fun h => ofParts url.scheme h url.port).getD (.opaqueOrigin fresh)
  else .opaqueOrigin fresh

def fromUrl (fresh : UInt64) (url : Url) : Origin :=
  if url.scheme = "blob".toList then
    match Url.parse url.path with
    | some inner =>
        if inner.scheme = "http".toList ∨ inner.scheme = "https".toList then fromUrlInner fresh inner
        else .opaqueOrigin fresh
    | none => .opaqueOrigin fresh
  else fromUrlInner fresh url

def forDocument (fresh : UInt64) (url : Url) (creator : Option Origin) : Origin :=
  if url.scheme = "about".toList ∧ (url.path = "blank".toList ∨ url.path = "srcdoc".toList) then
    creator.getD (.opaqueOrigin fresh)
  else fromUrl fresh url

def isOpaque : Origin → Bool
  | .opaqueOrigin _ => true
  | .tuple _ _ _ => false

/-- `scheme`. -/
def scheme? : Origin → Option Text
  | .opaqueOrigin _ => none
  | .tuple scheme _ _ => some scheme

/-- `host`. -/
def host? : Origin → Option Host
  | .opaqueOrigin _ => none
  | .tuple _ host _ => some host

def serialize : Origin → Text
  | .opaqueOrigin _ => "null".toList
  | .tuple scheme host (some p) =>
      scheme ++ "://".toList ++ host.serialize ++ ':' :: Nat.toDigits 10 p.toNat
  | .tuple scheme host none => scheme ++ "://".toList ++ host.serialize

def sameOrigin (a b : Origin) : Bool := a = b

end Origin

/-- `SiteResolver`: the registrable domain of a host. -/
abbrev SiteResolver : Type := Text → Option Text

inductive Site where
  | opaqueSite (id : UInt64)
  | tuple (scheme : Text) (host : Text)
  deriving DecidableEq

def Site.of (origin : Origin) (resolver : SiteResolver) : Site :=
  match origin with
  | .opaqueOrigin id => .opaqueSite id
  | .tuple scheme host _ =>
      .tuple scheme
        (match host with
        | .domain d => (resolver d).getD host.serialize
        | _ => host.serialize)

def sameSite (a b : Origin) (resolver : SiteResolver) : Bool := Site.of a resolver = Site.of b resolver

def schemelesslySameSite (a b : Origin) (resolver : SiteResolver) : Bool :=
  match Site.of a resolver, Site.of b resolver with
  | .opaqueSite x, .opaqueSite y => x = y
  | .tuple _ x, .tuple _ y => x = y
  | _, _ => false

def crossSiteForCookies (siteForCookies request : Origin) (resolver : SiteResolver) : Bool :=
  !sameSite siteForCookies request resolver

end Pelorus.Websec

/-! # Framing: `X-Frame-Options`, the `sandbox` attribute, and which of `frame-ancestors` and `X-Frame-Options` decides (`px-websec/src/frame.rs`) -/

namespace Pelorus.Websec.Frame

open Lib Lib.Text
open Websec.Csp (SandboxFlags)

def MAX_HEADER_BYTES : Nat := 4096

inductive XfoVerdict where
  | allowed
  | blocked
  deriving DecidableEq

/-- The values a header line lists. -/
def xfoValues (line : Text) : List Text :=
  let isBlank (c : Char) : Bool := c = ' ' || c = '\t' || c = '\n' || c = '\r'
  (line.splitOn ',').map fun part =>
    toAsciiLowercase (trimEndMatches isBlank (trimStartMatches isBlank part))

def checkXfo (headerValues : List Text) (responseOrigin : Origin) (ancestors : List Origin) : XfoVerdict :=
  if ancestors.isEmpty then .allowed
  else if headerValues.any fun line => MAX_HEADER_BYTES < line.len then .blocked
  else
    match (headerValues.flatMap xfoValues).dedup with
    | [] => .allowed
    | [v] =>
        if v = "deny".toList then .blocked
        else if v = "sameorigin".toList then
          if ancestors.all fun a => a.sameOrigin responseOrigin then .allowed else .blocked
        else .allowed
    | set =>
        if set.any fun v => v = "deny".toList || v = "sameorigin".toList then .blocked else .allowed

inductive FrameAncestors where
  | absent
  | allowed
  | blocked
  deriving DecidableEq

def embeddingAllowed (frameAncestors : FrameAncestors) (xfo : XfoVerdict) : Bool :=
  match frameAncestors with
  | .allowed => true
  | .blocked => false
  | .absent => xfo = .allowed

/-- The text of the first bytes, or nothing if they end inside a character. -/
def firstBytes (n : Nat) (v : Text) : Text := (fromUtf8 ((utf8 v).take n)).getD []

def parseSandboxAttribute (value : Option Text) : Option SandboxFlags :=
  value.map fun v =>
    let isSpace (c : Char) : Bool := c = ' ' || c = '\t' || c = '\n' || c = '\r' || c = Char.ofNat 0x0c
    SandboxFlags.fromTokens
      (((firstBytes (MAX_HEADER_BYTES * 4) v).splitOnP isSpace).filter fun t => !t.isEmpty)

/-- `sandboxed_origin`, where `fresh` is the number of a new opaque origin. -/
def sandboxedOrigin (fresh : UInt64) (flags : Option SandboxFlags) (origin : Origin) : Origin :=
  match flags with
  | some f => if f.forcesOpaqueOrigin then .opaqueOrigin fresh else origin
  | none => origin

end Pelorus.Websec.Frame
