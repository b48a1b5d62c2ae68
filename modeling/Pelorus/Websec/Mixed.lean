import Pelorus.Websec.Origin

/-
  Websec/Mixed.lean --- mixed content, and what is potentially trustworthy
  (`px-websec/src/mixed.rs`).

  An origin that is made on the way is opaque, and no opaque origin is trustworthy; its
  number (`fresh`) is there because `Origin.fromUrl` asks for it.
-/
set_option autoImplicit false

namespace Pelorus.Websec.Mixed

open Lib Lib.Text

/-! ## Trustworthiness -/

def hostIsLoopback : Host → Bool
  | .ipv4 octets => octets.1.head? = some 127
  | .ipv6 pieces => pieces.1 = [0, 0, 0, 0, 0, 0, 0, 1]
  | .domain d =>
      let d := trimEndMatches (· = '.') d
      d = "localhost".toList || ".localhost".toList.isSuffixOf d
  | .opaqueHost _ => false
  | .empty => false

def isOriginPotentiallyTrustworthy : Origin → Bool
  | .opaqueOrigin _ => false
  | .tuple scheme host _ => scheme = "https".toList || scheme = "wss".toList || hostIsLoopback host

def isUrlPotentiallyTrustworthy (fresh : UInt64) (url : Url) : Bool :=
  if url.scheme = "about".toList then url.path = "blank".toList || url.path = "srcdoc".toList
  else if url.scheme = "data".toList ∨ url.scheme = "file".toList then true
  else isOriginPotentiallyTrustworthy (Origin.fromUrl fresh url)

/-- A document in a frame chain. -/
structure ContextNode where
  url : Url
  origin : Origin
  deriving DecidableEq

def ContextNode.isTrustworthy (n : ContextNode) : Bool :=
  isOriginPotentiallyTrustworthy n.origin || (n.origin.isOpaque && n.url.scheme = "file".toList)

/-! ## Requests -/

inductive RequestKind where
  | image
  | audio
  | video
  | track
  | script
  | style
  | font
  | fetch
  | subframe
  | object
  | worker
  | serviceWorker
  | webSocket
  | manifest
  | prefetch
  | imageSet
  | beacon
  deriving DecidableEq

inductive Category where
  | blockable
  | optionallyBlockable
  deriving DecidableEq

def category : RequestKind → Category
  | .image => .optionallyBlockable
  | .audio => .optionallyBlockable
  | .video => .optionallyBlockable
  | _ => .blockable

/-- The requesting document, and its ancestors, nearest first. -/
structure Context where
  document : ContextNode
  ancestors : List ContextNode

def Context.prohibitsMixed (c : Context) : Bool :=
  c.document.isTrustworthy || c.ancestors.any ContextNode.isTrustworthy

inductive Verdict where
  | allow
  | upgrade (url : Url)
  | block
  deriving DecidableEq

/-- The host is an address. -/
def isIpHost : Option Host → Bool
  | some (.ipv4 _) => true
  | some (.ipv6 _) => true
  | _ => false

def checkRequest (fresh : UInt64) (context : Context) (kind : RequestKind) (url : Url) : Verdict :=
  if !context.prohibitsMixed || isUrlPotentiallyTrustworthy fresh url then .allow
  else
    match category kind with
    | .blockable => .block
    | .optionallyBlockable =>
        -- a host that is an address is not upgraded, and so it is refused
        match url.upgradedToHttps with
        | some u => if isIpHost url.host then .block else .upgrade u
        | none => .block

def checkResponse (fresh : UInt64) (context : Context) (responseUrl : Url) : Verdict :=
  if !context.prohibitsMixed || isUrlPotentiallyTrustworthy fresh responseUrl then .allow else .block

variable {fresh : UInt64} {url : Url}

/-- An upgrade is to the https form of the URL. -/
theorem checkRequest_upgrade {context : Context} {kind : RequestKind} {u : Url}
    (h : checkRequest fresh context kind url = .upgrade u) : url.upgradedToHttps = some u := by
  unfold checkRequest at h
  split at h
  · cases h
  · split at h
    · cases h
    · split at h
      · rename_i u' hu
        split at h
        · cases h
        · cases h
          exact hu
      · cases h

/-- What is let through as it is. -/
theorem checkRequest_allow_iff {context : Context} {kind : RequestKind} :
    checkRequest fresh context kind url = .allow ↔
      (context.prohibitsMixed = true → isUrlPotentiallyTrustworthy fresh url = true) := by
  have hguard : (!context.prohibitsMixed || isUrlPotentiallyTrustworthy fresh url) = true ↔
      (context.prohibitsMixed = true → isUrlPotentiallyTrustworthy fresh url = true) := by
    cases context.prohibitsMixed <;> simp
  rw [← hguard]
  unfold checkRequest
  constructor
  · intro h
    by_contra hc
    rw [if_neg hc] at h
    split at h
    · cases h
    · split at h
      · split at h <;> cases h
      · cases h
  · intro hc
    rw [if_pos hc]

/-- Whether a web URL is trustworthy is a matter of its origin. -/
theorem isUrlPotentiallyTrustworthy_of_web
    (h : url.scheme = "http".toList ∨ url.scheme = "https".toList) :
    isUrlPotentiallyTrustworthy fresh url = isOriginPotentiallyTrustworthy (Origin.fromUrl fresh url) := by
  unfold isUrlPotentiallyTrustworthy
  rcases h with h | h <;> rw [h, if_neg (by decide), if_neg (by decide)]

end Pelorus.Websec.Mixed

/-! # Referrer policies and the referrer they leave (`px-websec/src/referrer.rs`) -/

namespace Pelorus.Websec

open Lib Lib.Text

inductive ReferrerPolicy where
  | noReferrer
  | noReferrerWhenDowngrade
  | sameOrigin
  | origin
  | strictOrigin
  | originWhenCrossOrigin
  | strictOriginWhenCrossOrigin
  | unsafeUrl
  deriving DecidableEq

namespace ReferrerPolicy

def DEFAULT : ReferrerPolicy := .strictOriginWhenCrossOrigin

def asStr : ReferrerPolicy → Text
  | .noReferrer => "no-referrer".toList
  | .noReferrerWhenDowngrade => "no-referrer-when-downgrade".toList
  | .sameOrigin => "same-origin".toList
  | .origin => "origin".toList
  | .strictOrigin => "strict-origin".toList
  | .originWhenCrossOrigin => "origin-when-cross-origin".toList
  | .strictOriginWhenCrossOrigin => "strict-origin-when-cross-origin".toList
  | .unsafeUrl => "unsafe-url".toList

/-- Every policy, in the source's order. -/
def ALL : List ReferrerPolicy :=
  [.noReferrer, .noReferrerWhenDowngrade, .sameOrigin, .origin, .strictOrigin,
    .originWhenCrossOrigin, .strictOriginWhenCrossOrigin, .unsafeUrl]

def fromToken (t : Text) : Option ReferrerPolicy := ALL.find? fun p => eqIgnoreAsciiCase t p.asStr

end ReferrerPolicy

namespace Referrer

def MAX_REFERRER_BYTES : Nat := 4096

def MAX_POLICY_INPUT : Nat := 4096

/-- The whitespace around a token. -/
def isTokenSpace (c : Char) : Bool :=
  c = ' ' || c = '\t' || c = '\n' || c = '\r' || c = Char.ofNat 0x0c

/-- `trim_matches`. -/
def trimToken (t : Text) : Text := trimEndMatches isTokenSpace (trimStartMatches isTokenSpace t)

/-- `parse_header`: the last token that names a policy. -/
def parseHeader (value : Text) : Option ReferrerPolicy :=
  if MAX_POLICY_INPUT < value.len then none
  else ((value.splitOn ',').filterMap fun t => ReferrerPolicy.fromToken (trimToken t)).getLast?

def effectivePolicy (requestPolicy documentPolicy : Option ReferrerPolicy) : ReferrerPolicy :=
  (requestPolicy.or documentPolicy).getD ReferrerPolicy.DEFAULT

def stripForReferrer (source : Url) (originOnly : Bool) : Option Url :=
  if ["http", "https", "ws", "wss", "ftp"].all fun s => s.toList ≠ source.scheme then none
  else
    let u := source.stripCredentials.stripFragment
    some (if originOnly then u.setOriginOnly else u)

def compute (fresh : UInt64) (source : Option Url) (policy : ReferrerPolicy) (requestUrl : Url) :
    Option Text := do
  if requestUrl.scheme ≠ "http".toList ∧ requestUrl.scheme ≠ "https".toList then none
  else
    let source ← source
    let full ← stripForReferrer source false
    let originOnly ← stripForReferrer source true
    let full := if MAX_REFERRER_BYTES < (full.serialize true).len then originOnly else full
    let fullOrigin := Origin.fromUrl fresh full
    let sameOrigin := fullOrigin = Origin.fromUrl fresh requestUrl && !fullOrigin.isOpaque
    let downgrade :=
      Mixed.isUrlPotentiallyTrustworthy fresh full &&
        !Mixed.isUrlPotentiallyTrustworthy fresh requestUrl
    let out ←
      match policy with
      | .noReferrer => none
      | .origin => some originOnly
      | .unsafeUrl => some full
      | .strictOrigin => if downgrade then none else some originOnly
      | .strictOriginWhenCrossOrigin =>
          if sameOrigin then some full else if downgrade then none else some originOnly
      | .originWhenCrossOrigin => some (if sameOrigin then full else originOnly)
      | .sameOrigin => if sameOrigin then some full else none
      | .noReferrerWhenDowngrade => if downgrade then none else some full
    some (out.serialize true)

end Referrer

end Pelorus.Websec
