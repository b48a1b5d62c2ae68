import Pelorus.Net.Jar
import Pelorus.Net.Redirect
import Pelorus.Websec.Coop
import Pelorus.Websec.OriginText
import Pelorus.Websec.Sri

/-
  Secure/Context.lean --- what a secure fetch is told, and what it says
  (`px-net/src/secure.rs`).

  THE CONTEXT is data of the caller; no field of it is read from a response.
-/
set_option autoImplicit false

namespace Pelorus.Secure

open Lib Websec Websec.Cors
open Net hiding Origin

def MAX_AUTHOR_HEADER_BYTES : Nat := 8 * 1024

/-! ## Destinations -/

inductive Destination where
  | navigation
  | iframe
  | script
  | style
  | image
  | font
  | fetch
  | eventSource
  | beacon
  | audio
  | video
  | track
  | object
  | embed
  | worker
  | sharedWorker
  | serviceWorker
  | manifest
  | prefetch
  deriving DecidableEq

namespace Destination

def cspKind : Destination → Option Csp.RequestKind
  | .navigation => none
  | .iframe => some .iframe
  | .script => some .script
  | .style => some .style
  | .image => some .image
  | .font => some .font
  | .fetch => some .fetch
  | .eventSource => some .eventSource
  | .beacon => some .beacon
  | .audio => some .audio
  | .video => some .video
  | .track => some .track
  | .object => some .object
  | .embed => some .embed
  | .worker => some .worker
  | .sharedWorker => some .sharedWorker
  | .serviceWorker => some .serviceWorker
  | .manifest => some .manifest
  | .prefetch => some .prefetch

def mixedKind : Destination → Option Mixed.RequestKind
  | .navigation => none
  | .iframe => some .subframe
  | .script => some .script
  | .style => some .style
  | .image => some .image
  | .font => some .font
  | .fetch | .eventSource => some .fetch
  | .beacon => some .beacon
  | .audio => some .audio
  | .video => some .video
  | .track => some .track
  | .object | .embed => some .object
  | .worker | .sharedWorker => some .worker
  | .serviceWorker => some .serviceWorker
  | .manifest => some .manifest
  | .prefetch => some .prefetch

def isNavigation (d : Destination) : Bool := d = .navigation || d = .iframe

end Destination

/-! ## The context -/

structure FetchContext where
  initiator : Origin
  topLevel : Origin
  documentUrl : Url
  document : Mixed.Context
  destination : Destination
  mode : RequestMode
  credentials : CredentialsMode
  method : Text
  headers : List Header
  body : Bytes
  useCorsPreflight : Bool
  requestReferrerPolicy : Option ReferrerPolicy
  documentReferrerPolicy : Option ReferrerPolicy
  csp : Csp.PolicySet
  embedderPolicy : Coop.Coep
  integrity : Option Text
  nonce : Option Text
  parserInserted : Bool
  iframeSandbox : Option Text

/-- The document and its ancestors, nearest first. -/
def FetchContext.nodes (ctx : FetchContext) : List Mixed.ContextNode :=
  ctx.document.document :: ctx.document.ancestors

/-! ## Outcomes -/

inductive ViolationKind where
  | request
  | mixedContent
  | csp
  | cors (error : CorsError)
  | preflight (error : CorsError)
  | corp
  | sri (error : Sri.SriError)
  | frameOptions
  | frameAncestors
  | redirect (error : RefusedRedirect)
  | malformedResponse
  deriving DecidableEq

/-- A refusal, or an observation of a report-only policy. -/
structure Violation where
  point : Text
  kind : ViolationKind
  enforced : Bool
  url : Text
  deriving DecidableEq

structure ResponseView where
  url : Url
  status : UInt16
  headers : List Header
  tainting : Tainting
  body : Bytes
  deriving DecidableEq

namespace ResponseView

def isOpaque (v : ResponseView) : Bool := v.tainting = .opaque_

def scriptBody (v : ResponseView) : Option Bytes := if v.isOpaque then none else some v.body

end ResponseView

/-- What a navigation response establishes for the new document. -/
structure DocumentFacts where
  origin : Origin
  csp : Csp.PolicySet
  referrerPolicy : Option ReferrerPolicy
  embedderPolicy : Coop.EmbedderPolicy
  openerPolicy : Coop.OpenerPolicy
  sandbox : Option Csp.SandboxFlags

structure FetchOutcome where
  response : Option ResponseView
  violations : List Violation
  upgradedFrom : Option Url
  urls : List Url
  tainting : Option Tainting
  preflightsSent : Nat
  preflightCacheHits : Nat
  document : Option DocumentFacts
  error : Option FetchError

namespace FetchOutcome

def new : FetchOutcome := ⟨none, [], none, [], none, 0, 0, none, none⟩

def enforced (out : FetchOutcome) : List Violation := out.violations.filter fun v => v.enforced

def deny (out : FetchOutcome) (point : Text) (kind : ViolationKind) (url : Url) : FetchOutcome :=
  { out with violations := out.violations ++ [⟨point, kind, true, url.serialize true⟩] }

end FetchOutcome

/-! ## The fetcher -/

structure SecureFetcher where
  psl : PublicSuffixList
  preload : Option PreloadList
  preflightCache : PreflightCache
  jar : Jar
  started : Instant

namespace SecureFetcher

/-- `SecureFetcher::new`, at the time `started`. -/
def new (psl : PublicSuffixList) (preload : Option PreloadList) (started : Instant) : SecureFetcher :=
  ⟨psl, preload, .new, .new, started⟩

/-- `now`, from a reading of the clock: whole seconds since the fetcher was made. -/
def seconds (fetcher : SecureFetcher) (now : Instant) : Nat := (now - fetcher.started) / 10 ^ 9

end SecureFetcher

/-! ## Hops -/

structure HopState where
  url : Url
  method : Text
  headers : List Header
  body : Bytes
  taintedOrigin : Option Origin
  redirectCount : UInt32
  redirectReferrerPolicy : Option ReferrerPolicy

inductive HopResult where
  | redirect (to_ : Url) (status : UInt16)
  | final

def cspOriginOf (origin : Origin) : Csp.Origin := Csp.Origin.fromUrlStr origin.serialize

def netOrigin (url : Url) : Option Net.Origin := do
  let host ← url.host
  let port ← url.effectivePort
  Net.Origin.new url.scheme host.serialize port

def isRedirectStatus (status : UInt16) : Bool :=
  status = 301 || status = 302 || status = 303 || status = 307 || status = 308

def headerLines (headers : List Header) (name : Text) : List Bytes :=
  (headers.filter fun h => Text.eqIgnoreAsciiCase h.name name).map Header.value

def headerStrs (headers : List Header) (name : Text) : Option (List Text) :=
  (headerLines headers name).mapM Text.fromUtf8

def targetOf (url : Url) : Text :=
  match url.query with
  | some q => url.path ++ '?' :: q
  | none => url.path

/-- The headers of a response, for the checks. -/
def corsHeaders (response : Response) : List Header :=
  response.head.headers.map fun h => Header.new h.name h.value

/-- A response, for the checks. -/
def corsResponse (response : Response) : CorsResponse := ⟨response.head.status, corsHeaders response⟩

end Pelorus.Secure

/-! # The origin of a partition key, and the origin of the same-origin policy

BOTH are made of the scheme, the host and the port of a URL.  The one of a partition key has the
port spelled out, and the host without dots at its end: `example.com.` and `example.com` are
one host there and two hosts to the same-origin policy. -/

namespace Pelorus.Secure

open Lib Lib.Text Websec
open Net hiding Origin

/-! ## The parts of a partition's origin -/

/-- A host as text, without dots at its end. -/
def undotted (host : Text) : Text := trimEndMatches (· = '.') host

/-- Of a URL that was parsed, the parts that both kinds of origin are made of. -/
structure UrlParts (u : Url) (h : Host) : Prop where
  web : isWebScheme u.scheme
  host : u.host = some h
  parsed : ∃ input, parseHost input true = some h
  port : ¬ (u.port.isSome ∧ u.port = defaultPort u.scheme)

theorem urlParts {input : Text} {u : Url} (h : Url.parse input = some u) (hs : isWebScheme u.scheme) :
    ∃ host, UrlParts u host := by
  obtain ⟨raw, slashes, authority, tail, a, hread⟩ := Url.readFrom_of_parse h (isNetScheme_of_web hs)
  obtain ⟨hhost, _⟩ := parseAuthority_parts hread.read
  refine ⟨a.host, hs, by rw [hread.url]; rfl, hhost, ?_⟩
  have hport : u.port = if a.port.isSome ∧ a.port = defaultPort u.scheme then none else a.port := by
    rw [hread.url]
    rfl
  rw [hport]
  split
  · rintro ⟨hnone, _⟩
    cases hnone
  · assumption

theorem lower_undotted {s : Text} (h : toAsciiLowercase s = s) : toAsciiLowercase (undotted s) = undotted s := by
  obtain ⟨t, ht⟩ : undotted s <+: s := List.rdropWhile_prefix _ _
  generalize undotted s = r at ht ⊢
  subst ht
  rw [toAsciiLowercase, List.map_append] at h
  exact (List.append_inj h (by simp)).1

theorem UrlParts.netOrigin {u : Url} {host : Host} (h : UrlParts u host) {o : Net.Origin}
    (ho : netOrigin u = some o) :
    o.scheme = u.scheme ∧ o.host = undotted host.serialize ∧ u.effectivePort = some o.port := by
  obtain ⟨input, hparsed⟩ := h.parsed
  unfold Secure.netOrigin at ho
  rw [h.host, Option.bind_eq_bind, Option.bind_some] at ho
  obtain ⟨port, hport, ho⟩ := Option.bind_eq_some_iff.mp ho
  obtain ⟨hscheme, hhost, hp⟩ := Net.Origin.new_eq_some ho
  refine ⟨?_, ?_, by rw [hp]; exact hport⟩
  · rw [hscheme]
    rcases h.web with hs | hs <;> rw [hs] <;> rfl
  · rw [hhost, trim_of_isGraphic fun c hc => (isHostChar_iff.mp ((hostText_serialize hparsed).2 c hc)).1]
    exact lower_undotted (lower_serialize hparsed)

theorem UrlParts.port_eq {u v : Url} {host host' : Host} (hu : UrlParts u host) (hv : UrlParts v host')
    (hscheme : u.scheme = v.scheme) : u.effectivePort = v.effectivePort ↔ u.port = v.port := by
  constructor
  · intro h
    unfold Url.effectivePort at h
    have hp := hu.port
    have hq := hv.port
    rw [hscheme] at h hp
    cases hup : u.port with
    | none =>
        cases hvp : v.port with
        | none => rfl
        | some q =>
            rw [hup, hvp] at h
            rw [hvp] at hq
            exact absurd ⟨rfl, h.symm⟩ hq
    | some p =>
        cases hvp : v.port with
        | none =>
            rw [hup, hvp] at h
            rw [hup] at hp
            exact absurd ⟨rfl, h⟩ hp
        | some q =>
            rw [hup, hvp] at h
            exact h
  · intro h
    rw [Url.effectivePort, Url.effectivePort, h, hscheme]

/-- Two URLs are same-origin exactly where scheme, host and effective port are the same. -/
theorem UrlParts.sameOrigin_iff {u v : Url} {host host' : Host} (hu : UrlParts u host) (hv : UrlParts v host')
    (fresh fresh' : UInt64) : (Origin.fromUrl fresh u).sameOrigin (Origin.fromUrl fresh' v) = true ↔
      u.scheme = v.scheme ∧ u.effectivePort = v.effectivePort ∧ host.serialize = host'.serialize := by
  have hfrom : ∀ {w : Url} {h : Host} (fresh : UInt64), UrlParts w h →
      Origin.fromUrl fresh w = .tuple w.scheme h w.port := by
    intro w h fresh hw
    obtain ⟨_, hparsed⟩ := hw.parsed
    have hblob : w.scheme ≠ "blob".toList := by
      rcases hw.web with hs | hs <;> rw [hs] <;> decide
    rw [Origin.fromUrl, if_neg hblob, Origin.fromUrlInner_net (isNetScheme_of_web hw.web) hw.host
      (Host.isWeb_of_parse hparsed), if_neg hw.port]
  obtain ⟨input, hhost⟩ := hu.parsed
  obtain ⟨input', hhost'⟩ := hv.parsed
  rw [hfrom fresh hu, hfrom fresh' hv, Origin.sameOrigin, decide_eq_true_eq]
  constructor
  · intro h
    injection h with h₁ h₂ h₃
    exact ⟨h₁, (hu.port_eq hv h₁).mpr h₃, by rw [h₂]⟩
  · rintro ⟨h₁, h₂, h₃⟩
    have hread := parseHost_serialize hhost
    rw [h₃, parseHost_serialize hhost'] at hread
    rw [h₁, (hu.port_eq hv h₁).mp h₂, ← Option.some.inj hread]

/-! ## The two notions -/

/-- The origins of two URLs are one for the partitions exactly where scheme and effective port are the same, and
the hosts are but for dots at the end.  So same-origin URLs share them, and no others do but such that are told
apart by those dots. -/
theorem partition_origin_iff {input input' : Text} {u v : Url} {a b : Net.Origin} (hu : Url.parse input = some u)
    (hv : Url.parse input' = some v) (hus : isWebScheme u.scheme) (hvs : isWebScheme v.scheme)
    (ha : netOrigin u = some a) (hb : netOrigin v = some b) :
    ∃ host host', u.host = some host ∧ v.host = some host' ∧
      (a = b ↔ u.scheme = v.scheme ∧ u.effectivePort = v.effectivePort ∧
        undotted host.serialize = undotted host'.serialize) ∧
      (∀ fresh fresh', (Origin.fromUrl fresh u).sameOrigin (Origin.fromUrl fresh' v) = true → a = b) ∧
      (undotted host.serialize = host.serialize → undotted host'.serialize = host'.serialize →
        ∀ fresh fresh', a = b ↔ (Origin.fromUrl fresh u).sameOrigin (Origin.fromUrl fresh' v) = true) := by
  obtain ⟨host, hpu⟩ := urlParts hu hus
  obtain ⟨host', hpv⟩ := urlParts hv hvs
  obtain ⟨ha₁, ha₂, ha₃⟩ := hpu.netOrigin ha
  obtain ⟨hb₁, hb₂, hb₃⟩ := hpv.netOrigin hb
  have hiff : a = b ↔ u.scheme = v.scheme ∧ u.effectivePort = v.effectivePort ∧
      undotted host.serialize = undotted host'.serialize := by
    constructor
    · rintro rfl
      exact ⟨ha₁.symm.trans hb₁, ha₃.trans hb₃.symm, ha₂.symm.trans hb₂⟩
    · rintro ⟨h₁, h₂, h₃⟩
      refine Net.Origin.ext_parts (ha₁.trans (h₁.trans hb₁.symm)) (ha₂.trans (h₃.trans hb₂.symm)) ?_
      rw [ha₃, hb₃] at h₂
      exact Option.some.inj h₂
  refine ⟨host, host', hpu.host, hpv.host, hiff, ?_, ?_⟩
  · intro fresh fresh' hsame
    obtain ⟨h₁, h₂, h₃⟩ := (hpu.sameOrigin_iff hpv fresh fresh').mp hsame
    exact hiff.mpr ⟨h₁, h₂, by rw [h₃]⟩
  · intro hd hd' fresh fresh'
    rw [hiff, hpu.sameOrigin_iff hpv, hd, hd']

def sampleDotted : Url := ⟨"http".toList, [], [], some (.domain "a.example.".toList), none, ['/'], none, none⟩

def samplePlain : Url := ⟨"http".toList, [], [], some (.domain "a.example".toList), none, ['/'], none, none⟩

theorem partition_origin_sample : ∃ host host', sampleDotted.host = some host ∧ samplePlain.host = some host' ∧
    undotted host.serialize = undotted host'.serialize := by
  have hu : Url.parse "http://A.example./".toList = some sampleDotted := by decide +kernel
  have hv : Url.parse "http://a.example".toList = some samplePlain := by decide +kernel
  have hsome : (netOrigin samplePlain).isSome = true := by decide +kernel
  have heq : netOrigin sampleDotted = netOrigin samplePlain := by decide +kernel
  obtain ⟨b, hb⟩ := Option.isSome_iff_exists.mp hsome
  obtain ⟨host, host', hhost, hhost', hiff, _⟩ := partition_origin_iff hu hv (Or.inl rfl) (Or.inl rfl)
    (heq.trans hb) hb
  exact ⟨host, host', hhost, hhost', (hiff.mp rfl).2.2⟩

/-- A dot at the end of the host makes another origin, and the same partition. -/
theorem dotted_shares_partition :
    Url.parse "http://A.example./".toList = some sampleDotted ∧
      Url.parse "http://a.example".toList = some samplePlain ∧
      (netOrigin samplePlain).isSome = true ∧ netOrigin sampleDotted = netOrigin samplePlain ∧
      (Origin.fromUrl 0 sampleDotted).sameOrigin (Origin.fromUrl 0 samplePlain) = false := by
  refine ⟨?_, ?_, ?_, ?_, ?_⟩ <;> decide +kernel

end Pelorus.Secure
