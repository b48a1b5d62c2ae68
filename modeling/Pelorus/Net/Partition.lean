import Pelorus.Lib.Text

/-
  Net/Partition.lean --- the public suffix list and the registrable domain it yields
  (`px-net/src/psl.rs`).

  A list maps the text of a rule, without its `*.` or `!`, to its kind.  The
  registrable domain of a host is the matched suffix and one label more; a host
  that is a suffix, an address or malformed has none.
-/
set_option autoImplicit false

namespace Pelorus.Net

open Lib Lib.Text

/-- Which of the three kinds of rule an entry is. -/
inductive RuleKind where
  /-- `com` -/
  | normal
  /-- `*.ck` -/
  | wildcard
  /-- `!www.ck` -/
  | exception
  deriving DecidableEq, Repr

/-- Why a list could not be used. -/
inductive PslError where
  | empty
  deriving DecidableEq, Repr

/-- The list; a rule inserted later stands before the earlier ones. -/
structure PublicSuffixList where
  rules : List (Text × RuleKind)
  deriving DecidableEq, Repr

namespace PublicSuffixList

/-- `rules.get`. -/
def rule? (psl : PublicSuffixList) (candidate : Text) : Option RuleKind :=
  psl.rules.lookup candidate

/-- `str::lines`. -/
def lines (text : Text) : List Text :=
  let pieces := text.splitOn '\n'
  let pieces := if pieces.getLast? = some [] then pieces.dropLast else pieces
  pieces.map fun line => if line.getLast? = some '\r' then line.dropLast else line

/-- The rule a line holds, if it is not blank or a comment. -/
def parseLine (line : Text) : Option (Text × RuleKind) :=
  let line := trim line
  if line = [] ∨ ['/', '/'].isPrefixOf line then none
  else
    let (kind, body) :=
      if ['!'].isPrefixOf line then (RuleKind.exception, line.drop 1)
      else if ['*', '.'].isPrefixOf line then (RuleKind.wildcard, line.drop 2)
      else (RuleKind.normal, line)
    if body = [] then none else some (toAsciiLowercase body, kind)

def parse (text : Text) : Except PslError PublicSuffixList :=
  let rules := ((lines text).filterMap parseLine).reverse
  if rules = [] then .error .empty else .ok ⟨rules⟩

/-- `join(".")`. -/
def join (labels : List Text) : Text := ['.'].intercalate labels

/-- How many labels the suffix has: the longest candidate with a rule decides. -/
def suffixLabels (psl : PublicSuffixList) : List Text → Option Nat
  | [] => none
  | label :: labels =>
      match psl.rule? (join (label :: labels)) with
      | some .exception => some labels.length
      | some .wildcard => some (labels.length + 2)
      | some .normal => some (labels.length + 1)
      | none => suffixLabels psl labels

def registrableDomain (psl : PublicSuffixList) (host : Text) : Option Text :=
  let host := toAsciiLowercase (trimEndMatches (· = '.') host)
  if host = [] ∨ host.head? = some '.' ∨ ['.', '.'] <:+: host then none
  else if IpText.isIpAddr host ∨ host.head? = some '[' then none
  else
    let labels := host.splitOn '.'
    if labels.any fun label => label.isEmpty then none
    else
      -- a host that matches no rule is treated as though it matched `*`
      let suffixLabels := (psl.suffixLabels labels).getD 1
      if labels.length ≤ suffixLabels then none
      else some (join (labels.drop (labels.length - (suffixLabels + 1))))

theorem join_ne_nil {labels : List Text} (hne : labels ≠ []) (h : ∀ l ∈ labels, l ≠ []) :
    join labels ≠ [] := by
  cases labels with
  | nil => exact absurd rfl hne
  | cons l labels =>
      have hl : l ≠ [] := h l (by simp)
      cases labels with
      | nil => simpa [join] using hl
      | cons l' labels => simp [join, List.intercalate, hl]

theorem registrableDomain_ne_nil {psl : PublicSuffixList} {host d : Text}
    (h : psl.registrableDomain host = some d) : d ≠ [] := by
  simp only [registrableDomain] at h
  split at h
  · cases h
  · split at h
    · cases h
    · split at h
      · cases h
      · rename_i hlabels
        split at h
        · cases h
        · rename_i hlen
          cases h
          simp only [List.any_eq_true, List.isEmpty_iff, not_exists, not_and] at hlabels
          apply join_ne_nil
          · intro hnil
            have := List.drop_eq_nil_iff.mp hnil
            omega
          · intro l hl
            exact hlabels l (List.mem_of_mem_drop hl)

/-- The rules leave no label of the domain, given in lower case and without dots around it,
beside the suffix. -/
def IsPublicSuffix (psl : PublicSuffixList) (domain : Text) : Prop :=
  (domain.splitOn '.').length ≤ (psl.suffixLabels (domain.splitOn '.')).getD 1

theorem not_isPublicSuffix {psl : PublicSuffixList} {domain : Text}
    (hdots : trimEndMatches (· = '.') domain = domain) (hlower : toAsciiLowercase domain = domain)
    (h : psl.registrableDomain domain ≠ none) : ¬ psl.IsPublicSuffix domain := by
  intro hsuffix
  apply h
  simp only [registrableDomain, hdots, hlower]
  split
  · rfl
  · split
    · rfl
    · split
      · rfl
      · split
        · rfl
        · rename_i hlong
          exact absurd hsuffix hlong

end PublicSuffixList

end Pelorus.Net

/-! # Origins and partition keys (`px-net/src/partition.rs`)

Both types have one constructor each in the source, and neither can be assembled
from parts; the structures here carry what those constructors establish. -/

namespace Pelorus.Net

open Lib Lib.Text

/-- `Origin::new`'s checks on its normalised scheme and host. -/
structure OriginParts (scheme host : Text) : Prop where
  scheme_ok : scheme = "https".toList ∨ scheme = "http".toList
  host_ne_nil : host ≠ []
  host_dots : ¬ ['.', '.'] <:+: host ∧ host.head? ≠ some '.'
  host_ascii : host.isAscii

/-- A scheme, host and port. -/
structure Origin where
  scheme : Text
  host : Text
  port : UInt16
  valid : OriginParts scheme host
  deriving DecidableEq

namespace Origin

def new (scheme host : Text) (port : UInt16) : Option Origin :=
  let scheme := toAsciiLowercase (trim scheme)
  let host := toAsciiLowercase (trimEndMatches (· = '.') (trim host))
  if _h₁ : scheme = [] ∨ host = [] then none
  else if h₂ : scheme ≠ "https".toList ∧ scheme ≠ "http".toList then none
  else if h₃ : ['.', '.'] <:+: host ∨ host.head? = some '.' then none
  else if h₄ : ¬ host.isAscii then none
  else some
    { scheme, host, port
      valid :=
        { scheme_ok := by
            by_contra hne
            exact h₂ (not_or.mp hne)
          host_ne_nil := fun hnil => _h₁ (Or.inr hnil)
          host_dots := not_or.mp h₃
          host_ascii := by
            simpa using h₄ } }

theorem new_eq_some {scheme host : Text} {port : UInt16} {o : Origin} (h : new scheme host port = some o) :
    o.scheme = toAsciiLowercase (trim scheme) ∧
      o.host = toAsciiLowercase (trimEndMatches (· = '.') (trim host)) ∧ o.port = port := by
  simp only [new] at h
  split at h
  · cases h
  · split at h
    · cases h
    · split at h
      · cases h
      · split at h
        · cases h
        · cases h
          exact ⟨rfl, rfl, rfl⟩

theorem ext_parts {a b : Origin} (hscheme : a.scheme = b.scheme) (hhost : a.host = b.host) (hport : a.port = b.port) :
    a = b := by
  cases a
  cases b
  cases hscheme
  cases hhost
  cases hport
  rfl

def isSecure (o : Origin) : Bool := o.scheme = "https".toList

/-- `to_string`. -/
def display (o : Origin) : Text :=
  o.scheme ++ "://".toList ++ o.host ++ ':' :: Nat.toDigits 10 o.port.toNat

end Origin

/-- `(eTLD+1 of the top-level site, origin)`. -/
structure PartitionKey where
  topLevelSite : Text
  origin : Origin
  site_ne_nil : topLevelSite ≠ []
  deriving DecidableEq

namespace PartitionKey

def new (psl : PublicSuffixList) (topLevelHost : Text) (origin : Origin) : Option PartitionKey :=
  match h : psl.registrableDomain topLevelHost with
  | none => none
  | some site => some ⟨site, origin, PublicSuffixList.registrableDomain_ne_nil h⟩

section

variable {psl : PublicSuffixList} {topLevelHost : Text} {origin : Origin} {key : PartitionKey}
  (h : new psl topLevelHost origin = some key)

include h

theorem new_origin : key.origin = origin := by
  unfold new at h
  split at h
  · cases h
  · cases h
    rfl

theorem topLevelSite_of_new : psl.registrableDomain topLevelHost = some key.topLevelSite := by
  unfold new at h
  split at h
  · cases h
  · rename_i hsite
    cases h
    exact hsite

end

/-- `to_string`. -/
def display (key : PartitionKey) : Text :=
  '[' :: key.topLevelSite ++ " | ".toList ++ key.origin.display ++ [']']

end PartitionKey

end Pelorus.Net

/-
  Requests, responses, and what carries them (`px-net/src/fetch.rs`
  and the types of `px-net/src/http1.rs`).

  THE TRANSPORT is a parameter.  It answers a request as it likes, may remember what it
  was asked, and reads the clock.
-/

namespace Pelorus.Net

open Lib

/-! ## Responses -/

/-- Which ambiguity a framing has. -/
inductive Ambiguity where
  | lengthAndTransferEncoding
  | repeatedContentLength
  | malformedContentLength
  | transferEncodingNotChunked
  | malformedChunkSize
  deriving DecidableEq

inductive Http1Error where
  | badStatusLine
  | badHeader
  | ambiguousFraming (which : Ambiguity)
  | tooLarge (what : Text)
  | truncated
  deriving DecidableEq

/-- How the end of a body is determined. -/
inductive Framing where
  | length (n : Nat)
  | chunked
  | untilClose
  | empty
  deriving DecidableEq

/-- A header field of a response. -/
structure HttpHeader where
  name : Text
  value : Text
  deriving DecidableEq

structure ResponseHead where
  status : UInt16
  headers : List HttpHeader
  framing : Framing
  deriving DecidableEq

/-- `ResponseHead::header`: the first value for a name in lower case. -/
def ResponseHead.header (head : ResponseHead) (name : Text) : Option Text :=
  (head.headers.find? fun h => h.name = name).map HttpHeader.value

structure Response where
  head : ResponseHead
  body : Bytes
  deriving DecidableEq

/-! ## Requests -/

inductive FetchError where
  | connect (error : Text)
  | tls (detail : Text)
  | protocol (error : Http1Error)
  | io (error : Text)
  | badRequest (detail : Text)
  | plaintextToPreloadedHost
  deriving DecidableEq

structure RequestSpec where
  method : Text
  path : Text
  headers : List (Text × Text)
  body : Bytes
  deriving DecidableEq

/-- What `fetch_request` and the clock do, for a world `W` that both may change. -/
structure Transport (W : Type) where
  fetchRequest : W → PartitionKey → RequestSpec → Except FetchError Response × W
  /-- Nanoseconds, as an `Instant` counts them. -/
  now : W → Nat × W

end Pelorus.Net
