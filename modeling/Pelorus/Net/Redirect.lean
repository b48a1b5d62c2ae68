import Pelorus.Net.Partition
import Pelorus.Websec.Url

/-
  Net/Redirect.lean --- redirects (`px-net/src/redirect.rs`), and the HSTS preload list that they
  are checked against (`px-net/src/hsts.rs`).
-/
set_option autoImplicit false

namespace Pelorus.Net

open Lib Lib.Text

/-- The preloaded hosts, each with whether it covers the hosts below it. -/
structure PreloadList where
  hosts : List (Text × Bool)
  deriving DecidableEq

namespace PreloadList

/-- `hosts.get(parent).copied().unwrap_or(false)`, for the parents of a host in turn. -/
def coveredByParent (list : PreloadList) : List Text → Bool
  | [] => false
  | _ :: labels =>
      let parent := ['.'].intercalate labels
      if parent.isEmpty then false
      else (list.hosts.lookup parent).getD false || coveredByParent list labels

def requiresHttps (list : PreloadList) (host : Text) : Bool :=
  let host := toAsciiLowercase (trimEndMatches (· = '.') host)
  if host.isEmpty then false
  else (list.hosts.lookup host).isSome || coveredByParent list (host.splitOn '.')

end PreloadList

end Pelorus.Net

/-! # Whether a redirect is followed, and where to (`px-net/src/redirect.rs`) -/

namespace Pelorus.Net

open Lib Lib.Text
open Websec (rsplitOnce)

def MAX_HOPS : Nat := 10

inductive RefusedRedirect where
  | downgrade
  | unresolvable (why : Text)
  | preloadedHostOverPlaintext
  | tooManyHops
  | loop
  | notPartitionable
  deriving DecidableEq

/-- Where a followed redirect goes. -/
structure Hop where
  key : PartitionKey
  path : Text
  deriving DecidableEq

/-- The places a chain has been to. -/
structure Chain where
  visited : List (Text × Text)
  deriving DecidableEq

namespace Redirect

def splitScheme (location : Text) : Option (Text × Text) := do
  let (scheme, rest) ← splitOnce ':' location
  let first ← scheme.head?
  if first.isAlpha && (scheme.drop 1).all fun c => c.isAlphanum || c = '+' || c = '-' || c = '.' then
    some (toAsciiLowercase scheme, rest)
  else none

/-- The host and the port of an authority. -/
def hostAndPort (scheme authority : Text) : Except RefusedRedirect (Text × UInt16) :=
  match rsplitOnce ':' authority with
  | some (host, portText) =>
      match Numerals.parseUnsigned 10 65536 portText with
      | some port => .ok (host, UInt16.ofNat port)
      | none => .error (.unresolvable "port is not a number".toList)
  | none =>
      if scheme = "https".toList then .ok (authority, 443)
      else if scheme = "http".toList then .ok (authority, 80)
      else .error (.unresolvable "scheme is not http(s)".toList)

def resolveAbsolute (scheme rest : Text) : Except RefusedRedirect (Origin × Text) :=
  let (authority, tail) := rest.span fun c => c ≠ '/'
  let path := if tail.isEmpty then ['/'] else tail
  if authority.contains '@' then .error (.unresolvable "userinfo in the authority".toList)
  else
    match hostAndPort scheme authority with
    | .error e => .error e
    | .ok (host, port) =>
        match Origin.new scheme host port with
        | some origin => .ok (origin, path)
        | none => .error (.unresolvable "not an origin this crate fetches".toList)

def resolve (from_ : Origin) (location : Text) : Except RefusedRedirect (Origin × Text) :=
  let location := trim location
  if location.isEmpty then .error (.unresolvable "empty".toList)
  else if location.any fun c => c < ' ' || c = Char.ofNat 0x7f then
    .error (.unresolvable "control character".toList)
  else
    match stripPrefix location "//".toList with
    | some rest => resolveAbsolute from_.scheme rest
    | none =>
        match splitScheme location with
        | some (scheme, rest) =>
            match stripPrefix rest "//".toList with
            | some rest => resolveAbsolute scheme rest
            | none => .error (.unresolvable "authority missing".toList)
        | none =>
            match stripPrefix location ['/'] with
            | some path => .ok (from_, '/' :: path)
            | none => .ok (from_, '/' :: location)

end Redirect

namespace Chain

def new : Chain := ⟨[]⟩

def follow (chain : Chain) (psl : PublicSuffixList) (preload : Option PreloadList) (topLevelHost : Text)
    (from_ : Origin) (location : Text) : Except RefusedRedirect (Hop × Chain) :=
  if MAX_HOPS ≤ chain.visited.length then .error .tooManyHops
  else
    match Redirect.resolve from_ location with
    | .error e => .error e
    | .ok (origin, path) =>
        if from_.isSecure && !origin.isSecure then .error .downgrade
        else if preload.any fun list => !origin.isSecure && list.requiresHttps origin.host then
          .error .preloadedHostOverPlaintext
        else if chain.visited.contains (origin.display, path) then .error .loop
        else
          match PartitionKey.new psl topLevelHost origin with
          | none => .error .notPartitionable
          | some key => .ok (⟨key, path⟩, ⟨chain.visited ++ [(origin.display, path)]⟩)

/-- What a redirect that is followed has in common with the chain before it. -/
theorem follow_eq_ok {chain chain' : Chain} {psl : PublicSuffixList} {preload : Option PreloadList}
    {topLevelHost location : Text} {from_ : Origin} {hop : Hop}
    (h : chain.follow psl preload topLevelHost from_ location = .ok (hop, chain')) :
    chain.visited.length < MAX_HOPS ∧ chain'.visited.length = chain.visited.length + 1 ∧
      (from_.isSecure = true → hop.key.origin.isSecure = true) := by
  unfold follow at h
  split at h
  · cases h
  · rename_i hlen
    split at h
    · cases h
    · rename_i origin path _
      split at h
      · cases h
      · rename_i hdown
        split at h
        · cases h
        · split at h
          · cases h
          · split at h
            · cases h
            · rename_i key hkey
              cases h
              refine ⟨Nat.lt_of_not_le hlen, by simp, ?_⟩
              have hk := PartitionKey.new_origin hkey
              intro hs
              simpa [hs, hk] using hdown

end Chain

end Pelorus.Net
