import Pelorus.Websec.Csp.Source

/-
  Websec/Csp/Policy.lean --- the capabilities a sandbox leaves
  (`px-websec/src/csp/sandbox.rs`).
-/
set_option autoImplicit false

namespace Pelorus.Websec.Csp

open Lib Lib.Text

inductive SandboxAllow where
  | downloads
  | forms
  | modals
  | orientationLock
  | pointerLock
  | popups
  | popupsToEscapeSandbox
  | presentation
  | sameOrigin
  | scripts
  | storageAccessByUserActivation
  | topNavigation
  | topNavigationByUserActivation
  | topNavigationToCustomProtocols
  deriving DecidableEq

namespace SandboxAllow

/-- `TABLE`: the capabilities and the tokens that name them. -/
def TABLE : List (Text × SandboxAllow) :=
  [("allow-downloads".toList, .downloads), ("allow-forms".toList, .forms),
    ("allow-modals".toList, .modals), ("allow-orientation-lock".toList, .orientationLock),
    ("allow-pointer-lock".toList, .pointerLock), ("allow-popups".toList, .popups),
    ("allow-popups-to-escape-sandbox".toList, .popupsToEscapeSandbox),
    ("allow-presentation".toList, .presentation), ("allow-same-origin".toList, .sameOrigin),
    ("allow-scripts".toList, .scripts),
    ("allow-storage-access-by-user-activation".toList, .storageAccessByUserActivation),
    ("allow-top-navigation".toList, .topNavigation),
    ("allow-top-navigation-by-user-activation".toList, .topNavigationByUserActivation),
    ("allow-top-navigation-to-custom-protocols".toList, .topNavigationToCustomProtocols)]

def bit : SandboxAllow → UInt16
  | .downloads => 0x0001
  | .forms => 0x0002
  | .modals => 0x0004
  | .orientationLock => 0x0008
  | .pointerLock => 0x0010
  | .popups => 0x0020
  | .popupsToEscapeSandbox => 0x0040
  | .presentation => 0x0080
  | .sameOrigin => 0x0100
  | .scripts => 0x0200
  | .storageAccessByUserActivation => 0x0400
  | .topNavigation => 0x0800
  | .topNavigationByUserActivation => 0x1000
  | .topNavigationToCustomProtocols => 0x2000

end SandboxAllow

structure SandboxFlags where
  bits : UInt16
  deriving DecidableEq

namespace SandboxFlags

/-- The capability a token names. -/
def allow? (t : Text) : Option SandboxAllow :=
  (SandboxAllow.TABLE.find? fun e => eqIgnoreAsciiCase t e.1).map Prod.snd

def fromTokens (tokens : List Text) : SandboxFlags :=
  ⟨(tokens.filterMap allow?).foldl (fun bits a => bits ||| a.bit) 0⟩

def allows (f : SandboxFlags) (a : SandboxAllow) : Bool := f.bits &&& a.bit ≠ 0

def forcesOpaqueOrigin (f : SandboxFlags) : Bool := !f.allows .sameOrigin

def intersect (f g : SandboxFlags) : SandboxFlags := ⟨f.bits &&& g.bits⟩

end SandboxFlags

end Pelorus.Websec.Csp

/-! # Policies, their parser, and the set of policies of one document (`px-websec/src/csp/policy.rs`)

Over its bounds the parser FAILS: the tail of a policy that was cut off would have been
restrictions.  Where some policy is needed all the same, it is `Policy.denyAll`. -/

namespace Pelorus.Websec.Csp

open Lib Lib.Text

def MAX_POLICY_BYTES : Nat := 2 ^ 20

def MAX_POLICIES : Nat := 128

def MAX_UNKNOWN_DIRECTIVES : Nat := 64

def KNOWN_DIRECTIVES : List Text :=
  ["default-src", "script-src", "script-src-elem", "script-src-attr", "style-src", "style-src-elem",
    "style-src-attr", "img-src", "font-src", "connect-src", "media-src", "object-src", "frame-src",
    "child-src", "worker-src", "manifest-src", "prefetch-src", "base-uri", "form-action",
    "frame-ancestors", "sandbox", "upgrade-insecure-requests", "block-all-mixed-content",
    "report-uri", "report-to", "require-trusted-types-for", "trusted-types", "plugin-types",
    "navigate-to"].map String.toList

inductive ParseError where
  | tooLarge
  | tooManyPolicies
  deriving DecidableEq

inductive Disposition where
  | enforce
  | report
  deriving DecidableEq

inductive PolicySource where
  | header
  | meta_
  deriving DecidableEq

structure Directive where
  name : Text
  values : List Text
  deriving DecidableEq

structure Policy where
  directives : List Directive
  disposition : Disposition
  source : PolicySource
  deriving DecidableEq

def isAsciiWs (b : UInt8) : Bool := b = 0x09 || b = 0x0a || b = 0x0c || b = 0x0d || b = 0x20

def trimWs (s : Bytes) : Bytes := (s.dropWhile isAsciiWs).rdropWhile isAsciiWs

/-- A text of ASCII bytes. -/
def asciiText (s : Bytes) : Text := s.map fun b => Char.ofNat b.toNat

def validDirectiveName (n : Text) : Bool := !n.isEmpty && n.all fun c => c.isAlphanum || c = '-'

namespace Policy

/-- The directive a token holds. -/
def parseToken (token : Bytes) : Option Directive :=
  let token := trimWs token
  if token.isEmpty || !token.all (fun b => b < 128) then none
  else
    let (name, rest) := token.span fun b => !isAsciiWs b
    if !validDirectiveName (asciiText name) then none
    else
      some
        { name := toAsciiLowercase (asciiText name)
          values := ((rest.splitOnP isAsciiWs).filter fun v => !v.isEmpty).map asciiText }

/-- The directives that are kept: the first of each name, and only so many of unknown names. -/
def keepDirectives : List Directive → Nat → List Directive → List Directive
  | kept, _, [] => kept
  | kept, unknown, d :: ds =>
      if kept.any fun k => k.name = d.name then keepDirectives kept unknown ds
      else if KNOWN_DIRECTIVES.contains d.name then keepDirectives (kept ++ [d]) unknown ds
      else if MAX_UNKNOWN_DIRECTIVES ≤ unknown then keepDirectives kept unknown ds
      else keepDirectives (kept ++ [d]) (unknown + 1) ds

def parse (input : Bytes) (disposition : Disposition) (source : PolicySource) : Except ParseError Policy :=
  if MAX_POLICY_BYTES < input.length then .error .tooLarge
  else
    .ok
      { directives := keepDirectives [] 0 ((input.splitOn 0x3b).filterMap parseToken)
        disposition
        source }

/-- `parse_meta`: the directives that are not honoured there are taken out. -/
def parseMeta (content : Bytes) : Except ParseError Policy :=
  match parse content .enforce .meta_ with
  | .error e => .error e
  | .ok p =>
      .ok
        { p with
          directives :=
            p.directives.filter fun d =>
              !(d.name = "report-uri".toList || d.name = "frame-ancestors".toList || d.name = "sandbox".toList) }

def denyAll : Policy :=
  { directives :=
      [⟨"default-src".toList, ["'none'".toList]⟩, ⟨"base-uri".toList, ["'none'".toList]⟩,
        ⟨"form-action".toList, ["'none'".toList]⟩, ⟨"frame-ancestors".toList, ["'none'".toList]⟩,
        ⟨"sandbox".toList, []⟩, ⟨"upgrade-insecure-requests".toList, []⟩,
        ⟨"block-all-mixed-content".toList, []⟩]
    disposition := .enforce
    source := .header }

def directive (p : Policy) (name : Text) : Option Directive := p.directives.find? fun d => d.name = name

def has (p : Policy) (name : Text) : Bool := (p.directive name).isSome

def sourceList (p : Policy) (name : Text) : Option SourceList :=
  (p.directive name).map fun d => SourceList.parse d.values

def sandboxFlags (p : Policy) : Option SandboxFlags :=
  if p.disposition = .report ∨ p.source = .meta_ then none
  else (p.directive "sandbox".toList).map fun d => SandboxFlags.fromTokens d.values

end Policy

/-- The policies of a list that hold a directive, after those that are there already. -/
def collectPolicies (disposition : Disposition) : List Policy → List Bytes → Except ParseError (List Policy)
  | out, [] => .ok out
  | out, piece :: pieces =>
      match Policy.parse piece disposition .header with
      | .error e => .error e
      | .ok p =>
          if p.directives.isEmpty then collectPolicies disposition out pieces
          else if MAX_POLICIES ≤ out.length then .error .tooManyPolicies
          else collectPolicies disposition (out ++ [p]) pieces

def parsePolicyList (input : Bytes) (disposition : Disposition) : Except ParseError (List Policy) :=
  if MAX_POLICY_BYTES < input.length then .error .tooLarge
  else collectPolicies disposition [] (input.splitOn 0x2c)

structure PolicySet where
  policies : List Policy
  deriving DecidableEq

namespace PolicySet

/-- The loop of `from_headers`, over the values of one disposition. -/
def addHeaders (disposition : Disposition) : List Policy → List Bytes → Except ParseError (List Policy)
  | policies, [] => .ok policies
  | policies, v :: values =>
      match parsePolicyList v disposition with
      | .error e => .error e
      | .ok more =>
          if MAX_POLICIES < (policies ++ more).length then .error .tooManyPolicies
          else addHeaders disposition (policies ++ more) values

def fromHeaders (enforce reportOnly : List Bytes) : Except ParseError PolicySet :=
  match addHeaders .enforce [] enforce with
  | .error e => .error e
  | .ok policies =>
      match addHeaders .report policies reportOnly with
      | .error e => .error e
      | .ok policies => .ok ⟨policies⟩

def fromHeadersFailClosed (enforce reportOnly : List Bytes) : PolicySet :=
  match fromHeaders enforce reportOnly with
  | .ok set => set
  | .error _ => ⟨[Policy.denyAll]⟩

def addMeta (set : PolicySet) (content : Bytes) : PolicySet :=
  let p :=
    match Policy.parseMeta content with
    | .ok p => p
    | .error _ => Policy.denyAll
  if !p.directives.isEmpty && set.policies.length < MAX_POLICIES then ⟨set.policies ++ [p]⟩
  else if !p.directives.isEmpty then ⟨set.policies ++ [Policy.denyAll]⟩
  else set

end PolicySet

end Pelorus.Websec.Csp
