import Pelorus.Websec.Csp.Policy

/-
  Websec/Csp/Check.lean --- the enforcement points (`px-websec/src/csp/check.rs`).

  Every check is about one policy.  A set is checked policy by policy: the first enforced
  policy that blocks decides, and the report-only ones are listed.
-/
set_option autoImplicit false

namespace Pelorus.Websec.Csp

open Lib

inductive RequestKind where
  | fetch
  | xmlHttpRequest
  | beacon
  | ping
  | eventSource
  | webSocket
  | script
  | xslt
  | audioWorklet
  | paintWorklet
  | worker
  | sharedWorker
  | serviceWorker
  | style
  | image
  | font
  | audio
  | video
  | track
  | object
  | embed
  | frame
  | iframe
  | manifest
  | prefetch
  deriving DecidableEq

namespace RequestKind

def effectiveDirective : RequestKind → Text
  | .fetch | .xmlHttpRequest | .beacon | .ping | .eventSource | .webSocket => "connect-src".toList
  | .script | .xslt | .audioWorklet | .paintWorklet => "script-src-elem".toList
  | .worker | .sharedWorker | .serviceWorker => "worker-src".toList
  | .style => "style-src-elem".toList
  | .image => "img-src".toList
  | .font => "font-src".toList
  | .audio | .video | .track => "media-src".toList
  | .object | .embed => "object-src".toList
  | .frame | .iframe => "frame-src".toList
  | .manifest => "manifest-src".toList
  | .prefetch => "prefetch-src".toList

def isScriptLike : RequestKind → Bool
  | .script | .xslt | .audioWorklet | .paintWorklet | .worker | .sharedWorker | .serviceWorker => true
  | _ => false

end RequestKind

/-- The directives that take another's place, after it. -/
def FALLBACKS : List (Text × List Text) :=
  [("script-src-elem", ["script-src", "default-src"]), ("script-src-attr", ["script-src", "default-src"]),
    ("style-src-elem", ["style-src", "default-src"]), ("style-src-attr", ["style-src", "default-src"]),
    ("worker-src", ["child-src", "script-src", "default-src"]),
    ("frame-src", ["child-src", "default-src"]), ("connect-src", ["default-src"]),
    ("img-src", ["default-src"]), ("font-src", ["default-src"]), ("media-src", ["default-src"]),
    ("object-src", ["default-src"]), ("manifest-src", ["default-src"]), ("prefetch-src", ["default-src"]),
    ("script-src", ["default-src"])].map fun e => (e.1.toList, e.2.map String.toList)

def fallbackChain (effective : Text) : List Text :=
  ((FALLBACKS.find? fun e => e.1 = effective).map fun e => e.1 :: e.2).getD []

structure Blocked where
  effectiveDirective : Text
  violatedDirective : Text
  deriving DecidableEq

inductive Decision where
  | allowed
  | blocked (by_ : Blocked)
  deriving DecidableEq

structure RequestOptions where
  nonce : Option Text
  integrity : List HashValue
  parserInserted : Bool
  redirectCount : UInt32

def governing (policy : Policy) (effective : Text) : Option (Text × SourceList) :=
  (fallbackChain effective).findSome? fun name => (policy.sourceList name).map fun list => (name, list)

def checkRequest (policy : Policy) (kind : RequestKind) (url : CspUrl) (origin : Origin)
    (opts : RequestOptions) : Decision :=
  let eff := kind.effectiveDirective
  match governing policy eff with
  | none => .allowed
  | some (name, list) =>
      let blocked := Decision.blocked ⟨eff, name⟩
      let scriptDirective := name = "script-src".toList || name = "script-src-elem".toList
      let styleDirective := name = "style-src".toList || name = "style-src-elem".toList
      let nonced := opts.nonce.any list.nonceMatches
      if scriptDirective && kind.isScriptLike && nonced then .allowed
      else if scriptDirective && kind.isScriptLike && list.hasHash && !opts.integrity.isEmpty &&
          opts.integrity.all list.containsHash then .allowed
      else if scriptDirective && kind.isScriptLike && list.hasKeyword .strictDynamic then
        if opts.parserInserted then blocked else .allowed
      else if kind = .style && styleDirective && nonced then .allowed
      else if list.matchesUrl url origin opts.redirectCount then .allowed
      else blocked

/-- The effective directive of `inline_names`. -/
def inlineDirective : InlineType → Text
  | .script => "script-src-elem".toList
  | .scriptAttribute => "script-src-attr".toList
  | .style => "style-src-elem".toList
  | .styleAttribute => "style-src-attr".toList
  | .navigation => "script-src-elem".toList

def checkInline (digest : HashAlg → Bytes → Bytes) (policy : Policy) (ty : InlineType) (nonce : Option Text)
    (source : Text) : Decision :=
  let eff := inlineDirective ty
  match governing policy eff with
  | none => .allowed
  | some (name, list) =>
      let element := ty = .script || ty = .style
      if element && nonce.any list.nonceMatches then .allowed
      else if (element || list.hasKeyword .unsafeHashes) && list.hashMatchesText digest source then .allowed
      else if list.allowsAllInline ty then .allowed
      else .blocked ⟨eff, name⟩

inductive EvalKind where
  | eval
  | wasm
  deriving DecidableEq

def checkEval (policy : Policy) (kind : EvalKind) : Decision :=
  match governing policy "script-src".toList with
  | none => .allowed
  | some (name, list) =>
      if list.hasKeyword .unsafeEval || (kind = .wasm && list.hasKeyword .wasmUnsafeEval) then .allowed
      else .blocked ⟨"script-src".toList, name⟩

def simpleDirectiveCheck (policy : Policy) (directive : Text) (url : CspUrl) (origin : Origin)
    (redirectCount : UInt32) : Decision :=
  match policy.sourceList directive with
  | none => .allowed
  | some l => if l.matchesUrl url origin redirectCount then .allowed else .blocked ⟨directive, directive⟩

def checkFormAction (policy : Policy) (url : CspUrl) (origin : Origin) (redirectCount : UInt32) : Decision :=
  simpleDirectiveCheck policy "form-action".toList url origin redirectCount

def checkBaseUri (policy : Policy) (url : CspUrl) (origin : Origin) : Decision :=
  simpleDirectiveCheck policy "base-uri".toList url origin 0

def checkFrameAncestors (policy : Policy) (responseUrl : CspUrl) (ancestors : List CspUrl) : Decision :=
  if policy.source = .meta_ then .allowed
  else
    match policy.sourceList "frame-ancestors".toList with
    | none => .allowed
    | some list =>
        if ancestors.all fun a => list.matchesUrl a responseUrl.origin 1 then .allowed
        else .blocked ⟨"frame-ancestors".toList, "frame-ancestors".toList⟩

inductive UpgradeContext where
  | subresource
  | sameOriginNavigation
  | crossOriginNavigation
  deriving DecidableEq

def upgradeInsecureUrl (policy : Policy) (url : CspUrl) (ctx : UpgradeContext) : Option CspUrl :=
  if policy.disposition = .report ∨ !policy.has "upgrade-insecure-requests".toList ∨
      ctx = .crossOriginNavigation then none
  else do
    let newScheme ←
      if url.scheme = "http".toList then some "https".toList
      else if url.scheme = "ws".toList then some "wss".toList
      else none
    let host ← url.host
    CspUrl.fromParts newScheme host url.port url.path

def blocksMixedContent (policy : Policy) (url : CspUrl) (documentIsSecure : Bool) : Decision :=
  if policy.has "block-all-mixed-content".toList && documentIsSecure && !isPotentiallyTrustworthy url then
    .blocked ⟨"block-all-mixed-content".toList, "block-all-mixed-content".toList⟩
  else .allowed

/-! ## Sets of policies -/

structure Verdict where
  blocked : Option (Nat × Blocked)
  reports : List (Nat × Blocked)
  deriving DecidableEq

def Verdict.isBlocked (v : Verdict) : Bool := v.blocked.isSome

namespace PolicySet

/-- The loop of `evaluate`, over the policies from index `i` on. -/
def evaluateFrom (f : Policy → Decision) : Nat → Verdict → List Policy → Verdict
  | _, v, [] => v
  | i, v, p :: ps =>
      match f p with
      | .allowed => evaluateFrom f (i + 1) v ps
      | .blocked b =>
          match p.disposition with
          | .enforce =>
              evaluateFrom f (i + 1) (if v.blocked.isNone then { v with blocked := some (i, b) } else v) ps
          | .report => evaluateFrom f (i + 1) { v with reports := v.reports ++ [(i, b)] } ps

def evaluate (set : PolicySet) (f : Policy → Decision) : Verdict := evaluateFrom f 0 ⟨none, []⟩ set.policies

def checkRequest (set : PolicySet) (kind : RequestKind) (url : CspUrl) (origin : Origin)
    (opts : RequestOptions) : Verdict :=
  set.evaluate fun p => Csp.checkRequest p kind url origin opts

def checkInline (digest : HashAlg → Bytes → Bytes) (set : PolicySet) (ty : InlineType) (nonce : Option Text)
    (source : Text) : Verdict :=
  set.evaluate fun p => Csp.checkInline digest p ty nonce source

def checkEval (set : PolicySet) (kind : EvalKind) : Verdict := set.evaluate fun p => Csp.checkEval p kind

def checkFormAction (set : PolicySet) (url : CspUrl) (origin : Origin) (redirects : UInt32) : Verdict :=
  set.evaluate fun p => Csp.checkFormAction p url origin redirects

def checkBaseUri (set : PolicySet) (url : CspUrl) (origin : Origin) : Verdict :=
  set.evaluate fun p => Csp.checkBaseUri p url origin

def checkFrameAncestors (set : PolicySet) (responseUrl : CspUrl) (ancestors : List CspUrl) : Verdict :=
  set.evaluate fun p => Csp.checkFrameAncestors p responseUrl ancestors

def checkMixedContent (set : PolicySet) (url : CspUrl) (documentIsSecure : Bool) : Verdict :=
  set.evaluate fun p => blocksMixedContent p url documentIsSecure

/-- `sandbox_flags`: what every policy leaves. -/
def sandboxFlags (set : PolicySet) : Option SandboxFlags :=
  (set.policies.filterMap Policy.sandboxFlags).foldl
    (fun acc f => some ((acc.map fun a => a.intersect f).getD f)) none

def upgradeInsecureUrl (set : PolicySet) (url : CspUrl) (ctx : UpgradeContext) : Option CspUrl :=
  set.policies.findSome? fun p => Csp.upgradeInsecureUrl p url ctx

theorem evaluateFrom_blocked {f : Policy → Decision} : ∀ {ps : List Policy} {i : Nat} {v : Verdict},
    (evaluateFrom f i v ps).blocked = none ↔
      v.blocked = none ∧ ∀ p ∈ ps, p.disposition = .enforce → f p = .allowed
  | [], i, v => by simp [evaluateFrom]
  | p :: ps, i, v => by
      unfold evaluateFrom
      cases hf : f p with
      | allowed =>
          simp only [evaluateFrom_blocked, List.mem_cons, forall_eq_or_imp, hf]
          tauto
      | blocked b =>
          cases hd : p.disposition with
          | enforce =>
              simp only [evaluateFrom_blocked, List.mem_cons, forall_eq_or_imp, hf, hd]
              cases hb : v.blocked <;> simp [hb]
          | report =>
              simp only [evaluateFrom_blocked, List.mem_cons, forall_eq_or_imp, hf, hd]
              simp

theorem evaluate_blocked {set : PolicySet} {f : Policy → Decision} :
    (set.evaluate f).blocked = none ↔ ∀ p ∈ set.policies, p.disposition = .enforce → f p = .allowed := by
  unfold evaluate
  rw [evaluateFrom_blocked]
  simp

end PolicySet

end Pelorus.Websec.Csp
