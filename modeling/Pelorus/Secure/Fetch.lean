import Pelorus.Secure.Context

/-
  Secure/Fetch.lean --- the secure fetch (`px-net/src/secure.rs`): one hop, what a
  redirect changes, and the loop over the hops.

  The steps of a hop have the numbers of the source.  The loop has fuel, as many rounds as
  a chain of redirects can have hops; `fetchLoop_fuel` says that more would change nothing.
-/
set_option autoImplicit false

/-
  A fetch that is under way, and the checks of its final response
  (`px-net/src/secure.rs`: `navigation`, `finish`).

  A DENIED fetch is an error that holds the run as it was left; everything else goes on.

  THE EXCHANGES are not in the source.  They are the requests that the transport was
  handed, in order, each with its answer and with what the hop had settled by then; the
  properties of what leaves are about them.
-/

namespace Pelorus.Secure

open Lib Websec Websec.Cors
open Net hiding Origin

/-! ## Runs -/

/-- What a hop has settled when it sends. -/
structure Settled where
  request : CorsRequest
  taint : Tainting
  redirectCount : UInt32
  policy : ReferrerPolicy
  key : PartitionKey

/-- How a request got past the preflight. -/
inductive Clearance where
  /-- it needs none -/
  | simple
  /-- the cache covered it, at this time -/
  | cached (cache : PreflightCache) (now : Nat)
  /-- the server granted it -/
  | granted (grant : PreflightGrant) (now : Nat)

/-- A request handed to the transport. -/
inductive Exchange where
  | preflight (settled : Settled) (spec : RequestSpec) (answer : Except FetchError Response)
  | actual (settled : Settled) (clearance : Clearance) (jar : Jar) (read : Option Instant)
      (spec : RequestSpec) (answer : Except FetchError Response)

/-- What lasts from fetch to fetch; `nextOpaque` is the number of the next opaque origin. -/
structure Session (W : Type) where
  world : W
  nextOpaque : UInt64
  fetcher : SecureFetcher

/-- A fetch that is under way. -/
structure Run (W : Type) extends Session W where
  state : HopState
  chain : Chain
  out : FetchOutcome
  exchanges : List Exchange

namespace Run

variable {W : Type}

/-- `out.deny`, and the fetch is over. -/
def deny (r : Run W) (point : Text) (kind : ViolationKind) (url : Url) : Run W :=
  { r with out := r.out.deny point kind url }

end Run

/-! ## Navigations -/

section
variable {W : Type} (ctx : FetchContext) (url : Url) (headers : List Header)

/-- The URLs of the document and its ancestors, for the CSP engine. -/
def ancestorUrls : Option (List Csp.CspUrl) :=
  ctx.nodes.mapM fun a => Csp.CspUrl.parse (a.url.serialize true)

/-- An enforced policy of a header says which ancestors it takes. -/
def framesGoverned (policies : Csp.PolicySet) : Bool :=
  policies.policies.any fun p =>
    p.disposition = .enforce && p.source = .header && p.has "frame-ancestors".toList

/-- What the policies of a frame's response say of its ancestors. -/
def frameAncestorsOf (policies : Csp.PolicySet) (cu : Csp.CspUrl) (ancestors : List Csp.CspUrl) :
    Frame.FrameAncestors :=
  if !framesGoverned policies then .absent
  else if (policies.checkFrameAncestors cu ancestors).isBlocked then .blocked
  else .allowed

/-- The part of `navigation` that only frames meet. -/
def checkFraming (policies : Csp.PolicySet) (respOrigin : Origin) (r : Run W) : Except (Run W) Unit :=
  match Csp.CspUrl.parse (url.serialize true), ancestorUrls ctx with
  | some cu, some ancestors =>
      let fa := frameAncestorsOf policies cu ancestors
      match headerStrs headers "x-frame-options".toList with
      | none => .error (r.deny "frame::xfo".toList .frameOptions url)
      | some lines =>
          let xfo := Frame.checkXfo lines respOrigin (ctx.nodes.map Mixed.ContextNode.origin)
          if Frame.embeddingAllowed fa xfo then .ok ()
          else if fa = .blocked then .error (r.deny "csp::frame-ancestors".toList .frameAncestors url)
          else .error (r.deny "frame::xfo".toList .frameOptions url)
  | _, _ => .error (r.deny "csp::frame-ancestors".toList .frameAncestors url)

/-- The value of a header that is there once. -/
def oneHeader (name : Text) : Option Text :=
  match headerStrs headers name with
  | some [line] => some line
  | _ => none

/-- The referrer policy of the last header of that name. -/
def referrerPolicyOf : Option ReferrerPolicy :=
  ((headerStrs headers "referrer-policy".toList).bind List.getLast?).bind Referrer.parseHeader

/-- The flags of the `sandbox` attribute and of the policies, combined. -/
def sandboxOf (policies : Csp.PolicySet) : Option Csp.SandboxFlags :=
  match Frame.parseSandboxAttribute ctx.iframeSandbox, policies.sandboxFlags with
  | some a, some b => some (a.intersect b)
  | a, b => a.or b

def navigation (r : Run W) : Except (Run W) (Run W) :=
  let policies :=
    Csp.PolicySet.fromHeadersFailClosed (headerLines headers "content-security-policy".toList)
      (headerLines headers "content-security-policy-report-only".toList)
  let framing :=
    if ctx.destination = .iframe then
      checkFraming ctx url headers policies (Origin.fromUrl r.nextOpaque url) r
    else .ok ()
  match framing with
  | .error r => .error r
  | .ok () =>
      let embedderPolicy := Coop.parseCoep (oneHeader headers "cross-origin-embedder-policy".toList)
      let openerPolicy :=
        Coop.parseCoop (oneHeader headers "cross-origin-opener-policy".toList) embedderPolicy.value
      if ctx.destination = .iframe ∧
          Coop.coepNavigationCheck ctx.embedderPolicy embedderPolicy.value = .blocked then
        .error (r.deny "coop::coep_navigation".toList .corp url)
      else
        let sandbox := sandboxOf ctx policies
        let base := Origin.forDocument r.nextOpaque url (some ctx.initiator)
        let facts : DocumentFacts :=
          { origin := Frame.sandboxedOrigin r.nextOpaque sandbox base
            csp := policies
            referrerPolicy := referrerPolicyOf headers
            embedderPolicy
            openerPolicy
            sandbox }
        .ok
          { r with
            nextOpaque :=
              if sandbox.any Csp.SandboxFlags.forcesOpaqueOrigin then r.nextOpaque + 1 else r.nextOpaque
            out := { r.out with document := some facts } }

end

/-! ## The final response -/

section
variable {W : Type} (digest : Sri.Algorithm → Bytes → Bytes) (ctx : FetchContext)

/-- The verdict of `corp_check` on a frame, of `coep_check_response` on the rest. -/
def corpVerdict (creq : CorsRequest) (taint : Tainting) (lines : List Text) (r : Run W) : Coop.CorpVerdict :=
  let response : Coop.CorpResponse :=
    { url := creq.url
      corp := Coop.parseCorp lines
      requestIncludesCredentials := ctx.credentials = .include_ }
  let resolver : SiteResolver := r.fetcher.psl.registrableDomain
  if ctx.destination = .iframe then
    Coop.corpCheck r.nextOpaque ctx.initiator ctx.embedderPolicy response true resolver
  else Coop.coepCheckResponse r.nextOpaque ctx.initiator ctx.embedderPolicy taint response resolver

/-- Step r2: `Cross-Origin-Resource-Policy` and COEP. -/
def checkCorp (creq : CorsRequest) (taint : Tainting) (cresp : CorsResponse) (r : Run W) :
    Except (Run W) Unit :=
  match headerStrs cresp.headers "cross-origin-resource-policy".toList with
  | none => .error (r.deny "coop::parse_corp".toList .corp creq.url)
  | some lines =>
      if corpVerdict ctx creq taint lines r = .blocked then
        .error (r.deny "coop::corp_check".toList .corp creq.url)
      else .ok ()

/-- Step r3: integrity. -/
def checkSri (url : Url) (taint : Tainting) (body : Bytes) (r : Run W) : Except (Run W) Unit :=
  match ctx.integrity with
  | none => .ok ()
  | some attr =>
      match Sri.parse attr with
      | .error e => .error (r.deny "sri::parse".toList (.sri e) url)
      | .ok md =>
          if md.needsCheck then
            match Sri.verifyWith digest md taint body with
            | .error e => .error (r.deny "sri::verify".toList (.sri e) url)
            | .ok () => .ok ()
          else .ok ()

/-- Step r4: a navigation establishes a document. -/
def establish (url : Url) (headers : List Header) (r : Run W) : Except (Run W) (Run W) :=
  if ctx.destination.isNavigation then navigation ctx url headers r else .ok r

/-- The response as script sees it. -/
def responseView (creq : CorsRequest) (taint : Tainting) (cresp : CorsResponse) (body : Bytes) : ResponseView :=
  let filtered := filterResponse creq taint cresp
  { url := creq.url, status := filtered.status, headers := filtered.headers, tainting := taint, body }

def finish (creq : CorsRequest) (taint : Tainting) (cresp : CorsResponse) (body : Bytes) (r : Run W) :
    Except (Run W) (Run W) := do
  if ctx.destination.mixedKind.isSome ∧ Mixed.checkResponse r.nextOpaque ctx.document creq.url = .block then
    .error (r.deny "mixed::check_response".toList .mixedContent creq.url)
  else
    match validateResponse creq taint cresp with
    | .error e => .error (r.deny "cors::validate_response".toList (.cors e) creq.url)
    | .ok () => do
        checkCorp ctx creq taint cresp r
        checkSri digest ctx creq.url taint body r
        let r ← establish ctx creq.url cresp.headers r
        .ok { r with out := { r.out with response := some (responseView creq taint cresp body) } }

end

end Pelorus.Secure

namespace Pelorus.Secure

open Lib Websec Websec.Cors
open Net hiding Origin

variable {W : Type}

/-! ## Redirects -/

/-- The method becomes `GET`: 301 and 302 do that to `POST`, 303 to all but `GET` and `HEAD`. -/
def turnsToGet (method : Text) (status : UInt16) : Bool :=
  ((status = 301 || status = 302) && method = "POST".toList) ||
    (status = 303 && !(method = "GET".toList || method = "HEAD".toList))

/-- A header that goes with the body. -/
def goesWithBody (h : Header) : Bool :=
  let n := Text.toAsciiLowercase h.name
  "content-".toList.isPrefixOf n || n = "origin".toList

/-- A header that does not cross origins. -/
def isAuthorization (h : Header) : Bool := Text.eqIgnoreAsciiCase h.name "authorization".toList

/-- The headers that are left after a redirect. -/
def redirectedHeaders (toGet crossOrigin : Bool) (headers : List Header) : List Header :=
  let headers := if toGet then headers.filter fun h => !goesWithBody h else headers
  if crossOrigin then headers.filter fun h => !isAuthorization h else headers

def advance (ctx : FetchContext) (to_ : Url) (status : UInt16) (r : Run W) : Run W :=
  let state := r.state
  let fromOrigin := Origin.fromUrl r.nextOpaque state.url
  let toOrigin := Origin.fromUrl r.nextOpaque to_
  let crossOrigin := !toOrigin.sameOrigin fromOrigin
  let taints := crossOrigin && !ctx.initiator.sameOrigin fromOrigin && state.taintedOrigin.isNone
  let toGet := turnsToGet state.method status
  { r with
    nextOpaque := if taints then r.nextOpaque + 1 else r.nextOpaque
    state :=
      { state with
        url := to_
        method := if toGet then "GET".toList else state.method
        headers := redirectedHeaders toGet crossOrigin state.headers
        body := if toGet then [] else state.body
        taintedOrigin := if taints then some (.opaqueOrigin r.nextOpaque) else state.taintedOrigin
        redirectCount :=
          if state.redirectCount = 0xFFFFFFFF then state.redirectCount else state.redirectCount + 1 } }

/-! ## Steps 0 to 5: the URL -/

section
variable (ctx : FetchContext)

/-- `matches!(url.scheme(), "http" | "https")`. -/
def isWeb (url : Url) : Bool := url.scheme = "http".toList || url.scheme = "https".toList

/-- Step 0: the host of the top-level origin, if the URL may be fetched at all. -/
def checkSyntax (r : Run W) : Except (Run W) Text :=
  let url := r.state.url
  if !isWeb url || url.hasCredentials then .error (r.deny "net::scheme".toList .request url)
  else
    match ctx.topLevel.host? with
    | some host => .ok host.serialize
    | none => .error (r.deny "net::partition".toList .request url)

/-- The closure `upgrade`, on the URL. -/
def upgraded (url : Url) : Url := url.upgradedToHttps.getD url

/-- Step 1: the preload list asks for https. -/
def hstsUpgrade (preload : Option PreloadList) (url : Url) : Url :=
  if url.scheme = "http".toList ∧
      (preload.any fun list => url.host.any fun host => list.requiresHttps host.serialize) = true then
    upgraded url
  else url

/-- What `upgrade-insecure-requests` is asked about. -/
def upgradeContext (fresh : UInt64) (url : Url) : Csp.UpgradeContext :=
  if ctx.destination.isNavigation then
    if (Origin.fromUrl fresh url).sameOrigin ctx.initiator then .sameOriginNavigation
    else .crossOriginNavigation
  else .subresource

/-- A policy of the document asks for the upgrade. -/
def cspUpgrades (fresh : UInt64) (url : Url) : Bool :=
  (Csp.CspUrl.parse (url.serialize true)).any fun cu =>
    (ctx.csp.upgradeInsecureUrl cu (upgradeContext ctx fresh url)).isSome

/-- Step 2: `upgrade-insecure-requests`. -/
def cspUpgrade (fresh : UInt64) (url : Url) : Url :=
  if url.scheme = "http".toList ∧ cspUpgrades ctx fresh url = true then upgraded url else url

/-- Step 3: the verdict on mixed content. -/
def mixedVerdict (fresh : UInt64) (url : Url) : Mixed.Verdict :=
  match ctx.destination.mixedKind with
  | some kind => Mixed.checkRequest fresh ctx.document kind url
  | none => .allow

/-- `out.upgraded_from`, where a step has rewritten the URL of the hop. -/
def Run.noteUpgrade (r : Run W) (url : Url) : Run W :=
  if url ≠ r.state.url ∧ r.out.upgradedFrom.isNone = true then
    { r with out := { r.out with upgradedFrom := some r.state.url } }
  else r

/-- From here the URL is the one that will be requested. -/
def Run.settleUrl (r : Run W) (url : Url) : Run W :=
  { r with
    state := { r.state with url }
    out := { r.out with urls := r.out.urls.dropLast ++ (if r.out.urls.isEmpty then [] else [url]) } }

/-- Steps 1 to 3. -/
def chooseUrl (r : Run W) : Except (Run W) (Url × Run W) :=
  let url := cspUpgrade ctx r.nextOpaque (hstsUpgrade r.fetcher.preload r.state.url)
  let r := r.noteUpgrade url
  match mixedVerdict ctx r.nextOpaque url with
  | .allow => .ok (url, r.settleUrl url)
  | .upgrade u => .ok (u, (r.noteUpgrade u).settleUrl u)
  | .block => .error (r.deny "mixed::check_request".toList .mixedContent url)

/-- The observations of report-only policies. -/
def reportsOf (url : Url) (verdict : Csp.Verdict) : List Violation :=
  verdict.reports.map fun report => ⟨report.2.effectiveDirective, .csp, false, url.serialize true⟩

/-- `RequestOptions` of a hop. -/
def requestOptions (redirectCount : UInt32) : Csp.RequestOptions :=
  { nonce := ctx.nonce, integrity := [], parserInserted := ctx.parserInserted, redirectCount }

/-- Steps 4 and 5: `check_csp`. -/
def checkCsp (url : Url) (r : Run W) : Except (Run W) (Run W) :=
  match Csp.CspUrl.parse (url.serialize true) with
  | none => .error (r.deny "csp::parse_url".toList .csp url)
  | some cu =>
      if (ctx.csp.checkMixedContent cu (Coop.isSecureContext ctx.nodes)).isBlocked then
        .error (r.deny "csp::block-all-mixed-content".toList .csp url)
      else
        match ctx.destination.cspKind with
        | none => .ok r
        | some kind =>
            let verdict :=
              ctx.csp.checkRequest kind cu (cspOriginOf ctx.initiator) (requestOptions ctx r.state.redirectCount)
            let r := { r with out := { r.out with violations := r.out.violations ++ reportsOf url verdict } }
            match verdict.blocked with
            | some (_, b) => .error (r.deny b.effectiveDirective .csp url)
            | none => .ok r

/-! ## Steps 6 and 7: CORS -/

/-- The partition of a request. -/
def partitionKey (topHost : Text) (url : Url) (r : Run W) : Except (Run W) PartitionKey :=
  match (netOrigin url).bind fun origin => PartitionKey.new r.fetcher.psl topHost origin with
  | some key => .ok key
  | none => .error (r.deny "net::partition".toList .request url)

/-- What the CORS protocol looks at. -/
def corsRequest (url : Url) (state : HopState) : CorsRequest :=
  { method := state.method
    url
    origin := state.taintedOrigin.getD ctx.initiator
    headers := state.headers
    credentials := ctx.credentials
    mode := ctx.mode
    useCorsPreflightFlag := ctx.useCorsPreflight
    originTainted := state.taintedOrigin.isSome }

/-- The referrer policy of a hop. -/
def hopPolicy (state : HopState) : ReferrerPolicy :=
  state.redirectReferrerPolicy.getD
    (Referrer.effectivePolicy ctx.requestReferrerPolicy ctx.documentReferrerPolicy)

/-- Step 6. -/
def settle (key : PartitionKey) (url : Url) (r : Run W) : Except (Run W) (Settled × Run W) :=
  let request := corsRequest ctx url r.state
  match taint r.nextOpaque request with
  | .error e => .error (r.deny "cors::taint".toList (.cors e) url)
  | .ok t =>
      .ok
        ({ request, taint := t, redirectCount := r.state.redirectCount, policy := hopPolicy ctx r.state, key },
          { r with out := { r.out with tainting := some t } })

/-- `Referer`, if one is sent. -/
def refererLine (fresh : UInt64) (s : Settled) : List (Text × Text) :=
  match Referrer.compute fresh (some ctx.documentUrl) s.policy s.request.url with
  | some r => [("Referer".toList, r)]
  | none => []

/-- The request that a preflight is. -/
def preflightSpec (fresh : UInt64) (s : Settled) : RequestSpec :=
  let pre := preflightRequest s.request
  { method := pre.method
    path := targetOf s.request.url
    headers :=
      (pre.headers.map fun h => (h.name, Text.fromUtf8Lossy h.value)) ++
        [("Origin".toList, pre.originHeader)] ++ refererLine ctx fresh s
    body := [] }

/-- Steps 0 to 6: the host of the top-level origin, and what the hop sends. -/
def prepare (r : Run W) : Except (Run W) (Text × Settled × Run W) := do
  let topHost ← checkSyntax ctx r
  let (url, r) ← chooseUrl ctx r
  let r ← checkCsp ctx url r
  let key ← partitionKey topHost url r
  let (s, r) ← settle ctx key url r
  .ok (topHost, s, r)

variable (T : Transport W)

def preflight (s : Settled) (r : Run W) : Except (Run W) (Clearance × Run W) :=
  let spec := preflightSpec ctx r.nextOpaque s
  let (answer, world) := T.fetchRequest r.world s.key spec
  let r :=
    { r with
      world
      out := { r.out with preflightsSent := r.out.preflightsSent + 1 }
      exchanges := r.exchanges ++ [Exchange.preflight s spec answer] }
  match answer with
  | .error e => .error { r with out := { r.out with error := some e } }
  | .ok response =>
      match validatePreflight s.request (corsResponse response) with
      | .error e => .error (r.deny "cors::validate_preflight".toList (.preflight e) s.request.url)
      | .ok grant =>
          let (now, world) := T.now r.world
          let now := r.fetcher.seconds now
          let cache := r.fetcher.preflightCache.store s.key.display s.request grant now
          .ok (.granted grant now, { r with world, fetcher := { r.fetcher with preflightCache := cache } })

/-- The request has to be cleared by a preflight. -/
def needsPreflight (s : Settled) : Bool :=
  s.taint = .cors && ctx.mode = .cors && classify s.request ≠ .simple

/-- Step 7. -/
def clear (s : Settled) (r : Run W) : Except (Run W) (Clearance × Run W) :=
  if needsPreflight ctx s then
    let (now, world) := T.now r.world
    let now := r.fetcher.seconds now
    let r := { r with world }
    if r.fetcher.preflightCache.covers s.key.display s.request now then
      .ok (.cached r.fetcher.preflightCache now,
        { r with out := { r.out with preflightCacheHits := r.out.preflightCacheHits + 1 } })
    else preflight ctx T s r
  else .ok (.simple, r)

/-! ## Steps 8 and 9: headers and transport -/

/-- The author's headers as text. -/
def authorLines (headers : List Header) : Option (List (Text × Text)) :=
  headers.mapM fun h => (Text.fromUtf8 h.value).map fun value => (h.name, value)

/-- `Origin`, if one is sent. -/
def originLine (s : Settled) : List (Text × Text) :=
  if shouldSendOriginHeader s.request s.taint then [("Origin".toList, serializeRequestOrigin s.request)]
  else []

/-- `send_credentials`. -/
def sendsCredentials (s : Settled) : Bool :=
  ctx.credentials = .include_ || (ctx.credentials = .sameOrigin && s.taint = .basic)

/-- The cookies that go with a request. -/
def cookiesOf (fetcher : SecureFetcher) (fresh : UInt64) (s : Settled) (now : Instant) : List Cookie :=
  let crossSite :=
    crossSiteForCookies ctx.topLevel (Origin.fromUrl fresh s.request.url) fetcher.psl.registrableDomain
  fetcher.jar.cookiesFor s.key s.request.url.path crossSite now

/-- The time at which the cookies are read, if credentials are sent. -/
def readForCookies (s : Settled) (r : Run W) : Option Instant × Run W :=
  if sendsCredentials ctx s then
    let (now, world) := T.now r.world
    (some now, { r with world })
  else (none, r)

/-- `Cookie`, if there are any. -/
def cookieLine (cookies : List Cookie) : List (Text × Text) :=
  if cookies.isEmpty then []
  else [("Cookie".toList, "; ".toList.intercalate (cookies.map fun c => c.name ++ '=' :: c.value))]

/-- The request itself, once the author's headers are text. -/
def actualSpec (fetcher : SecureFetcher) (fresh : UInt64) (state : HopState) (s : Settled)
    (read : Option Instant) (author : List (Text × Text)) : RequestSpec :=
  let cookies := (read.map fun now => cookiesOf ctx fetcher fresh s now).getD []
  { method := state.method
    path := targetOf s.request.url
    headers := author ++ originLine s ++ refererLine ctx fresh s ++ cookieLine cookies
    body := state.body }

/-- A response's `Set-Cookie` lines, stored; a line that is rejected is dropped. -/
def storeCookies (s : Settled) : List Text → Run W → Run W
  | [], r => r
  | line :: lines, r =>
      let (now, world) := T.now r.world
      let jar := (r.fetcher.jar.store r.fetcher.psl s.key line now).2
      storeCookies s lines { r with world, fetcher := { r.fetcher with jar } }

/-- Steps 8 and 9. -/
def send (s : Settled) (clearance : Clearance) (r : Run W) : Except (Run W) (Response × Run W) :=
  match authorLines r.state.headers with
  | none => .error (r.deny "net::header_encoding".toList .request s.request.url)
  | some author =>
      let (read, r) := readForCookies ctx T s r
      let spec := actualSpec ctx r.fetcher r.nextOpaque r.state s read author
      let (answer, world) := T.fetchRequest r.world s.key spec
      let r :=
        { r with
          world
          exchanges := r.exchanges ++ [Exchange.actual s clearance r.fetcher.jar read spec answer] }
      match answer with
      | .error e => .error { r with out := { r.out with error := some e } }
      | .ok response =>
          .ok
            (response,
              if sendsCredentials ctx s then
                storeCookies T s ((headerStrs (corsHeaders response) "set-cookie".toList).getD []) r
              else r)

/-! ## Hops -/

/-- The URL that a followed redirect names. -/
def hopText (hop : Hop) : Text :=
  hop.key.origin.scheme ++ "://".toList ++ hop.key.origin.host ++
    ':' :: Nat.toDigits 10 hop.key.origin.port.toNat ++ hop.path

/-- The answer is a redirect: check it, then follow. -/
def redirect (topHost : Text) (s : Settled) (response : Response) (location : Text) (r : Run W) :
    Except (Run W) (HopResult × Run W) :=
  let refused : Except CorsError Unit :=
    if s.taint = .cors then validateResponse s.request s.taint (corsResponse response) else .ok ()
  match refused with
  | .error e => .error (r.deny "cors::validate_response".toList (.cors e) s.request.url)
  | .ok () =>
      let r :=
        { r with
          state :=
            { r.state with
              redirectReferrerPolicy :=
                (referrerPolicyOf (corsHeaders response)).or r.state.redirectReferrerPolicy } }
      match r.chain.follow r.fetcher.psl none topHost s.key.origin location with
      | .error e => .error (r.deny "net::redirect".toList (.redirect e) s.request.url)
      | .ok (hop, chain) =>
          let r := { r with chain }
          match Url.parse (hopText hop) with
          | some next => .ok (.redirect next response.head.status, r)
          | none =>
              .error
                (r.deny "net::redirect".toList (.redirect (.unresolvable "unparsable".toList)) s.request.url)

variable (digest : Sri.Algorithm → Bytes → Bytes)

/-- What the answer leads to. -/
def conclude (topHost : Text) (s : Settled) (response : Response) (r : Run W) :
    Except (Run W) (HopResult × Run W) :=
  match isRedirectStatus response.head.status, response.head.header "location".toList with
  | true, some location => redirect topHost s response location r
  | _, _ =>
      (finish digest ctx s.request s.taint (corsResponse response) response.body r).map
        fun r => (.final, r)

def hop (r : Run W) : Except (Run W) (HopResult × Run W) := do
  let (topHost, s, r) ← prepare ctx r
  let (clearance, r) ← clear ctx T s r
  let (response, r) ← send ctx T s clearance r
  conclude ctx digest topHost s response r

/-! ## Fetches -/

/-- The loop of `fetch`. -/
def fetchLoop : Nat → Run W → Run W
  | 0, r => r
  | fuel + 1, r =>
      match hop ctx T digest { r with out := { r.out with urls := r.out.urls ++ [r.state.url] } } with
      | .error r => r
      | .ok (.final, r) => r
      | .ok (.redirect to_ status, r) => fetchLoop fuel (advance ctx to_ status r)

/-- What a fetch leaves. -/
structure Fetched (W : Type) extends Session W where
  out : FetchOutcome
  exchanges : List Exchange

/-- A header that an author may not send. -/
def isRefusedHeader (h : Header) : Bool :=
  MAX_AUTHOR_HEADER_BYTES < h.value.length || isForbiddenRequestHeader h.name h.value

/-- A fetch at its first hop. -/
def startRun (session : Session W) (start : Url) : Run W :=
  { session with
    state :=
      { url := start
        method := normalizeMethod ctx.method
        headers := ctx.headers
        body := ctx.body
        taintedOrigin := none
        redirectCount := 0
        redirectReferrerPolicy := none }
    chain := .new
    out := .new
    exchanges := [] }

def fetch (session : Session W) (url : Text) : Fetched W :=
  let refused (out : FetchOutcome) : Fetched W := { session with out, exchanges := [] }
  match Url.parse url with
  | none =>
      refused { FetchOutcome.new with violations := [⟨"net::parse_url".toList, .request, true, []⟩] }
  | some start =>
      if isForbiddenMethod (normalizeMethod ctx.method) then
        refused (FetchOutcome.new.deny "cors::forbidden_method".toList .request start)
      else if ctx.headers.any isRefusedHeader then
        refused (FetchOutcome.new.deny "cors::forbidden_request_header".toList .request start)
      else
        let r := fetchLoop ctx T digest (MAX_HOPS + 1) (startRun ctx session start)
        { r.toSession with out := r.out, exchanges := r.exchanges }

end

end Pelorus.Secure
