import Pelorus.Secure.Links

/-
  Secure/Credentials.lean --- credentials stay where they belong.

  AN AUTHOR'S `Authorization` goes on with a redirect only where the target has the origin
  of the URL that was requested, and then the target is requested as it is: so where the
  header is still there, the chain has never left the origin it began at.

  `Cookie` is no header that an author may send, so the only such line is the fetcher's.
-/
set_option autoImplicit false

namespace Pelorus.Secure

open Lib Websec Websec.Cors
open Net hiding Origin

variable {W : Type}

/-! ## Lines -/

/-- The lines of a request with that name. -/
def Exchange.linesOf (e : Exchange) (name : Text) : List (Text × Text) :=
  e.spec.headers.filter fun line => Text.eqIgnoreAsciiCase line.1 name

variable {name : Text} {line : Text × Text} {author : List (Text × Text)} {fresh : UInt64}

theorem mem_linesOf {e : Exchange} :
    line ∈ e.linesOf name ↔ line ∈ e.spec.headers ∧ Text.eqIgnoreAsciiCase line.1 name = true := by
  rw [Exchange.linesOf, List.mem_filter]

theorem authorLines_names : ∀ {headers : List Header} {author : List (Text × Text)},
    authorLines headers = some author → ∀ line ∈ author, ∃ h ∈ headers, line.1 = h.name
  | [], author, heq, line, hline => by
      cases heq
      cases hline
  | h :: headers, author, heq, line, hline => by
      unfold authorLines at heq
      rw [List.mapM_cons] at heq
      obtain ⟨first, hfirst, heq⟩ := Option.bind_eq_some_iff.mp heq
      obtain ⟨rest, hrest, heq⟩ := Option.bind_eq_some_iff.mp heq
      cases heq
      rcases List.mem_cons.mp hline with rfl | hline
      · obtain ⟨value, _, rfl⟩ := Option.map_eq_some_iff.mp hfirst
        exact ⟨h, List.mem_cons_self, rfl⟩
      · obtain ⟨h', hmem, hname⟩ := authorLines_names hrest line hline
        exact ⟨h', List.mem_cons_of_mem _ hmem, hname⟩

theorem isForbiddenRequestHeader_congr {name' : Text} (h : Text.eqIgnoreAsciiCase name name' = true)
    (value : Bytes) : isForbiddenRequestHeader name value = isForbiddenRequestHeader name' value := by
  simp only [isForbiddenRequestHeader, Text.eqIgnoreAsciiCase_iff.mp h]

theorem authorLines_allowed {headers : List Header}
    (hallowed : ∀ h ∈ headers, isRefusedHeader h = false) (heq : authorLines headers = some author)
    (hforbidden : ∀ value, isForbiddenRequestHeader name value = true) :
    ∀ line ∈ author, Text.eqIgnoreAsciiCase line.1 name = false := by
  intro line hline
  obtain ⟨h, hmem, hname⟩ := authorLines_names heq line hline
  rw [Bool.eq_false_iff]
  intro hsame
  rw [hname] at hsame
  have hrefused : isRefusedHeader h = true := by
    rw [isRefusedHeader, isForbiddenRequestHeader_congr hsame, hforbidden, Bool.or_true]
  rw [hallowed h hmem] at hrefused
  cases hrefused

theorem forbidden_cookie (value : Bytes) : isForbiddenRequestHeader "cookie".toList value = true := by
  unfold isForbiddenRequestHeader
  exact if_pos (by decide)

theorem forbidden_origin (value : Bytes) : isForbiddenRequestHeader "origin".toList value = true := by
  unfold isForbiddenRequestHeader
  exact if_pos (by decide)

variable {read : Option Instant} {topHost : Text}

/-- Where the lines of a request come from. -/
theorem mem_actualSpec {ctx : FetchContext} {fetcher : SecureFetcher} {state : HopState} {s : Settled}
    (h : line ∈ (actualSpec ctx fetcher fresh state s read author).headers) :
    line ∈ author ∨ line ∈ originLine s ∨ line ∈ refererLine ctx fresh s ∨
      ∃ now, read = some now ∧ line ∈ cookieLine (cookiesOf ctx fetcher fresh s now) := by
  simp only [actualSpec, List.mem_append] at h
  rcases h with ((h | h) | h) | h
  · exact Or.inl h
  · exact Or.inr (Or.inl h)
  · exact Or.inr (Or.inr (Or.inl h))
  · cases read with
    | none => cases h
    | some now => exact Or.inr (Or.inr (Or.inr ⟨now, rfl, h⟩))

theorem originLine_name {s : Settled} : ∀ line ∈ originLine s, line.1 = "Origin".toList := by
  intro line h
  unfold originLine at h
  split at h
  · rw [List.mem_singleton.mp h]
  · cases h

theorem refererLine_name {ctx : FetchContext} {s : Settled} :
    ∀ line ∈ refererLine ctx fresh s, line.1 = "Referer".toList := by
  intro line h
  unfold refererLine at h
  split at h
  · rw [List.mem_singleton.mp h]
  · cases h

theorem cookieLine_name {cookies : List Cookie} : ∀ line ∈ cookieLine cookies, line.1 = "Cookie".toList := by
  intro line h
  unfold cookieLine at h
  split at h
  · cases h
  · rw [List.mem_singleton.mp h]

/-- A preflight has a few lines of its own, and no others. -/
theorem preflightSpec_names {ctx : FetchContext} {s : Settled} :
    ∀ line ∈ (preflightSpec ctx fresh s).headers,
      line.1 = "Accept".toList ∨ line.1 = "Access-Control-Request-Method".toList ∨
        line.1 = "Access-Control-Request-Headers".toList ∨ line.1 = "Origin".toList ∨
        line.1 = "Referer".toList := by
  intro line h
  rcases List.mem_append.mp h with h | h
  · rcases List.mem_append.mp h with h | h
    · obtain ⟨header, hheader, rfl⟩ := List.mem_map.mp h
      rcases List.mem_append.mp hheader with hheader | hheader
      · rcases List.mem_cons.mp hheader with rfl | hheader
        · exact Or.inl rfl
        · rw [List.mem_singleton.mp hheader]
          exact Or.inr (Or.inl rfl)
      · split at hheader
        · cases hheader
        · rw [List.mem_singleton.mp hheader]
          exact Or.inr (Or.inr (Or.inl rfl))
    · rw [List.mem_singleton.mp h]
      exact Or.inr (Or.inr (Or.inr (Or.inl rfl)))
  · exact Or.inr (Or.inr (Or.inr (Or.inr (refererLine_name line h))))

theorem linesOf_preflight {ctx : FetchContext} {s : Settled} {answer : Except FetchError Response}
    (hname : name = "authorization".toList ∨ name = "cookie".toList) :
    (Exchange.preflight s (preflightSpec ctx fresh s) answer).linesOf name = [] := by
  refine List.filter_eq_nil_iff.mpr ?_
  intro line hline
  have hnames := preflightSpec_names line hline
  rcases hname with rfl | rfl <;> rcases hnames with h | h | h | h | h <;> rw [h] <;> decide

/-! ## One request -/

/-- The partition of a request is that of the top-level site and of the origin it goes to. -/
structure IsPartitionOf (ctx : FetchContext) (psl : PublicSuffixList) (url : Url) (key : PartitionKey) : Prop where
  site : ∃ host, ctx.topLevel.host? = some host ∧ psl.registrableDomain host.serialize = some key.topLevelSite
  origin : netOrigin url = some key.origin

/-- The `Cookie` lines of a request are those of the jar, and only where credentials are sent. -/
def CookiesOfPartition (ctx : FetchContext) (psl : PublicSuffixList) (e : Exchange) : Prop :=
  ∃ s clearance jar now spec answer, e = .actual s clearance jar (some now) spec answer ∧
    (ctx.credentials = .include_ ∨ ctx.credentials = .sameOrigin ∧ s.taint = .basic) ∧
    IsPartitionOf ctx psl e.url s.key ∧
    e.linesOf "cookie".toList = cookieLine (jar.cookiesFor s.key e.url.path
      (crossSiteForCookies ctx.topLevel (Origin.fromUrl 0 e.url) psl.registrableDomain) now)

/-- What is asked of the credentials of a request, after those before it. -/
structure KeepsCredentials (ctx : FetchContext) (psl : PublicSuffixList) (before : List Exchange) (e : Exchange) :
    Prop where
  authorization : e.linesOf "authorization".toList ≠ [] →
    e.isPreflight = false ∧ ∀ e' ∈ before, SameOrigin e'.url e.url
  cookie : e.linesOf "cookie".toList ≠ [] → CookiesOfPartition ctx psl e

theorem Prepared.isPartitionOf {ctx : FetchContext} {r : Run W} {s : Settled}
    (h : Prepared ctx r topHost s) : IsPartitionOf ctx r.fetcher.psl s.request.url s.key := by
  obtain ⟨host, hhost, rfl⟩ := h.host
  obtain ⟨origin, horigin, hkey⟩ := h.key
  exact ⟨⟨host, hhost, PartitionKey.topLevelSite_of_new hkey⟩, h.netOrigin⟩

theorem authorization_line {ctx : FetchContext} {fetcher : SecureFetcher} {state : HopState}
    {s : Settled} (h : line ∈ (actualSpec ctx fetcher fresh state s read author).headers)
    (hname : Text.eqIgnoreAsciiCase line.1 "authorization".toList = true) : line ∈ author := by
  rcases mem_actualSpec h with h | h | h | ⟨now, _, h⟩
  · exact h
  · rw [originLine_name line h] at hname
    exact absurd hname (by decide)
  · rw [refererLine_name line h] at hname
    exact absurd hname (by decide)
  · rw [cookieLine_name line h] at hname
    exact absurd hname (by decide)

/-- The only `Cookie` line is the fetcher's. -/
theorem cookie_lines {ctx : FetchContext} {fetcher : SecureFetcher} {fresh : UInt64} {state : HopState}
    {s : Settled} {read : Option Instant} {author : List (Text × Text)}
    (hallowed : ∀ h ∈ state.headers, isRefusedHeader h = false) (hauthor : authorLines state.headers = some author) :
    ((actualSpec ctx fetcher fresh state s read author).headers.filter
        fun line => Text.eqIgnoreAsciiCase line.1 "cookie".toList) =
      cookieLine ((read.map fun now => cookiesOf ctx fetcher fresh s now).getD []) := by
  have hno := authorLines_allowed hallowed hauthor forbidden_cookie
  simp only [actualSpec, List.filter_append]
  rw [List.filter_eq_nil_iff.mpr, List.filter_eq_nil_iff.mpr, List.filter_eq_nil_iff.mpr,
    List.filter_eq_self.mpr]
  · rfl
  · intro line h
    rw [cookieLine_name line h]
    decide
  · intro line h
    rw [refererLine_name line h]
    decide
  · intro line h
    rw [originLine_name line h]
    decide
  · intro line h
    rw [hno line h]
    decide

/-! ## Every request -/

/-- Where an author's `Authorization` is still there, the chain is where it began. -/
def AuthorizationStays (r : Run W) : Prop :=
  ∀ h ∈ r.state.headers, isAuthorization h = true → ∀ e ∈ r.exchanges, SameOrigin e.url r.state.url

variable {ctx : FetchContext} {fetcher₀ : SecureFetcher} {r r₁ r' : Run W} {s : Settled}
  {response : Response} {to_ : Url}

/-- With the header there, the hop requests the URL as it is. -/
theorem AuthorizationStays.request (h : AuthorizationStays r) (htrack : OnTrack ctx fetcher₀ r)
    (hprep : Prepared ctx r topHost s) {header : Header} (hmem : header ∈ r.state.headers)
    (hauth : isAuthorization header = true) : ∀ e ∈ r.exchanges, SameOrigin e.url s.request.url := by
  intro e he
  have hsame := h header hmem hauth e he
  rw [(htrack.after hprep he).1 hsame.symm]
  exact hsame

theorem AuthorizationStays.next (h : AuthorizationStays r) (htrack : OnTrack ctx fetcher₀ r)
    (hanswer : Answered ctx r s response r₁) (hfollow : Followed r₁ r' s response to_) (status : UInt16) :
    AuthorizationStays (advance ctx to_ status r').enter := by
  obtain ⟨sent, cache, hreq, hexchanges, _⟩ := hanswer.sends
  obtain ⟨topHost, hprep⟩ := hreq.prepared
  have hto := (htrack.target hanswer hfollow).1
  have hfrom := (htrack.visited hprep).web
  have hstate : r'.state.url = s.request.url ∧ r'.state.headers = r.state.headers := by
    rw [hfollow.state, hanswer.state]
    exact ⟨rfl, rfl⟩
  intro header hheader hauth e he
  have hmem := (redirectedHeaders_sublist _ _ _).subset hheader
  rw [hstate.2] at hmem
  -- the header was dropped if the target has another origin
  have hsame : SameOrigin s.request.url to_ := by
    by_contra hcross
    have hne : (!(Origin.fromUrl r'.nextOpaque to_).sameOrigin (Origin.fromUrl r'.nextOpaque r'.state.url)) =
        true := by
      rw [Bool.not_eq_true', Bool.eq_false_iff, hstate.1]
      exact fun hc => hcross ((sameOrigin_fromUrl hto hfrom _ _).mp hc).symm
    have hdropped : header ∈ redirectedHeaders (turnsToGet r'.state.method status) true r'.state.headers := by
      rw [← hne]
      exact hheader
    have hkept := (List.mem_filter.mp hdropped).2
    rw [hauth] at hkept
    cases hkept
  have he' : e ∈ r.exchanges ++ sent := by
    rw [← hexchanges, ← hfollow.exchanges]
    exact he
  refine SameOrigin.trans ?_ hsame
  rcases List.mem_append.mp he' with hold | hnew
  · exact h.request htrack hprep hmem hauth e hold
  · rw [Exchange.url, hreq.settled e hnew]
    exact sameOrigin_iff.mpr rfl

theorem OnTrack.cookies (htrack : OnTrack ctx fetcher₀ r) (hprep : Prepared ctx r topHost s)
    {clearance : Clearance} {answer : Except FetchError Response}
    (hread : read.isSome = sendsCredentials ctx s) (hauthor : authorLines r.state.headers = some author) :
    (Exchange.actual s clearance r.fetcher.jar read
        (actualSpec ctx r.fetcher r.nextOpaque r.state s read author) answer).linesOf "cookie".toList ≠ [] →
      CookiesOfPartition ctx fetcher₀.psl (.actual s clearance r.fetcher.jar read
        (actualSpec ctx r.fetcher r.nextOpaque r.state s read author) answer) := by
  intro hlines
  have hcookies := @cookie_lines ctx r.fetcher r.nextOpaque r.state s read author htrack.headers hauthor
  cases read with
  | none => exact absurd hcookies hlines
  | some now =>
      refine ⟨s, clearance, r.fetcher.jar, now, _, answer, rfl, ?_, htrack.psl ▸ hprep.isPartitionOf, ?_⟩
      · have hsends : sendsCredentials ctx s = true := hread.symm
        simpa [sendsCredentials] using hsends
      · rw [← htrack.psl]
        show _ = cookieLine (r.fetcher.jar.cookiesFor s.key s.request.url.path (crossSiteForCookies
          ctx.topLevel (Origin.fromUrl 0 s.request.url) r.fetcher.psl.registrableDomain) now)
        rw [(htrack.visited hprep).web.origin_fresh 0 r.nextOpaque]
        exact hcookies

variable (digest : Sri.Algorithm → Bytes → Bytes) (T : Transport W) (session : Session W) (url : Text)

/-- An author's `Authorization` is sent only to the origin that the fetch began at, and `Cookie` only
where credentials are sent, from the jar of the partition; neither is sent on a preflight. -/
theorem credentials_stay (ctx : FetchContext) :
    EachAfter (KeepsCredentials ctx session.fetcher.psl) (fetch ctx T digest session url).exchanges := by
  refine fetch_each (I := fun r => OnTrack ctx session.fetcher r ∧ AuthorizationStays r) ?_ ?_ ?_
  · intro start hparse hheaders
    exact ⟨OnTrack.start hparse hheaders, fun _ _ _ => List.forall_mem_nil _⟩
  · rintro r s response r₁ to_ status r' ⟨htrack, hstays⟩ _ hanswer hfollow
    exact ⟨htrack.next hanswer hfollow status, hstays.next htrack hanswer hfollow status⟩
  · rintro r before e ⟨htrack, hstays⟩ _ hsent
    have hsame := hsent.settled.2.2.1
    cases hsent with
    | preflight hprep hneed =>
        exact ⟨fun h => absurd (linesOf_preflight (Or.inl rfl)) h,
          fun h => absurd (linesOf_preflight (Or.inr rfl)) h⟩
    | actual hprep hpass hwritten =>
        obtain ⟨hread, author, hauthor, rfl⟩ := hwritten
        constructor
        · intro hlines
          obtain ⟨line, hline⟩ := List.exists_mem_of_ne_nil _ hlines
          obtain ⟨hin, hname⟩ := mem_linesOf.mp hline
          obtain ⟨header, hmem, hheader⟩ := authorLines_names hauthor line (authorization_line hin hname)
          refine ⟨rfl, fun e' he' => ?_⟩
          rcases List.mem_append.mp he' with hold | hnew
          · exact hstays.request htrack hprep hmem (by rw [isAuthorization, ← hheader]; exact hname) e' hold
          · rw [hsame e' hnew]
            exact sameOrigin_iff.mpr rfl
        · exact htrack.cookies hprep hread hauthor

end Pelorus.Secure

/-! # The `Origin` line of a request, and the one that `cors::origin_header_value` prescribes

THE FETCHER writes the serialised origin wherever a line is sent at all; it does not ask
the function that has the rule.  The two differ where the rule says `null`: outside CORS,
under a policy that hides the origin. -/

namespace Pelorus.Secure

open Lib Websec Websec.Cors
open Net hiding Origin

variable {W : Type}

/-- The lines that `origin_header_value` prescribes. -/
def prescribedOrigin (s : Settled) : List (Text × Text) :=
  (originHeaderValue 0 s.request s.taint s.policy).toList.map fun value => ("Origin".toList, value)

/-- The policy hides an origin that there is to hide, from a request that says where it comes from. -/
def MustHideOrigin (s : Settled) : Prop :=
  s.request.mode ≠ .cors ∧ s.request.method ≠ "GET".toList ∧ s.request.method ≠ "HEAD".toList ∧
    hidesOrigin 0 s.request s.policy = true ∧ s.request.origin.isOpaque = false

variable {fresh : UInt64}

theorem mode_of_taint_cors {request : CorsRequest} (h : taint fresh request = .ok .cors) :
    request.mode = .cors := by
  unfold taint at h
  split at h
  · cases h
  · rename_i hnavigate
    split at h
    · cases h
    · split at h
      · cases h
      · cases h
      · rename_i hmode
        exact hmode
      · rename_i hmode
        exact absurd (Or.inr hmode) hnavigate

/-- Only an opaque origin is written `null`. -/
theorem serialize_eq_null {o : Origin} : o.serialize = "null".toList ↔ o.isOpaque = true := by
  cases o with
  | opaqueOrigin id => exact ⟨fun _ => rfl, fun _ => rfl⟩
  | tuple scheme host port =>
      constructor
      · intro h
        have hcolon : ':' ∈ (Origin.tuple scheme host port).serialize := by
          cases port <;> simp [Origin.serialize]
        rw [h] at hcolon
        exact absurd hcolon (by decide)
      · intro h
        cases h

/-- The only `Origin` line is the fetcher's. -/
theorem origin_lines {ctx : FetchContext} {fetcher : SecureFetcher} {state : HopState} {s : Settled}
    {read : Option Instant} {author : List (Text × Text)}
    (hallowed : ∀ h ∈ state.headers, isRefusedHeader h = false) (hauthor : authorLines state.headers = some author) :
    ((actualSpec ctx fetcher fresh state s read author).headers.filter
        fun line => Text.eqIgnoreAsciiCase line.1 "origin".toList) = originLine s := by
  have hno := authorLines_allowed hallowed hauthor forbidden_origin
  simp only [actualSpec, List.filter_append]
  rw [List.filter_eq_nil_iff.mpr, List.filter_eq_self.mpr, List.filter_eq_nil_iff.mpr,
    List.filter_eq_nil_iff.mpr, List.nil_append, List.append_nil, List.append_nil]
  · intro line h
    rw [cookieLine_name line h]
    decide
  · intro line h
    rw [refererLine_name line h]
    decide
  · intro line h
    rw [originLine_name line h]
    decide
  · intro line h
    rw [hno line h]
    decide

/-- The line that is written is the one that is prescribed, unless that one hides the origin. -/
theorem originLine_prescribed {s : Settled} (h : taint fresh s.request = .ok s.taint) :
    originLine s = prescribedOrigin s ↔ ¬ MustHideOrigin s := by
  unfold originLine prescribedOrigin originHeaderValue MustHideOrigin
  by_cases hcors : s.taint = .cors
  · have hmode : s.request.mode = .cors := mode_of_taint_cors (hcors ▸ h)
    simp [shouldSendOriginHeader, hcors, hmode]
  · by_cases hget : s.request.method = "GET".toList ∨ s.request.method = "HEAD".toList
    · have hsend : shouldSendOriginHeader s.request s.taint = false := by
        unfold shouldSendOriginHeader
        rcases hget with h | h <;> simp [hcors, h]
      have hnot : ¬ (s.request.mode ≠ .cors ∧ s.request.method ≠ "GET".toList ∧
          s.request.method ≠ "HEAD".toList ∧ hidesOrigin 0 s.request s.policy = true ∧
          s.request.origin.isOpaque = false) := by
        rintro ⟨_, h₁, h₂, _⟩
        rcases hget with h | h
        · exact h₁ h
        · exact h₂ h
      simp only [hsend, hcors, if_false, Bool.not_false, if_true, Bool.false_eq_true]
      exact ⟨fun _ => hnot, fun _ => rfl⟩
    · have hsend : shouldSendOriginHeader s.request s.taint = true := by
        simp only [not_or] at hget
        simp only [shouldSendOriginHeader, decide_eq_false hget.1, decide_eq_false hget.2, Bool.or_self,
          Bool.not_false, Bool.or_true]
      simp only [not_or] at hget
      simp only [hsend, hcors, if_false, if_true, Bool.not_true, Bool.false_eq_true]
      split
      · rename_i hhide
        have hiff : [("Origin".toList, serializeRequestOrigin s.request)] =
            (some "null".toList).toList.map (fun value => ("Origin".toList, value)) ↔
            s.request.origin.isOpaque = true := by
          rw [← serialize_eq_null]
          simp [serializeRequestOrigin]
        rw [hiff]
        constructor
        · rintro hnull ⟨_, _, _, _, hno⟩
          rw [hnull] at hno
          cases hno
        · intro hno
          by_contra hnull
          exact hno ⟨hhide.1, hget.1, hget.2, hhide.2, by simpa using hnull⟩
      · rename_i hhide
        constructor
        · rintro _ ⟨h₁, _, _, h₂, _⟩
          exact hhide ⟨h₁, h₂⟩
        · intro _
          rfl

variable (digest : Sri.Algorithm → Bytes → Bytes) (ctx : FetchContext) (T : Transport W)
  (session : Session W) (url : Text)

/-- The `Origin` line of a request is the one that is prescribed exactly where the policy has nothing
to hide. -/
theorem origin_header_prescribed_iff : ∀ e ∈ (fetch ctx T digest session url).exchanges,
    e.isPreflight = false →
      (e.linesOf "origin".toList = prescribedOrigin e.settled ↔ ¬ MustHideOrigin e.settled) := by
  have heach : EachAfter (fun _ e => e.isPreflight = false →
      (e.linesOf "origin".toList = prescribedOrigin e.settled ↔ ¬ MustHideOrigin e.settled))
      (fetch ctx T digest session url).exchanges := by
    refine fetch_each_onTrack digest ctx T session url fun r before e htrack hsent hactual => ?_
    cases hsent with
    | preflight hprep hneed => cases hactual
    | actual hprep hpass hwritten =>
        obtain ⟨_, author, hauthor, rfl⟩ := hwritten
        rw [Exchange.linesOf, Exchange.spec, origin_lines htrack.headers hauthor]
        exact originLine_prescribed hprep.taint
  intro e he
  obtain ⟨before, _, h⟩ := heach.of_mem he
  exact h

/-! ## A fetch that reveals what the policy hides -/

def sampleOrigin (name : String) : Origin := .tuple "https".toList (.domain name.toList) none

def sampleUrl (name path : String) : Url :=
  ⟨"https".toList, [], [], some (.domain name.toList), none, path.toList, none, none⟩

/-- A script of `app.example` that fetches for an initiator, under `no-referrer`. -/
def sampleContext (initiator : String) (mode : RequestMode) (method : String) : FetchContext :=
  { initiator := sampleOrigin initiator
    topLevel := sampleOrigin "top.example"
    documentUrl := sampleUrl "app.example" "/p"
    document := ⟨⟨sampleUrl "app.example" "/p", sampleOrigin "app.example"⟩, []⟩
    destination := .fetch
    mode
    credentials := .sameOrigin
    method := method.toList
    headers := []
    body := []
    useCorsPreflight := false
    requestReferrerPolicy := some .noReferrer
    documentReferrerPolicy := none
    csp := ⟨[]⟩
    embedderPolicy := .unsafeNone
    integrity := none
    nonce := none
    parserInserted := false
    iframeSandbox := none }

/-- It answers everything with an empty 200. -/
def sampleTransport : Transport Unit := ⟨fun w _ _ => (.ok ⟨⟨200, [], .empty⟩, []⟩, w), fun w => (0, w)⟩

def sampleSession : Session Unit := ⟨(), 1, SecureFetcher.new ⟨[("example".toList, .normal)]⟩ none 0⟩

/-- The requests of a no-cors `POST` for an initiator. -/
def samplePost (initiator : String) : List Exchange :=
  (fetch (sampleContext initiator .noCors "POST") sampleTransport (fun _ _ => []) sampleSession
    "https://api.example/x".toList).exchanges

/-- It sends one request, which the theorem is about. -/
theorem origin_header_prescribed_sample : ∃ e, samplePost "app.example" = [e] ∧
    (e.linesOf "origin".toList = prescribedOrigin e.settled ↔ ¬ MustHideOrigin e.settled) := by
  have hactual : (samplePost "app.example").map Exchange.isPreflight = [false] := by decide +kernel
  obtain ⟨e, hone, hpreflight⟩ := List.map_eq_singleton_iff.mp hactual
  have hmem : e ∈ samplePost "app.example" := hone ▸ List.mem_singleton_self e
  exact ⟨e, hone, origin_header_prescribed_iff (fun _ _ => []) (sampleContext "app.example" .noCors "POST")
    sampleTransport sampleSession "https://api.example/x".toList e hmem hpreflight⟩

/-- The origins that two initiators are told apart by under `no-referrer`, where each should be `null`. -/
theorem origin_header_reveals :
    (samplePost "app.example").map (fun e => e.linesOf "origin".toList) =
        [[("Origin".toList, "https://app.example".toList)]] ∧
      (samplePost "other.example").map (fun e => e.linesOf "origin".toList) =
        [[("Origin".toList, "https://other.example".toList)]] ∧
      (samplePost "app.example").map (fun e => prescribedOrigin e.settled) =
        [[("Origin".toList, "null".toList)]] ∧
      (samplePost "other.example").map (fun e => prescribedOrigin e.settled) =
        [[("Origin".toList, "null".toList)]] := by
  refine ⟨?_, ?_, ?_, ?_⟩ <;> decide +kernel

end Pelorus.Secure
