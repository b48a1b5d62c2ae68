import Mathlib.Data.List.Chain
import Pelorus.Secure.Credentials
import Pelorus.Websec.Preflights

/-
  Secure/Responses.lean --- a fetch shows script only what script may read.

  THE RETURN THROUGH A THIRD PARTY is what the tainted origin is for: a chain that was
  redirected from a foreign origin to another one speaks for an opaque origin from there on,
  and where it comes back to the initiator its response is no longer the initiator's own.
-/
set_option autoImplicit false

namespace Pelorus.Secure

open Lib Websec Websec.Cors
open Net hiding Origin

variable {W : Type}

/-! ## Chains of URLs -/

/-- The URLs of the requests that are not preflights. -/
def hopUrls (exchanges : List Exchange) : List Url :=
  (exchanges.filter fun e => !e.isPreflight).map Exchange.url

/-- The URL has the origin of the initiator. -/
def FromInitiator (ctx : FetchContext) (url : Url) : Prop :=
  (Origin.fromUrl 0 url).sameOrigin ctx.initiator = true

/-- No URL that is foreign to the initiator is followed by one of another origin. -/
def NeverLeaves (ctx : FetchContext) (urls : List Url) : Prop :=
  urls.IsChain fun u v => FromInitiator ctx u ∨ SameOrigin v u

theorem FromInitiator.of_sameOrigin {ctx : FetchContext} {u v : Url} (h : SameOrigin v u)
    (hv : FromInitiator ctx v) : FromInitiator ctx u :=
  sameOrigin_iff.mpr ((sameOrigin_iff.mp h).symm.trans (sameOrigin_iff.mp hv))

/-- Such a chain that ends at the initiator was there all along. -/
theorem NeverLeaves.all {ctx : FetchContext} : ∀ {urls : List Url} {last : Url},
    NeverLeaves ctx (urls ++ [last]) → FromInitiator ctx last → ∀ u ∈ urls ++ [last], FromInitiator ctx u
  | [], last, _, hlast, u, hu => by
      rw [List.mem_singleton.mp hu]
      exact hlast
  | u :: urls, last, hchain, hlast, w, hw => by
      have htail : NeverLeaves ctx (urls ++ [last]) := List.IsChain.tail hchain
      have hrest := NeverLeaves.all htail hlast
      rcases List.mem_cons.mp hw with rfl | hw
      · cases urls with
        | nil =>
            rcases (List.isChain_cons_cons.mp hchain).1 with h | h
            · exact h
            · exact hlast.of_sameOrigin h
        | cons v urls =>
            rcases (List.isChain_cons_cons.mp hchain).1 with h | h
            · exact h
            · exact (hrest v List.mem_cons_self).of_sameOrigin h
      · exact hrest w hw

theorem neverLeaves_concat {ctx : FetchContext} {urls : List Url} {url : Url} :
    NeverLeaves ctx (urls ++ [url]) ↔ NeverLeaves ctx urls ∧
      ∀ u, urls.getLast? = some u → FromInitiator ctx u ∨ SameOrigin url u := by
  unfold NeverLeaves
  rw [List.isChain_append]
  constructor
  · rintro ⟨hurls, _, hlast⟩
    exact ⟨hurls, fun u hu => hlast u hu url rfl⟩
  · rintro ⟨hurls, hlast⟩
    refine ⟨hurls, List.IsChain.singleton _, fun u hu v hv => ?_⟩
    cases hv
    exact hlast u hu

theorem hopUrls_append (xs ys : List Exchange) : hopUrls (xs ++ ys) = hopUrls xs ++ hopUrls ys := by
  simp [hopUrls]

theorem hopUrls_sent {ctx : FetchContext} {r : Run W} {s : Settled} {answer : Except FetchError Response}
    {sent : List Exchange} {cache : PreflightCache} (h : Requested ctx r s answer sent cache) :
    hopUrls sent = [s.request.url] := by
  obtain ⟨_, clearance, fetcher, pre, read, spec, hpass, _, rfl, _⟩ := h
  cases hpass <;> rfl

theorem mem_of_mem_hopUrls {exchanges : List Exchange} {u : Url} (h : u ∈ hopUrls exchanges) :
    ∃ e ∈ exchanges, e.url = u := by
  obtain ⟨e, he, rfl⟩ := List.mem_map.mp h
  exact ⟨e, (List.mem_filter.mp he).1, rfl⟩

/-! ## The tainted origin -/

/-- A request in CORS mode whose answer the server gave its origin leave to read. -/
def PassesCors (e : Exchange) : Prop :=
  ∃ s clearance jar read spec response, e = .actual s clearance jar read spec (.ok response) ∧
    corsCheck s.request (corsHeaders response) = .ok ()

/-- What is so of the tainting at every hop. -/
structure TracksTaint (ctx : FetchContext) (r : Run W) : Prop where
  tainted : r.state.taintedOrigin.isSome = true ↔ ¬ NeverLeaves ctx (hopUrls r.exchanges ++ [r.state.url])
  isOpaque : ∀ o, r.state.taintedOrigin = some o → o.isOpaque = true
  passed : ∀ e ∈ r.exchanges, e.isPreflight = false → e.settled.taint = .cors → PassesCors e

variable {ctx : FetchContext} {fetcher₀ : SecureFetcher} {r r₁ r' : Run W} {s : Settled}
  {response : Response} {to_ : Url}

/-- An upgrade does not change whether the chain leaves. -/
theorem OnTrack.neverLeaves (htrack : OnTrack ctx fetcher₀ r) {topHost : Text}
    (hprep : Prepared ctx r topHost s) :
    NeverLeaves ctx (hopUrls r.exchanges ++ [s.request.url]) ↔
      NeverLeaves ctx (hopUrls r.exchanges ++ [r.state.url]) := by
  rw [neverLeaves_concat, neverLeaves_concat]
  refine and_congr_right fun _ => forall_congr' fun u => imp_congr_right fun hu => or_congr_right ?_
  obtain ⟨e, he, rfl⟩ := mem_of_mem_hopUrls (List.mem_of_getLast? hu)
  exact (htrack.after hprep he).2

/-- A request to a foreign URL is tainted as its mode says. -/
theorem OnTrack.foreign_taint (htrack : OnTrack ctx fetcher₀ r) {topHost : Text} (hprep : Prepared ctx r topHost s)
    (hnavigate : ctx.mode ≠ .navigate) (hforeign : ¬ FromInitiator ctx s.request.url) :
    ctx.mode = .noCors ∧ s.taint = .opaque_ ∨ ctx.mode = .cors ∧ s.taint = .cors := by
  have hweb := (htrack.visited hprep).web
  have hmode : s.request.mode = ctx.mode := by rw [hprep.request]; rfl
  have horigin : s.request.origin = r.state.taintedOrigin.getD ctx.initiator := by rw [hprep.request]; rfl
  have hflag : s.request.originTainted = r.state.taintedOrigin.isSome := by rw [hprep.request]; rfl
  have htaint := hprep.taint
  unfold taint at htaint
  have hdata : ¬ (s.request.url.scheme = "data".toList ∨ s.request.mode = .navigate) := by
    rintro (hdata | hnav)
    · rcases hweb.scheme with hs | hs <;> rw [hs] at hdata <;> exact absurd hdata (by decide)
    · exact hnavigate (hmode ▸ hnav)
  rw [if_neg hdata, hmode] at htaint
  split at htaint
  · -- the URL would have the origin of the initiator
    rename_i hsame
    rw [Bool.and_eq_true, hflag] at hsame
    have hnone : r.state.taintedOrigin = none := by simpa using hsame.2
    rw [horigin, hnone, Option.getD_none, hweb.origin_fresh r.nextOpaque 0] at hsame
    exact absurd hsame.1 hforeign
  · cases hm : ctx.mode with
    | sameOrigin =>
        rw [hm] at htaint
        cases htaint
    | noCors =>
        rw [hm] at htaint
        exact Or.inl ⟨rfl, (Except.ok.inj htaint).symm⟩
    | navigate => exact absurd hm hnavigate
    | cors =>
        simp only [hm] at htaint
        split at htaint
        · exact Or.inr ⟨rfl, (Except.ok.inj htaint).symm⟩
        · cases htaint

variable {request : CorsRequest}

theorem validateResponse_cors {taint : Tainting} {response : CorsResponse}
    (h : validateResponse request taint response = .ok ()) (hcors : taint = .cors) :
    corsCheck request response.headers = .ok () := by
  rw [hcors] at h
  exact h

theorem Requested.passes {sent : List Exchange} {cache : PreflightCache}
    (h : Requested ctx r s (.ok response) sent cache)
    (hchecked : s.taint = .cors → validateResponse s.request s.taint (corsResponse response) = .ok ()) :
    ∀ e ∈ sent, e.isPreflight = false → e.settled.taint = .cors → PassesCors e := by
  obtain ⟨_, clearance, fetcher, pre, read, spec, hpass, _, rfl, _⟩ := h
  intro e he hactual hcors
  rcases List.mem_append.mp he with he | he
  · rw [hpass.isPreflight e he] at hactual
    cases hactual
  · rw [List.mem_singleton.mp he] at hcors ⊢
    exact ⟨s, clearance, _, read, spec, response, rfl, validateResponse_cors (hchecked hcors) hcors⟩

theorem TracksTaint.next (h : TracksTaint ctx r) (htrack : OnTrack ctx fetcher₀ r)
    (hanswer : Answered ctx r s response r₁) (hfollow : Followed r₁ r' s response to_) (status : UInt16) :
    TracksTaint ctx (advance ctx to_ status r').enter := by
  obtain ⟨sent, cache, hreq, hexchanges, _⟩ := hanswer.sends
  obtain ⟨topHost, hprep⟩ := hreq.prepared
  have hto := (htrack.target hanswer hfollow).1
  have hfrom := (htrack.visited hprep).web
  have hx : (advance ctx to_ status r').enter.exchanges = r.exchanges ++ sent :=
    hfollow.exchanges.trans hexchanges
  have hurl : r'.state.url = s.request.url := by
    rw [hfollow.state, hanswer.state]
  have hold : r'.state.taintedOrigin = r.state.taintedOrigin := by
    rw [hfollow.state, hanswer.state]
  -- the source asks this of the URL that was requested and of the target
  have hcross : (!(Origin.fromUrl r'.nextOpaque to_).sameOrigin (Origin.fromUrl r'.nextOpaque r'.state.url)) = true ↔
      ¬ SameOrigin to_ s.request.url := by
    rw [hurl, Bool.not_eq_true', Bool.eq_false_iff, Ne, sameOrigin_fromUrl hto hfrom]
  have hforeign : (!ctx.initiator.sameOrigin (Origin.fromUrl r'.nextOpaque r'.state.url)) = true ↔
      ¬ FromInitiator ctx s.request.url := by
    rw [hurl, Bool.not_eq_true', Bool.eq_false_iff, Ne, hfrom.origin_fresh r'.nextOpaque 0, sameOrigin_iff,
      FromInitiator, sameOrigin_iff, eq_comm]
  have hchain : NeverLeaves ctx (hopUrls (r.exchanges ++ sent) ++ [to_]) ↔
      NeverLeaves ctx (hopUrls r.exchanges ++ [r.state.url]) ∧
        (FromInitiator ctx s.request.url ∨ SameOrigin to_ s.request.url) := by
    rw [hopUrls_append, hopUrls_sent hreq, neverLeaves_concat, htrack.neverLeaves hprep]
    simp
  have htainted : (advance ctx to_ status r').enter.state.taintedOrigin =
      if (!(Origin.fromUrl r'.nextOpaque to_).sameOrigin (Origin.fromUrl r'.nextOpaque r'.state.url) &&
          !ctx.initiator.sameOrigin (Origin.fromUrl r'.nextOpaque r'.state.url) &&
          r.state.taintedOrigin.isNone) = true then some (.opaqueOrigin r'.nextOpaque)
      else r.state.taintedOrigin := by
    rw [← hold]
    rfl
  refine ⟨?_, ?_, ?_⟩
  · rw [hx]
    show _ ↔ ¬ NeverLeaves ctx (hopUrls (r.exchanges ++ sent) ++ [to_])
    rw [hchain, not_and_or, ← h.tainted, htainted, not_or, ← hcross, ← hforeign]
    split
    · rename_i hc
      simp only [Bool.and_eq_true] at hc
      exact ⟨fun _ => Or.inr ⟨hc.1.2, hc.1.1⟩, fun _ => rfl⟩
    · rename_i hc
      constructor
      · exact Or.inl
      · rintro (hsome | ⟨hf, hx⟩)
        · exact hsome
        · rw [hf, hx] at hc
          cases ht : r.state.taintedOrigin with
          | none =>
              rw [ht] at hc
              exact absurd rfl hc
          | some o => rfl
  · intro o ho
    rw [htainted] at ho
    split at ho
    · cases ho
      rfl
    · exact h.isOpaque o ho
  · rw [hx]
    intro e he
    rcases List.mem_append.mp he with hpast | hnew
    · exact h.passed e hpast
    · exact hreq.passes hfollow.checked e hnew

/-! ## What script sees -/

/-- The server let the origin that the request speaks for read the response, and every server that
redirected it under CORS tainting before let it go on. -/
structure MayRead (ctx : FetchContext) (before : List Exchange) (s : Settled) (response : Response) : Prop where
  allowed : corsCheck s.request (corsHeaders response) = .ok ()
  initiator : NeverLeaves ctx (hopUrls before ++ [s.request.url]) → s.request.origin = ctx.initiator
  tainted : ¬ NeverLeaves ctx (hopUrls before ++ [s.request.url]) →
    s.request.origin.isOpaque = true ∧ serializeRequestOrigin s.request = "null".toList
  redirects : ∀ e ∈ before, e.isPreflight = false → e.settled.taint = .cors → PassesCors e

/-- Of the response that is shown, and of the last request, which it answers. -/
structure Shows (ctx : FetchContext) (before : List Exchange) (s : Settled) (response : Response)
    (v : ResponseView) : Prop where
  body : v.scriptBody.isSome = true →
    (∀ u ∈ hopUrls before ++ [s.request.url], FromInitiator ctx u) ∨ MayRead ctx before s response
  isOpaque : v.tainting = .opaque_ → v.status = 0 ∧ v.headers = [] ∧ v.scriptBody = none
  headers : v.tainting = .cors → ∀ h ∈ v.headers,
    Text.eqIgnoreAsciiCase h.name "set-cookie".toList = false ∧
      (SAFE.contains (Text.toAsciiLowercase h.name) = true ∨
        headerListed (exposed (corsResponse response)) h.name = true ∨
        ctx.credentials ≠ .include_ ∧ "*".toList ∈ exposed (corsResponse response))

/-- The last request was answered with the response that is shown. -/
def ShowsLast (ctx : FetchContext) (exchanges : List Exchange) (v : ResponseView) : Prop :=
  ∃ before s clearance jar read spec response,
    exchanges = before ++ [.actual s clearance jar read spec (.ok response)] ∧ v.tainting = s.taint ∧
      Shows ctx before s response v

theorem taint_basic {fresh : UInt64} (h : taint fresh request = .ok .basic)
    (hweb : isWebScheme request.url.scheme) (hmode : request.mode ≠ .navigate) :
    (Origin.fromUrl fresh request.url).sameOrigin request.origin = true ∧ request.originTainted = false := by
  unfold taint at h
  have hdata : ¬ (request.url.scheme = "data".toList ∨ request.mode = .navigate) := by
    rintro (hdata | hnavigate)
    · rcases hweb with hs | hs <;> rw [hs] at hdata <;> exact absurd hdata (by decide)
    · exact hmode hnavigate
  rw [if_neg hdata] at h
  split at h
  · rename_i hsame
    simpa using hsame
  · split at h
    · cases h
    · cases h
    · split at h <;> cases h
    · split at h <;> cases h

theorem filterResponse_cors {response : CorsResponse} :
    ∀ h ∈ (filterResponse request .cors response).headers,
      Text.eqIgnoreAsciiCase h.name "set-cookie".toList = false ∧
        (SAFE.contains (Text.toAsciiLowercase h.name) = true ∨ headerListed (exposed response) h.name = true ∨
          request.credentials ≠ .include_ ∧ "*".toList ∈ exposed response) := by
  intro h hmem
  have hkept := (List.mem_filter.mp hmem).2
  simp only [isForbiddenResponseHeader, Bool.and_eq_true, Bool.not_eq_true', Bool.or_eq_false_iff,
    Bool.or_eq_true, decide_eq_true_eq, List.contains_iff_mem] at hkept
  obtain ⟨⟨hcookie, _⟩, (hsafe | hwild) | hlisted⟩ := hkept
  · exact ⟨hcookie, Or.inl (by simpa using hsafe)⟩
  · exact ⟨hcookie, Or.inr (Or.inr hwild)⟩
  · exact ⟨hcookie, Or.inr (Or.inl hlisted)⟩

variable (digest : Sri.Algorithm → Bytes → Bytes) (T : Transport W) (session : Session W) (url : Text)

theorem TracksTaint.shows (h : TracksTaint ctx r) (htrack : OnTrack ctx fetcher₀ r)
    (hmode : ctx.mode ≠ .navigate) {topHost : Text} (hprep : Prepared ctx r topHost s)
    (hvalid : validateResponse s.request s.taint (corsResponse response) = .ok ()) {pre : List Exchange}
    (hpre : ∀ e ∈ pre, e.isPreflight = true) (body : Bytes) :
    Shows ctx (r.exchanges ++ pre) s response (responseView s.request s.taint (corsResponse response) body) := by
  have hweb := (htrack.visited hprep).web
  have hurls : hopUrls (r.exchanges ++ pre) = hopUrls r.exchanges := by
    have hnil : pre.filter (fun e => !e.isPreflight) = [] :=
      List.filter_eq_nil_iff.mpr fun e he => by simp [hpre e he]
    rw [hopUrls_append, hopUrls, hopUrls, hnil, List.map_nil, List.append_nil]
  have horigin : s.request.origin = r.state.taintedOrigin.getD ctx.initiator := by
    rw [hprep.request]
    rfl
  have hflag : s.request.originTainted = r.state.taintedOrigin.isSome := by
    rw [hprep.request]
    rfl
  have hstays := htrack.neverLeaves hprep
  refine ⟨?_, ?_, ?_⟩
  · intro hbody
    rw [hurls]
    cases ht : s.taint with
    | basic =>
        have hmode' : s.request.mode ≠ .navigate := by
          rw [hprep.request]
          exact hmode
        obtain ⟨hsame, hclean⟩ := taint_basic (ht ▸ hprep.taint) hweb.scheme hmode'
        rw [hflag] at hclean
        have hnone : r.state.taintedOrigin = none := by simpa using hclean
        rw [horigin, hnone, Option.getD_none] at hsame
        have hhome : FromInitiator ctx s.request.url := by
          rw [FromInitiator, hweb.origin_fresh 0 r.nextOpaque]
          exact hsame
        have hnever : NeverLeaves ctx (hopUrls r.exchanges ++ [s.request.url]) := by
          rw [hstays]
          by_contra hc
          rw [h.tainted.mpr hc] at hclean
          cases hclean
        exact Or.inl (hnever.all hhome)
    | cors =>
        refine Or.inr ⟨validateResponse_cors hvalid ht, ?_, ?_, ?_⟩
        · rw [hurls, hstays]
          intro hnever
          have hnone : r.state.taintedOrigin = none := by
            by_contra hc
            exact h.tainted.mp (Option.isSome_iff_ne_none.mpr hc) hnever
          rw [horigin, hnone, Option.getD_none]
        · rw [hurls, hstays]
          intro hleft
          obtain ⟨o, ho⟩ := Option.isSome_iff_exists.mp (h.tainted.mpr hleft)
          have hnull : s.request.origin.isOpaque = true := by
            rw [horigin, ho, Option.getD_some]
            exact h.isOpaque o ho
          exact ⟨hnull, serialize_eq_null.mpr hnull⟩
        · intro e he hactual
          rcases List.mem_append.mp he with hpast | hnew
          · exact h.passed e hpast hactual
          · rw [hpre e hnew] at hactual
            cases hactual
    | opaque_ =>
        rw [ht] at hbody
        cases hbody
  · intro ht
    have ht' : s.taint = .opaque_ := ht
    rw [ht']
    exact ⟨rfl, rfl, rfl⟩
  · intro ht
    have ht' : s.taint = .cors := ht
    rw [ht']
    intro header hheader
    have hfiltered := filterResponse_cors header hheader
    rw [hprep.request] at hfiltered
    exact hfiltered

/-- A fetch that is no navigation shows script nothing that it may not read. -/
theorem script_sees_what_it_may (ctx : FetchContext) (hmode : ctx.mode ≠ .navigate) {v : ResponseView}
    (hv : (fetch ctx T digest session url).out.response = some v) :
    ShowsLast ctx (fetch ctx T digest session url).exchanges v := by
  revert v
  refine fetch_rule ctx T digest
    (Q := fun f => ∀ {v : ResponseView}, f.out.response = some v → ShowsLast ctx f.exchanges v) ?_ ?_
  · intro start hparse hheaders r hr
    subst hr
    refine fetchLoop_rule ctx T digest (P := fun r => OnTrack ctx session.fetcher r ∧ TracksTaint ctx r)
      (Q := fun r => ∀ {v : ResponseView}, r.out.response = some v → ShowsLast ctx r.exchanges v)
      ?_ ?_ ?_ _ _ ⟨OnTrack.start hparse hheaders, ?_⟩ FetchOutcome.open_new (Nat.zero_le _)
      (Nat.lt_succ_self _)
    · rintro r s response r₁ to_ status r' ⟨htrack, htaint⟩ hanswer hfollow
      exact ⟨htrack.next hanswer hfollow status, htaint.next htrack hanswer hfollow status⟩
    · rintro r s response r₁ r' ⟨htrack, htaint⟩ hanswer hfinish v hv
      obtain ⟨sent, cache, ⟨⟨topHost, hprep⟩, clearance, fetcher, pre, read, spec, hpass, _, rfl, _⟩, hexchanges, _⟩ :=
        hanswer.sends
      rw [hfinish.response] at hv
      cases hv
      refine ⟨r.exchanges ++ pre, s, clearance, r.fetcher.jar, read, spec, response, ?_, rfl,
        htaint.shows htrack hmode hprep hfinish.valid hpass.isPreflight _⟩
      rw [hfinish.exchanges, hexchanges, List.append_assoc]
    · intro r r' _ hrefuse v hv
      rw [hrefuse.refused.response] at hv
      cases hv
    · refine ⟨?_, ?_, List.forall_mem_nil _⟩
      · constructor
        · intro hsome
          cases hsome
        · intro hleft
          exact absurd (List.IsChain.singleton _) hleft
      · intro o ho
        cases ho
  · intro out hout v hv
    rw [hout.response] at hv
    cases hv

/-- A `GET` in CORS mode that the server lets everyone read. -/
theorem script_sees_sample : ∃ v,
    (fetch (sampleContext "app.example" .cors "GET")
        ⟨fun w _ _ => (.ok ⟨⟨200, [⟨"access-control-allow-origin".toList, ['*']⟩], .empty⟩, []⟩, w),
          fun w => ((0, w) : Instant × Unit)⟩
        (fun _ _ => []) sampleSession "https://api.example/x".toList).out.response = some v ∧
      v.scriptBody = some [] ∧
      ShowsLast (sampleContext "app.example" .cors "GET")
        (fetch (sampleContext "app.example" .cors "GET")
          ⟨fun w _ _ => (.ok ⟨⟨200, [⟨"access-control-allow-origin".toList, ['*']⟩], .empty⟩, []⟩, w),
            fun w => ((0, w) : Instant × Unit)⟩
          (fun _ _ => []) sampleSession "https://api.example/x".toList).exchanges v :=
  ⟨⟨sampleUrl "api.example" "/x", 200, [], .cors, []⟩, by decide +kernel, by decide,
    script_sees_what_it_may _ _ _ _ _ (by decide) (by decide +kernel)⟩

end Pelorus.Secure

/-! # No unapproved cross-origin request, in the modes that ask

A REQUEST WITHOUT A PREFLIGHT is simple, or the cache covered it, or its mode is one in
which the source never asks: `no-cors` and navigations. -/

namespace Pelorus.Secure

open Lib Websec Websec.Cors
open Net hiding Origin

variable {W : Type}

/-! ## Approval -/

/-- A request that needs leave of the server: foreign to the initiator, with a method or with headers
that are not simple. -/
structure NeedsLeave (ctx : FetchContext) (s : Settled) : Prop where
  foreign : ¬ FromInitiator ctx s.request.url
  unsafe_ : isSafelistedMethod s.request.method = false ∨ unsafeHeaderNames s.request.headers ≠ []

/-- The server gave leave: in this hop, or in the cache and not yet expired. -/
def HasLeave (before : List Exchange) (s : Settled) : Clearance → Prop
  | .simple => False
  | .cached cache now => CacheCovers cache s.key.display s.request now
  | .granted grant _ => GrantCovers s.request grant ∧ ∃ earlier spec response,
      before = earlier ++ [.preflight s spec (.ok response)] ∧
        validatePreflight s.request (corsResponse response) = .ok grant

/-- The method and the author's headers that are sent are those that were asked about. -/
structure IsSentAs (s : Settled) (spec : RequestSpec) : Prop where
  method : spec.method = s.request.method
  author : ∃ author rest, authorLines s.request.headers = some author ∧ spec.headers = author ++ rest

/-- In the modes that ask, a request that needs leave has it. -/
def Approved (ctx : FetchContext) (before : List Exchange) : Exchange → Prop
  | .preflight _ _ _ => True
  | .actual s clearance _ _ spec _ => IsSentAs s spec ∧
      (ctx.mode ≠ .noCors → ctx.mode ≠ .navigate → NeedsLeave ctx s → HasLeave before s clearance)

/-! ## Every request -/

variable {ctx : FetchContext} {fetcher₀ : SecureFetcher} {r : Run W} {s : Settled}

/-- A foreign request in a mode that asks is under CORS tainting, and so it is asked about. -/
theorem needsPreflight_of_leave (htrack : OnTrack ctx fetcher₀ r) {topHost : Text}
    (hprep : Prepared ctx r topHost s) (hcors : ctx.mode ≠ .noCors) (hnavigate : ctx.mode ≠ .navigate)
    (hleave : NeedsLeave ctx s) : needsPreflight ctx s = true := by
  obtain ⟨hmode, htaint⟩ := (htrack.foreign_taint hprep hnavigate hleave.foreign).resolve_left
    fun h => hcors h.1
  have hclass : classify s.request ≠ .simple := by
    unfold classify
    dsimp only
    split
    · rename_i hsimple
      simp only [Bool.not_not, Bool.and_eq_true, List.isEmpty_iff] at hsimple
      rcases hleave.unsafe_ with h | h
      · rw [hsimple.1.1] at h
        cases h
      · exact absurd hsimple.1.2 h
    · intro h
      cases h
  simp [needsPreflight, htaint, hclass, hmode]

variable (digest : Sri.Algorithm → Bytes → Bytes) (T : Transport W) (session : Session W) (url : Text)

/-- In the modes that ask, every foreign request that is not simple has the leave of the server. -/
theorem cross_origin_requests_approved (ctx : FetchContext) :
    EachAfter (Approved ctx) (fetch ctx T digest session url).exchanges := by
  refine fetch_each_onTrack digest ctx T session url fun r before e htrack hsent => ?_
  cases hsent with
  | preflight hprep hneed => trivial
  | actual hprep hpass hwritten =>
      rename_i topHost s clearance fetcher read spec answer
      obtain ⟨_, author, hauthor, rfl⟩ := hwritten
      have hmethod : s.request.method = r.state.method := by rw [hprep.request]; rfl
      have hheaders : s.request.headers = r.state.headers := by rw [hprep.request]; rfl
      refine ⟨⟨hmethod.symm, author, _, by rw [hheaders]; exact hauthor,
        (List.append_assoc ..).trans (List.append_assoc ..)⟩, ?_⟩
      · intro hcors hnavigate hleave
        have hasks := needsPreflight_of_leave htrack hprep hcors hnavigate hleave
        cases hpass with
        | simple hneed =>
            rw [hneed] at hasks
            cases hasks
        | cached now hneed hcovers => exact (covers_iff.mp hcovers).1
        | granted now response grant hneed hvalid =>
            exact ⟨validatePreflight_covers hvalid, r.exchanges, _, response, rfl, hvalid⟩

/-! ## Requests without leave -/

/-- It grants a method and a header name to everyone. -/
def sampleGranting (methods headers : String) : Transport Unit :=
  ⟨fun w _ _ => (.ok ⟨⟨200, [⟨"access-control-allow-origin".toList, "https://app.example".toList⟩,
      ⟨"access-control-allow-credentials".toList, "true".toList⟩,
      ⟨"access-control-allow-methods".toList, methods.toList⟩,
      ⟨"access-control-allow-headers".toList, headers.toList⟩], .empty⟩, []⟩, w), fun w => (0, w)⟩

def sampleRequest (credentials : CredentialsMode) (method : String) (headers : List Header) : FetchContext :=
  { sampleContext "app.example" .cors method with credentials, headers }

/-- After a credentialed `PUT`, and a credentialed `GET` with the header `X-A`. -/
def sampleLater : Session Unit :=
  (fetch (sampleRequest .include_ "GET" [Header.new "X-A".toList ['1']]) (sampleGranting "GET" "X-A")
    (fun _ _ => [])
    (fetch (sampleRequest .include_ "PUT" []) (sampleGranting "PUT" "") (fun _ _ => []) sampleSession
      "https://api.example/x".toList).toSession "https://api.example/x".toList).toSession

/-- Whether each request is a preflight, and its method. -/
def methodsSent (f : Fetched Unit) : List (Bool × Text) := f.exchanges.map fun e => (e.isPreflight, e.spec.method)

/-- A foreign `PUT` in `no-cors` mode goes out with an empty cache and without a preflight; and a `PUT`
with `X-A` without credentials is let through on grants that were made for other credentials, one for
the method and another for the header. -/
theorem unapproved_requests :
    methodsSent (fetch (sampleContext "app.example" .noCors "PUT") sampleTransport (fun _ _ => []) sampleSession
        "https://api.example/x".toList) = [(false, "PUT".toList)] ∧
      sampleSession.fetcher.preflightCache = .new ∧
      methodsSent (fetch (sampleRequest .omit_ "PUT" [Header.new "X-A".toList ['1']]) sampleTransport
        (fun _ _ => []) sampleLater "https://api.example/x".toList) = [(false, "PUT".toList)] ∧
      (sampleLater.fetcher.preflightCache.entries.map fun e => (e.credentials, e.method, e.header)) =
        [(true, some "PUT".toList, none), (true, none, some []), (true, some "GET".toList, none),
          (true, none, some "x-a".toList)] := by
  refine ⟨?_, rfl, ?_, ?_⟩ <;> decide +kernel

end Pelorus.Secure
