import Pelorus.Lib.Runs
import Pelorus.Secure.Steps

/-
  Secure/Links.lean --- the requests of a fetch, each with those before it.

  A PROPERTY OF WHAT LEAVES is proved with an invariant of the hops: it holds at the first
  hop, a redirect that is followed keeps it, and at a hop where it holds every request that
  the hop can send has the property (`fetch_each`).
-/
set_option autoImplicit false

namespace Pelorus.Secure

open Lib Websec Websec.Cors
open Net hiding Origin

variable {W : Type}

/-! ## Exchanges -/

namespace Exchange

def settled : Exchange → Settled
  | .preflight s _ _ => s
  | .actual s _ _ _ _ _ => s

def spec : Exchange → RequestSpec
  | .preflight _ spec _ => spec
  | .actual _ _ _ _ spec _ => spec

/-- The URL that is requested. -/
def url (e : Exchange) : Url := e.settled.request.url

def isPreflight : Exchange → Bool
  | .preflight _ _ _ => true
  | .actual _ _ _ _ _ _ => false

end Exchange

/-- How many requests that are not preflights there are. -/
def hopsOf (exchanges : List Exchange) : Nat := exchanges.countP fun e => !e.isPreflight

def preflightsOf (exchanges : List Exchange) : Nat := exchanges.countP Exchange.isPreflight

/-! ## One hop -/

section
variable (ctx : FetchContext)

/-- A request that a hop from `r` may send, after those before it. -/
inductive SentBy (r : Run W) : List Exchange → Exchange → Prop where
  | preflight {topHost : Text} {s : Settled} {answer : Except FetchError Response}
      (hprep : Prepared ctx r topHost s) (hneed : needsPreflight ctx s = true) :
      SentBy r [] (.preflight s (preflightSpec ctx r.nextOpaque s) answer)
  | actual {topHost : Text} {s : Settled} {clearance : Clearance} {fetcher : SecureFetcher}
      {pre : List Exchange} {read : Option Instant} {spec : RequestSpec}
      {answer : Except FetchError Response} (hprep : Prepared ctx r topHost s)
      (hpass : Passed ctx r.fetcher r.nextOpaque s clearance fetcher pre)
      (hwritten : Written ctx r.fetcher r.nextOpaque r.state s read spec) :
      SentBy r pre (.actual s clearance r.fetcher.jar read spec answer)

variable {ctx}
variable {r : Run W}

theorem Passed.each {topHost : Text} {s : Settled} {clearance : Clearance} {fetcher : SecureFetcher}
    {pre : List Exchange} (hprep : Prepared ctx r topHost s)
    (h : Passed ctx r.fetcher r.nextOpaque s clearance fetcher pre) : EachAfter (SentBy ctx r) pre := by
  cases h with
  | simple hneed => exact eachAfter_nil
  | cached now hneed hcovers => exact eachAfter_nil
  | granted now response grant hneed hvalid => exact eachAfter_singleton (.preflight hprep hneed)

theorem Requested.each {s : Settled} {answer : Except FetchError Response} {sent : List Exchange}
    {cache : PreflightCache} (h : Requested ctx r s answer sent cache) :
    EachAfter (SentBy ctx r) sent := by
  obtain ⟨⟨topHost, hprep⟩, clearance, fetcher, pre, read, spec, hpass, hwritten, rfl, _⟩ := h
  exact (hpass.each hprep).concat (.actual hprep hpass hwritten)

theorem Sends.each {sent : List Exchange} {cache : PreflightCache}
    (h : Sends ctx r sent cache) : EachAfter (SentBy ctx r) sent := by
  cases h with
  | nothing => exact eachAfter_nil
  | preflight answer hprep hneed => exact eachAfter_singleton (.preflight hprep hneed)
  | cleared hprep hpass => exact hpass.each hprep
  | request h => exact h.each

end

/-! ## Whole fetches -/

/-- What every hop sends under an invariant of the hops, the whole fetch sends. -/
theorem fetch_each {ctx : FetchContext} {T : Transport W} {digest : Sri.Algorithm → Bytes → Bytes}
    {session : Session W} {url : Text} {I : Run W → Prop} {P : List Exchange → Exchange → Prop}
    (hstart : ∀ start, Url.parse url = some start → ctx.headers.any isRefusedHeader = false →
      I (startRun ctx session start).enter)
    (hnext : ∀ r s response r₁ to_ status r', I r → EachAfter P r.exchanges → Answered ctx r s response r₁ →
      Followed r₁ r' s response to_ → I (advance ctx to_ status r').enter)
    (hsent : ∀ r before e, I r → EachAfter P r.exchanges → SentBy ctx r before e →
      P (r.exchanges ++ before) e) :
    EachAfter P (fetch ctx T digest session url).exchanges := by
  -- what a hop sends goes behind what was sent before
  have hgrow : ∀ (r : Run W) (sent : List Exchange), I r → EachAfter P r.exchanges →
      EachAfter (SentBy ctx r) sent → EachAfter P (r.exchanges ++ sent) := fun r sent hinv hold heach =>
    eachAfter_append hold (heach.mono fun before e h => hsent r before e hinv hold h)
  refine fetch_rule ctx T digest (Q := fun f => EachAfter P f.exchanges) ?_ ?_
  · intro start hparse hheaders r hr
    subst hr
    refine fetchLoop_rule ctx T digest (P := fun r => I r ∧ EachAfter P r.exchanges)
      (Q := fun r => EachAfter P r.exchanges) ?_ ?_ ?_ _ _ ⟨hstart start hparse hheaders, eachAfter_nil⟩
      FetchOutcome.open_new (Nat.zero_le _) (Nat.lt_succ_self _)
    · rintro r s response r₁ to_ status r' ⟨hinv, hold⟩ hanswer hfollow
      refine ⟨hnext r s response r₁ to_ status r' hinv hold hanswer hfollow, ?_⟩
      obtain ⟨sent, cache, hreq, hexchanges, _⟩ := hanswer.sends
      show EachAfter P r'.exchanges
      rw [hfollow.exchanges, hexchanges]
      exact hgrow r sent hinv hold hreq.each
    · rintro r s response r₁ r' ⟨hinv, hold⟩ hanswer hfinish
      obtain ⟨sent, cache, hreq, hexchanges, _⟩ := hanswer.sends
      rw [hfinish.exchanges, hexchanges]
      exact hgrow r sent hinv hold hreq.each
    · rintro r r' ⟨hinv, hold⟩ hrefuse
      obtain ⟨sent, cache, hsends, hexchanges, _⟩ := hrefuse.sends
      rw [hexchanges]
      exact hgrow r sent hinv hold hsends.each
  · intro out _
    exact eachAfter_nil

end Pelorus.Secure

/-! # What one hop of a fetch has to do with the next

A REDIRECT IS COMPARED before its target is upgraded: the source asks whether the target
has the origin of the URL that was requested, and upgrades the target afterwards.  The
answer is the right one, because whether a URL is upgraded is a matter of its origin: a
target with the origin of a URL that was requested is requested as it is. -/

namespace Pelorus.Secure

open Lib Websec Websec.Cors
open Net hiding Origin

variable {W : Type}

/-! ## Origins -/

/-- Two URLs have one origin. -/
def SameOrigin (u v : Url) : Prop := (Origin.fromUrl 0 u).sameOrigin (Origin.fromUrl 0 v) = true

instance (u v : Url) : Decidable (SameOrigin u v) := inferInstanceAs (Decidable (_ = _))

theorem sameOrigin_iff {a b : Origin} : a.sameOrigin b = true ↔ a = b := decide_eq_true_iff

theorem SameOrigin.origin {u v : Url} (h : SameOrigin u v) (hu : u.Web) (hv : v.Web) (fresh fresh' : UInt64) :
    Origin.fromUrl fresh u = Origin.fromUrl fresh' v := by
  rw [hu.origin_fresh fresh 0, hv.origin_fresh fresh' 0]
  exact sameOrigin_iff.mp h

/-- The number of an opaque origin does not matter to web URLs. -/
theorem sameOrigin_fromUrl {u v : Url} (hu : u.Web) (hv : v.Web) (fresh fresh' : UInt64) :
    (Origin.fromUrl fresh u).sameOrigin (Origin.fromUrl fresh' v) = true ↔ SameOrigin u v := by
  rw [hu.origin_fresh fresh 0, hv.origin_fresh fresh' 0]
  exact Iff.rfl

theorem SameOrigin.symm {u v : Url} (h : SameOrigin u v) : SameOrigin v u :=
  sameOrigin_iff.mpr (sameOrigin_iff.mp h).symm

theorem SameOrigin.trans {u v w : Url} (h : SameOrigin u v) (h' : SameOrigin v w) : SameOrigin u w :=
  sameOrigin_iff.mpr ((sameOrigin_iff.mp h).trans (sameOrigin_iff.mp h'))

variable {url : Url} {fetcher' : SecureFetcher} {clearance : Clearance} {pre : List Exchange}

theorem isWeb_iff : isWeb url = true ↔ isWebScheme url.scheme := by
  simp [isWeb, isWebScheme]

/-! ## Upgrades -/

section
variable {ctx : FetchContext} {preload : Option PreloadList} {fresh fresh' : UInt64} {u v : Url}

theorem cspUpgrades_iff (hu : u.Web) (hclean : u.hasCredentials = false) (hhttp : u.scheme = "http".toList) :
    cspUpgrades ctx fresh u = true ↔ (Csp.CspUrl.parse (u.serialize true)).isSome = true ∧
      ∃ p ∈ ctx.csp.policies, Csp.asksForUpgrade p (upgradeContext ctx fresh u) := by
  unfold cspUpgrades
  cases hcu : Csp.CspUrl.parse (u.serialize true) with
  | none => simp
  | some cu =>
      rw [Option.any_some, Csp.PolicySet.upgradeInsecureUrl_isSome hu hclean hhttp hcu]
      simp

theorem Fixed.of_sameOrigin (hfix : Fixed ctx preload fresh u) (hu : u.Web)
    (hclean : u.hasCredentials = false) (hcu : (Csp.CspUrl.parse (u.serialize true)).isSome = true)
    (hv : v.Web) (hclean' : v.hasCredentials = false) (h : SameOrigin u v) : Fixed ctx preload fresh' v := by
  obtain ⟨hscheme, hhost⟩ := hu.of_sameOrigin hv h
  have horigin := h.origin hu hv fresh fresh'
  have hcontext : upgradeContext ctx fresh' v = upgradeContext ctx fresh u := by
    unfold upgradeContext
    rw [horigin]
  refine ⟨?_, ?_, ?_⟩
  · intro hhttp
    rw [← hhost]
    exact hfix.hsts (hscheme.trans hhttp)
  · intro hhttp
    have hno := hfix.csp (hscheme.trans hhttp)
    rw [Bool.eq_false_iff] at hno ⊢
    rw [Ne, cspUpgrades_iff hu hclean (hscheme.trans hhttp)] at hno
    rw [Ne, cspUpgrades_iff hv hclean' hhttp]
    rintro ⟨_, hasks⟩
    rw [hcontext] at hasks
    exact hno ⟨hcu, hasks⟩
  · have hmixed := hfix.mixed
    unfold mixedVerdict at hmixed ⊢
    cases hkind : ctx.destination.mixedKind with
    | none => rfl
    | some kind =>
        rw [hkind] at hmixed
        refine Mixed.checkRequest_allow_iff.mpr fun hprohibits => ?_
        have htrust := Mixed.checkRequest_allow_iff.mp hmixed hprohibits
        rw [Mixed.isUrlPotentiallyTrustworthy_of_web hu.scheme, horigin] at htrust
        rw [Mixed.isUrlPotentiallyTrustworthy_of_web hv.scheme]
        exact htrust

/-- A URL that was requested. -/
structure Visited (ctx : FetchContext) (preload : Option PreloadList) (url : Url) : Prop where
  web : url.Web
  clean : url.hasCredentials = false
  parsed : (Csp.CspUrl.parse (url.serialize true)).isSome = true
  fixed : url.scheme ≠ "https".toList → ∃ fresh, Fixed ctx preload fresh url

theorem Upgrades.web (h : Upgrades u v) (hu : u.Web) : v.Web := by
  rcases h with rfl | h
  · exact hu
  · exact hu.upgraded h

theorem Upgrades.hasCredentials (h : Upgrades u v) : v.hasCredentials = u.hasCredentials := by
  rcases h with rfl | h
  · rfl
  · unfold Url.upgradedToHttps at h
    split at h
    · cases h
    · cases h
      rfl

/-- An https URL stays. -/
theorem Upgrades.eq_of_https (h : Upgrades u v) (hs : u.scheme = "https".toList) : v = u := by
  rcases h with h | h
  · exact h
  · unfold Url.upgradedToHttps at h
    rw [if_pos (by rw [hs]; decide)] at h
    cases h

theorem Upgrades.scheme (h : Upgrades u v) : v = u ∨ u.scheme = "http".toList ∧ v.scheme = "https".toList := by
  rcases h with h | h
  · exact Or.inl h
  · refine Or.inr ⟨?_, scheme_of_upgraded h⟩
    unfold Url.upgradedToHttps at h
    split at h
    · cases h
    · rename_i hs
      exact not_not.mp hs

variable {fetcher : SecureFetcher} {state : HopState}

theorem Vetted.visited (h : Vetted ctx fetcher fresh state u)
    (hweb : isWebScheme state.url.scheme → state.url.Web) : Visited ctx fetcher.preload u where
  web := h.upgrades.web (hweb (isWeb_iff.mp h.web))
  clean := h.upgrades.hasCredentials.trans h.clean
  parsed := by
    obtain ⟨cu, hcu, _⟩ := h.allowed
    rw [hcu]
    rfl
  fixed := fun hne => ⟨fresh, h.fixed hne⟩

/-- After a requested URL comes its redirect target, which is requested as it is where it has
the origin of that URL, and under an origin that is not that one where it has another. -/
theorem Visited.next (hu : Visited ctx fetcher.preload u) (hv : Vetted ctx fetcher fresh state v)
    (hto : state.url.Web) (hsecure : u.scheme = "https".toList → state.url.scheme = "https".toList) :
    (SameOrigin state.url u → v = state.url) ∧ (SameOrigin v u ↔ SameOrigin state.url u) := by
  have hsame : SameOrigin state.url u → v = state.url := by
    intro h
    by_cases hs : u.scheme = "https".toList
    · exact hv.upgrades.eq_of_https (hsecure hs)
    · obtain ⟨fresh', hfix⟩ := hu.fixed hs
      exact hv.same (hfix.of_sameOrigin hu.web hu.clean hu.parsed hto hv.clean h.symm)
  refine ⟨hsame, ?_, ?_⟩
  · intro h
    rcases hv.upgrades.scheme with heq | ⟨hhttp, hhttps⟩
    · rwa [heq] at h
    · have hv' : v.Web := hv.upgrades.web hto
      have hscheme := (hv'.of_sameOrigin hu.web h).1
      have hcontra := hsecure (hscheme.symm.trans hhttps)
      rw [hhttp] at hcontra
      exact absurd hcontra (by decide)
  · intro h
    rwa [hsame h]

end

/-! ## Redirects -/

theorem netOrigin_scheme {origin : Net.Origin} (hs : isWebScheme url.scheme)
    (h : netOrigin url = some origin) : origin.scheme = url.scheme := by
  obtain ⟨host, _, h⟩ := Option.bind_eq_some_iff.mp h
  obtain ⟨port, _, h⟩ := Option.bind_eq_some_iff.mp h
  rw [(Net.Origin.new_eq_some h).1]
  rcases hs with hs | hs <;> rw [hs] <;> rfl

/-- The target of a redirect is a web URL, and https after https. -/
theorem Followed.target {r r' : Run W} {s : Settled} {response : Response} {to_ : Url}
    (h : Followed r r' s response to_) (hs : isWebScheme s.request.url.scheme)
    (hkey : netOrigin s.request.url = some s.key.origin) :
    to_.Web ∧ (s.request.url.scheme = "https".toList → to_.scheme = "https".toList) := by
  obtain ⟨topHost, location, hop, hfollow, hparse⟩ := h.next
  obtain ⟨_, _, hsecure⟩ := Chain.follow_eq_ok hfollow
  have hscheme : isWebScheme hop.key.origin.scheme := hop.key.origin.valid.scheme_ok.symm
  have htext : hopText hop = hop.key.origin.scheme ++ ':' :: ('/' :: '/' :: (hop.key.origin.host ++
      ':' :: Nat.toDigits 10 hop.key.origin.port.toNat ++ hop.path)) := by
    simp [hopText]
  rw [htext] at hparse
  have hto : to_.scheme = hop.key.origin.scheme := Url.scheme_of_parse hscheme hparse
  refine ⟨Url.web_of_parse hparse (hto ▸ hscheme), ?_⟩
  intro hhttps
  have hfrom : s.key.origin.isSecure = true := by
    rw [Net.Origin.isSecure, netOrigin_scheme hs hkey, hhttps]
    rfl
  have hnext := hsecure hfrom
  rw [Net.Origin.isSecure, decide_eq_true_eq] at hnext
  rw [hto, hnext]

/-! ## The hops of a fetch -/

/-- What is so at every hop of a fetch that started with `fetcher₀`. -/
structure OnTrack (ctx : FetchContext) (fetcher₀ : SecureFetcher) (r : Run W) : Prop where
  web : isWebScheme r.state.url.scheme → r.state.url.Web
  past : ∀ e ∈ r.exchanges, Visited ctx fetcher₀.preload e.url
  secure : ∀ e ∈ r.exchanges, e.url.scheme = "https".toList → r.state.url.scheme = "https".toList
  headers : ∀ h ∈ r.state.headers, isRefusedHeader h = false
  psl : r.fetcher.psl = fetcher₀.psl
  preload : r.fetcher.preload = fetcher₀.preload
  hops : hopsOf r.exchanges = r.chain.visited.length
  max : r.chain.visited.length ≤ MAX_HOPS
  redirects : r.state.redirectCount = UInt32.ofNat (hopsOf r.exchanges)
  preflights : preflightsOf r.exchanges ≤ hopsOf r.exchanges

theorem hopsOf_append (xs ys : List Exchange) : hopsOf (xs ++ ys) = hopsOf xs + hopsOf ys :=
  List.countP_append

theorem preflightsOf_append (xs ys : List Exchange) :
    preflightsOf (xs ++ ys) = preflightsOf xs + preflightsOf ys := List.countP_append

section

variable {ctx : FetchContext} {fetcher : SecureFetcher} {fresh : UInt64} {s : Settled}
  (h : Passed ctx fetcher fresh s clearance fetcher' pre)

include h

theorem Passed.counts : hopsOf pre = 0 ∧ preflightsOf pre ≤ 1 := by
  cases h with
  | simple hneed => exact ⟨rfl, Nat.zero_le _⟩
  | cached now hneed hcovers => exact ⟨rfl, Nat.zero_le _⟩
  | granted now response grant hneed hvalid => exact ⟨rfl, Nat.le_refl _⟩

theorem Passed.settled : ∀ e ∈ pre, e.settled = s := by
  cases h with
  | simple hneed => exact List.forall_mem_nil _
  | cached now hneed hcovers => exact List.forall_mem_nil _
  | granted now response grant hneed hvalid => exact List.forall_mem_singleton.mpr rfl

end

theorem Vetted.scheme {ctx : FetchContext} {fetcher : SecureFetcher} {fresh : UInt64} {state : HopState}
    (h : Vetted ctx fetcher fresh state url) (hs : state.url.scheme = "https".toList) :
    url.scheme = "https".toList := by
  rw [h.upgrades.eq_of_https hs]
  exact hs

section

variable {ctx : FetchContext} {r : Run W} {s : Settled} {answer : Except FetchError Response}
  {sent : List Exchange} {cache : PreflightCache} (h : Requested ctx r s answer sent cache)

include h

theorem Requested.settled : ∀ e ∈ sent, e.settled = s := by
  obtain ⟨_, clearance, fetcher, pre, read, spec, hpass, _, rfl, _⟩ := h
  intro e he
  rcases List.mem_append.mp he with he | he
  · exact hpass.settled e he
  · rw [List.mem_singleton.mp he]
    rfl

theorem Requested.counts : hopsOf sent = 1 ∧ preflightsOf sent ≤ 1 := by
  obtain ⟨_, clearance, fetcher, pre, read, spec, hpass, _, rfl, _⟩ := h
  obtain ⟨hhops, hpreflights⟩ := hpass.counts
  rw [hopsOf_append, preflightsOf_append, hhops]
  exact ⟨rfl, hpreflights⟩

end

theorem OnTrack.start {ctx : FetchContext} {session : Session W} {url : Text} {start : Url}
    (h : Url.parse url = some start) (hheaders : ctx.headers.any isRefusedHeader = false) :
    OnTrack ctx session.fetcher (startRun ctx session start).enter where
  web := Url.web_of_parse h
  past := List.forall_mem_nil _
  secure := List.forall_mem_nil _
  headers := fun header hmem => by simpa using List.any_eq_false.mp hheaders header hmem
  psl := rfl
  preload := rfl
  hops := rfl
  max := Nat.zero_le _
  redirects := rfl
  preflights := Nat.le_refl _

variable {ctx : FetchContext} {fetcher₀ : SecureFetcher} {r r₁ r' : Run W} {s : Settled}
  {response : Response} {to_ : Url}
variable {topHost : Text} {e : Exchange}

theorem OnTrack.visited (h : OnTrack ctx fetcher₀ r) (hprep : Prepared ctx r topHost s) :
    Visited ctx fetcher₀.preload s.request.url :=
  h.preload ▸ hprep.vetted.visited h.web

/-- The URL of a hop, after each URL that was requested before it. -/
theorem OnTrack.after (h : OnTrack ctx fetcher₀ r) (hprep : Prepared ctx r topHost s)
    (he : e ∈ r.exchanges) :
    (SameOrigin r.state.url e.url → s.request.url = r.state.url) ∧
      (SameOrigin s.request.url e.url ↔ SameOrigin r.state.url e.url) := by
  have hpast := h.past e he
  rw [← h.preload] at hpast
  exact hpast.next hprep.vetted (h.web (isWeb_iff.mp hprep.vetted.web)) (h.secure e he)

theorem Prepared.netOrigin (h : Prepared ctx r topHost s) :
    Secure.netOrigin s.request.url = some s.key.origin := by
  obtain ⟨origin, horigin, hkey⟩ := h.key
  rw [horigin, PartitionKey.new_origin hkey]

/-- What is handed to the transport is for the URL. -/
structure Exchange.IsFor (e : Exchange) : Prop where
  origin : netOrigin e.url = some e.settled.key.origin
  path : e.spec.path = targetOf e.url

theorem Prepared.isFor (h : Prepared ctx r topHost s) (hs : e.settled = s)
    (hpath : e.spec.path = targetOf s.request.url) : e.IsFor where
  origin := by
    unfold Exchange.url
    rw [hs]
    exact h.netOrigin
  path := by
    unfold Exchange.url
    rw [hs]
    exact hpath

theorem Passed.isPreflight {fetcher : SecureFetcher} {fresh : UInt64}
    (h : Passed ctx fetcher fresh s clearance fetcher' pre) : ∀ e ∈ pre, e.isPreflight = true := by
  cases h with
  | simple hneed => exact List.forall_mem_nil _
  | cached now hneed hcovers => exact List.forall_mem_nil _
  | granted now response grant hneed hvalid => exact List.forall_mem_singleton.mpr rfl

/-- Every request of a hop is for the URL that the hop has settled. -/
theorem SentBy.settled {before : List Exchange} (h : SentBy ctx r before e) :
    (∃ topHost, Prepared ctx r topHost e.settled) ∧ e.IsFor ∧
      (∀ e' ∈ before, e'.url = e.url) ∧ hopsOf before = 0 ∧ preflightsOf before ≤ 1 ∧
      (e.isPreflight = true → before = []) := by
  cases h with
  | preflight hprep hneed =>
      exact ⟨⟨_, hprep⟩, hprep.isFor rfl rfl, List.forall_mem_nil _, rfl, Nat.zero_le _, fun _ => rfl⟩
  | actual hprep hpass hwritten =>
      obtain ⟨hhops, hpreflights⟩ := hpass.counts
      obtain ⟨author, _, hspec⟩ := hwritten.author
      refine ⟨⟨_, hprep⟩, hprep.isFor rfl (by rw [Exchange.spec, hspec]; rfl), ?_, hhops, hpreflights,
        fun h => by cases h⟩
      intro e' he'
      rw [Exchange.url, hpass.settled e' he']
      rfl

theorem OnTrack.target (h : OnTrack ctx fetcher₀ r) (hanswer : Answered ctx r s response r₁)
    (hfollow : Followed r₁ r' s response to_) :
    to_.Web ∧ (s.request.url.scheme = "https".toList → to_.scheme = "https".toList) := by
  obtain ⟨_, _, hreq, _⟩ := hanswer.sends
  obtain ⟨topHost, hprep⟩ := hreq.prepared
  exact hfollow.target (h.visited hprep).web.scheme hprep.netOrigin

/-- The count of redirects saturates far above the number of hops. -/
theorem redirectCount_succ : ∀ n ≤ MAX_HOPS,
    (if UInt32.ofNat n = 0xFFFFFFFF then UInt32.ofNat n else UInt32.ofNat n + 1) = UInt32.ofNat (n + 1) := by
  decide

theorem redirectedHeaders_sublist (toGet crossOrigin : Bool) (headers : List Header) :
    List.Sublist (redirectedHeaders toGet crossOrigin headers) headers := by
  cases toGet <;> cases crossOrigin
  · exact List.Sublist.refl _
  · exact List.filter_sublist
  · exact List.filter_sublist
  · exact List.filter_sublist.trans List.filter_sublist

theorem OnTrack.next (h : OnTrack ctx fetcher₀ r) (hanswer : Answered ctx r s response r₁)
    (hfollow : Followed r₁ r' s response to_) (status : UInt16) :
    OnTrack ctx fetcher₀ (advance ctx to_ status r').enter := by
  obtain ⟨sent, cache, hreq, hexchanges, jar, hfetcher⟩ := hanswer.sends
  obtain ⟨hhops, hpreflights⟩ := hreq.counts
  have hlength := hanswer.advance_length ctx hfollow status
  have hx : (advance ctx to_ status r').enter.exchanges = r.exchanges ++ sent :=
    hfollow.exchanges.trans hexchanges
  have hf : (advance ctx to_ status r').enter.fetcher = { r.fetcher with preflightCache := cache, jar } :=
    hfollow.fetcher.trans hfetcher
  have hcount : r'.state.redirectCount = UInt32.ofNat (hopsOf r.exchanges) := by
    rw [hfollow.state, hanswer.state]
    exact h.redirects
  have hfew : hopsOf r.exchanges ≤ MAX_HOPS := h.hops.trans_le h.max
  obtain ⟨topHost, hprep⟩ := hreq.prepared
  obtain ⟨hto, hsecure⟩ := h.target hanswer hfollow
  refine ⟨fun _ => hto, ?_, ?_, ?_, ?_, ?_, ?_, hlength.2, ?_, ?_⟩
  · rw [hx]
    intro e he
    rcases List.mem_append.mp he with hold | hnew
    · exact h.past e hold
    · rw [Exchange.url, hreq.settled e hnew]
      exact h.visited hprep
  · rw [hx]
    intro e he hhttps
    refine hsecure ?_
    rcases List.mem_append.mp he with hold | hnew
    · exact hprep.vetted.scheme (h.secure e hold hhttps)
    · rwa [Exchange.url, hreq.settled e hnew] at hhttps
  · intro header hheader
    have hmem := (redirectedHeaders_sublist _ _ _).subset hheader
    rw [hfollow.state, hanswer.state] at hmem
    exact h.headers header hmem
  · rw [hf]
    exact h.psl
  · rw [hf]
    exact h.preload
  · rw [hx, hopsOf_append, hhops, h.hops]
    exact hlength.1.symm
  · rw [hx, hopsOf_append, hhops]
    show (if r'.state.redirectCount = 0xFFFFFFFF then r'.state.redirectCount
      else r'.state.redirectCount + 1) = _
    rw [hcount]
    exact redirectCount_succ _ hfew
  · rw [hx, hopsOf_append, preflightsOf_append, hhops]
    have := h.preflights
    omega

end Pelorus.Secure

/-! # What leaves has passed the policies of the request side

The checks of a hop are made on the URL that it requests, after every upgrade; `Vetted`
has them.  What is left is to see what they say of that URL, and that the hops of a fetch
are as many as its redirects. -/

namespace Pelorus.Secure

open Lib Websec Websec.Cors
open Net hiding Origin

variable {W : Type}

/-! ## One request -/

/-- What the request side asks of a URL, after so many redirects. -/
structure PassesPolicies (ctx : FetchContext) (preload : Option PreloadList) (redirects : Nat) (url : Url) :
    Prop where
  web : isWeb url = true
  clean : url.hasCredentials = false
  hsts : url.scheme = "http".toList → (preload.any fun list =>
    url.host.any fun host => list.requiresHttps host.serialize) = false
  mixed : ctx.destination.mixedKind.isSome = true → ctx.document.prohibitsMixed = true →
    ∀ fresh, Mixed.isUrlPotentiallyTrustworthy fresh url = true
  csp : AllowedByCsp ctx url (UInt32.ofNat redirects)

theorem trustworthy_of_https {url : Url} (h : url.Web) (hs : url.scheme = "https".toList) (fresh : UInt64) :
    Mixed.isUrlPotentiallyTrustworthy fresh url = true := by
  obtain ⟨host, _, horigin⟩ := h.origin fresh
  rw [Mixed.isUrlPotentiallyTrustworthy_of_web h.scheme, horigin, hs]
  rfl

/-- The checks of a hop say of the URL it requests what is asked of it. -/
theorem Vetted.passes {ctx : FetchContext} {fetcher : SecureFetcher} {fresh : UInt64} {state : HopState}
    {url : Url} (h : Vetted ctx fetcher fresh state url)
    (hweb : isWebScheme state.url.scheme → state.url.Web) {redirects : Nat}
    (hcount : state.redirectCount = UInt32.ofNat redirects) :
    PassesPolicies ctx fetcher.preload redirects url := by
  have hvisited := h.visited hweb
  refine ⟨isWeb_iff.mpr hvisited.web.scheme, hvisited.clean, ?_, ?_, hcount ▸ h.allowed⟩
  · intro hhttp
    exact (h.fixed (by rw [hhttp]; decide)).hsts hhttp
  · intro hkind hprohibits fresh'
    by_cases hs : url.scheme = "https".toList
    · exact trustworthy_of_https hvisited.web hs fresh'
    · have hmixed := (h.fixed hs).mixed
      obtain ⟨kind, hkind⟩ := Option.isSome_iff_exists.mp hkind
      unfold mixedVerdict at hmixed
      rw [hkind] at hmixed
      have htrust := Mixed.checkRequest_allow_iff.mp hmixed hprohibits
      rw [Mixed.isUrlPotentiallyTrustworthy_of_web hvisited.web.scheme] at htrust ⊢
      rwa [hvisited.web.origin_fresh fresh' fresh]

/-! ## Every request -/

/-- What every request of a fetch has to pass, after those before it. -/
structure Leaves (ctx : FetchContext) (preload : Option PreloadList) (before : List Exchange) (e : Exchange) :
    Prop where
  passes : PassesPolicies ctx preload (hopsOf before) e.url
  isFor : e.IsFor
  secure : ∀ e' ∈ before, e'.url.scheme = "https".toList → e.url.scheme = "https".toList
  hops : hopsOf before ≤ MAX_HOPS
  preflights : e.isPreflight = true → preflightsOf before ≤ MAX_HOPS

variable (digest : Sri.Algorithm → Bytes → Bytes) (ctx : FetchContext) (T : Transport W)
  (session : Session W) (url : Text)

theorem fetch_each_onTrack {P : List Exchange → Exchange → Prop}
    (hsent : ∀ (r : Run W) before e, OnTrack ctx session.fetcher r → SentBy ctx r before e →
      P (r.exchanges ++ before) e) :
    EachAfter P (fetch ctx T digest session url).exchanges :=
  fetch_each (I := OnTrack ctx session.fetcher) (fun _ hparse hheaders => OnTrack.start hparse hheaders)
    (fun _ _ _ _ _ status _ htrack _ hanswer hfollow => htrack.next hanswer hfollow status)
    fun r before e htrack _ h => hsent r before e htrack h

theorem fetch_leaves :
    EachAfter (Leaves ctx session.fetcher.preload) (fetch ctx T digest session url).exchanges := by
  refine fetch_each_onTrack digest ctx T session url fun r before e htrack hsent => ?_
  obtain ⟨⟨topHost, hprep⟩, hfor, hsame, hhops, hpreflights, hfirst⟩ := hsent.settled
  have hcount : hopsOf (r.exchanges ++ before) = hopsOf r.exchanges := by rw [hopsOf_append, hhops]; rfl
  have hfew : hopsOf r.exchanges ≤ MAX_HOPS := htrack.hops.trans_le htrack.max
  refine ⟨?_, hfor, ?_, ?_, ?_⟩
  · rw [hcount, ← htrack.preload]
    exact hprep.vetted.passes htrack.web htrack.redirects
  · intro e' he' hhttps
    rcases List.mem_append.mp he' with hold | hnew
    · exact hprep.vetted.scheme (htrack.secure e' hold hhttps)
    · rwa [← hsame e' hnew]
  · rw [hcount]
    exact hfew
  · intro hpre
    rw [hfirst hpre, List.append_nil]
    exact Nat.le_trans htrack.preflights hfew

theorem fetch_ends :
    (fetch ctx T digest session url).out.response.isSome = true ↔
      (fetch ctx T digest session url).out.enforced = [] ∧ (fetch ctx T digest session url).out.error = none := by
  have hrefused : ∀ out : FetchOutcome, out.Refused →
      (out.response.isSome = true ↔ out.enforced = [] ∧ out.error = none) := by
    intro out h
    rw [h.response]
    constructor
    · intro hsome
      cases hsome
    · rintro ⟨henforced, herror⟩
      rcases h.why with h | h
      · exact absurd herror h
      · exact absurd henforced h
  refine fetch_rule ctx T digest (Q := fun f => f.out.response.isSome = true ↔
    f.out.enforced = [] ∧ f.out.error = none) ?_ fun out hout => hrefused out hout
  intro start hparse hheaders r hr
  subst hr
  refine fetchLoop_rule ctx T digest (P := fun _ => True)
    (Q := fun r => r.out.response.isSome = true ↔ r.out.enforced = [] ∧ r.out.error = none)
    (fun _ _ _ _ _ _ _ _ _ _ => trivial) ?_ ?_ _ _ trivial FetchOutcome.open_new (Nat.zero_le _)
    (Nat.lt_succ_self _)
  · intro r s response r₁ r' _ hanswer hfinish
    rw [hfinish.response, hfinish.enforced, hfinish.error]
    simp
  · intro r r' _ hrefuse
    exact hrefused r'.out hrefuse.refused

/-- Every request that leaves has passed every policy of the request side, on every hop. -/
theorem requests_pass_policies :
    EachAfter (fun before e => PassesPolicies ctx session.fetcher.preload (hopsOf before) e.url ∧ e.IsFor ∧
        ∀ e' ∈ before, e'.url.scheme = "https".toList → e.url.scheme = "https".toList)
      (fetch ctx T digest session url).exchanges ∧
    hopsOf (fetch ctx T digest session url).exchanges ≤ MAX_HOPS + 1 ∧
    preflightsOf (fetch ctx T digest session url).exchanges ≤ MAX_HOPS + 1 ∧
    ((fetch ctx T digest session url).out.response.isSome = true ↔
      (fetch ctx T digest session url).out.enforced = [] ∧
        (fetch ctx T digest session url).out.error = none) := by
  have hleaves := fetch_leaves digest ctx T session url
  refine ⟨hleaves.mono fun before e h => ⟨h.passes, h.isFor, h.secure⟩, ?_, ?_, fetch_ends digest ctx T session url⟩
  · exact EachAfter.countP_le (hleaves.mono fun before e h _ => h.hops)
  · exact EachAfter.countP_le (hleaves.mono fun before e h hpre => h.preflights hpre)

end Pelorus.Secure
