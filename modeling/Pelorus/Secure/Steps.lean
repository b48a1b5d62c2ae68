import Pelorus.Lib.EarlyExit
import Pelorus.Secure.Fetch

/-
  Secure/Steps.lean --- what each step of a hop can do.

  ONE LEMMA A STEP says what holds where the step goes on and what holds where it ends the
  fetch; `hop_cases` puts them together.  Nothing after this file unfolds a step.

  A fetch is OPEN until it has a response, a failure or an enforced refusal, and it is
  REFUSED when it has one of the last two and no response.
-/
set_option autoImplicit false

namespace Pelorus.Secure

open Lib Websec Websec.Cors
open Net hiding Origin

variable {W : Type}

/-! ## Outcomes -/

namespace FetchOutcome

/-- Nothing is decided. -/
structure Open (out : FetchOutcome) : Prop where
  response : out.response = none
  error : out.error = none
  enforced : out.enforced = []

/-- The fetch is over and has no response. -/
structure Refused (out : FetchOutcome) : Prop where
  response : out.response = none
  why : out.error ≠ none ∨ out.enforced ≠ []

theorem open_new : Open new := ⟨rfl, rfl, rfl⟩

theorem Open.deny {out : FetchOutcome} (h : out.Open) (point : Text) (kind : ViolationKind) (url : Url) :
    (out.deny point kind url).Refused where
  response := h.response
  why := by
    refine Or.inr ?_
    simp [FetchOutcome.deny, FetchOutcome.enforced]

/-- Observations of report-only policies decide nothing. -/
theorem Open.report {out : FetchOutcome} (h : out.Open) {vs : List Violation}
    (hvs : ∀ v ∈ vs, v.enforced = false) : { out with violations := out.violations ++ vs }.Open where
  response := h.response
  error := h.error
  enforced := by
    have h' : out.violations.filter (fun v => v.enforced) = [] := h.enforced
    have hvs' : vs.filter (fun v => v.enforced) = [] := List.filter_eq_nil_iff.mpr (by simpa using hvs)
    simp [FetchOutcome.enforced, h', hvs']

end FetchOutcome

/-- The fetch is over without a response; what lasts and what was sent are as they were. -/
structure Stopped (r r' : Run W) : Prop where
  refused : r'.out.Refused
  fetcher : r'.fetcher = r.fetcher
  exchanges : r'.exchanges = r.exchanges

theorem Stopped.deny {r : Run W} (h : r.out.Open) (point : Text) (kind : ViolationKind) (url : Url) :
    Stopped r (r.deny point kind url) := ⟨h.deny point kind url, rfl, rfl⟩

/-! ## Steps 0 to 5 -/

section
variable (ctx : FetchContext)

/-- Where steps 1 to 3 leave a URL: as it was, or in its https form. -/
def Upgrades (url url' : Url) : Prop := url' = url ∨ url.upgradedToHttps = some url'

/-- A URL that steps 1 to 3 leave as it is. -/
structure Fixed (preload : Option PreloadList) (fresh : UInt64) (url : Url) : Prop where
  hsts : url.scheme = "http".toList → (preload.any fun list =>
    url.host.any fun host => list.requiresHttps host.serialize) = false
  csp : url.scheme = "http".toList → cspUpgrades ctx fresh url = false
  mixed : mixedVerdict ctx fresh url = .allow

/-- What every enforced policy of the document says of a URL, at a hop. -/
def AllowedByCsp (url : Url) (redirectCount : UInt32) : Prop :=
  ∃ cu, Csp.CspUrl.parse (url.serialize true) = some cu ∧
    (∀ p ∈ ctx.csp.policies, p.disposition = .enforce →
      Csp.blocksMixedContent p cu (Coop.isSecureContext ctx.nodes) = .allowed) ∧
    ∀ kind, ctx.destination.cspKind = some kind → ∀ p ∈ ctx.csp.policies, p.disposition = .enforce →
      Csp.checkRequest p kind cu (cspOriginOf ctx.initiator) (requestOptions ctx redirectCount) = .allowed

/-- The URL of a hop has passed steps 0 to 5. -/
structure Vetted (fetcher : SecureFetcher) (fresh : UInt64) (state : HopState) (url : Url) : Prop where
  web : isWeb state.url = true
  clean : state.url.hasCredentials = false
  upgrades : Upgrades state.url url
  fixed : url.scheme ≠ "https".toList → Fixed ctx fetcher.preload fresh url
  same : Fixed ctx fetcher.preload fresh state.url → url = state.url
  allowed : AllowedByCsp ctx url state.redirectCount

variable {r r' : Run W} {url : Url} {s : Settled}

theorem checkSyntax_spec (ho : r.out.Open) :
    Ends (checkSyntax ctx r)
      (fun topHost => isWeb r.state.url = true ∧ r.state.url.hasCredentials = false ∧
        ∃ host, ctx.topLevel.host? = some host ∧ topHost = host.serialize)
      (Stopped r) := by
  simp only [checkSyntax]
  split
  · exact .error (Stopped.deny ho ..)
  · rename_i hurl
    simp only [Bool.or_eq_true, not_or, Bool.not_eq_true, Bool.not_eq_false'] at hurl
    split
    · rename_i host hhost
      exact .ok ⟨hurl.1, hurl.2, host, hhost, rfl⟩
    · exact .error (Stopped.deny ho ..)

theorem upgraded_of_http (h : url.scheme = "http".toList) : url.upgradedToHttps = some (upgraded url) := by
  unfold upgraded Url.upgradedToHttps
  simp [h]

theorem upgraded_scheme (h : url.scheme = "http".toList) : (upgraded url).scheme = "https".toList := by
  unfold upgraded Url.upgradedToHttps
  simp [h]

theorem scheme_of_upgraded {url' : Url} (h : url.upgradedToHttps = some url') :
    url'.scheme = "https".toList := by
  unfold Url.upgradedToHttps at h
  split at h
  · cases h
  · cases h
    rfl

theorem open_noteUpgrade (ho : r.out.Open) (url : Url) : (r.noteUpgrade url).out.Open := by
  unfold Run.noteUpgrade
  split
  · exact ⟨ho.response, ho.error, ho.enforced⟩
  · exact ho

/-- What a run keeps while its URL is chosen and checked. -/
structure Chosen (r : Run W) (url : Url) (r' : Run W) : Prop where
  isOpen : r'.out.Open
  urls : r'.out.urls = r.out.urls.dropLast ++ (if r.out.urls.isEmpty then [] else [url])
  eq : r' = { r with state := { r.state with url }, out := r'.out }

theorem noteUpgrade_eq (r : Run W) (url : Url) :
    r.noteUpgrade url = { r with out := (r.noteUpgrade url).out } := by
  unfold Run.noteUpgrade
  split <;> rfl

theorem noteUpgrade_urls (r : Run W) (url : Url) : (r.noteUpgrade url).out.urls = r.out.urls := by
  unfold Run.noteUpgrade
  split <;> rfl

theorem noteUpgrade_nextOpaque (r : Run W) (url : Url) : (r.noteUpgrade url).nextOpaque = r.nextOpaque := by
  unfold Run.noteUpgrade
  split <;> rfl

/-- Settling the URL after any notes of upgrades. -/
theorem chosen_settleUrl (ho : r'.out.Open) (hurls : r'.out.urls = r.out.urls)
    (heq : r' = { r with out := r'.out }) (url : Url) : Chosen r url (r'.settleUrl url) where
  isOpen := ⟨ho.response, ho.error, ho.enforced⟩
  urls := by simp [Run.settleUrl, hurls]
  eq := by
    rw [heq]
    rfl

/-- Steps 1 and 2 leave an https URL alone, and any other in its https form or fixed. -/
theorem firstUpgrades (fetcher : SecureFetcher) (fresh : UInt64) (url : Url) :
    let url' := cspUpgrade ctx fresh (hstsUpgrade fetcher.preload url)
    url' = url ∧ (url.scheme = "http".toList →
        (fetcher.preload.any fun list => url.host.any fun host => list.requiresHttps host.serialize) = false ∧
          cspUpgrades ctx fresh url = false) ∨
      url.upgradedToHttps = some url' ∧ ¬ Fixed ctx fetcher.preload fresh url := by
  intro url'
  by_cases hs : url.scheme = "http".toList
  · by_cases hh : (fetcher.preload.any fun list =>
        url.host.any fun host => list.requiresHttps host.serialize) = true
    · have h1 : hstsUpgrade fetcher.preload url = upgraded url := if_pos ⟨hs, hh⟩
      have h2 : url' = upgraded url := by
        show cspUpgrade ctx fresh (hstsUpgrade fetcher.preload url) = _
        rw [h1, cspUpgrade, if_neg (by simp [upgraded_scheme hs])]
      refine Or.inr ⟨h2 ▸ upgraded_of_http hs, fun hfixed => ?_⟩
      rw [hfixed.hsts hs] at hh
      cases hh
    · have h1 : hstsUpgrade fetcher.preload url = url := if_neg fun hc => hh hc.2
      by_cases hc : cspUpgrades ctx fresh url = true
      · have h2 : url' = upgraded url := by
          show cspUpgrade ctx fresh (hstsUpgrade fetcher.preload url) = _
          rw [h1]
          exact if_pos ⟨hs, hc⟩
        refine Or.inr ⟨h2 ▸ upgraded_of_http hs, fun hfixed => ?_⟩
        rw [hfixed.csp hs] at hc
        cases hc
      · have h2 : url' = url := by
          show cspUpgrade ctx fresh (hstsUpgrade fetcher.preload url) = _
          rw [h1]
          exact if_neg fun hc' => hc hc'.2
        exact Or.inl ⟨h2, fun _ => ⟨by simpa using hh, by simpa using hc⟩⟩
  · have h1 : hstsUpgrade fetcher.preload url = url := if_neg fun hc => hs hc.1
    have h2 : url' = url := by
      show cspUpgrade ctx fresh (hstsUpgrade fetcher.preload url) = _
      rw [h1]
      exact if_neg fun hc => hs hc.1
    exact Or.inl ⟨h2, fun hc => absurd hc hs⟩

theorem chooseUrl_spec (ho : r.out.Open) :
    Ends (chooseUrl ctx r)
      (fun p => Upgrades r.state.url p.1 ∧
        (p.1.scheme ≠ "https".toList → Fixed ctx r.fetcher.preload r.nextOpaque p.1) ∧
        (Fixed ctx r.fetcher.preload r.nextOpaque r.state.url → p.1 = r.state.url) ∧ Chosen r p.1 p.2)
      (Stopped r) := by
  have hfirst := firstUpgrades ctx r.fetcher r.nextOpaque r.state.url
  simp only [chooseUrl, noteUpgrade_nextOpaque]
  generalize cspUpgrade ctx r.nextOpaque (hstsUpgrade r.fetcher.preload r.state.url) = url at hfirst ⊢
  have hnote : (r.noteUpgrade url).out.Open := open_noteUpgrade ho url
  have hurls := noteUpgrade_urls r url
  have heq := noteUpgrade_eq r url
  cases hv : mixedVerdict ctx r.nextOpaque url with
  | allow =>
      refine Ends.ok ?_
      refine ⟨?_, ?_, ?_, chosen_settleUrl hnote hurls heq url⟩
      · rcases hfirst with ⟨h, _⟩ | ⟨h, _⟩
        · exact Or.inl h
        · exact Or.inr h
      · intro hne
        rcases hfirst with ⟨rfl, h⟩ | ⟨h, _⟩
        · exact ⟨fun hs => (h hs).1, fun hs => (h hs).2, hv⟩
        · exact absurd (scheme_of_upgraded h) hne
      · intro hfixed
        rcases hfirst with ⟨h, _⟩ | ⟨_, h⟩
        · exact h
        · exact absurd hfixed h
  | upgrade u =>
      have hu : url.upgradedToHttps = some u := by
        unfold mixedVerdict at hv
        split at hv
        · exact Mixed.checkRequest_upgrade hv
        · cases hv
      have hhttp : url.scheme = "http".toList := by
        unfold Url.upgradedToHttps at hu
        split at hu
        · cases hu
        · rename_i hs
          exact not_not.mp hs
      refine Ends.ok ?_
      refine ⟨?_, fun hne => absurd (scheme_of_upgraded hu) hne, ?_, ?_⟩
      · rcases hfirst with ⟨rfl, _⟩ | ⟨h, _⟩
        · exact Or.inr hu
        · exact absurd (hhttp.symm.trans (scheme_of_upgraded h)) (by decide)
      · intro hfixed
        rcases hfirst with ⟨rfl, _⟩ | ⟨_, h⟩
        · rw [hfixed.mixed] at hv
          cases hv
        · exact absurd hfixed h
      · refine chosen_settleUrl (open_noteUpgrade hnote u) ?_ ?_ u
        · rw [noteUpgrade_urls, hurls]
        · rw [noteUpgrade_eq, heq]
  | block =>
      refine Ends.error ?_
      refine ⟨hnote.deny .., ?_, ?_⟩
      · rw [heq]
        rfl
      · rw [heq]
        rfl

theorem reportsOf_enforced {verdict : Csp.Verdict} : ∀ v ∈ reportsOf url verdict, v.enforced = false := by
  intro v hv
  obtain ⟨_, _, rfl⟩ := List.mem_map.mp hv
  rfl

theorem checkCsp_spec (ho : r.out.Open) (url : Url) :
    Ends (checkCsp ctx url r)
      (fun r' => AllowedByCsp ctx url r.state.redirectCount ∧ r'.out.Open ∧ r'.out.urls = r.out.urls ∧
        r' = { r with out := r'.out })
      (Stopped r) := by
  unfold checkCsp
  cases hcu : Csp.CspUrl.parse (url.serialize true) with
  | none => exact Ends.error (Stopped.deny ho ..)
  | some cu =>
      simp only
      split
      · exact Ends.error (Stopped.deny ho ..)
      · rename_i hmixed
        have hmixed' : (ctx.csp.checkMixedContent cu (Coop.isSecureContext ctx.nodes)).blocked = none := by
          simpa [Csp.Verdict.isBlocked] using hmixed
        cases hkind : ctx.destination.cspKind with
        | none =>
            refine Ends.ok ?_
            refine ⟨⟨cu, hcu, Csp.PolicySet.evaluate_blocked.mp hmixed', ?_⟩, ho, rfl, rfl⟩
            intro kind hk
            rw [hkind] at hk
            cases hk
        | some kind =>
            simp only
            split
            · refine Ends.error ?_
              refine ⟨?_, rfl, rfl⟩
              exact (ho.report reportsOf_enforced).deny ..
            · rename_i hblocked
              refine Ends.ok ?_
              refine ⟨⟨cu, hcu, Csp.PolicySet.evaluate_blocked.mp hmixed', ?_⟩,
                ho.report reportsOf_enforced, rfl, rfl⟩
              intro kind' hk
              rw [hkind] at hk
              cases hk
              exact Csp.PolicySet.evaluate_blocked.mp hblocked

/-! ## Step 6 -/

theorem partitionKey_spec (ho : r.out.Open) (topHost : Text) (url : Url) :
    Ends (partitionKey topHost url r)
      (fun key => ∃ origin, netOrigin url = some origin ∧
        PartitionKey.new r.fetcher.psl topHost origin = some key)
      (Stopped r) := by
  unfold partitionKey
  split
  · rename_i key hkey
    exact Ends.ok (Option.bind_eq_some_iff.mp hkey)
  · exact Ends.error (Stopped.deny ho ..)

theorem settle_spec (ho : r.out.Open) (key : PartitionKey) (url : Url) :
    Ends (settle ctx key url r)
      (fun p => p.1.request = corsRequest ctx url r.state ∧ taint r.nextOpaque p.1.request = .ok p.1.taint ∧
        p.1.redirectCount = r.state.redirectCount ∧ p.1.policy = hopPolicy ctx r.state ∧ p.1.key = key ∧
        p.2.out.Open ∧ p.2.out.urls = r.out.urls ∧ p.2 = { r with out := p.2.out })
      (Stopped r) := by
  simp only [settle]
  split
  · exact Ends.error (Stopped.deny ho ..)
  · rename_i t ht
    exact Ends.ok ⟨rfl, ht, rfl, rfl, rfl, ⟨ho.response, ho.error, ho.enforced⟩, rfl, rfl⟩

/-- What a hop has when it comes to send. -/
structure Prepared (r : Run W) (topHost : Text) (s : Settled) : Prop where
  host : ∃ host, ctx.topLevel.host? = some host ∧ topHost = host.serialize
  vetted : Vetted ctx r.fetcher r.nextOpaque r.state s.request.url
  key : ∃ origin, netOrigin s.request.url = some origin ∧
    PartitionKey.new r.fetcher.psl topHost origin = some s.key
  request : s.request = corsRequest ctx s.request.url r.state
  taint : Cors.taint r.nextOpaque s.request = .ok s.taint
  redirectCount : s.redirectCount = r.state.redirectCount
  policy : s.policy = hopPolicy ctx r.state

theorem prepare_spec (ho : r.out.Open) :
    Ends (prepare ctx r)
      (fun p => Prepared ctx r p.1 p.2.1 ∧ Chosen r p.2.1.request.url p.2.2) (Stopped r) := by
  unfold prepare
  refine (checkSyntax_spec ctx ho).bind ?_
  rintro topHost ⟨hweb, hclean, htop⟩
  refine (chooseUrl_spec ctx ho).bind ?_
  rintro ⟨url, r₁⟩ ⟨hup, hfixed, hsame, hchosen⟩
  dsimp only at hup hfixed hsame hchosen ⊢
  have hstop : ∀ r', Stopped r₁ r' → Stopped r r' := by
    intro r' h
    refine ⟨h.refused, ?_, ?_⟩
    · rw [h.fetcher, hchosen.eq]
    · rw [h.exchanges, hchosen.eq]
  refine ((checkCsp_spec ctx hchosen.isOpen url).mono (fun _ h => h) hstop).bind ?_
  rintro r₂ ⟨hcsp, ho₂, hurls₂, heq₂⟩
  have hstop₂ : ∀ r', Stopped r₂ r' → Stopped r r' := by
    intro r' h
    refine hstop r' ⟨h.refused, ?_, ?_⟩
    · rw [h.fetcher, heq₂]
    · rw [h.exchanges, heq₂]
  refine ((partitionKey_spec ho₂ topHost url).mono (fun _ h => h) hstop₂).bind ?_
  rintro key hkey
  refine ((settle_spec ctx ho₂ key url).mono (fun _ h => h) hstop₂).bind ?_
  rintro ⟨s, r₃⟩ ⟨hreq, htaint, hcount, hpolicy, hk, ho₃, hurls₃, heq₃⟩
  dsimp only at hreq htaint hcount hpolicy hk ho₃ hurls₃ heq₃ ⊢
  have hurl : s.request.url = url := by rw [hreq]; rfl
  have hstate : r₂.state = { r.state with url } := by rw [heq₂, hchosen.eq]
  have hcarry : r₂.fetcher = r.fetcher ∧ r₂.nextOpaque = r.nextOpaque := by
    rw [heq₂, hchosen.eq]
    exact ⟨rfl, rfl⟩
  have hcount₁ : r₁.state.redirectCount = r.state.redirectCount := by rw [hchosen.eq]
  apply Ends.ok
  refine ⟨⟨htop, ⟨hweb, hclean, hurl ▸ hup, hurl ▸ hfixed, hurl ▸ hsame, ?_⟩, ?_, ?_, ?_, ?_, ?_⟩, ho₃, ?_, ?_⟩
  · rw [hurl, ← hcount₁]
    exact hcsp
  · subst hk
    rw [hurl, ← hcarry.1]
    exact hkey
  · rw [hurl, hreq, hstate]
    rfl
  · rw [← hcarry.2]
    exact htaint
  · show s.redirectCount = _
    rw [hcount, hstate]
  · show s.policy = _
    rw [hpolicy, hstate]
    rfl
  · show r₃.out.urls = _
    rw [hurls₃, hurls₂, hchosen.urls, hurl]
  · show r₃ = _
    rw [heq₃, heq₂, hchosen.eq, hurl]

/-! ## Step 7 -/

/-- What a step that sends has in common with the run before it. -/
structure Carried (r r' : Run W) (fetcher : SecureFetcher) (sent : List Exchange) : Prop where
  state : r'.state = r.state
  chain : r'.chain = r.chain
  nextOpaque : r'.nextOpaque = r.nextOpaque
  urls : r'.out.urls = r.out.urls
  fetcher : r'.fetcher = fetcher
  exchanges : r'.exchanges = r.exchanges ++ sent

/-- The ways past the preflight. -/
inductive Passed (fetcher : SecureFetcher) (fresh : UInt64) (s : Settled) :
    Clearance → SecureFetcher → List Exchange → Prop where
  | simple (hneed : needsPreflight ctx s = false) : Passed fetcher fresh s .simple fetcher []
  | cached (now : Nat) (hneed : needsPreflight ctx s = true)
      (hcovers : fetcher.preflightCache.covers s.key.display s.request now = true) :
      Passed fetcher fresh s (.cached fetcher.preflightCache now) fetcher []
  | granted (now : Nat) (response : Response) (grant : PreflightGrant) (hneed : needsPreflight ctx s = true)
      (hvalid : validatePreflight s.request (corsResponse response) = .ok grant) :
      Passed fetcher fresh s (.granted grant now)
        { fetcher with
          preflightCache := fetcher.preflightCache.store s.key.display s.request grant now }
        [.preflight s (preflightSpec ctx fresh s) (.ok response)]

/-- The fetch is over and these requests were the last it sent. -/
structure Ended (r r' : Run W) (sent : List Exchange) : Prop where
  refused : r'.out.Refused
  fetcher : r'.fetcher = r.fetcher
  exchanges : r'.exchanges = r.exchanges ++ sent

variable (T : Transport W)

theorem preflight_spec {r : Run W} (ho : r.out.Open) {s : Settled} (hneed : needsPreflight ctx s = true) :
    Ends (preflight ctx T s r)
      (fun p => ∃ fetcher sent, Passed ctx r.fetcher r.nextOpaque s p.1 fetcher sent ∧
        p.2.out.Open ∧ Carried r p.2 fetcher sent)
      (fun r' => ∃ answer, Ended r r' [.preflight s (preflightSpec ctx r.nextOpaque s) answer]) := by
  unfold preflight
  rcases hans : T.fetchRequest r.world s.key (preflightSpec ctx r.nextOpaque s) with ⟨answer, world⟩
  simp only [hans]
  cases answer with
  | error e =>
      apply Ends.error
      exact ⟨.error e, ⟨ho.response, Or.inl (by simp)⟩, rfl, rfl⟩
  | ok response =>
      simp only
      split
      · rename_i e he
        apply Ends.error
        have hsent : { r.out with preflightsSent := r.out.preflightsSent + 1 }.Open :=
          ⟨ho.response, ho.error, ho.enforced⟩
        exact ⟨.ok response, hsent.deny .., rfl, rfl⟩
      · rename_i grant hgrant
        apply Ends.ok
        exact ⟨_, _, .granted _ response grant hneed hgrant, ⟨ho.response, ho.error, ho.enforced⟩,
          rfl, rfl, rfl, rfl, rfl, rfl⟩

theorem clear_spec (ho : r.out.Open) (s : Settled) :
    Ends (clear ctx T s r)
      (fun p => ∃ fetcher sent, Passed ctx r.fetcher r.nextOpaque s p.1 fetcher sent ∧
        p.2.out.Open ∧ Carried r p.2 fetcher sent)
      (fun r' => needsPreflight ctx s = true ∧
        ∃ answer, Ended r r' [.preflight s (preflightSpec ctx r.nextOpaque s) answer]) := by
  simp only [clear]
  split
  · rename_i hneed
    split
    · rename_i hcovers
      apply Ends.ok
      exact ⟨_, [], .cached _ hneed hcovers, ⟨ho.response, ho.error, ho.enforced⟩,
        rfl, rfl, rfl, rfl, rfl, (List.append_nil _).symm⟩
    · refine (preflight_spec ctx T (r := { r with world := (T.now r.world).2 }) ho hneed).mono ?_ ?_
      · rintro ⟨c, r'⟩ ⟨fetcher, sent, hpass, ho', hc⟩
        exact ⟨fetcher, sent, hpass, ho', hc.state, hc.chain, hc.nextOpaque, hc.urls, hc.fetcher, hc.exchanges⟩
      · rintro r' ⟨answer, hend⟩
        exact ⟨hneed, answer, hend.refused, hend.fetcher, hend.exchanges⟩
  · rename_i hneed
    apply Ends.ok
    exact ⟨_, [], .simple (by simpa using hneed), ho, rfl, rfl, rfl, rfl, rfl, (List.append_nil _).symm⟩

/-! ## Steps 8 and 9 -/

/-- A request as step 8 makes it. -/
structure Written (fetcher : SecureFetcher) (fresh : UInt64) (state : HopState) (s : Settled)
    (read : Option Instant) (spec : RequestSpec) : Prop where
  credentials : read.isSome = sendsCredentials ctx s
  author : ∃ author, authorLines state.headers = some author ∧
    spec = actualSpec ctx fetcher fresh state s read author

/-- The jar after calls of `store` for one key, each of a line at a time. -/
def storeAll (psl : PublicSuffixList) (key : PartitionKey) (calls : List (Text × Instant)) (jar : Jar) : Jar :=
  calls.foldl (fun jar call => (jar.store psl key call.1 call.2).2) jar

/-- The `Set-Cookie` lines of a response. -/
def setCookieLines (response : Response) : List Text :=
  (headerStrs (corsHeaders response) "set-cookie".toList).getD []

/-- The calls of `store` lead from one jar to another, over these requests. -/
inductive JarTrail (psl : PublicSuffixList) : Jar → List Exchange → Jar → Prop where
  | nil (jar : Jar) : JarTrail psl jar [] jar
  | preflight {jar jar' : Jar} {s : Settled} {spec : RequestSpec} {answer : Except FetchError Response}
      {exchanges : List Exchange} (h : JarTrail psl jar exchanges jar') :
      JarTrail psl jar (.preflight s spec answer :: exchanges) jar'
  | failed {jar jar' : Jar} {s : Settled} {clearance : Clearance} {read : Option Instant} {spec : RequestSpec}
      {e : FetchError} {exchanges : List Exchange} (h : JarTrail psl jar exchanges jar') :
      JarTrail psl jar (.actual s clearance jar read spec (.error e) :: exchanges) jar'
  | answered {jar jar' : Jar} {s : Settled} {clearance : Clearance} {read : Option Instant} {spec : RequestSpec}
      {response : Response} {exchanges : List Exchange} (calls : List (Text × Instant))
      (hcalls : calls.map Prod.fst = if read.isSome then setCookieLines response else [])
      (h : JarTrail psl (storeAll psl s.key calls jar) exchanges jar') :
      JarTrail psl jar (.actual s clearance jar read spec (.ok response) :: exchanges) jar'

theorem JarTrail.append {psl : PublicSuffixList} {jar jar' jar'' : Jar} {xs ys : List Exchange}
    (hx : JarTrail psl jar xs jar') (hy : JarTrail psl jar' ys jar'') : JarTrail psl jar (xs ++ ys) jar'' := by
  induction hx with
  | nil jar => exact hy
  | preflight _ ih => exact .preflight (ih hy)
  | failed _ ih => exact .failed (ih hy)
  | answered calls hcalls _ ih => exact .answered calls hcalls (ih hy)

theorem storeCookies_carried (s : Settled) : ∀ (lines : List Text) (r : Run W),
    ∃ calls, calls.map Prod.fst = lines ∧
      Carried r (storeCookies T s lines r)
        { r.fetcher with jar := storeAll r.fetcher.psl s.key calls r.fetcher.jar } [] ∧
      (storeCookies T s lines r).out = r.out
  | [], r => ⟨[], rfl, ⟨rfl, rfl, rfl, rfl, rfl, (List.append_nil _).symm⟩, rfl⟩
  | line :: lines, r => by
      simp only [storeCookies]
      obtain ⟨calls, hcalls, hc, hout⟩ := storeCookies_carried s lines
        { r with
          world := (T.now r.world).2
          fetcher := { r.fetcher with
            jar := (r.fetcher.jar.store r.fetcher.psl s.key line (T.now r.world).1).2 } }
      refine ⟨(line, (T.now r.world).1) :: calls, by rw [List.map_cons, hcalls], ?_, hout⟩
      exact ⟨hc.state, hc.chain, hc.nextOpaque, hc.urls, hc.fetcher, hc.exchanges⟩

theorem readForCookies_spec (s : Settled) (r : Run W) :
    (readForCookies ctx T s r).1.isSome = sendsCredentials ctx s ∧
      ∃ world, (readForCookies ctx T s r).2 = { r with world } := by
  unfold readForCookies
  split
  · rename_i h
    exact ⟨by simp [h], _, rfl⟩
  · rename_i h
    exact ⟨by simpa using h, r.world, rfl⟩

theorem send_spec (ho : r.out.Open) (s : Settled) (clearance : Clearance) :
    Ends (send ctx T s clearance r)
      (fun p => ∃ read spec calls, Written ctx r.fetcher r.nextOpaque r.state s read spec ∧ p.2.out.Open ∧
        calls.map Prod.fst = (if read.isSome then setCookieLines p.1 else []) ∧
        Carried r p.2 { r.fetcher with jar := storeAll r.fetcher.psl s.key calls r.fetcher.jar }
          [.actual s clearance r.fetcher.jar read spec (.ok p.1)])
      (fun r' => Stopped r r' ∨ ∃ read spec e, Written ctx r.fetcher r.nextOpaque r.state s read spec ∧
        Ended r r' [.actual s clearance r.fetcher.jar read spec (.error e)]) := by
  simp only [send]
  split
  · exact Ends.error (Or.inl (Stopped.deny ho ..))
  · rename_i author hauthor
    obtain ⟨hread, world₁, hworld⟩ := readForCookies_spec ctx T s r
    generalize (readForCookies ctx T s r).1 = read at hread ⊢
    rw [hworld]
    have hwritten : Written ctx r.fetcher r.nextOpaque r.state s read
        (actualSpec ctx r.fetcher r.nextOpaque r.state s read author) := ⟨hread, author, hauthor, rfl⟩
    rcases hans : T.fetchRequest world₁ s.key
        (actualSpec ctx r.fetcher r.nextOpaque r.state s read author) with ⟨answer, world₂⟩
    simp only [hans]
    cases answer with
    | error e =>
        apply Ends.error
        exact Or.inr ⟨read, _, e, hwritten, ⟨ho.response, Or.inl (by simp)⟩, rfl, rfl⟩
    | ok response =>
        apply Ends.ok
        simp only
        split
        · rename_i hsends
          obtain ⟨calls, hcalls, hc, hout⟩ := storeCookies_carried T s
            ((headerStrs (corsHeaders response) "set-cookie".toList).getD [])
            { r with
              world := world₂
              exchanges := r.exchanges ++ [Exchange.actual s clearance r.fetcher.jar read
                (actualSpec ctx r.fetcher r.nextOpaque r.state s read author) (.ok response)] }
          refine ⟨read, _, calls, hwritten, ?_, ?_, hc.state, hc.chain, hc.nextOpaque, hc.urls, hc.fetcher, ?_⟩
          · rw [hout]
            exact ho
          · rw [hread, if_pos hsends]
            exact hcalls
          · rw [hc.exchanges, List.append_nil]
        · rename_i hsends
          refine ⟨read, _, [], hwritten, ho, ?_, rfl, rfl, rfl, rfl, rfl, rfl⟩
          rw [hread, if_neg hsends]
          rfl

/-! ## The final response -/

/-- What a fetch with a response has in common with the run before it. -/
structure Finished (r r' : Run W) (creq : CorsRequest) (taint : Tainting) (cresp : CorsResponse)
    (body : Bytes) : Prop where
  valid : validateResponse creq taint cresp = .ok ()
  response : r'.out.response = some (responseView creq taint cresp body)
  error : r'.out.error = none
  enforced : r'.out.enforced = []
  urls : r'.out.urls = r.out.urls
  fetcher : r'.fetcher = r.fetcher
  exchanges : r'.exchanges = r.exchanges

theorem checkFraming_spec (ho : r.out.Open) (url : Url) (headers : List Header)
    (policies : Csp.PolicySet) (respOrigin : Origin) :
    Ends (checkFraming ctx url headers policies respOrigin r) (fun _ => True) (Stopped r) := by
  simp only [checkFraming]
  split
  · split
    · exact Ends.error (Stopped.deny ho ..)
    · split
      · exact Ends.ok trivial
      · split
        · exact Ends.error (Stopped.deny ho ..)
        · exact Ends.error (Stopped.deny ho ..)
  · exact Ends.error (Stopped.deny ho ..)

theorem navigation_spec (ho : r.out.Open) (url : Url) (headers : List Header) :
    Ends (navigation ctx url headers r)
      (fun r' => r'.out.Open ∧ r'.out.urls = r.out.urls ∧ r'.fetcher = r.fetcher ∧
        r'.exchanges = r.exchanges)
      (Stopped r) := by
  simp only [navigation]
  split
  · rename_i r' hframing
    split at hframing
    · exact Ends.error ((checkFraming_spec ctx ho ..).of_error hframing)
    · cases hframing
  · split
    · exact Ends.error (Stopped.deny ho ..)
    · exact Ends.ok ⟨⟨ho.response, ho.error, ho.enforced⟩, rfl, rfl, rfl⟩

theorem establish_spec (ho : r.out.Open) (url : Url) (headers : List Header) :
    Ends (establish ctx url headers r)
      (fun r' => r'.out.Open ∧ r'.out.urls = r.out.urls ∧ r'.fetcher = r.fetcher ∧
        r'.exchanges = r.exchanges)
      (Stopped r) := by
  unfold establish
  split
  · exact navigation_spec ctx ho ..
  · exact Ends.ok ⟨ho, rfl, rfl, rfl⟩

theorem checkCorp_spec (ho : r.out.Open) (creq : CorsRequest) (taint : Tainting)
    (cresp : CorsResponse) : Ends (checkCorp ctx creq taint cresp r) (fun _ => True) (Stopped r) := by
  simp only [checkCorp]
  split
  · exact Ends.error (Stopped.deny ho ..)
  · split
    · exact Ends.error (Stopped.deny ho ..)
    · exact Ends.ok trivial

variable (digest : Sri.Algorithm → Bytes → Bytes)

theorem checkSri_spec (ho : r.out.Open) (url : Url) (taint : Tainting) (body : Bytes) :
    Ends (checkSri digest ctx url taint body r) (fun _ => True) (Stopped r) := by
  unfold checkSri
  split
  · exact Ends.ok trivial
  · split
    · exact Ends.error (Stopped.deny ho ..)
    · split
      · split
        · exact Ends.error (Stopped.deny ho ..)
        · exact Ends.ok trivial
      · exact Ends.ok trivial

theorem finish_spec (ho : r.out.Open) (creq : CorsRequest) (taint : Tainting)
    (cresp : CorsResponse) (body : Bytes) :
    Ends (finish digest ctx creq taint cresp body r)
      (fun r' => Finished r r' creq taint cresp body) (Stopped r) := by
  unfold finish
  split
  · exact Ends.error (Stopped.deny ho ..)
  · split
    · exact Ends.error (Stopped.deny ho ..)
    · rename_i hvalid
      refine (checkCorp_spec ctx ho creq taint cresp).bind fun _ _ => ?_
      refine (checkSri_spec ctx digest ho creq.url taint body).bind fun _ _ => ?_
      refine (establish_spec ctx ho creq.url cresp.headers).bind ?_
      rintro r' ⟨ho', hurls, hfetcher, hexchanges⟩
      exact Ends.ok ⟨hvalid, rfl, ho'.error, ho'.enforced, hurls, hfetcher, hexchanges⟩

/-! ## What the answer leads to -/

/-- A redirect that is followed, to the URL `to_`. -/
structure Followed (r r' : Run W) (s : Settled) (response : Response) (to_ : Url) : Prop where
  checked : s.taint = .cors → validateResponse s.request s.taint (corsResponse response) = .ok ()
  next : ∃ topHost location hop,
    r.chain.follow r.fetcher.psl none topHost s.key.origin location = .ok (hop, r'.chain) ∧
      Url.parse (hopText hop) = some to_
  isOpen : r'.out.Open
  state : r'.state = { r.state with redirectReferrerPolicy := r'.state.redirectReferrerPolicy }
  nextOpaque : r'.nextOpaque = r.nextOpaque
  urls : r'.out.urls = r.out.urls
  fetcher : r'.fetcher = r.fetcher
  exchanges : r'.exchanges = r.exchanges

/-- A fetch goes on to another URL, or it is over and has its response. -/
def Concluded (r : Run W) (s : Settled) (response : Response) : HopResult × Run W → Prop
  | (.redirect to_ _, r') => Followed r r' s response to_
  | (.final, r') => Finished r r' s.request s.taint (corsResponse response) response.body

theorem redirect_spec (ho : r.out.Open) (topHost : Text) (s : Settled) (response : Response)
    (location : Text) :
    Ends (redirect topHost s response location r) (Concluded r s response) (Stopped r) := by
  simp only [redirect]
  split
  · exact Ends.error (Stopped.deny ho ..)
  · rename_i hchecked
    split
    · exact Ends.error ⟨ho.deny .., rfl, rfl⟩
    · rename_i hop chain hfollow
      split
      · rename_i next hnext
        apply Ends.ok
        refine ⟨?_, ⟨topHost, location, hop, hfollow, hnext⟩, ho, rfl, rfl, rfl, rfl, rfl⟩
        intro htaint
        rwa [if_pos htaint] at hchecked
      · exact Ends.error ⟨ho.deny .., rfl, rfl⟩

theorem conclude_spec (ho : r.out.Open) (topHost : Text) (s : Settled) (response : Response) :
    Ends (conclude ctx digest topHost s response r) (Concluded r s response) (Stopped r) := by
  unfold conclude
  split
  · exact redirect_spec ho ..
  · exact (finish_spec ctx digest ho ..).map fun _ h => h

/-! ## Hops -/

/-- A hop from `r` handed these requests to the transport, the last of them the request itself. -/
structure Requested (r : Run W) (s : Settled) (answer : Except FetchError Response) (sent : List Exchange)
    (cache : PreflightCache) : Prop where
  prepared : ∃ topHost, Prepared ctx r topHost s
  cleared : ∃ clearance fetcher pre read spec,
    Passed ctx r.fetcher r.nextOpaque s clearance fetcher pre ∧
      Written ctx r.fetcher r.nextOpaque r.state s read spec ∧
      sent = pre ++ [.actual s clearance r.fetcher.jar read spec answer] ∧ cache = fetcher.preflightCache

/-- What a hop from `r` hands to the transport, and the preflight cache that it leaves. -/
inductive Sends (r : Run W) : List Exchange → PreflightCache → Prop where
  | nothing : Sends r [] r.fetcher.preflightCache
  | preflight {topHost : Text} {s : Settled} (answer : Except FetchError Response)
      (hprep : Prepared ctx r topHost s) (hneed : needsPreflight ctx s = true) :
      Sends r [.preflight s (preflightSpec ctx r.nextOpaque s) answer] r.fetcher.preflightCache
  /-- the author's headers turned out not to be text -/
  | cleared {topHost : Text} {s : Settled} {clearance : Clearance} {fetcher : SecureFetcher}
      {pre : List Exchange} (hprep : Prepared ctx r topHost s)
      (hpass : Passed ctx r.fetcher r.nextOpaque s clearance fetcher pre) :
      Sends r pre fetcher.preflightCache
  | request {s : Settled} {answer : Except FetchError Response} {sent : List Exchange}
      {cache : PreflightCache} (h : Requested ctx r s answer sent cache) : Sends r sent cache

/-- Everything but the jar and the preflight cache is as it was. -/
def KeepsLists (fetcher fetcher' : SecureFetcher) (cache : PreflightCache) : Prop :=
  ∃ jar, fetcher' = { fetcher with preflightCache := cache, jar }

/-- A hop ends the fetch without a response. -/
structure Refuses (r r' : Run W) : Prop where
  refused : r'.out.Refused
  sends : ∃ sent cache, Sends ctx r sent cache ∧ r'.exchanges = r.exchanges ++ sent ∧
    KeepsLists r.fetcher r'.fetcher cache
  trail : ∃ sent, r'.exchanges = r.exchanges ++ sent ∧
    JarTrail r.fetcher.psl r.fetcher.jar sent r'.fetcher.jar

/-- A hop from `r` got this answer, and this is what is left once it was read. -/
structure Answered (r : Run W) (s : Settled) (response : Response) (r' : Run W) : Prop where
  sends : ∃ sent cache, Requested ctx r s (.ok response) sent cache ∧
    r'.exchanges = r.exchanges ++ sent ∧ KeepsLists r.fetcher r'.fetcher cache
  trail : ∃ sent, r'.exchanges = r.exchanges ++ sent ∧
    JarTrail r.fetcher.psl r.fetcher.jar sent r'.fetcher.jar
  isOpen : r'.out.Open
  urls : r'.out.urls = r.out.urls.dropLast ++ (if r.out.urls.isEmpty then [] else [s.request.url])
  state : r'.state = { r.state with url := s.request.url }
  chain : r'.chain = r.chain
  nextOpaque : r'.nextOpaque = r.nextOpaque

section

variable {fetcher fetcher' : SecureFetcher} {fresh : UInt64} {clearance : Clearance}
  {pre : List Exchange} (h : Passed ctx fetcher fresh s clearance fetcher' pre)

include h

theorem Passed.keeps : fetcher' = { fetcher with preflightCache := fetcher'.preflightCache } := by
  cases h <;> rfl

/-- The way past the preflight leaves the jar alone. -/
theorem Passed.trail (psl : PublicSuffixList) (jar : Jar) : JarTrail psl jar pre jar := by
  cases h with
  | simple hneed => exact .nil jar
  | cached now hneed hcovers => exact .nil jar
  | granted now response grant hneed hvalid => exact .preflight (.nil jar)

end

/-- Every step of a hop, put together. -/
theorem hop_spec (ho : r.out.Open) :
    Ends (hop ctx T digest r)
      (fun p => ∃ s response r₁, Answered ctx r s response r₁ ∧ Concluded r₁ s response p)
      (Refuses ctx r) := by
  unfold hop
  refine ((prepare_spec ctx ho).mono (fun _ h => h) ?_).bind ?_
  · intro r' h
    have hx : r'.exchanges = r.exchanges ++ [] := by rw [h.exchanges, List.append_nil]
    refine ⟨h.refused, ⟨[], _, .nothing, hx, r.fetcher.jar, h.fetcher⟩, [], hx, ?_⟩
    rw [h.fetcher]
    exact .nil _
  rintro ⟨topHost, s, r₁⟩ ⟨hprep, hchosen⟩
  dsimp only at hprep hchosen ⊢
  have hr₁ : r₁.fetcher = r.fetcher ∧ r₁.nextOpaque = r.nextOpaque ∧ r₁.exchanges = r.exchanges ∧
      r₁.chain = r.chain ∧ r₁.state = { r.state with url := s.request.url } := by
    rw [hchosen.eq]
    exact ⟨rfl, rfl, rfl, rfl, rfl⟩
  obtain ⟨hf₁, hn₁, hx₁, hc₁, hs₁⟩ := hr₁
  refine ((clear_spec ctx T hchosen.isOpen s).mono (fun _ h => h) ?_).bind ?_
  · rintro r' ⟨hneed, answer, hend⟩
    rw [hn₁] at hend
    have hx := hend.exchanges
    have hf := hend.fetcher
    rw [hx₁] at hx
    rw [hf₁] at hf
    refine ⟨hend.refused, ⟨_, _, .preflight answer hprep hneed, hx, r.fetcher.jar, hf⟩, _, hx, ?_⟩
    rw [hf]
    exact .preflight (.nil _)
  rintro ⟨clearance, r₂⟩ ⟨fetcher, pre, hpass, ho₂, hcarried⟩
  dsimp only at hpass ho₂ hcarried ⊢
  rw [hf₁, hn₁] at hpass
  have hkeeps := hpass.keeps
  have hjar : r₂.fetcher.jar = r.fetcher.jar := by rw [hcarried.fetcher, hkeeps]
  have hstate : r₂.state = { r.state with url := s.request.url } := hcarried.state.trans hs₁
  -- the cookies and the headers are those of the run before the hop
  have hreq : ∀ read spec answer, Written ctx r₂.fetcher r₂.nextOpaque r₂.state s read spec →
      Requested ctx r s answer (pre ++ [.actual s clearance r.fetcher.jar read spec answer])
        fetcher.preflightCache := by
    rintro read spec answer ⟨hread, author, hauthor, hspec⟩
    rw [hstate] at hauthor
    refine ⟨⟨topHost, hprep⟩, clearance, fetcher, pre, read, spec, hpass, ⟨hread, author, hauthor, ?_⟩,
      rfl, rfl⟩
    rw [hspec, hcarried.nextOpaque, hn₁, hcarried.fetcher, hkeeps, hstate]
    rfl
  refine ((send_spec ctx T ho₂ s clearance).mono (fun _ h => h) ?_).bind ?_
  · rintro r' (h | ⟨read, spec, e, hw, hend⟩)
    · have hx : r'.exchanges = r.exchanges ++ pre := by rw [h.exchanges, hcarried.exchanges, hx₁]
      have hf : r'.fetcher = fetcher := h.fetcher.trans hcarried.fetcher
      refine ⟨h.refused, ⟨_, _, .cleared hprep hpass, hx, r.fetcher.jar, ?_⟩, _, hx, ?_⟩
      · rw [hf, hkeeps]
      · rw [hf, hkeeps]
        exact hpass.trail ctx _ _
    · have hx : r'.exchanges = r.exchanges ++ (pre ++ [.actual s clearance r.fetcher.jar read spec (.error e)]) := by
        rw [hend.exchanges, hcarried.exchanges, hx₁, hjar, List.append_assoc]
      have hf : r'.fetcher = fetcher := hend.fetcher.trans hcarried.fetcher
      refine ⟨hend.refused, ⟨_, _, .request (hreq read spec (.error e) hw), hx, r.fetcher.jar, ?_⟩, _, hx, ?_⟩
      · rw [hf, hkeeps]
      · rw [hf, hkeeps]
        exact (hpass.trail ctx _ _).append (.failed (.nil _))
  rintro ⟨response, r₃⟩ ⟨read, spec, calls, hw, ho₃, hcalls, hsent⟩
  dsimp only at hw ho₃ hsent ⊢
  have hexchanges : r₃.exchanges =
      r.exchanges ++ (pre ++ [.actual s clearance r.fetcher.jar read spec (.ok response)]) := by
    rw [hsent.exchanges, hcarried.exchanges, hx₁, hjar, List.append_assoc]
  have hfetcher : KeepsLists r.fetcher r₃.fetcher fetcher.preflightCache :=
    ⟨_, by rw [hsent.fetcher, hcarried.fetcher, hkeeps]⟩
  have htrail : ∃ sent, r₃.exchanges = r.exchanges ++ sent ∧
      JarTrail r.fetcher.psl r.fetcher.jar sent r₃.fetcher.jar := by
    refine ⟨_, hexchanges, (hpass.trail ctx _ _).append (.answered calls hcalls ?_)⟩
    rw [hsent.fetcher, hcarried.fetcher, hkeeps]
    exact .nil _
  refine (conclude_spec ctx digest ho₃ topHost s response).mono ?_ ?_
  · rintro p hp
    refine ⟨s, response, r₃, ⟨⟨_, _, hreq read spec _ hw, hexchanges, hfetcher⟩, htrail, ho₃, ?_, ?_, ?_, ?_⟩, hp⟩
    · rw [hsent.urls, hcarried.urls, hchosen.urls]
    · rw [hsent.state, hstate]
    · rw [hsent.chain, hcarried.chain, hc₁]
    · rw [hsent.nextOpaque, hcarried.nextOpaque, hn₁]
  · rintro r' h
    refine ⟨h.refused, ⟨_, _, .request (hreq read spec _ hw), by rw [h.exchanges, hexchanges], ?_⟩, ?_⟩
    · rw [h.fetcher]
      exact hfetcher
    · rw [h.exchanges, h.fetcher]
      exact htrail

/-! ## Fetches -/

/-- A run at the start of a hop. -/
def Run.enter (r : Run W) : Run W := { r with out := { r.out with urls := r.out.urls ++ [r.state.url] } }

theorem Run.open_enter (ho : r.out.Open) : r.enter.out.Open :=
  ⟨ho.response, ho.error, ho.enforced⟩

/-- A redirect that is followed is one more entry of the chain, of at most `MAX_HOPS`. -/
theorem Followed.chain_length {response : Response} {to_ : Url} (h : Followed r r' s response to_) :
    r'.chain.visited.length = r.chain.visited.length + 1 ∧ r'.chain.visited.length ≤ MAX_HOPS := by
  obtain ⟨topHost, location, hop, hfollow, _⟩ := h.next
  obtain ⟨hlt, hlen, _⟩ := Chain.follow_eq_ok hfollow
  exact ⟨hlen, by omega⟩

/-- A hop leaves room on the chain for the next one. -/
theorem Answered.advance_length {r₁ : Run W} {response : Response} {to_ : Url}
    (h : Answered ctx r s response r₁) (hf : Followed r₁ r' s response to_) (status : UInt16) :
    (advance ctx to_ status r').chain.visited.length = r.chain.visited.length + 1 ∧
      (advance ctx to_ status r').chain.visited.length ≤ MAX_HOPS := by
  obtain ⟨hlen, hmax⟩ := hf.chain_length
  rw [h.chain] at hlen
  exact ⟨hlen, hmax⟩

/-- What holds at the start of every hop, and then at each way for the fetch to end, holds of
the whole fetch. -/
theorem fetchLoop_rule {P Q : Run W → Prop}
    (hnext : ∀ r s response r₁ to_ status r', P r → Answered ctx r s response r₁ →
      Followed r₁ r' s response to_ → P (advance ctx to_ status r').enter)
    (hfinal : ∀ r s response r₁ r', P r → Answered ctx r s response r₁ →
      Finished r₁ r' s.request s.taint (corsResponse response) response.body → Q r')
    (hrefuse : ∀ r r', P r → Refuses ctx r r' → Q r') :
    ∀ (fuel : Nat) (r : Run W), P r.enter → r.out.Open → r.chain.visited.length ≤ MAX_HOPS →
      MAX_HOPS < fuel + r.chain.visited.length → Q (fetchLoop ctx T digest fuel r) := by
  intro fuel
  induction fuel with
  | zero =>
      intro r _ _ hlen hfuel
      omega
  | succ fuel ih =>
      intro r hP ho hlen hfuel
      have hhop := hop_spec ctx T digest (Run.open_enter ho)
      unfold fetchLoop
      split
      · rename_i r' heq
        exact hrefuse _ _ hP (hhop.of_error heq)
      · rename_i r' heq
        obtain ⟨s, response, r₁, hanswer, hend⟩ := hhop.of_ok heq
        exact hfinal _ _ _ _ _ hP hanswer hend
      · rename_i to_ status r' heq
        obtain ⟨s, response, r₁, hanswer, hend⟩ := hhop.of_ok heq
        have hadv := hanswer.advance_length ctx hend status
        refine ih _ (hnext _ _ _ _ _ _ _ hP hanswer hend) hend.isOpen hadv.2 ?_
        rw [hadv.1]
        show MAX_HOPS < fuel + (r.chain.visited.length + 1)
        omega

/-- A fetch that sends nothing, or the end of its loop. -/
theorem fetch_rule {Q : Fetched W → Prop} {session : Session W} {url : Text}
    (hloop : ∀ start, Url.parse url = some start →
      ctx.headers.any isRefusedHeader = false →
      ∀ r, fetchLoop ctx T digest (MAX_HOPS + 1) (startRun ctx session start) = r →
        Q { r.toSession with out := r.out, exchanges := r.exchanges })
    (hrefused : ∀ out, out.Refused → Q { session with out, exchanges := [] }) :
    Q (fetch ctx T digest session url) := by
  simp only [fetch]
  split
  · exact hrefused _ ⟨rfl, Or.inr (by simp [FetchOutcome.enforced])⟩
  · rename_i start hstart
    split
    · exact hrefused _ (FetchOutcome.open_new.deny ..)
    · split
      · exact hrefused _ (FetchOutcome.open_new.deny ..)
      · rename_i hheaders
        exact hloop start hstart (by simpa using hheaders) _ rfl

end

end Pelorus.Secure
