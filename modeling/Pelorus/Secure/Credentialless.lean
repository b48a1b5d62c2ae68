import Pelorus.Secure.Responses

/-
  Secure/Credentialless.lean --- what a document with a credentialless embedder policy sends.

  THE EMBEDDER POLICY is read on the way back, where it asks a response for its
  `Cross-Origin-Resource-Policy`; on the way out it is read nowhere.  So the credentials of a
  `no-cors` request are those of its credentials mode.
-/
set_option autoImplicit false

namespace Pelorus.Secure

open Lib Websec Websec.Cors
open Net hiding Origin

variable {W : Type}

/-! ## Calls of `store` -/

/-- A call that would be accepted after those before it. -/
def TakenAfter (psl : PublicSuffixList) (key : PartitionKey) (jar : Jar) (before : List (Text × Instant))
    (call : Text × Instant) : Prop :=
  ((storeAll psl key before jar).store psl key call.1 call.2).1 = .ok ()

/-- Nothing is stored exactly where the jar, as it was, would take none of the lines. -/
theorem none_taken_iff {psl : PublicSuffixList} {key : PartitionKey} :
    ∀ (calls : List (Text × Instant)) (jar : Jar),
      (EachAfter (fun before call => ¬ TakenAfter psl key jar before call) calls ↔
        ∀ line ∈ calls.map Prod.fst, ¬ jar.Accepts psl key line)
  | [], jar => ⟨fun _ => List.forall_mem_nil _, fun _ => eachAfter_nil⟩
  | call :: calls, jar => by
      constructor
      · intro h
        have hfirst : (jar.store psl key call.1 call.2).1 ≠ .ok () := h [] call calls rfl
        have hsame := Net.Jar.partition_of_refused hfirst key
        have hrest := (none_taken_iff calls (jar.store psl key call.1 call.2).2).mp fun before c after heq =>
          h (call :: before) c after (by rw [heq, List.cons_append])
        intro line hline
        rcases List.mem_cons.mp hline with rfl | hline
        · exact fun hacc => hfirst ((Net.Jar.accepts_iff call.2).mp hacc)
        · exact fun hacc => hrest line hline ((Net.Jar.accepts_congr hsame).mpr hacc)
      · intro h
        have hfirst : (jar.store psl key call.1 call.2).1 ≠ .ok () := fun hok =>
          h call.1 List.mem_cons_self ⟨call.2, hok⟩
        have hsame := Net.Jar.partition_of_refused hfirst key
        have hrest := (none_taken_iff calls (jar.store psl key call.1 call.2).2).mpr fun line hline hacc =>
          h line (List.mem_cons_of_mem _ hline) ((Net.Jar.accepts_congr hsame).mp hacc)
        intro before c after heq
        cases before with
        | nil =>
            obtain ⟨rfl, _⟩ := List.cons.inj heq
            exact hfirst
        | cons first before =>
            obtain ⟨rfl, hcalls⟩ := List.cons.inj heq
            exact hrest before c after hcalls

/-! ## Over a fetch -/

theorem JarTrail.split {psl : PublicSuffixList} {s : Settled} {clearance : Clearance} {jar : Jar}
    {read : Option Instant} {spec : RequestSpec} {answer : Except FetchError Response} {after : List Exchange}
    {final : Jar} : ∀ {before : List Exchange} {start : Jar},
    JarTrail psl start (before ++ .actual s clearance jar read spec answer :: after) final →
    ∃ calls, calls.map Prod.fst = (if read.isSome then (answer.toOption.map setCookieLines).getD [] else []) ∧
      JarTrail psl (storeAll psl s.key calls jar) after final
  | [], start, h => by
      cases h with
      | failed h => exact ⟨[], by simp [Except.toOption], h⟩
      | answered calls hcalls h => exact ⟨calls, hcalls, h⟩
  | e :: before, start, h => by
      cases h with
      | preflight h => exact h.split
      | failed h => exact h.split
      | answered calls hcalls h => exact h.split

/-- The calls so far lead from a jar to the one that the run has. -/
structure Trailing (psl : PublicSuffixList) (jar : Jar) (r : Run W) : Prop where
  lists : r.fetcher.psl = psl
  trail : JarTrail psl jar r.exchanges r.fetcher.jar

theorem Trailing.more {psl : PublicSuffixList} {jar : Jar} {r r' : Run W} (h : Trailing psl jar r)
    (hpsl : r'.fetcher.psl = r.fetcher.psl)
    (htrail : ∃ sent, r'.exchanges = r.exchanges ++ sent ∧
      JarTrail r.fetcher.psl r.fetcher.jar sent r'.fetcher.jar) : Trailing psl jar r' := by
  obtain ⟨sent, hexchanges, hsent⟩ := htrail
  refine ⟨hpsl.trans h.lists, ?_⟩
  rw [hexchanges]
  exact h.trail.append (h.lists ▸ hsent)

variable (digest : Sri.Algorithm → Bytes → Bytes) (ctx : FetchContext) (T : Transport W) (session : Session W)
  (url : Text)

/-- The requests of a fetch lead from the jar of the session to the one that is left. -/
theorem fetch_trail : JarTrail session.fetcher.psl session.fetcher.jar (fetch ctx T digest session url).exchanges
    (fetch ctx T digest session url).fetcher.jar := by
  have hanswered : ∀ {r r₁ : Run W} {s : Settled} {response : Response},
      Trailing session.fetcher.psl session.fetcher.jar r → Answered ctx r s response r₁ →
      Trailing session.fetcher.psl session.fetcher.jar r₁ := by
    intro r r₁ s response h hanswer
    obtain ⟨_, _, _, _, jar, hfetcher⟩ := hanswer.sends
    exact h.more (by rw [hfetcher]) hanswer.trail
  refine fetch_rule ctx T digest (Q := fun f => JarTrail session.fetcher.psl session.fetcher.jar f.exchanges
    f.fetcher.jar) ?_ fun out _ => .nil _
  intro start hparse hheaders r hr
  subst hr
  refine fetchLoop_rule ctx T digest (P := Trailing session.fetcher.psl session.fetcher.jar)
    (Q := fun r => JarTrail session.fetcher.psl session.fetcher.jar r.exchanges r.fetcher.jar)
    ?_ ?_ ?_ _ _ ⟨rfl, .nil _⟩ FetchOutcome.open_new (Nat.zero_le _) (Nat.lt_succ_self _)
  · intro r s response r₁ to_ status r' h hanswer hfollow
    have h₁ := hanswered h hanswer
    refine ⟨?_, ?_⟩
    · show r'.fetcher.psl = _
      rw [hfollow.fetcher]
      exact h₁.lists
    · show JarTrail _ _ r'.exchanges r'.fetcher.jar
      rw [hfollow.exchanges, hfollow.fetcher]
      exact h₁.trail
  · intro r s response r₁ r' h hanswer hfinish
    rw [hfinish.exchanges, hfinish.fetcher]
    exact (hanswered h hanswer).trail
  · intro r r' h hrefuse
    obtain ⟨_, _, _, _, jar, hfetcher⟩ := hrefuse.sends
    exact (h.more (by rw [hfetcher]) hrefuse.trail).trail

/-! ## Requests in `no-cors` mode -/

/-- The cookies of a jar that are for a request at a time. -/
def cookiesFor (psl : PublicSuffixList) (s : Settled) (jar : Jar) (now : Instant) : List Cookie :=
  jar.cookiesFor s.key s.request.url.path
    (crossSiteForCookies ctx.topLevel (Origin.fromUrl 0 s.request.url) psl.registrableDomain) now

/-- A `no-cors` request to another origin than the initiator's. -/
structure IsForeign (s : Settled) : Prop where
  mode : ctx.mode = .noCors
  foreign : ¬ FromInitiator ctx s.request.url

/-- There are no credentials to go with a request, nor with its answer: the credentials mode includes none,
or the jar has no cookie for the request and takes none that the answer sets. -/
def HasNoCredentials (psl : PublicSuffixList) (s : Settled) (jar : Jar) (read : Option Instant)
    (answer : Except FetchError Response) : Prop :=
  ctx.credentials ≠ .include_ ∨
    (∀ now, read = some now → cookiesFor ctx psl s jar now = []) ∧
      ∀ response, answer = .ok response → ∀ line ∈ setCookieLines response, ¬ jar.Accepts psl s.key line

/-- What every request of a fetch is so far. -/
def CarriesCookies : Exchange → Prop
  | .preflight s spec answer => (Exchange.preflight s spec answer).linesOf "cookie".toList = []
  | .actual s clearance jar read spec answer =>
      (Exchange.actual s clearance jar read spec answer).linesOf "cookie".toList =
          cookieLine ((read.map (cookiesFor ctx session.fetcher.psl s jar)).getD []) ∧
        (IsForeign ctx s → (read.isSome = true ↔ ctx.credentials = .include_))

theorem fetch_cookies : EachAfter (fun _ e => CarriesCookies ctx session e) (fetch ctx T digest session url).exchanges := by
  refine fetch_each_onTrack digest ctx T session url fun r before e htrack hsent => ?_
  cases hsent with
  | preflight hprep hneed => exact linesOf_preflight (Or.inr rfl)
  | @actual topHost s clearance fetcher before read spec answer hprep hpass hwritten =>
      obtain ⟨hread, author, hauthor, rfl⟩ := hwritten
      constructor
      · have hlines := @cookie_lines ctx r.fetcher r.nextOpaque r.state s read author htrack.headers hauthor
        rw [show cookiesOf ctx r.fetcher r.nextOpaque s = cookiesFor ctx session.fetcher.psl s r.fetcher.jar from ?_]
          at hlines
        · exact hlines
        · funext now
          rw [cookiesFor, ← htrack.psl, (htrack.visited hprep).web.origin_fresh 0 r.nextOpaque]
          rfl
      · rintro ⟨hmode, hforeign⟩
        have htaint : s.taint = .opaque_ := by
          rcases htrack.foreign_taint hprep (by simp [hmode]) hforeign with h | h
          · exact h.2
          · rw [hmode] at h
            cases h.1
        rw [hread]
        simp [sendsCredentials, htaint]

theorem cookieLine_eq_nil {cookies : List Cookie} : cookieLine cookies = [] ↔ cookies = [] := by
  unfold cookieLine
  split
  · rename_i h
    exact ⟨fun _ => List.isEmpty_iff.mp h, fun _ => rfl⟩
  · rename_i h
    exact ⟨fun hnil => (by cases hnil), fun hnil => absurd (List.isEmpty_iff.mpr hnil) h⟩

/-- The request carries no cookie, and none of the calls of `store` for its answer is accepted. -/
structure CarriesNothing (psl : PublicSuffixList) (e : Exchange) (jar : Jar) (calls : List (Text × Instant)) :
    Prop where
  cookie : e.linesOf "cookie".toList = []
  stored : EachAfter (fun before call => ¬ TakenAfter psl e.settled.key jar before call) calls

/-- Whatever the embedder policy: a preflight carries no cookie, and any other request of a `no-cors` fetch to a
foreign URL is without credentials exactly where there are none.  The calls are those that lead from the jar
before the request to the one after it. -/
theorem no_cors_carries_nothing_iff :
    (∀ e ∈ (fetch ctx T digest session url).exchanges, e.isPreflight = true → e.linesOf "cookie".toList = []) ∧
      ∀ before s clearance jar read spec answer after,
        (fetch ctx T digest session url).exchanges =
          before ++ .actual s clearance jar read spec answer :: after → IsForeign ctx s →
        ∃ calls, calls.map Prod.fst =
            (if read.isSome then (answer.toOption.map setCookieLines).getD [] else []) ∧
          JarTrail session.fetcher.psl (storeAll session.fetcher.psl s.key calls jar) after
            (fetch ctx T digest session url).fetcher.jar ∧
          (CarriesNothing session.fetcher.psl (.actual s clearance jar read spec answer) jar calls ↔
            HasNoCredentials ctx session.fetcher.psl s jar read answer) := by
  have heach := fetch_cookies digest ctx T session url
  constructor
  · intro e he hpre
    obtain ⟨_, _, h⟩ := heach.of_mem he
    cases e with
    | preflight s spec answer => exact h
    | actual s clearance jar read spec answer => cases hpre
  · intro before s clearance jar read spec answer after heq hforeign
    obtain ⟨hlines, hread⟩ := heach before _ after heq
    have htrail := fetch_trail digest ctx T session url
    rw [heq] at htrail
    obtain ⟨calls, hcalls, hafter⟩ := htrail.split
    refine ⟨calls, hcalls, hafter, ?_⟩
    have hstored := @none_taken_iff session.fetcher.psl s.key calls jar
    rw [hcalls] at hstored
    constructor
    · rintro ⟨hcookie, hnone⟩
      rw [hlines, cookieLine_eq_nil] at hcookie
      by_cases hinclude : ctx.credentials = .include_
      · refine Or.inr ⟨?_, ?_⟩
        · rintro now rfl
          exact hcookie
        · rintro response rfl line hline
          refine hstored.mp hnone line ?_
          rw [if_pos ((hread hforeign).mpr hinclude)]
          exact hline
      · exact Or.inl hinclude
    · intro hnothing
      cases read with
      | none =>
          refine ⟨hlines, hstored.mpr ?_⟩
          simp
      | some now =>
          obtain ⟨hcookies, hrefused⟩ := hnothing.resolve_left
            fun hne => hne ((hread hforeign).mp rfl)
          refine ⟨?_, hstored.mpr ?_⟩
          · rw [hlines, cookieLine_eq_nil]
            exact hcookies now rfl
          · rw [Option.isSome_some, if_pos rfl]
            cases answer with
            | error e => exact List.forall_mem_nil _
            | ok response => exact hrefused response rfl

/-! ## Credentials that are sent -/

/-- A page of `app.example` with a credentialless embedder policy fetches in `no-cors` mode. -/
def sampleEmbedded (credentials : CredentialsMode) : FetchContext :=
  { sampleContext "app.example" .noCors "GET" with credentials, embedderPolicy := .credentialless }

/-- It sets a cookie. -/
def sampleSetting : Transport Unit :=
  ⟨fun w _ _ => (.ok ⟨⟨200, [⟨"set-cookie".toList, "a=1; Secure; SameSite=None".toList⟩], .empty⟩, []⟩, w),
    fun w => (0, w)⟩

def sampleFetch (credentials : CredentialsMode) (session : Session Unit) : Fetched Unit :=
  fetch (sampleEmbedded credentials) sampleSetting (fun _ _ => []) session "https://api.example/x".toList

/-- The first request stores a cookie of `api.example`, and the second one sends it. -/
theorem credentialless_sends_cookies :
    (sampleEmbedded .include_).embedderPolicy = .credentialless ∧
      (sampleFetch .include_ sampleSession).exchanges.map (fun e =>
        ((Origin.fromUrl 0 e.url).sameOrigin (sampleOrigin "app.example"), e.linesOf "cookie".toList)) =
        [(false, [])] ∧
      ((sampleFetch .include_ sampleSession).fetcher.jar.byPartition.entries.map fun p =>
        p.2.map fun c => (c.domain, c.name, c.value)) = [[("api.example".toList, ['a'], ['1'])]] ∧
      (sampleFetch .include_ (sampleFetch .include_ sampleSession).toSession).exchanges.map (fun e =>
        ((Origin.fromUrl 0 e.url).sameOrigin (sampleOrigin "app.example"), e.linesOf "cookie".toList)) =
        [(false, [("Cookie".toList, "a=1".toList)])] := by
  refine ⟨rfl, ?_, ?_, ?_⟩ <;> decide +kernel

end Pelorus.Secure
