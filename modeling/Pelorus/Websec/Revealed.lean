import Pelorus.Websec.OriginText

/-
  Websec/Revealed.lean --- what a referrer reveals of its source.

  OF THE SOURCE the policies use its origin, and some of them the URL without credentials
  and fragment.  A URL cut to its origin is the same for every source of that origin, and
  what is potentially trustworthy, or cross-origin, is so for all of them.
-/
set_option autoImplicit false

namespace Pelorus.Websec

open Lib Lib.Text

/-! ## URLs as the program has them -/

/-- A URL is parsed, or made of another by what can be done to one. -/
inductive Url.Built : Url → Prop
  | parse {input : Text} {u : Url} (h : Url.parse input = some u) : Built u
  | stripCredentials {u : Url} (h : Built u) : Built u.stripCredentials
  | stripFragment {u : Url} (h : Built u) : Built u.stripFragment
  | setOriginOnly {u : Url} (h : Built u) : Built u.setOriginOnly
  | upgradedToHttps {u v : Url} (h : Built u) (hv : u.upgradedToHttps = some v) : Built v

/-- What holds of a URL that has a host and a port. -/
structure Url.Sound (u : Url) : Prop where
  parts : ∃ host, u.host = some host ∧ DerivedParts u.scheme host u.port
  path : ∃ t, u.path = '/' :: t
  path_hash : '#' ∉ u.path
  query_hash : ∀ q ∈ u.query, '#' ∉ q

theorem mem_pathOf {c : Char} {s : Text} (hc : c ∈ pathOf s) : c = '/' ∨ c ∈ s := by
  unfold pathOf at hc
  split at hc
  · exact Or.inl (List.mem_singleton.mp hc)
  · obtain ⟨d, hd, heq⟩ := List.mem_map.mp hc
    split at heq
    · exact Or.inl heq.symm
    · exact Or.inr (heq ▸ hd)

theorem Url.sound_of_parse {input : Text} {u : Url} (h : Url.parse input = some u) (hs : IsNetScheme u.scheme) :
    u.Sound := by
  obtain ⟨raw, slashes, authority, tail, a, hread⟩ := Url.readFrom_of_parse h hs
  obtain ⟨hparsed, -⟩ := parseAuthority_parts hread.read
  have hurl := hread.url
  generalize u.scheme = scheme at hs hurl
  subst hurl
  obtain ⟨-, hhash⟩ := before_behind '#' tail
  obtain ⟨hfront, -⟩ := before_behind '?' (before '#' tail)
  refine ⟨⟨a.host, rfl, hs, hparsed, ?_⟩, pathOf_head (tail_before hread.tail), fun hmem => ?_, fun q hq hmem => ?_⟩
  · show ¬ ((if a.port.isSome ∧ a.port = defaultPort scheme then none else a.port).isSome = true ∧ _)
    rintro ⟨hsome, hdefault⟩
    have hport : (assemble scheme a tail).port = if a.port.isSome ∧ a.port = defaultPort scheme then none else a.port := rfl
    split at hsome
    · cases hsome
    · rename_i hnormal
      rw [hport, if_neg hnormal] at hdefault
      exact hnormal ⟨hsome, hdefault⟩
  · rcases mem_pathOf hmem with heq | hmem
    · cases heq
    · exact hhash (hfront ▸ List.mem_append_left _ hmem)
  · refine hhash ?_
    rw [hfront, show behind '?' (before '#' tail) = some q from hq]
    exact List.mem_append_right _ (List.mem_cons_of_mem _ hmem)

theorem Url.Built.sound {u : Url} (h : u.Built) (hs : IsNetScheme u.scheme) : u.Sound := by
  induction h with
  | parse h => exact Url.sound_of_parse h hs
  | stripCredentials _ ih => exact ⟨(ih hs).parts, (ih hs).path, (ih hs).path_hash, (ih hs).query_hash⟩
  | stripFragment _ ih => exact ⟨(ih hs).parts, (ih hs).path, (ih hs).path_hash, (ih hs).query_hash⟩
  | setOriginOnly _ ih =>
      have hroot : '#' ∉ ['/'] := by decide
      exact ⟨(ih hs).parts, ⟨[], rfl⟩, hroot, fun _ hq => by cases hq⟩
  | upgradedToHttps _ hv ih =>
      unfold Url.upgradedToHttps at hv
      split at hv
      · cases hv
      · rename_i u _ _ hscheme
        have hhttp : u.scheme = "http".toList := not_not.mp hscheme
        have hnet : IsNetScheme "https".toList := ⟨rfl, by decide⟩
        have hsound := ih (hhttp ▸ ⟨rfl, by decide⟩)
        obtain ⟨host, hhost, hparts⟩ := hsound.parts
        cases hv
        refine ⟨⟨host, hhost, hnet, hparts.parsed, ?_⟩, hsound.path, hsound.path_hash, hsound.query_hash⟩
        have hdefault : defaultPort "https".toList = some 443 := rfl
        show ¬ ((if u.port = some 80 ∨ u.port = some 443 then none else u.port).isSome = true ∧ _ = defaultPort "https".toList)
        rw [hdefault]
        split
        · rintro ⟨hnone, -⟩
          cases hnone
        · rename_i hother
          exact fun hboth => hother (Or.inr hboth.2)

/-! ## What is left of a source -/

/-- A URL without credentials begins with the text of its origin. -/
theorem Url.Sound.serialize {u : Url} (h : u.Sound) (hplain : u.hasCredentials = false) : ∃ host, u.host = some host ∧
    u.serialize true = (Origin.tuple u.scheme host u.port).serialize ++ (u.path ++ led '?' u.query) := by
  obtain ⟨host, hhost, -⟩ := h.parts
  refine ⟨host, hhost, ?_⟩
  rw [Origin.serialize_tuple, Url.serialize, hhost, hplain]
  unfold authorityText led
  cases u.fragment <;> cases u.query <;> cases u.port <;> simp

/-- The origin of a URL is made of its parts. -/
theorem Url.Sound.fromUrl {u : Url} (h : u.Sound) (fresh : UInt64) {host : Host} (hhost : u.host = some host) :
    Origin.fromUrl fresh u = .tuple u.scheme host u.port := by
  obtain ⟨host', hhost', hparts⟩ := h.parts
  rw [hhost] at hhost'
  obtain rfl := Option.some.inj hhost'
  obtain ⟨input, hparsed⟩ := hparts.parsed
  have hblob : ¬ u.scheme = "blob".toList := by
    rcases isNetScheme_cases hparts.net with h | h | h | h | h <;> rw [h] <;> decide
  rw [Origin.fromUrl, if_neg hblob, Origin.fromUrlInner_net hparts.net hhost (Host.isWeb_of_parse hparsed),
    if_neg hparts.normal]

/-- Cleaning a text leaves what is printable up to the last slash. -/
theorem cleaned_append {head : Text} (hgraphic : ∀ c ∈ head, isGraphic c = true) (hne : head ≠ []) (after : Text) :
    cleaned (head ++ '/' :: after) =
      head ++ '/' :: (after.rdropWhile (fun c => c ≤ ' ')).filter fun c => !(c = '\t' || c = '\n' || c = '\r') := by
  have hplain := fun c hc => plain_of_isGraphic (hgraphic c hc)
  obtain ⟨c, rest, rfl⟩ := List.exists_cons_of_ne_nil hne
  have hslash : decide ('/' ≤ ' ') = false := by decide
  have hkept : (c :: rest).filter (fun c => !(c = '\t' || c = '\n' || c = '\r')) = c :: rest :=
    List.filter_eq_self.mpr fun d hd => (hplain d hd).2
  rw [cleaned, trimStartMatches, List.cons_append,
    List.dropWhile_cons_of_neg (by rw [(hplain c List.mem_cons_self).1]; decide), ← List.cons_append, trimEndMatches,
    rdropWhile_append_cons hslash, List.filter_append, hkept, List.filter_cons_of_pos (by decide)]

/-- A URL without credentials is read back as one of its origin, without credentials and without a fragment. -/
theorem Url.Sound.parse_serialize {u : Url} (h : u.Sound) (hplain : u.hasCredentials = false)
    (hlen : Text.len (u.serialize true) ≤ MAX_URL_BYTES) : ∃ back, Url.parse (u.serialize true) = some back ∧
      (∀ fresh, Origin.fromUrl fresh back = Origin.fromUrl fresh u) ∧ back.hasCredentials = false ∧
      back.fragment = none := by
  obtain ⟨host, hhost, htext⟩ := h.serialize hplain
  obtain ⟨host', hhost', hparts⟩ := h.parts
  rw [hhost] at hhost'
  obtain rfl := Option.some.inj hhost'
  obtain ⟨t, hpath⟩ := h.path
  have hhash : '#' ∉ t ++ led '?' u.query := by
    rw [List.mem_append, not_or]
    refine ⟨fun hmem => h.path_hash (hpath ▸ List.mem_cons_of_mem _ hmem), fun hmem => ?_⟩
    cases hquery : u.query with
    | none => rw [hquery] at hmem; cases hmem
    | some q =>
        rw [hquery] at hmem
        exact h.query_hash q hquery ((List.mem_cons.mp hmem).resolve_left (by decide))
  rw [hpath, List.cons_append] at htext
  rw [htext] at hlen ⊢
  generalize t ++ led '?' u.query = after at hhash hlen ⊢
  -- what cleaning takes is behind the first slash
  have hclean : cleaned ((Origin.tuple u.scheme host u.port).serialize ++ '/' :: after) =
      (Origin.tuple u.scheme host u.port).serialize ++
        '/' :: (after.rdropWhile (fun c => c ≤ ' ')).filter fun c => !(c = '\t' || c = '\n' || c = '\r') :=
    cleaned_append hparts.isGraphic (by rw [Origin.serialize_tuple]; exact List.append_ne_nil_of_right_ne_nil _ (List.cons_ne_nil _ _)) after
  have hnone : '#' ∉ '/' :: (after.rdropWhile (fun c => c ≤ ' ')).filter fun c => !(c = '\t' || c = '\n' || c = '\r') :=
    List.not_mem_cons_of_ne_of_not_mem (by decide) fun hmem =>
      hhash ((List.rdropWhile_prefix _ _).sublist.subset (List.mem_of_mem_filter hmem))
  refine ⟨_, hparts.parse_append (Or.inr ⟨_, _, rfl, rfl⟩) hclean hlen, fun fresh => ?_, rfl, ?_⟩
  · rw [hparts.fromUrl, h.fromUrl fresh hhost]
  · show (splitOnce '#' _).map Prod.snd = none
    rw [splitOnce_eq_none hnone]
    rfl

namespace Referrer

/-! ## What a policy chooses -/

/-- The source without credentials and fragment. -/
def stripped (u : Url) : Url := u.stripCredentials.stripFragment

/-- The source cut to its origin. -/
def cut (u : Url) : Url := (stripped u).setOriginOnly

/-- The source that a policy may reveal whole: cut, if it is too long. -/
def whole (u : Url) : Url := if MAX_REFERRER_BYTES < ((stripped u).serialize true).len then cut u else stripped u

/-- What a policy chooses of a source, by whether the request is of its origin, and is a downgrade. -/
def chosen (policy : ReferrerPolicy) (sameOrigin downgrade : Bool) (u : Url) : Option Url :=
  match policy with
  | .noReferrer => none
  | .origin => some (cut u)
  | .unsafeUrl => some (whole u)
  | .strictOrigin => if downgrade then none else some (cut u)
  | .strictOriginWhenCrossOrigin => if sameOrigin then some (whole u) else if downgrade then none else some (cut u)
  | .originWhenCrossOrigin => some (if sameOrigin then whole u else cut u)
  | .sameOrigin => if sameOrigin then some (whole u) else none
  | .noReferrerWhenDowngrade => if downgrade then none else some (whole u)

/-- A source of an origin: the program has it, and its scheme has hosts and ports. -/
structure IsSource (u : Url) (o : Origin) : Prop where
  built : u.Built
  net : IsNetScheme u.scheme
  origin : ∃ fresh, Origin.fromUrl fresh u = o

/-- What can be revealed of a source: a URL of its origin, without credentials and fragment. -/
structure IsShown (shown : Url) (o : Origin) : Prop where
  sound : shown.Sound
  plain : shown.hasCredentials = false
  origin : ∀ fresh, Origin.fromUrl fresh shown = o

section
variable {u : Url} {o : Origin} (h : IsSource u o)
include h

/-- A source is of a tuple origin, which is made of its scheme, host and port. -/
theorem IsSource.tuple : ∃ host, u.host = some host ∧ o = .tuple u.scheme host u.port := by
  obtain ⟨fresh, horigin⟩ := h.origin
  obtain ⟨host, hhost, -⟩ := (h.built.sound h.net).parts
  exact ⟨host, hhost, by rw [← horigin, (h.built.sound h.net).fromUrl fresh hhost]⟩

theorem IsSource.fromUrl (fresh : UInt64) : Origin.fromUrl fresh u = o := by
  obtain ⟨host, hhost, rfl⟩ := h.tuple
  exact (h.built.sound h.net).fromUrl fresh hhost

/-- What is built of a source, and keeps its scheme, host and port, can be shown. -/
theorem IsSource.shown {v : Url} (hv : v.Built) (hscheme : v.scheme = u.scheme) (hhost : v.host = u.host)
    (hport : v.port = u.port) (hplain : v.hasCredentials = false) : IsShown v o := by
  obtain ⟨host, hu, rfl⟩ := h.tuple
  have hsound := hv.sound (hscheme ▸ h.net)
  refine ⟨hsound, hplain, fun fresh => ?_⟩
  rw [hsound.fromUrl fresh (hhost.trans hu), hscheme, hport]

theorem IsSource.stripped : IsShown (stripped u) o :=
  h.shown h.built.stripCredentials.stripFragment rfl rfl rfl rfl

theorem IsSource.cut : IsShown (cut u) o :=
  h.shown h.built.stripCredentials.stripFragment.setOriginOnly rfl rfl rfl rfl

theorem IsSource.whole : IsShown (whole u) o := by
  unfold Referrer.whole
  split
  · exact h.cut
  · exact h.stripped

/-- What is cut to an origin is the origin's text and a slash. -/
theorem IsSource.serialize_cut : (Referrer.cut u).serialize true = o.serialize ++ ['/'] := by
  obtain ⟨host, hu, rfl⟩ := h.tuple
  obtain ⟨host', hhost', htext⟩ := h.cut.sound.serialize rfl
  obtain rfl : host = host' := Option.some.inj (hu.symm.trans hhost')
  exact htext

end

/-! ## Trust -/

/-- A URL with a host is trusted as its origin is. -/
theorem trust_eq {w : Url} {fresh : UInt64} (hnet : IsNetScheme w.scheme) :
    Mixed.isUrlPotentiallyTrustworthy fresh w = Mixed.isOriginPotentiallyTrustworthy (Origin.fromUrl fresh w) := by
  have hscheme : ¬ w.scheme = "about".toList ∧ ¬ (w.scheme = "data".toList ∨ w.scheme = "file".toList) := by
    rcases isNetScheme_cases hnet with h | h | h | h | h <;> rw [h] <;> decide
  rw [Mixed.isUrlPotentiallyTrustworthy, if_neg hscheme.1, if_neg hscheme.2]

theorem IsShown.trust {shown : Url} {o : Origin} (h : IsShown shown o) (fresh : UInt64) :
    Mixed.isUrlPotentiallyTrustworthy fresh shown = Mixed.isOriginPotentiallyTrustworthy o := by
  obtain ⟨host, -, hparts⟩ := h.sound.parts
  rw [trust_eq hparts.net, h.origin]

/-- The request is of the source's origin. -/
def sameOrigin (o : Origin) (fresh : UInt64) (r : Url) : Bool := o = Origin.fromUrl fresh r

/-- The request is a downgrade from the source's origin. -/
def downgrade (o : Origin) (fresh : UInt64) (r : Url) : Bool :=
  Mixed.isOriginPotentiallyTrustworthy o && !Mixed.isUrlPotentiallyTrustworthy fresh r

theorem stripForReferrer_eq {u : Url} (h : IsNetScheme u.scheme) :
    stripForReferrer u false = some (stripped u) ∧ stripForReferrer u true = some (cut u) := by
  have hknown : (["http", "https", "ws", "wss", "ftp"].all fun s => s.toList ≠ u.scheme) = false := by
    rcases isNetScheme_cases h with h | h | h | h | h <;> rw [h] <;> decide
  unfold stripForReferrer
  rw [hknown]
  exact ⟨rfl, rfl⟩

theorem compute_eq {u : Url} {o : Origin} (h : IsSource u o) (fresh : UInt64) (policy : ReferrerPolicy) (r : Url) :
    compute fresh (some u) policy r =
      if r.scheme ≠ "http".toList ∧ r.scheme ≠ "https".toList then none
      else (chosen policy (sameOrigin o fresh r) (downgrade o fresh r) u).map fun shown => shown.serialize true := by
  obtain ⟨hstripped, hcut⟩ := stripForReferrer_eq h.net
  have hwhole : (if MAX_REFERRER_BYTES < ((stripped u).serialize true).len then cut u else stripped u) = whole u := rfl
  have htuple : o.isOpaque = false := by
    obtain ⟨host, -, rfl⟩ := h.tuple
    rfl
  unfold compute
  split
  · rfl
  · simp only [Option.bind_eq_bind, Option.bind_some, hstripped, hcut, hwhole, h.whole.origin, h.whole.trust, htuple,
      Bool.not_false, Bool.and_true]
    unfold chosen sameOrigin downgrade
    generalize decide (o = Origin.fromUrl fresh r) = same
    generalize (Mixed.isOriginPotentiallyTrustworthy o && !Mixed.isUrlPotentiallyTrustworthy fresh r) = down
    cases policy <;> cases same <;> cases down <;> rfl

/-! ## The limits -/

/-- These policies reveal no more than the origin. -/
def HidesPath (policy : ReferrerPolicy) : Prop :=
  policy = .noReferrer ∨ policy = .origin ∨ policy = .strictOrigin

/-- These reveal no more to other origins. -/
def HidesPathAcross (policy : ReferrerPolicy) : Prop :=
  policy = .sameOrigin ∨ policy = .originWhenCrossOrigin ∨ policy = .strictOriginWhenCrossOrigin

/-- These reveal nothing to what is less trustworthy. -/
def RefusesDowngrade (policy : ReferrerPolicy) : Prop :=
  policy = .noReferrerWhenDowngrade ∨ policy = .strictOrigin ∨ policy = .strictOriginWhenCrossOrigin

variable {policy : ReferrerPolicy}

theorem chosen_eq_some {same down : Bool} {u shown : Url}
    (h : chosen policy same down u = some shown) : shown = cut u ∨ shown = whole u := by
  have hcut : ∀ w, some (cut u) = some w → w = cut u ∨ w = whole u := fun _ hw => Or.inl (Option.some.inj hw).symm
  have hwhole : ∀ w, some (whole u) = some w → w = cut u ∨ w = whole u := fun _ hw => Or.inr (Option.some.inj hw).symm
  cases policy with
  | noReferrer => cases h
  | origin => exact hcut _ h
  | unsafeUrl => exact hwhole _ h
  | strictOrigin =>
      cases down with
      | true => cases h
      | false => exact hcut _ h
  | strictOriginWhenCrossOrigin =>
      cases same with
      | true => exact hwhole _ h
      | false =>
          cases down with
          | true => cases h
          | false => exact hcut _ h
  | originWhenCrossOrigin =>
      cases same with
      | true => exact hwhole _ h
      | false => exact hcut _ h
  | sameOrigin =>
      cases same with
      | true => exact hwhole _ h
      | false => cases h
  | noReferrerWhenDowngrade =>
      cases down with
      | true => cases h
      | false => exact hwhole _ h

/-- Sources of one origin are told apart by nothing that these policies choose. -/
theorem chosen_hides {same down : Bool} {u v : Url}
    (hp : HidesPath policy ∨ HidesPathAcross policy ∧ same = false) (hcut : (cut u).serialize true = (cut v).serialize true) :
    (chosen policy same down u).map (fun shown => shown.serialize true) =
      (chosen policy same down v).map fun shown => shown.serialize true := by
  have hsome : (some (cut u)).map (fun shown => shown.serialize true) =
      (some (cut v)).map fun shown => shown.serialize true := congrArg some hcut
  rcases hp with (rfl | rfl | rfl) | ⟨rfl | rfl | rfl, rfl⟩ <;> cases down <;> first | rfl | exact hsome

/-- No request is of the source's origin and a downgrade from it. -/
theorem not_downgrade_of_sameOrigin {o : Origin} {fresh : UInt64} {r : Url}
    (hr : r.scheme = "http".toList ∨ r.scheme = "https".toList) (h : sameOrigin o fresh r = true) :
    downgrade o fresh r = false := by
  rw [downgrade, Mixed.isUrlPotentiallyTrustworthy_of_web hr, ← of_decide_eq_true h, Bool.and_not_self]

theorem chosen_refuses {u : Url} (hp : RefusesDowngrade policy) : chosen policy false true u = none := by
  rcases hp with rfl | rfl | rfl <;> rfl

/-- The number of a new opaque origin tells only opaque origins apart. -/
theorem fromUrl_fresh (fresh fresh' : UInt64) (r : Url) : Origin.fromUrl fresh r = Origin.fromUrl fresh' r ∨
    Origin.fromUrl fresh r = .opaqueOrigin fresh ∧ Origin.fromUrl fresh' r = .opaqueOrigin fresh' := by
  have hinner : ∀ w : Url, Origin.fromUrlInner fresh w = Origin.fromUrlInner fresh' w ∨
      Origin.fromUrlInner fresh w = .opaqueOrigin fresh ∧ Origin.fromUrlInner fresh' w = .opaqueOrigin fresh' := by
    intro w
    unfold Origin.fromUrlInner
    split
    · cases w.host.bind fun h => Origin.ofParts w.scheme h w.port with
      | none => exact Or.inr ⟨rfl, rfl⟩
      | some o => exact Or.inl rfl
    · exact Or.inr ⟨rfl, rfl⟩
  unfold Origin.fromUrl
  split
  · split
    · split
      · exact hinner _
      · exact Or.inr ⟨rfl, rfl⟩
    · exact Or.inr ⟨rfl, rfl⟩
  · exact hinner r

theorem IsSource.sameOrigin_fresh {u : Url} {o : Origin} (h : IsSource u o) (fresh fresh' : UInt64) (r : Url) :
    sameOrigin o fresh r = sameOrigin o fresh' r := by
  obtain ⟨host, -, rfl⟩ := h.tuple
  unfold sameOrigin
  rcases fromUrl_fresh fresh fresh' r with heq | ⟨heq, heq'⟩
  · rw [heq]
  · rw [heq, heq']
    rfl

theorem downgrade_fresh (o : Origin) (fresh fresh' : UInt64) (r : Url) : downgrade o fresh r = downgrade o fresh' r := by
  have htrust : Mixed.isUrlPotentiallyTrustworthy fresh r = Mixed.isUrlPotentiallyTrustworthy fresh' r := by
    unfold Mixed.isUrlPotentiallyTrustworthy
    rcases fromUrl_fresh fresh fresh' r with heq | ⟨heq, heq'⟩
    · rw [heq]
    · rw [heq, heq']
      rfl
  rw [downgrade, htrust, downgrade]

/-- For two sources of one origin: what hides the path chooses the same text for both; what is chosen is read back as a
URL of their origin without credentials and fragment; and what refuses a downgrade chooses nothing at one. -/
theorem referer_reveals_no_more {u v : Url} {o : Origin} (hu : IsSource u o) (hv : IsSource v o) (r : Url) :
    (∀ policy fresh fresh', HidesPath policy ∨ HidesPathAcross policy ∧ Origin.fromUrl fresh r ≠ o →
        compute fresh (some u) policy r = compute fresh' (some v) policy r) ∧
    (∀ policy fresh value, compute fresh (some u) policy r = some value → value.len ≤ MAX_URL_BYTES →
        ∃ back, Url.parse value = some back ∧ (∀ f, Origin.fromUrl f back = o) ∧ back.hasCredentials = false ∧
          back.fragment = none) ∧
    (∀ policy fresh, RefusesDowngrade policy → Mixed.isUrlPotentiallyTrustworthy fresh u = true →
        Mixed.isUrlPotentiallyTrustworthy fresh r = false → compute fresh (some u) policy r = none) := by
  refine ⟨fun policy fresh fresh' hp => ?_, fun policy fresh value hvalue hlen => ?_, fun policy fresh hp htrust hdown => ?_⟩
  · rw [compute_eq hu, compute_eq hv, hu.sameOrigin_fresh fresh' fresh r, downgrade_fresh o fresh' fresh r]
    split
    · rfl
    · refine chosen_hides (hp.imp_right fun hacross => ⟨hacross.1, decide_eq_false fun heq => hacross.2 heq.symm⟩) ?_
      rw [hu.serialize_cut, hv.serialize_cut]
  · rw [compute_eq hu] at hvalue
    split at hvalue
    · cases hvalue
    · obtain ⟨shown, hchosen, rfl⟩ := Option.map_eq_some_iff.mp hvalue
      have hshown : IsShown shown o := by
        rcases chosen_eq_some hchosen with rfl | rfl
        · exact hu.cut
        · exact hu.whole
      obtain ⟨back, hparse, horigin, hplain, hfragment⟩ := hshown.sound.parse_serialize hshown.plain hlen
      exact ⟨back, hparse, fun f => (horigin f).trans (hshown.origin f), hplain, hfragment⟩
  · rw [compute_eq hu]
    split
    · rfl
    · rename_i hweb
      have hr : r.scheme = "http".toList ∨ r.scheme = "https".toList := by
        by_contra hneither
        exact hweb (not_or.mp hneither)
      have hsource : Mixed.isOriginPotentiallyTrustworthy o = true := by
        rw [← hu.fromUrl fresh, ← trust_eq hu.net, htrust]
      have hdowngrade : downgrade o fresh r = true := by
        rw [downgrade, hsource, hdown]
        rfl
      have hcross : sameOrigin o fresh r = false := by
        by_contra hsame
        rw [not_downgrade_of_sameOrigin hr (Bool.not_eq_false _ ▸ hsame)] at hdowngrade
        cases hdowngrade
      rw [hcross, hdowngrade, chosen_refuses hp]
      rfl

def sampleOrigin : Origin := .tuple "https".toList (.domain "h.example".toList) none

def sampleRead (input : String) : Url := (Url.parse input.toList).getD ⟨[], [], [], none, none, [], none, none⟩

theorem sample_isSource {input : String} (hparse : (Url.parse input.toList).isSome = true)
    (hscheme : (sampleRead input).scheme = "https".toList) (horigin : Origin.fromUrl 0 (sampleRead input) = sampleOrigin) :
    IsSource (sampleRead input) sampleOrigin := by
  obtain ⟨u, hu⟩ := Option.isSome_iff_exists.mp hparse
  have hread : sampleRead input = u := by rw [sampleRead, hu, Option.getD_some]
  have hnet : IsNetScheme "https".toList := ⟨rfl, by decide⟩
  exact ⟨hread ▸ .parse hu, hscheme ▸ hnet, 0, horigin⟩

/-- Two URLs of one origin, and a request that is a downgrade. -/
theorem referer_reveals_no_more_sample :
    compute 0 (some (sampleRead "https://u:p@h.example/a?b#c")) .origin (sampleRead "http://x.example/") =
        compute 1 (some (sampleRead "https://H.example:443/other")) .origin (sampleRead "http://x.example/") ∧
      (∃ back, Url.parse "https://h.example/a?b".toList = some back ∧ (∀ f, Origin.fromUrl f back = sampleOrigin) ∧
        back.hasCredentials = false ∧ back.fragment = none) ∧
      compute 0 (some (sampleRead "https://u:p@h.example/a?b#c")) .strictOrigin (sampleRead "http://x.example/") = none := by
  have hu := @sample_isSource "https://u:p@h.example/a?b#c" (by rfl) (by rfl) (by rfl)
  have hv := @sample_isSource "https://H.example:443/other" (by rfl) (by rfl) (by rfl)
  obtain ⟨hhides, hback, hrefuses⟩ := referer_reveals_no_more hu hv (sampleRead "http://x.example/")
  refine ⟨hhides .origin 0 1 (Or.inl (Or.inr (Or.inl rfl))), hback .unsafeUrl 0 _ (by rfl) (by decide),
    hrefuses .strictOrigin 0 (Or.inr (Or.inl rfl)) (by rfl) (by rfl)⟩

end Referrer

end Pelorus.Websec
