import Pelorus.Websec.Csp.Upgrade

/-
  Websec/OriginText.lean --- origins survive serialisation.

  THE TEXT of a tuple origin is a URL with an empty path.  It is read back as it was, it tells
  origins apart that are not the same, and the CSP engine has the same parts of it or refuses it.
-/
set_option autoImplicit false

namespace Pelorus.Websec

open Lib Lib.Text

/-! ## Derived origins -/

/-- A tuple origin that was derived from a URL. -/
def IsDerived (o : Origin) : Prop :=
  o.isOpaque = false ∧ ∃ input u fresh, Url.parse input = some u ∧ Origin.fromUrl fresh u = o

/-- The parts of a derived origin. -/
structure DerivedParts (scheme : Text) (host : Host) (port : Option UInt16) : Prop where
  net : IsNetScheme scheme
  parsed : ∃ input, parseHost input true = some host
  normal : ¬ (port.isSome ∧ port = defaultPort scheme)

variable {scheme : Text}

theorem lower_net (h : IsNetScheme scheme) : toAsciiLowercase scheme = scheme := by
  rcases isNetScheme_cases h with rfl | rfl | rfl | rfl | rfl <;> rfl

variable {port : Option UInt16} {host : Host}

/-- An origin made of parts that are as a parser leaves them. -/
theorem Origin.ofParts_eq (hs : IsNetScheme scheme)
    (hhost : host.IsWeb) : Origin.ofParts scheme host port =
      some (.tuple scheme host (if port.isSome ∧ port = defaultPort scheme then none else port)) := by
  unfold Origin.ofParts
  dsimp only
  rw [lower_net hs, if_neg (by simpa [hs.1] using hs.2)]
  cases host with
  | domain d => rfl
  | ipv4 octets => rfl
  | ipv6 pieces => rfl
  | opaqueHost d => exact hhost.elim
  | empty => exact hhost.elim

theorem Origin.fromUrlInner_net {u : Url} {host : Host} (hs : IsNetScheme u.scheme) (hu : u.host = some host)
    (hhost : host.IsWeb) (fresh : UInt64) : Origin.fromUrlInner fresh u =
      .tuple u.scheme host (if u.port.isSome ∧ u.port = defaultPort u.scheme then none else u.port) := by
  rw [Origin.fromUrlInner, if_pos (by simpa [Url.isSpecial, hs.1] using hs.2), hu, Option.bind_some,
    Origin.ofParts_eq hs hhost, Option.getD_some]

theorem derivedParts_inner {input : Text} {u : Url} {fresh : UInt64} (h : Url.parse input = some u)
    (ho : Origin.fromUrlInner fresh u = .tuple scheme host port) : DerivedParts scheme host port := by
  by_cases hs : IsNetScheme u.scheme
  · obtain ⟨raw, slashes, authority, tail, a, hread⟩ := Url.readFrom_of_parse h hs
    obtain ⟨⟨hostText, hhost⟩, _⟩ := parseAuthority_parts hread.read
    have hu : u.host = some a.host := by rw [hread.url]; rfl
    rw [Origin.fromUrlInner_net hs hu (Host.isWeb_of_parse hhost)] at ho
    injection ho with h₁ h₂ h₃
    subst h₁ h₂ h₃
    refine ⟨hs, ⟨hostText, hhost⟩, ?_⟩
    split
    · rintro ⟨hnone, _⟩
      cases hnone
    · assumption
  · unfold Origin.fromUrlInner at ho
    rw [if_neg] at ho
    · cases ho
    · intro hc
      rw [Bool.and_eq_true, decide_eq_true_eq] at hc
      exact hs hc

theorem derivedParts (h : IsDerived (.tuple scheme host port)) : DerivedParts scheme host port := by
  obtain ⟨_, input, u, fresh, hparse, ho⟩ := h
  unfold Origin.fromUrl at ho
  split at ho
  · -- a blob has the origin of the URL in its path
    split at ho
    · rename_i inner hinner
      split at ho
      · exact derivedParts_inner hinner ho
      · cases ho
    · cases ho
  · exact derivedParts_inner hparse ho

/-! ## The text of an origin -/

theorem Origin.serialize_tuple (scheme : Text) (host : Host) (port : Option UInt16) :
    (Origin.tuple scheme host port).serialize =
      scheme ++ ':' :: '/' :: '/' :: (authorityText host.serialize port) := by
  unfold Origin.serialize authorityText
  cases port <;> simp

/-- The authority of an origin is there, and has no character that an authority ends at. -/
theorem DerivedParts.authority (h : DerivedParts scheme host port) :
    parseAuthority (authorityText host.serialize port) true = some ⟨[], [], host, port⟩ ∧
      authorityText host.serialize port ≠ [] ∧ ∀ c ∈ authorityText host.serialize port, isHostChar c = true := by
  obtain ⟨input, hhost⟩ := h.parsed
  have hread := parseAuthority_authorityText hhost port
  refine ⟨hread, fun hnil => ?_, authorityText_chars (hostText_serialize hhost).2 port⟩
  rw [hnil] at hread
  cases hread

theorem DerivedParts.isGraphic (h : DerivedParts scheme host port) :
    ∀ c ∈ (Origin.tuple scheme host port).serialize, isGraphic c = true := by
  rw [Origin.serialize_tuple]
  intro c hc
  rcases List.mem_append.mp hc with hc | hc
  · have hall : scheme.all Text.isGraphic = true := by
      rcases isNetScheme_cases h.net with rfl | rfl | rfl | rfl | rfl <;> decide
    exact List.all_eq_true.mp hall c hc
  · simp only [List.mem_cons] at hc
    rcases hc with rfl | rfl | rfl | hc
    · decide
    · decide
    · decide
    · exact (isHostChar_iff.mp (h.authority.2.2 c hc)).1

/-- What follows the text of an origin, up to the trimming and cleaning, is what follows it as a URL is read. -/
theorem DerivedParts.parse_append {scheme : Text} {host : Host} {port : Option UInt16} (h : DerivedParts scheme host port)
    {after tail : Text} (htail : IsTail tail)
    (hclean : cleaned ((Origin.tuple scheme host port).serialize ++ after) = (Origin.tuple scheme host port).serialize ++ tail)
    (hlen : Text.len ((Origin.tuple scheme host port).serialize ++ after) ≤ MAX_URL_BYTES) :
    Url.parse ((Origin.tuple scheme host port).serialize ++ after) = some (assemble scheme ⟨[], [], host, port⟩ tail) := by
  obtain ⟨hread, hne, hauth⟩ := h.authority
  have hsplit : splitScheme (cleaned ((Origin.tuple scheme host port).serialize ++ after)) =
      some (scheme, '/' :: '/' :: (authorityText host.serialize port ++ tail)) := by
    rw [hclean, Origin.serialize_tuple, List.append_assoc]
    exact splitScheme_net h.net _
  rw [Url.parse_assembled h.net hne (fun c hc => endsAuthority_of_isHostChar (hauth c hc)) htail hlen hsplit, hread,
    Option.map_some]

/-- The text of an origin is read back as a URL of it. -/
theorem DerivedParts.parse (h : DerivedParts scheme host port)
    (hlen : Text.len (Origin.tuple scheme host port).serialize ≤ MAX_URL_BYTES) :
    Url.parse (Origin.tuple scheme host port).serialize = some (assemble scheme ⟨[], [], host, port⟩ []) := by
  have hclean := cleaned_of_isGraphic h.isGraphic
  have hread := @DerivedParts.parse_append scheme host port h [] [] (Or.inl rfl)
  rw [List.append_nil] at hread
  exact hread hclean hlen

/-- And of that URL it is derived again. -/
theorem DerivedParts.fromUrl (h : DerivedParts scheme host port)
    (fresh : UInt64) (tail : Text) :
    Origin.fromUrl fresh (assemble scheme ⟨[], [], host, port⟩ tail) = .tuple scheme host port := by
  obtain ⟨input, hhost⟩ := h.parsed
  have hblob : ¬ (assemble scheme ⟨[], [], host, port⟩ tail).scheme = "blob".toList := by
    show ¬ scheme = "blob".toList
    rcases isNetScheme_cases h.net with rfl | rfl | rfl | rfl | rfl <;> decide
  have hport : (assemble scheme ⟨[], [], host, port⟩ tail).port = port := if_neg h.normal
  have hinner := @Origin.fromUrlInner_net (assemble scheme ⟨[], [], host, port⟩ tail) host h.net rfl
    (Host.isWeb_of_parse hhost) fresh
  rw [hport] at hinner
  unfold Origin.fromUrl
  rw [if_neg hblob]
  exact hinner.trans (congrArg (Origin.tuple scheme host) (if_neg h.normal))

theorem portText_inj {p q : Option UInt16} (h : portText p = portText q) : p = q := by
  have hp := Csp.parsePort_portText p
  rw [h, Csp.parsePort_portText] at hp
  exact (Option.some.inj hp).symm

theorem DerivedParts.serialize_inj {scheme scheme' : Text} {host host' : Host} {port port' : Option UInt16}
    (h : DerivedParts scheme host port) (h' : DerivedParts scheme' host' port')
    (heq : (Origin.tuple scheme host port).serialize = (Origin.tuple scheme' host' port').serialize) :
    Origin.tuple scheme host port = .tuple scheme' host' port' := by
  have hcolon : ∀ {s : Text}, IsNetScheme s → ':' ∉ s := by
    intro s hs
    rcases isNetScheme_cases hs with rfl | rfl | rfl | rfl | rfl <;> decide
  obtain ⟨input, hhost⟩ := h.parsed
  obtain ⟨input', hhost'⟩ := h'.parsed
  have hcut := congrArg (splitOnce ':') heq
  rw [Origin.serialize_tuple, Origin.serialize_tuple, splitOnce_append (hcolon h.net),
    splitOnce_append (hcolon h'.net)] at hcut
  simp only [Option.some.injEq, Prod.mk.injEq, List.cons.injEq, true_and] at hcut
  obtain ⟨hscheme, hauth⟩ := hcut
  have hsplit := congrArg splitHostPort hauth
  rw [splitHostPort_authorityText (hostText_serialize hhost).1,
    splitHostPort_authorityText (hostText_serialize hhost').1] at hsplit
  simp only [Option.some.injEq, Prod.mk.injEq] at hsplit
  have hread := parseHost_serialize hhost
  rw [hsplit.1, parseHost_serialize hhost'] at hread
  rw [hscheme, (Option.some.inj hread).symm, portText_inj hsplit.2]

/-- What the CSP engine makes of the text. -/
theorem DerivedParts.engine (h : DerivedParts scheme host port) :
    Csp.Origin.fromUrlStr (Origin.tuple scheme host port).serialize = .opaqueOrigin ∨
      ∃ p, port.or (defaultPort scheme) = some p ∧
        Csp.Origin.fromUrlStr (Origin.tuple scheme host port).serialize = .tuple scheme host.serialize p := by
  obtain ⟨input, hhost⟩ := h.parsed
  unfold Csp.Origin.fromUrlStr
  cases hcu : Csp.CspUrl.parse (Origin.tuple scheme host port).serialize with
  | none => exact Or.inl rfl
  | some cu =>
      refine Or.inr ?_
      have hparts := @Csp.CspUrl.parse_assembled scheme [] host.serialize [] port cu h.net (Or.inl rfl)
        (hostText_serialize hhost).1 (hostText_serialize hhost).2 (lower_serialize hhost) (Or.inl rfl)
        (by rw [← hcu, Origin.serialize_tuple, List.nil_append, List.append_nil])
      obtain ⟨hscheme, hhost', hport⟩ := hparts
      rw [if_neg (show ¬ (port.isSome ∧ port = Csp.defaultPort scheme) from h.normal)] at hport
      have hspecial : Csp.isSpecialScheme scheme = true := by
        rcases isNetScheme_cases h.net with rfl | rfl | rfl | rfl | rfl <;> decide
      have heffective : ∃ p, port.or (defaultPort scheme) = some p := by
        cases port with
        | some p => exact ⟨p, rfl⟩
        | none =>
            have hall : (defaultPort scheme).isSome = true := by
              rcases isNetScheme_cases h.net with rfl | rfl | rfl | rfl | rfl <;> decide
            exact Option.isSome_iff_exists.mp hall
      obtain ⟨p, hp⟩ := heffective
      have hcp : cu.effectivePort = some p := by
        rw [Csp.CspUrl.effectivePort, hscheme, hport]
        exact hp
      refine ⟨p, hp, ?_⟩
      rw [Option.map_some, Option.getD_some, Csp.CspUrl.origin, hhost', hcp]
      simp only [hscheme, hspecial, if_true]

/-! ## Every derived origin -/

/-- A derived origin is read back from its text, if that is short enough for the parser; it has the text of no
other; and the CSP engine has its scheme, host and port, or refuses it. -/
theorem origin_survives {o : Origin} (h : IsDerived o) :
    (o.serialize.len ≤ MAX_URL_BYTES →
        ∃ u, Url.parse o.serialize = some u ∧ ∀ fresh, Origin.fromUrl fresh u = o) ∧
      (∀ o', IsDerived o' → (o.serialize = o'.serialize ↔ o.sameOrigin o' = true)) ∧
      (Csp.Origin.fromUrlStr o.serialize = .opaqueOrigin ∨
        ∃ scheme host port p, o = .tuple scheme host port ∧ port.or (defaultPort scheme) = some p ∧
          Csp.Origin.fromUrlStr o.serialize = .tuple scheme host.serialize p) := by
  have htuple : ∀ {o : Origin}, IsDerived o → ∃ scheme host port, o = .tuple scheme host port ∧
      DerivedParts scheme host port := by
    intro o h
    cases o with
    | opaqueOrigin id => cases h.1
    | tuple scheme host port => exact ⟨scheme, host, port, rfl, derivedParts h⟩
  obtain ⟨scheme, host, port, rfl, hparts⟩ := htuple h
  refine ⟨?_, ?_, ?_⟩
  · intro hlen
    exact ⟨_, hparts.parse hlen, fun fresh => hparts.fromUrl fresh []⟩
  · intro o' h'
    obtain ⟨scheme', host', port', rfl, hparts'⟩ := htuple h'
    rw [Origin.sameOrigin, decide_eq_true_eq]
    exact ⟨hparts.serialize_inj hparts', fun heq => by rw [heq]⟩
  · rcases hparts.engine with hno | ⟨p, hp, hsome⟩
    · exact Or.inl hno
    · exact Or.inr ⟨scheme, host, port, p, rfl, hp, hsome⟩

theorem origin_survives_sample :
    (∃ u, Url.parse "http://[::ffff:0:1]:8080".toList = some u ∧ ∀ fresh, Origin.fromUrl fresh u =
      .tuple "http".toList (.ipv6 ⟨[0, 0, 0, 0, 0, 0xffff, 0, 1], rfl⟩) (some 8080)) := by
  have hderived : IsDerived (.tuple "http".toList (.ipv6 ⟨[0, 0, 0, 0, 0, 0xffff, 0, 1], rfl⟩) (some 8080)) :=
    ⟨rfl, "HTTP:\\\\u@[0:0::FFFF:0.0.0.1]:08080/x".toList, _, 0, rfl, rfl⟩
  exact (origin_survives hderived).1 (by decide)

end Pelorus.Websec
