import Mathlib.Data.List.TakeWhile
import Pelorus.Websec.Mixed

/-
  Websec/Web.lean --- what the parser establishes of a URL that can be fetched.

  AN http(s) URL that was parsed has a host that is a name or an address, so its origin is
  a tuple; and its parts are no longer than the text that they were read from.
-/
set_option autoImplicit false

namespace Pelorus.Websec

open Lib Lib.Text

/-! ## Hosts -/

/-- A name or an address. -/
def Host.IsWeb : Host → Prop
  | .domain _ => True
  | .ipv4 _ => True
  | .ipv6 _ => True
  | .opaqueHost _ => False
  | .empty => False

variable {input scheme s a b : Text} {sep : Char} {u : Url}

theorem Host.isWeb_of_parse {host : Host} (h : parseHost input true = some host) : host.IsWeb := by
  unfold parseHost at h
  split at h
  · obtain ⟨_, _, h⟩ := Option.bind_eq_some_iff.mp h
    obtain ⟨_, _, h⟩ := Option.bind_eq_some_iff.mp h
    cases h
    trivial
  · simp only [Bool.not_true, Bool.false_eq_true, if_false] at h
    obtain ⟨_, _, h⟩ := Option.bind_eq_some_iff.mp h
    split at h
    · cases h
    · split at h
      · obtain ⟨_, _, rfl⟩ := Option.map_eq_some_iff.mp h
        trivial
      · cases h
        trivial

/-- A character has at most four bytes. -/
theorem Text.len_le (s : Text) : s.len ≤ 4 * s.length := by
  rw [len_eq_sum]
  induction s with
  | nil => exact Nat.le_refl _
  | cons c s ih =>
      have hc : c.utf8Size ≤ 4 := Char.utf8Size_le_four c
      rw [List.map_cons, List.sum_cons, List.length_cons]
      omega

theorem hex_length (n : UInt16) : (hex n).length ≤ 4 := by
  unfold hex
  exact (Nat.length_toDigits_le_iff (by decide) (by decide)).mpr (UInt16.toNat_lt n)

theorem serializeIpv6From_length (best : Option (Nat × Nat)) : ∀ (i : Nat) (pieces : List UInt16),
    (serializeIpv6From best i pieces).length ≤ 5 * pieces.length
  | _, [] => Nat.le_refl _
  | i, p :: pieces => by
      have ih := serializeIpv6From_length best (i + 1) pieces
      have hp := hex_length p
      unfold serializeIpv6From
      split
      · split
        · simp only [List.length_cons]
          omega
        · split
          · simp only [List.length_cons]
            omega
          · simp only [List.length_append, List.length_cons]
            split <;> simp only [List.length_cons, List.length_nil] <;> omega
      · simp only [List.length_append, List.length_cons]
        split <;> simp only [List.length_cons, List.length_nil] <;> omega

theorem decimalByte_length (n : UInt8) : (decimalByte n).length ≤ 3 := by
  unfold decimalByte
  refine (Nat.length_toDigits_le_iff (by decide) (by decide)).mpr ?_
  exact Nat.lt_of_lt_of_le (UInt8.toNat_lt n) (by decide)

/-- An address is a short text. -/
theorem serialize_ipv6_length (pieces : { l : List UInt16 // l.length = 8 }) :
    (Host.ipv6 pieces).serialize.length ≤ 42 := by
  have h := serializeIpv6From_length (longestZeroRun 0 pieces.1) 0 pieces.1
  rw [pieces.2] at h
  simp only [Host.serialize, serializeIpv6, List.cons_append, List.length_cons, List.length_append,
    List.length_nil]
  omega

theorem serialize_ipv4_length (octets : { l : List UInt8 // l.length = 4 }) :
    (Host.ipv4 octets).serialize.length ≤ 15 := by
  obtain ⟨l, hl⟩ := octets
  match l, hl with
  | [a, b, c, d], _ =>
      have ha := decimalByte_length a
      have hb := decimalByte_length b
      have hc := decimalByte_length c
      have hd := decimalByte_length d
      simp only [Host.serialize, List.map_cons, List.map_nil, List.intercalate, List.intersperse,
        List.flatten_cons, List.flatten_nil, List.length_append, List.length_cons, List.length_nil]
      omega

theorem percentDecode_length (bytes : List UInt8) : (percentDecode bytes).length ≤ bytes.length := by
  fun_induction percentDecode bytes with
  | case1 => exact Nat.le_refl _
  | case2 =>
      simp only [List.length_cons]
      omega
  | case3 =>
      simp only [List.length_cons] at *
      omega
  | case4 =>
      simp only [List.length_cons] at *
      omega
  | case5 =>
      simp only [List.length_cons]
      omega

theorem len_percentDecodeAscii {out : Text} (h : percentDecodeAscii input = some out) :
    out.len ≤ input.len := by
  simp only [percentDecodeAscii] at h
  split at h
  · rename_i hascii
    cases h
    rw [len_of_isAscii (toChar_isAscii (by simpa using hascii)), List.length_map]
    exact percentDecode_length _
  · cases h

/-- A host is no longer than what it was read from, if that is not very short. -/
theorem Host.len_of_parse {host : Host} (h : parseHost input true = some host) :
    host.serialize.len ≤ max input.len 168 := by
  unfold parseHost at h
  split at h
  · obtain ⟨_, _, h⟩ := Option.bind_eq_some_iff.mp h
    obtain ⟨pieces, _, h⟩ := Option.bind_eq_some_iff.mp h
    cases h
    have h₁ := Text.len_le (Host.ipv6 pieces).serialize
    have h₂ := serialize_ipv6_length pieces
    omega
  · simp only [Bool.not_true, Bool.false_eq_true, if_false] at h
    obtain ⟨decoded, hdecoded, h⟩ := Option.bind_eq_some_iff.mp h
    split at h
    · cases h
    · split at h
      · obtain ⟨octets, _, rfl⟩ := Option.map_eq_some_iff.mp h
        have h₁ := Text.len_le (Host.ipv4 octets).serialize
        have h₂ := serialize_ipv4_length octets
        omega
      · cases h
        have h₁ := len_percentDecodeAscii hdecoded
        simp only [Host.serialize, len_toAsciiLowercase]
        omega

/-! ## URLs -/

/-- `http` or `https`. -/
def isWebScheme (scheme : Text) : Prop := scheme = "http".toList ∨ scheme = "https".toList

theorem isSpecialScheme_of_web (h : isWebScheme scheme) :
    isSpecialScheme scheme = true ∧ scheme ≠ "file".toList := by
  rcases h with rfl | rfl <;> exact ⟨by decide, by decide⟩

/-- What the parser establishes of an http(s) URL. -/
structure Url.Web (u : Url) : Prop where
  scheme : isWebScheme u.scheme
  host : ∃ host, u.host = some host ∧ host.IsWeb ∧ host.serialize.len ≤ MAX_URL_BYTES
  path : u.path.len ≤ MAX_URL_BYTES
  query : ∀ q, u.query = some q → q.len ≤ MAX_URL_BYTES

theorem len_splitOnce_left (h : splitOnce sep s = some (a, b)) : a.len ≤ s.len := by
  rw [(splitOnce_eq_some h).1, len_append]
  omega

theorem len_splitOnce_right (h : splitOnce sep s = some (a, b)) : b.len ≤ s.len := by
  rw [(splitOnce_eq_some h).1, len_append]
  exact Nat.le_add_left_of_le (len_le_of_sublist (List.sublist_cons_self sep b))

theorem rsplitOnce_eq_some (h : rsplitOnce sep s = some (a, b)) : s = a ++ sep :: b := by
  obtain ⟨⟨after, before⟩, hsplit, heq⟩ := Option.map_eq_some_iff.mp h
  cases heq
  have hrev := congrArg List.reverse (splitOnce_eq_some hsplit).1
  simpa using hrev

theorem rsplitOnce_append (h : sep ∉ b) (a : Text) : rsplitOnce sep (a ++ sep :: b) = some (a, b) := by
  have hrev : (a ++ sep :: b).reverse = b.reverse ++ sep :: a.reverse := by simp
  have hnot : sep ∉ b.reverse := by simpa using h
  rw [rsplitOnce, hrev, splitOnce_append hnot]
  simp

theorem rsplitOnce_eq_none (h : sep ∉ s) : rsplitOnce sep s = none := by
  rw [rsplitOnce, splitOnce_eq_none (by simpa using h)]
  rfl

theorem len_rsplitOnce_left (h : rsplitOnce sep s = some (a, b)) : a.len ≤ s.len := by
  rw [rsplitOnce_eq_some h, len_append]
  omega

theorem len_rsplitOnce_right (h : rsplitOnce sep s = some (a, b)) : b.len ≤ s.len := by
  rw [rsplitOnce_eq_some h, len_append]
  exact Nat.le_add_left_of_le (len_le_of_sublist (List.sublist_cons_self _ _))

theorem len_splitHostPort {hostport host : Text} {port : Option Text}
    (h : splitHostPort hostport = some (host, port)) : host.len ≤ hostport.len := by
  unfold splitHostPort at h
  split at h
  · obtain ⟨⟨inner, rest⟩, hsplit, h⟩ := Option.bind_eq_some_iff.mp h
    have hle : (inner ++ [']']).len ≤ hostport.len := by
      rw [(splitOnce_eq_some hsplit).1, len_append, len_append]
      exact Nat.add_le_add_left (len_le_of_sublist (List.Sublist.cons_cons _ (List.nil_sublist _))) _
    dsimp only at h
    split at h
    · cases h
      exact hle
    · cases h
      exact hle
    · cases h
  · split at h
    · rename_i hsplit
      cases h
      exact len_rsplitOnce_left hsplit
    · cases h
      exact Nat.le_refl _

/-- The host of an authority, where the scheme is special. -/
theorem parseAuthority_host {auth : Text} {authority : Authority}
    (h : parseAuthority auth true = some authority) :
    authority.host.IsWeb ∧ authority.host.serialize.len ≤ max auth.len 168 := by
  unfold parseAuthority at h
  simp only [Bool.true_or, if_true] at h
  obtain ⟨⟨hostS, portS⟩, hsplit, h⟩ := Option.bind_eq_some_iff.mp h
  have hlen : hostS.len ≤ auth.len := by
    refine Nat.le_trans (len_splitHostPort hsplit) ?_
    cases hr : rsplitOnce '@' auth with
    | none => exact Nat.le_refl _
    | some p => exact len_rsplitOnce_right (by rw [hr]; rfl)
  split at h
  · cases h
  · obtain ⟨host, hhost, h⟩ := Option.bind_eq_some_iff.mp h
    have hweb := Host.isWeb_of_parse hhost
    have hle : host.serialize.len ≤ max auth.len 168 :=
      Nat.le_trans (Host.len_of_parse hhost) (max_le_max_right 168 hlen)
    split at h
    · cases h
      exact ⟨hweb, hle⟩
    · split at h
      · cases h
        exact ⟨hweb, hle⟩
      · split at h
        · cases h
        · obtain ⟨n, _, h⟩ := Option.bind_eq_some_iff.mp h
          cases h
          exact ⟨hweb, hle⟩

/-- The input of `parse` without what is dropped from it. -/
def cleaned (input : Text) : Text :=
  (trimEndMatches (fun c => c ≤ ' ') (trimStartMatches (fun c => c ≤ ' ') input)).filter
    fun c => !(c = '\t' || c = '\n' || c = '\r')

theorem len_cleaned (input : Text) : (cleaned input).len ≤ input.len :=
  len_le_of_sublist (List.filter_sublist.trans
    ((List.rdropWhile_prefix _ _).sublist.trans (List.dropWhile_suffix _).sublist))

theorem splitScheme_eq_some {rest : Text} (h : splitScheme s = some (scheme, rest)) :
    ∃ raw, splitOnce ':' s = some (raw, rest) ∧ scheme = toAsciiLowercase raw := by
  obtain ⟨⟨raw, rest'⟩, hsplit, h⟩ := Option.bind_eq_some_iff.mp h
  obtain ⟨first, _, h⟩ := Option.bind_eq_some_iff.mp h
  split at h
  · cases h
    exact ⟨raw, hsplit, rfl⟩
  · cases h

/-- Where a text is cut at a character, if it is there, both parts are no longer. -/
theorem len_cut_left (sep : Char) (s : Text) :
    (((splitOnce sep s).map fun p => (p.1, some p.2)).getD (s, none)).1.len ≤ s.len := by
  cases h : splitOnce sep s with
  | none => exact Nat.le_refl _
  | some p => exact len_splitOnce_left h

theorem len_cut_right (sep : Char) (s q : Text)
    (h : (((splitOnce sep s).map fun p => (p.1, some p.2)).getD (s, none)).2 = some q) : q.len ≤ s.len := by
  cases hs : splitOnce sep s with
  | none =>
      rw [hs] at h
      cases h
  | some p =>
      rw [hs] at h
      cases h
      exact len_splitOnce_right hs

/-- What `parse` reads: the scheme, the authority and the path of texts that are part of the
input. -/
theorem Url.parse_cases (h : Url.parse input = some u) :
    input.len ≤ MAX_URL_BYTES ∧ ∃ raw rest body authority tail,
      splitOnce ':' (cleaned input) = some (raw, rest) ∧ u.scheme = toAsciiLowercase raw ∧
      body.len ≤ rest.len ∧ parseAfterScheme u.scheme body = some (authority, tail) ∧
      u.host = authority.map Authority.host ∧
      (isSpecialScheme u.scheme = true →
        u.path = if (tail.map fun c => if c = '\\' then '/' else c).isEmpty then ['/']
          else tail.map fun c => if c = '\\' then '/' else c) ∧
      ∀ q, u.query = some q → q.len ≤ rest.len := by
  unfold Url.parse at h
  split at h
  · cases h
  · rename_i hmax
    obtain ⟨⟨scheme, rest⟩, hscheme, h⟩ := Option.bind_eq_some_iff.mp h
    dsimp only at h
    obtain ⟨⟨authority, tail⟩, hafter, h⟩ := Option.bind_eq_some_iff.mp h
    obtain ⟨raw, hraw, rfl⟩ := splitScheme_eq_some hscheme
    have hcut := len_cut_left '#' rest
    cases h
    refine ⟨Nat.le_of_not_lt hmax, raw, rest, _, authority, tail, hraw, rfl, ?_, hafter, rfl, ?_, ?_⟩
    · exact Nat.le_trans (len_cut_left '?' _) hcut
    · intro hspecial
      exact if_pos hspecial
    · intro q hq
      exact Nat.le_trans (len_cut_right '?' _ q hq) hcut

theorem len_dropWhile (p : Char → Bool) (s : Text) : Text.len (s.dropWhile p) ≤ s.len :=
  len_le_of_sublist (List.dropWhile_suffix p).sublist

theorem len_cutAt (p : Char → Bool) (s : Text) : (cutAt p s).1.len ≤ s.len ∧ (cutAt p s).2.len ≤ s.len := by
  unfold cutAt
  rw [List.span_eq_takeWhile_dropWhile]
  exact ⟨len_le_of_sublist (List.takeWhile_prefix _).sublist, len_dropWhile _ s⟩

theorem len_map_slash (s : Text) : Text.len (s.map fun c => if c = '\\' then '/' else c) = s.len := by
  rw [len_eq_sum, len_eq_sum, List.map_map]
  congr 1
  refine List.map_congr_left ?_
  intro c _
  by_cases hc : c = '\\'
  · rw [Function.comp_apply, if_pos hc, hc]
    rfl
  · rw [Function.comp_apply, if_neg hc]

/-- Of a web URL the parser has read an authority, and the path behind it. -/
theorem parseAfterScheme_web {body tail : Text} {authority : Option Authority}
    (hs : isWebScheme scheme) (h : parseAfterScheme scheme body = some (authority, tail)) :
    ∃ a, authority = some a ∧ a.host.IsWeb ∧ a.host.serialize.len ≤ max body.len 168 ∧
      tail.len ≤ body.len := by
  obtain ⟨hspecial, hfile⟩ := isSpecialScheme_of_web hs
  unfold parseAfterScheme at h
  rw [if_neg hfile, if_pos hspecial] at h
  obtain ⟨a, ha, h⟩ := Option.bind_eq_some_iff.mp h
  cases h
  obtain ⟨hauth, htail⟩ := len_cutAt (fun c => c = '/' || (isSpecialScheme scheme && c = '\\'))
    (body.dropWhile fun c => c = '/' || (isSpecialScheme scheme && c = '\\'))
  have hdrop := len_dropWhile (fun c => c = '/' || (isSpecialScheme scheme && c = '\\')) body
  obtain ⟨hweb, hlen⟩ := parseAuthority_host ha
  refine ⟨a, rfl, hweb, ?_, Nat.le_trans htail hdrop⟩
  exact Nat.le_trans hlen (max_le_max_right 168 (Nat.le_trans hauth hdrop))

/-- An http(s) URL that was parsed has what `Url.Web` says. -/
theorem Url.web_of_parse (h : Url.parse input = some u)
    (hs : isWebScheme u.scheme) : u.Web := by
  obtain ⟨hmax, raw, rest, body, authority, tail, hraw, _, hbody, hafter, hhost, hpath, hquery⟩ :=
    Url.parse_cases h
  have hrest : rest.len ≤ MAX_URL_BYTES :=
    Nat.le_trans (Nat.le_trans (len_splitOnce_right hraw) (len_cleaned input)) hmax
  obtain ⟨a, rfl, hweb, hlen, htail⟩ := parseAfterScheme_web hs hafter
  have hmin : 168 ≤ MAX_URL_BYTES := by decide
  refine ⟨hs, ⟨a.host, hhost, hweb, ?_⟩, ?_, fun q hq => Nat.le_trans (hquery q hq) hrest⟩
  · exact Nat.le_trans hlen (max_le (Nat.le_trans hbody hrest) hmin)
  · rw [hpath (isSpecialScheme_of_web hs).1]
    split
    · decide
    · rw [len_map_slash]
      exact Nat.le_trans htail (Nat.le_trans hbody hrest)

theorem cleaned_web (hs : isWebScheme scheme) (rest : Text) :
    ∃ rest', cleaned (scheme ++ ':' :: rest) = scheme ++ ':' :: rest' := by
  have hcolon : decide (':' ≤ ' ') = false := by decide
  refine ⟨(rest.rdropWhile fun c => decide (c ≤ ' ')).filter
    fun c => !(c = '\t' || c = '\n' || c = '\r'), ?_⟩
  unfold cleaned trimEndMatches trimStartMatches
  have hstart : (scheme ++ ':' :: rest).dropWhile (fun c => decide (c ≤ ' ')) = scheme ++ ':' :: rest := by
    rcases hs with rfl | rfl <;> rfl
  rw [hstart, rdropWhile_append_cons hcolon, List.filter_append]
  rcases hs with rfl | rfl <;> rfl

theorem Url.scheme_of_parse {rest : Text} (hs : isWebScheme scheme)
    (h : Url.parse (scheme ++ ':' :: rest) = some u) : u.scheme = scheme := by
  obtain ⟨_, raw, rest', _, _, _, hraw, hscheme, _⟩ := Url.parse_cases h
  obtain ⟨rest'', hclean⟩ := cleaned_web hs rest
  have hcolon : ':' ∉ scheme := by
    rcases hs with rfl | rfl <;> decide
  rw [hclean, splitOnce_append hcolon] at hraw
  cases hraw
  rw [hscheme]
  rcases hs with rfl | rfl <;> rfl

/-- The https form of a URL is one like it. -/
theorem Url.Web.upgraded {u' : Url} (h : u.Web) (hu : u.upgradedToHttps = some u') : u'.Web := by
  unfold Url.upgradedToHttps at hu
  split at hu
  · cases hu
  · cases hu
    exact ⟨Or.inr rfl, h.host, h.path, h.query⟩

/-! ## Origins -/

/-- The port of an origin, without the default of the scheme. -/
def Url.originPort (u : Url) : Option UInt16 :=
  if u.port.isSome ∧ u.port = defaultPort u.scheme then none else u.port

/-- The origin of a web URL is its scheme, host and port, and no new opaque one. -/
theorem Url.Web.origin (h : u.Web) (fresh : UInt64) :
    ∃ host, u.host = some host ∧ Origin.fromUrl fresh u = .tuple u.scheme host u.originPort := by
  obtain ⟨host, hhost, hweb, _⟩ := h.host
  obtain ⟨hspecial, hfile⟩ := isSpecialScheme_of_web h.scheme
  refine ⟨host, hhost, ?_⟩
  have hblob : u.scheme ≠ "blob".toList := by
    rcases h.scheme with hs | hs <;> rw [hs] <;> decide
  have hlower : toAsciiLowercase u.scheme = u.scheme := by
    rcases h.scheme with hs | hs <;> rw [hs] <;> rfl
  have hparts : Origin.ofParts u.scheme host u.port = some (.tuple u.scheme host u.originPort) := by
    unfold Origin.ofParts
    rw [hlower, if_neg (by simpa [hspecial] using hfile)]
    cases host with
    | domain d => rfl
    | ipv4 octets => rfl
    | ipv6 pieces => rfl
    | opaqueHost d => exact hweb.elim
    | empty => exact hweb.elim
  rw [Origin.fromUrl, if_neg hblob, Origin.fromUrlInner, if_pos (by simpa [Url.isSpecial, hspecial] using hfile),
    hhost, Option.bind_some, hparts, Option.getD_some]

/-- Web URLs of one origin have one scheme and one host. -/
theorem Url.Web.of_sameOrigin {v : Url} (hu : u.Web) (hv : v.Web) {fresh fresh' : UInt64}
    (h : (Origin.fromUrl fresh u).sameOrigin (Origin.fromUrl fresh' v) = true) :
    u.scheme = v.scheme ∧ u.host = v.host := by
  obtain ⟨host, hhost, ho⟩ := hu.origin fresh
  obtain ⟨host', hhost', ho'⟩ := hv.origin fresh'
  rw [ho, ho'] at h
  have heq : Origin.tuple u.scheme host u.originPort = .tuple v.scheme host' v.originPort := by
    simpa [Origin.sameOrigin] using h
  injection heq with hscheme hsame _
  exact ⟨hscheme, by rw [hhost, hhost', hsame]⟩

theorem Url.Web.origin_fresh (h : u.Web) (fresh fresh' : UInt64) :
    Origin.fromUrl fresh u = Origin.fromUrl fresh' u := by
  obtain ⟨host, hhost, ho⟩ := h.origin fresh
  obtain ⟨host', hhost', ho'⟩ := h.origin fresh'
  rw [hhost] at hhost'
  cases hhost'
  rw [ho, ho']

end Pelorus.Websec
