import Pelorus.Store.Cookies

/-
  Store/CookieHeader.lean --- the header a stored cookie is recreated from, read
  back by the parser that accepted the first one.

  The header is the pair and then attributes, each led by a semicolon and a space
  (`toSetCookie_eq`); the parser cuts it into the same pieces again, and reads each
  as the field it was written from (`foldlM_attributes`).  What remains are the
  parser's limits, and `survives_iff` says when they are met.
-/
set_option autoImplicit false

namespace Pelorus.Store

open Lib Lib.Text Net

/-! ## Reading one attribute -/

/-- An attribute with a value: the key in lower case, the value trimmed. -/
theorem readAttribute_keyed {k : Text} (a : Attributes) (hk : k.dropWhile isWhitespace = k)
    (heq : '=' ∉ k) (v : Text) :
    readAttribute a (' ' :: (k ++ '=' :: v)) =
      applyAttribute a (toAsciiLowercase (trim k)) (trim v) := by
  have hspace : isWhitespace ' ' = true := by decide
  have hequals : isWhitespace '=' = false := by decide
  have hstart : (k ++ '=' :: v).dropWhile isWhitespace = k ++ '=' :: v := by
    rw [List.dropWhile_append, hk]
    split
    · rename_i hnil
      simp [List.isEmpty_iff.mp hnil, hequals]
    · rfl
  have htrim : trim (' ' :: (k ++ '=' :: v)) = k ++ '=' :: v.rdropWhile isWhitespace := by
    rw [trim, trimStartMatches, List.dropWhile_cons, if_pos hspace, hstart, trimEndMatches,
      rdropWhile_append_cons hequals]
  have hparts : attributeParts (k ++ '=' :: v.rdropWhile isWhitespace) =
      (toAsciiLowercase (trim k), trim v) := by
    simp only [attributeParts, splitOnce_append heq]
    exact congrArg (Prod.mk _) (trim_trimEnd v)
  simp only [readAttribute, htrim, hparts]
  rw [if_neg (by simp)]

theorem readAttribute_domain (a : Attributes) (d : Text) :
    readAttribute a (" Domain=".toList ++ d) = applyAttribute a "domain".toList (trim d) :=
  @readAttribute_keyed "Domain".toList a (by decide) (by decide) d

theorem readAttribute_path (a : Attributes) (p : Text) :
    readAttribute a (" Path=".toList ++ p) = applyAttribute a "path".toList (trim p) :=
  @readAttribute_keyed "Path".toList a (by decide) (by decide) p

theorem readAttribute_maxAge (a : Attributes) (n : Text) :
    readAttribute a (" Max-Age=".toList ++ n) = applyAttribute a "max-age".toList (trim n) :=
  @readAttribute_keyed "Max-Age".toList a (by decide) (by decide) n

theorem readAttribute_secure (a : Attributes) :
    readAttribute a " Secure".toList = .ok { a with secure := true } := rfl

theorem readAttribute_httpOnly (a : Attributes) :
    readAttribute a " HttpOnly".toList = .ok { a with httpOnly := true } := rfl

/-- The `SameSite` attribute without its semicolon. -/
def sameSiteAttribute : SameSite → Text
  | .strict => " SameSite=Strict".toList
  | .lax => " SameSite=Lax".toList
  | .none => " SameSite=None".toList

theorem readAttribute_sameSite (a : Attributes) (site : SameSite) :
    readAttribute a (sameSiteAttribute site) = .ok { a with sameSite := site } := by
  cases site <;> rfl

/-! ## The header in pieces -/

/-- The seconds left of a cookie that has not expired; none for a session cookie. -/
def liveSeconds (expiresUnix : Option UInt64) (nowUnix : UInt64) : Option (Option Nat) :=
  match expiresUnix with
  | some at_ => if at_.toNat ≤ nowUnix.toNat then none else some (some (at_.toNat - nowUnix.toNat))
  | none => some none

/-- The pieces after the domain. -/
def restAttributes (s : StoredCookie) (left : Option Nat) : List Text :=
  [" Path=".toList ++ s.path] ++ (if s.secure then [" Secure".toList] else []) ++
    (if s.httpOnly then [" HttpOnly".toList] else []) ++ [sameSiteAttribute s.sameSite] ++
    (left.map fun n => " Max-Age=".toList ++ Nat.toDigits 10 n).toList

/-- The pieces after the pair. -/
def attributes (s : StoredCookie) (left : Option Nat) : List Text :=
  (if s.hostOnly then [] else [" Domain=".toList ++ s.domain]) ++ restAttributes s left

/-- The header with the seconds left given. -/
def header (s : StoredCookie) (left : Option Nat) : Text :=
  (s.name ++ '=' :: s.value) ++ (attributes s left).flatMap fun p => ';' :: p

theorem sameSiteText_eq (site : SameSite) :
    StoredCookie.sameSiteText site = ';' :: sameSiteAttribute site := by
  cases site <;> rfl

theorem toSetCookie_eq (s : StoredCookie) (nowUnix : UInt64) :
    s.toSetCookie nowUnix = (liveSeconds s.expiresUnix nowUnix).map (header s) := by
  have hdomain : "; Domain=".toList = ';' :: " Domain=".toList := rfl
  have hpath : "; Path=".toList = ';' :: " Path=".toList := rfl
  have hsecure : "; Secure".toList = ';' :: " Secure".toList := rfl
  have hhttp : "; HttpOnly".toList = ';' :: " HttpOnly".toList := rfl
  have hage : "; Max-Age=".toList = ';' :: " Max-Age=".toList := rfl
  unfold StoredCookie.toSetCookie liveSeconds header attributes restAttributes
  rw [hdomain, hpath, hsecure, hhttp, hage, sameSiteText_eq]
  cases s.expiresUnix with
  | none =>
      cases s.hostOnly <;> cases s.secure <;> cases s.httpOnly <;>
        simp only [Bool.false_eq_true, if_true, if_false, Option.map_some, Option.map_none,
          Option.toList_none, List.flatMap_cons, List.flatMap_nil,
          List.append_nil, List.nil_append, List.append_assoc, List.cons_append]
  | some at_ =>
      simp only
      split
      · rfl
      · cases s.hostOnly <;> cases s.secure <;> cases s.httpOnly <;>
          simp only [Bool.false_eq_true, if_true, if_false, Option.map_some, Option.toList_some,
            List.flatMap_cons, List.flatMap_nil, List.append_nil,
            List.nil_append, List.append_assoc, List.cons_append]

/-- The texts of a stored cookie that was captured from an accepted one. -/
structure Clean (s : StoredCookie) : Prop where
  name : s.name ≠ [] ∧ trim s.name = s.name ∧ '=' ∉ s.name ∧ ';' ∉ s.name
  value : trim s.value = s.value ∧ ';' ∉ s.value
  path : s.path.head? = some '/' ∧ trim s.path = s.path ∧ ';' ∉ s.path
  domain : s.hostOnly = false → s.domain ≠ [] ∧ toAsciiLowercase s.domain = s.domain ∧
    trimDots s.domain = s.domain ∧ ';' ∉ s.domain

theorem not_mem_toDigits_semicolon (n : Nat) : ';' ∉ Nat.toDigits 10 n :=
  Numerals.not_mem_toDigits (by decide) (by decide) rfl n

variable {s : StoredCookie}

theorem not_mem_attributes (hs : Clean s) (left : Option Nat) : ∀ p ∈ attributes s left, ';' ∉ p := by
  intro p hp
  simp only [attributes, restAttributes, List.mem_append] at hp
  rcases hp with hp | (((hp | hp) | hp) | hp) | hp
  · split at hp
    · cases hp
    · rename_i hho
      rw [List.mem_singleton.mp hp, List.mem_append, not_or]
      exact ⟨by decide, (hs.domain (by simpa using hho)).2.2.2⟩
  · rw [List.mem_singleton.mp hp, List.mem_append, not_or]
    exact ⟨by decide, hs.path.2.2⟩
  · split at hp
    · rw [List.mem_singleton.mp hp]
      decide
    · cases hp
  · split at hp
    · rw [List.mem_singleton.mp hp]
      decide
    · cases hp
  · rw [List.mem_singleton.mp hp]
    cases s.sameSite <;> decide
  · obtain ⟨n, -, rfl⟩ := by simpa [Option.mem_toList] using hp
    have := not_mem_toDigits_semicolon n
    simpa using this

theorem splitOn_header (hs : Clean s) (left : Option Nat) :
    List.splitOn ';' (header s left) = (s.name ++ '=' :: s.value) :: attributes s left := by
  refine splitOn_led ';' ?_ (not_mem_attributes hs left)
  simp only [List.mem_append, List.mem_cons, not_or]
  exact ⟨hs.name.2.2.2, by decide, hs.value.2⟩

/-! ## Reading the pieces -/

theorem trim_toDigits (n : Nat) : trim (Nat.toDigits 10 n) = Nat.toDigits 10 n := by
  have hnone : ∀ c ∈ Nat.toDigits 10 n, isWhitespace c = false := by
    intro c hc
    by_contra hws
    have hdigit : Numerals.toDigit 10 c = none := by
      simp only [Numerals.toDigit, Option.filter_eq_none_iff]
      simp only [Bool.not_eq_false, isWhitespace, Bool.or_eq_true, Bool.and_eq_true,
        decide_eq_true_eq] at hws
      intro d hd
      split at hd
      · omega
      · split at hd
        · omega
        · split at hd
          · omega
          · cases hd
    exact Numerals.not_mem_toDigits (by decide) (by decide) hdigit n hc
  unfold trim trimStartMatches trimEndMatches
  rw [List.dropWhile_eq_self_iff.mpr, List.rdropWhile_eq_self_iff.mpr]
  · intro hne
    simp [hnone _ (List.getLast_mem hne)]
  · intro hlen
    simp [hnone _ (List.getElem_mem hlen)]

theorem applyAttribute_maxAge (a : Attributes) {val : Text} {n : Int}
    (h : Numerals.parseSigned (2 ^ 63) val = some n) :
    applyAttribute a "max-age".toList val = .ok { a with maxAge := some n } := by
  unfold applyAttribute
  rw [if_neg (by decide), if_neg (by decide), if_neg (by decide), if_neg (by decide),
    if_neg (by decide), if_pos rfl, h]

variable {left : Option Nat}

theorem foldlM_restAttributes (hs : Clean s) (hleft : ∀ n, left = some n → n < 2 ^ 63)
    (domain : Option Text) :
    (restAttributes s left).foldlM readAttribute { Attributes.start with domain } =
      .ok { domain, path := some s.path, secure := s.secure, httpOnly := s.httpOnly,
            sameSite := s.sameSite, maxAge := left.map fun n : Nat => (n : Int) } := by
  have hpath : ∀ a : Attributes, readAttribute a (" Path=".toList ++ s.path) =
      .ok { a with path := some s.path } := by
    intro a
    rw [readAttribute_path, hs.path.2.1]
    show (if s.path.head? = some '/' then _ else _) = _
    rw [if_pos hs.path.1]
  have hage : ∀ (a : Attributes) (n : Nat), n < 2 ^ 63 →
      readAttribute a (" Max-Age=".toList ++ Nat.toDigits 10 n) =
        .ok { a with maxAge := some (n : Int) } := by
    intro a n hn
    rw [readAttribute_maxAge, trim_toDigits]
    exact applyAttribute_maxAge a (Numerals.parseSigned_toDigits hn)
  unfold restAttributes
  cases hsec : s.secure <;> cases hhttp : s.httpOnly <;> cases left with
  | none =>
      simp only [List.foldlM_append, List.foldlM_cons, List.foldlM_nil, hpath, readAttribute_secure,
        readAttribute_httpOnly, readAttribute_sameSite, bind, Except.bind, pure, Except.pure,
        Attributes.start, Bool.false_eq_true, if_true, if_false, Option.map_none, Option.toList_none]
  | some n =>
      simp only [List.foldlM_append, List.foldlM_cons, List.foldlM_nil, hpath, hage _ n (hleft n rfl),
        readAttribute_secure, readAttribute_httpOnly, readAttribute_sameSite, bind, Except.bind, pure,
        Except.pure, Attributes.start, Bool.false_eq_true, if_true, if_false, Option.map_some,
        Option.toList_some]

/-! ## Capturing -/

theorem secondsUp_pos {left : Nat} (h : 0 < left) : 0 < secondsUp left := by
  unfold secondsUp
  split <;> omega

theorem secondsUp_le {left n : Nat} (h : left ≤ n * 10 ^ 9) : secondsUp left ≤ n := by
  unfold secondsUp
  split <;> omega

theorem saturatingAdd_toNat (a : UInt64) (b : Nat) :
    (saturatingAdd a b).toNat = min (a.toNat + b) (2 ^ 64 - 1) := by
  unfold saturatingAdd
  rw [UInt64.toNat_ofNat', Nat.mod_eq_of_lt]
  omega

/-- The seconds the recreated cookie is given. -/
def secondsLeft (c : Cookie) (now : Instant) (nowUnix : UInt64) : Option Nat :=
  c.expiresAt.map fun at_ => min (secondsUp (at_ - now)) (2 ^ 64 - 1 - nowUnix.toNat)

/-- What a captured cookie was captured from. -/
structure Captured (c : Cookie) (now : Instant) (nowUnix : UInt64) (s : StoredCookie) : Prop where
  name : s.name = c.name
  value : s.value = c.value
  domain : s.domain = c.domain
  hostOnly : s.hostOnly = c.hostOnly
  path : s.path = c.path
  secure : s.secure = c.secure
  httpOnly : s.httpOnly = c.httpOnly
  sameSite : s.sameSite = c.sameSite
  live : ∀ at_, c.expiresAt = some at_ → now < at_
  expires : s.expiresUnix = c.expiresAt.map fun at_ =>
    saturatingAdd nowUnix (secondsUp (at_ - now))

variable {nowUnix : UInt64}
variable {c : Cookie} {now : Instant}

theorem captured_of_fromCookie
    (h : StoredCookie.fromCookie c now nowUnix = some s) : Captured c now nowUnix s := by
  simp only [StoredCookie.fromCookie] at h
  split at h
  · rename_i at_ hat
    split at h
    · cases h
    · rename_i hlive
      cases h
      refine ⟨rfl, rfl, rfl, rfl, rfl, rfl, rfl, rfl, fun a ha => ?_, by rw [hat]; rfl⟩
      cases hat.symm.trans ha
      exact Nat.lt_of_not_le hlive
  · rename_i hat
    cases h
    refine ⟨rfl, rfl, rfl, rfl, rfl, rfl, rfl, rfl, fun a ha => ?_, by rw [hat]; rfl⟩
    cases hat.symm.trans ha

theorem liveSeconds_captured (h : Captured c now nowUnix s) :
    liveSeconds s.expiresUnix nowUnix =
      if c.expiresAt.isSome ∧ ¬ nowUnix.toNat < 2 ^ 64 - 1 then none
      else some (secondsLeft c now nowUnix) := by
  rw [h.expires]
  unfold liveSeconds secondsLeft
  cases hat : c.expiresAt with
  | none => simp
  | some at_ =>
      have hpos : 0 < secondsUp (at_ - now) := secondsUp_pos (Nat.sub_pos_of_lt (h.live at_ hat))
      have hlt := nowUnix.toNat_lt
      simp only [Option.map_some, saturatingAdd_toNat, Option.isSome_some, true_and]
      by_cases hmax : nowUnix.toNat < 2 ^ 64 - 1
      · rw [if_neg (by omega), if_neg (by omega)]
        congr 2
        omega
      · rw [if_pos (by omega), if_pos hmax]

/-! ## When a cookie survives -/

/-- All of a cookie but its expiry. -/
structure Cookie.Same (c d : Cookie) : Prop where
  name : d.name = c.name
  value : d.value = c.value
  domain : d.domain = c.domain
  hostOnly : d.hostOnly = c.hostOnly
  path : d.path = c.path
  secure : d.secure = c.secure
  httpOnly : d.httpOnly = c.httpOnly
  sameSite : d.sameSite = c.sameSite

/-- The stored form decodes from its bytes, and its header is accepted again, at any time,
as the same cookie. -/
def Survives (psl : PublicSuffixList) (origin : Origin) (c : Cookie) (s : StoredCookie)
    (nowUnix : UInt64) : Prop :=
  s.encode.bind StoredCookie.decode = some s ∧
    ∃ h, s.toSetCookie nowUnix = some h ∧
      ∀ t : Instant, ∃ d, parse psl origin h t = .ok d ∧ Cookie.Same c d

/-- The bytes of the `SameSite` attribute. -/
def sameSiteBytes : SameSite → Nat
  | .strict => 17
  | .lax => 14
  | .none => 15

/-- The bytes of the header that spells out every field of the cookie. -/
def spelledBytes (c : Cookie) (left : Option Nat) : Nat :=
  c.name.len + 1 + c.value.len + (if c.hostOnly then 0 else 9 + c.domain.len) + (7 + c.path.len) +
    (if c.secure then 8 else 0) + (if c.httpOnly then 10 else 0) + sameSiteBytes c.sameSite +
    (left.elim 0 fun n => 10 + (Nat.toDigits 10 n).length)

/-- What a cookie has to meet to survive: the domain fits its length prefix and has no white
space at its ends, the Unix clock is not at its end, and the header spelled out is not too long. -/
structure Persistable (c : Cookie) (now : Instant) (nowUnix : UInt64) : Prop where
  host : c.hostOnly = true → c.domain.len < 2 ^ 16
  domain : c.hostOnly = false → trim c.domain = c.domain
  clock : c.expiresAt.isSome = true → nowUnix.toNat < 2 ^ 64 - 1
  bytes : spelledBytes c (secondsLeft c now nowUnix) ≤ MAX_COOKIE_BYTES

theorem len_toDigits (n : Nat) : Text.len (Nat.toDigits 10 n) = (Nat.toDigits 10 n).length := by
  refine len_of_isAscii (List.all_eq_true.mpr fun c hc => ?_)
  have hdigit := Nat.isDigit_of_mem_toDigits (by decide) (by decide) hc
  simp only [Char.isDigit, Bool.and_eq_true, decide_eq_true_eq] at hdigit
  simp only [decide_eq_true_eq]
  exact UInt32.le_trans hdigit.2 (by decide)

theorem len_sameSiteAttribute (site : SameSite) :
    (sameSiteAttribute site).len + 1 = sameSiteBytes site := by
  cases site <;> decide

theorem len_header (h : Captured c now nowUnix s) (left : Option Nat) :
    (header s left).len = spelledBytes c left := by
  have hcons : ∀ (c : Char) (t : Text), c.utf8Size = 1 → Text.len (c :: t) = t.len + 1 := by
    intro c t hc
    simp only [len_eq_sum, List.map_cons, List.sum_cons, hc]
    omega
  have hsemi : ∀ t : Text, Text.len (';' :: t) = t.len + 1 := fun t => hcons _ t rfl
  have heq : ∀ t : Text, Text.len ('=' :: t) = t.len + 1 := fun t => hcons _ t rfl
  have hdomain : Text.len " Domain=".toList = 8 := by decide
  have hpath : Text.len " Path=".toList = 6 := by decide
  have hsecure : Text.len " Secure".toList = 7 := by decide
  have hhttp : Text.len " HttpOnly".toList = 9 := by decide
  have hage : Text.len " Max-Age=".toList = 9 := by decide
  have hsite := len_sameSiteAttribute c.sameSite
  unfold header attributes restAttributes spelledBytes
  rw [h.name, h.value, h.domain, h.hostOnly, h.path, h.secure, h.httpOnly, h.sameSite]
  cases c.hostOnly <;> cases c.secure <;> cases c.httpOnly <;> cases left <;>
    simp only [List.flatMap_append, List.flatMap_cons, List.flatMap_nil, len_append, hsemi, heq,
      hdomain, hpath, hsecure, hhttp, hage, len_toDigits, List.append_nil, List.nil_append,
      Bool.false_eq_true, if_true, if_false, Option.map_none, Option.map_some, Option.toList_none,
      Option.toList_some, Option.elim_none, Option.elim_some] <;> omega

variable {psl : PublicSuffixList} {origin : Origin}

theorem clean_of_sound (hc : c.Sound psl origin) (h : Captured c now nowUnix s) : Clean s := by
  refine ⟨?_, ?_, ?_, ?_⟩
  · rw [h.name]
    exact ⟨hc.name.1, hc.name.2.1, hc.name.2.2.1, hc.name.2.2.2.1⟩
  · rw [h.value]
    exact ⟨hc.value.1, hc.value.2.1⟩
  · rw [h.path]
    exact ⟨hc.path.1, hc.path.2.1, hc.path.2.2.1⟩
  · rw [h.hostOnly, h.domain]
    intro hho
    obtain ⟨hne, hlower, hdots, hsemi, -⟩ := hc.domain hho
    exact ⟨hne, hlower, hdots, hsemi⟩

theorem fits_iff (hc : c.Sound psl origin) (h : Captured c now nowUnix s) :
    s.Fits ↔ (c.hostOnly = true → c.domain.len < 2 ^ 16) := by
  have hmax : MAX_COOKIE_BYTES < 2 ^ 16 := by decide
  unfold StoredCookie.Fits
  rw [h.name, h.value, h.path, h.domain]
  constructor
  · exact fun hfits _ => hfits.2.1
  · intro hhost
    refine ⟨Nat.lt_of_le_of_lt hc.name.2.2.2.2 hmax, ?_, Nat.lt_of_le_of_lt hc.path.2.2.2 hmax,
      Nat.lt_of_le_of_lt hc.value.2.2 hmax⟩
    cases hho : c.hostOnly with
    | true => exact hhost hho
    | false => exact Nat.lt_of_le_of_lt (hc.domain hho).2.2.2.2 hmax

/-- The domain the recreated cookie asks for. -/
def requestedDomain (s : StoredCookie) : Option Text :=
  if s.hostOnly then none else some (toAsciiLowercase (trimDots (trim s.domain)))

/-- The header's attributes read back, with the domain trimmed once more. -/
theorem foldlM_attributes (hs : Clean s) (hleft : ∀ n, left = some n → n < 2 ^ 63) {a : Attributes} :
    (attributes s left).foldlM readAttribute .start = .ok a ↔ requestedDomain s ≠ some [] ∧
      a = { domain := requestedDomain s, path := some s.path, secure := s.secure,
            httpOnly := s.httpOnly, sameSite := s.sameSite,
            maxAge := left.map fun n : Nat => (n : Int) } := by
  unfold attributes requestedDomain
  cases hho : s.hostOnly with
  | true =>
      have hrest := foldlM_restAttributes hs hleft none
      simp only [if_true, List.nil_append, ne_eq, reduceCtorEq, not_false_eq_true, true_and]
      rw [show Attributes.start = { Attributes.start with domain := none } from rfl, hrest]
      simp only [Except.ok.injEq, eq_comm]
  | false =>
      have hrest := foldlM_restAttributes hs hleft (some (toAsciiLowercase (trimDots (trim s.domain))))
      simp only [Bool.false_eq_true, if_false, List.singleton_append, List.foldlM_cons,
        readAttribute_domain]
      have happly : applyAttribute .start "domain".toList (trim s.domain) =
          if (toAsciiLowercase (trimDots (trim s.domain))).isEmpty then .error (.badAttribute "Domain")
          else .ok { Attributes.start with
            domain := some (toAsciiLowercase (trimDots (trim s.domain))) } := rfl
      rw [happly]
      split
      · rename_i hnil
        simp only [bind, Except.bind, reduceCtorEq, List.isEmpty_iff.mp hnil, ne_eq,
          not_true_eq_false, false_and]
      · rename_i hne
        simp only [bind, Except.bind]
        rw [hrest]
        simp only [Except.ok.injEq, ne_eq, Option.some.injEq, @eq_comm _ _ a]
        rw [and_iff_right (fun hnil => hne (by rw [hnil]; rfl))]

/-- Reading the recreated header, field by field. -/
theorem parse_header (hs : Clean s) (hleft : ∀ n, left = some n → n < 2 ^ 63) {t : Instant} {d : Cookie} :
    parse psl origin (header s left) t = .ok d ↔
      (header s left).len ≤ MAX_COOKIE_BYTES ∧ requestedDomain s ≠ some [] ∧
        accept psl origin s.name s.value
          { domain := requestedDomain s, path := some s.path, secure := s.secure,
            httpOnly := s.httpOnly, sameSite := s.sameSite,
            maxAge := left.map fun n : Nat => (n : Int) } t = .ok d := by
  rw [parse_eq_ok, splitOn_header hs]
  simp only [List.headD_cons, List.tail_cons, splitOnce_append hs.name.2.2.1, Option.some.injEq,
    Prod.mk.injEq, foldlM_attributes hs hleft]
  constructor
  · rintro ⟨hlen, _, _, a, ⟨rfl, rfl⟩, -, ⟨hne, rfl⟩, haccept⟩
    rw [hs.name.2.1, hs.value.1] at haccept
    exact ⟨hlen, hne, haccept⟩
  · rintro ⟨hlen, hne, haccept⟩
    refine ⟨hlen, s.name, s.value, _, ⟨rfl, rfl⟩, ?_, ⟨hne, rfl⟩, ?_⟩
    · rw [hs.name.2.1]
      exact hs.name.1
    · rw [hs.name.2.1, hs.value.1]
      exact haccept

theorem secondsLeft_lt {text : Text} {parsedAt : Instant}
    (hparse : parse psl origin text parsedAt = .ok c) (hclock : parsedAt ≤ now) {n : Nat}
    (hn : secondsLeft c now nowUnix = some n) : n < 2 ^ 63 := by
  obtain ⟨at_, hat, rfl⟩ := Option.map_eq_some_iff.mp hn
  obtain ⟨k, hk, rfl⟩ := parse_expiry hparse hat
  have hle : parsedAt + k * 10 ^ 9 - now ≤ k * 10 ^ 9 := by
    have hclock' : (parsedAt : Nat) ≤ now := hclock
    exact Nat.sub_le_iff_le_add'.mpr (Nat.add_le_add_right hclock' _)
  exact Nat.lt_of_le_of_lt (Nat.le_trans (Nat.min_le_left _ _) (secondsUp_le hle)) hk

/-- A domain that reads back as it was has no white space at its ends. -/
theorem trim_domain_of_eq {d : Text} (h : toAsciiLowercase (trimDots (trim d)) = d) : trim d = d := by
  by_contra hne
  have hlt := length_trim_lt hne
  have hle := (trimDots_sublist (trim d)).length_le
  have hlen : (toAsciiLowercase (trimDots (trim d))).length = d.length := by rw [h]
  rw [toAsciiLowercase, List.length_map] at hlen
  omega

/-- A captured cookie survives being stored and recreated exactly when it is persistable. -/
theorem cookie_survives_iff {psl : PublicSuffixList} {origin : Origin} {text : Text}
    {parsedAt now : Instant} {nowUnix : UInt64} {c : Cookie} {s : StoredCookie}
    (hparse : parse psl origin text parsedAt = .ok c) (hclock : parsedAt ≤ now)
    (hcapture : StoredCookie.fromCookie c now nowUnix = some s) :
    Survives psl origin c s nowUnix ↔ Persistable c now nowUnix := by
  have hc := parse_sound hparse
  have hcap := captured_of_fromCookie hcapture
  have hs := clean_of_sound hc hcap
  have hleft : ∀ n, secondsLeft c now nowUnix = some n → n < 2 ^ 63 := fun n hn =>
    secondsLeft_lt hparse hclock hn
  have hheader := toSetCookie_eq s nowUnix
  rw [liveSeconds_captured hcap] at hheader
  constructor
  · rintro ⟨hcodec, h, hset, hagain⟩
    obtain ⟨bytes, hbytes, -⟩ := Option.bind_eq_some_iff.mp hcodec
    have hclock' : ¬ (c.expiresAt.isSome = true ∧ ¬ nowUnix.toNat < 2 ^ 64 - 1) := by
      intro hmax
      rw [if_pos hmax, hset] at hheader
      cases hheader
    rw [if_neg hclock', hset, Option.map_some, Option.some.injEq] at hheader
    obtain ⟨d, hd, hsame⟩ := hagain 0
    rw [hheader, parse_header hs hleft, len_header hcap] at hd
    obtain ⟨hlen, -, haccept⟩ := hd
    refine
      { host := (fits_iff hc hcap).mp (StoredCookie.encode_isSome.mp ⟨bytes, hbytes⟩)
        domain := fun hho => ?_
        clock := fun hsome => by
          by_contra hnot
          exact hclock' ⟨hsome, hnot⟩
        bytes := hlen }
    -- the domain asked for is the one the cookie got
    obtain ⟨-, -, -, domain, hostOnly, hscope, rfl⟩ := accept_eq_ok.mp haccept
    have hdomain : domain = c.domain := hsame.domain
    have hreq : requestedDomain s = some (toAsciiLowercase (trimDots (trim c.domain))) := by
      rw [requestedDomain, hcap.hostOnly, hho, hcap.domain]
      rfl
    rw [hreq] at hscope
    rcases scope_eq_ok.mp hscope with ⟨hnone, -⟩ | ⟨hsome, -⟩
    · cases hnone
    · refine trim_domain_of_eq ?_
      rw [Option.some.inj hsome, hdomain]
  · rintro ⟨hhost, hdomain, hunix, hlen⟩
    obtain ⟨bytes, hbytes⟩ := StoredCookie.encode_isSome.mpr ((fits_iff hc hcap).mpr hhost)
    rw [if_neg (fun hmax => hmax.2 (hunix hmax.1))] at hheader
    have hreq : requestedDomain s = if c.hostOnly then none else some c.domain := by
      rw [requestedDomain, hcap.hostOnly, hcap.domain]
      cases hho : c.hostOnly with
      | true => rfl
      | false =>
          obtain ⟨-, hlower, hdots, -⟩ := hc.domain hho
          simp only [Bool.false_eq_true, if_false, hdomain hho, hdots, hlower]
    refine ⟨?_, header s (secondsLeft c now nowUnix), hheader, fun t => ?_⟩
    · rw [hbytes, Option.bind_some]
      exact StoredCookie.decode_encode hbytes
    · have hscope : scope psl origin (requestedDomain s) = .ok (c.domain, c.hostOnly) := by
        rw [hreq, scope_eq_ok]
        cases hho : c.hostOnly with
        | true => exact Or.inl ⟨rfl, hc.hostOnly hho, rfl⟩
        | false => exact Or.inr ⟨rfl, rfl, hc.covers hho⟩
      refine ⟨_, (parse_header hs hleft).mpr ⟨?_, ?_, accept_eq_ok.mpr
        ⟨?_, ?_, ?_, c.domain, c.hostOnly, hscope, rfl⟩⟩, ?_⟩
      · rw [len_header hcap]
        exact hlen
      · rw [hreq]
        cases hho : c.hostOnly with
        | true => exact fun hnil => Option.some_ne_none _ hnil.symm
        | false => exact fun hnil => (hc.domain hho).1 (Option.some.inj hnil)
      · rw [hcap.sameSite, hcap.secure]
        exact hc.sameSite
      · rw [hcap.secure]
        exact hc.secure
      · rw [hcap.name]
        refine hc.prefixes _ hcap.secure (by rw [hcap.path]) ?_
        rw [hreq]
        cases c.hostOnly <;> rfl
      · exact ⟨hcap.name, hcap.value, rfl, rfl, by rw [← hcap.path]; rfl, hcap.secure, hcap.httpOnly,
          hcap.sameSite⟩

/-- `https://cdn.example`. -/
def cdnOrigin : Origin :=
  ⟨"https".toList, "cdn.example".toList, 443,
    ⟨Or.inl rfl, by decide, by decide, by decide⟩⟩

/-- A list with one rule. -/
def exampleList : PublicSuffixList := ⟨[("example".toList, .normal)]⟩

/-- A header with every attribute. -/
def sessionHeader : Text :=
  "sid=abc123; Domain=cdn.example; Path=/app; Secure; HttpOnly; SameSite=None; Max-Age=100".toList

/-- Captured half a second after it was parsed, the cookie survives. -/
theorem cookie_survives_session_id :
    ∃ c s, parse exampleList cdnOrigin sessionHeader 0 = .ok c ∧
      StoredCookie.fromCookie c 500000000 1000 = some s ∧ s.expiresUnix = some 1100 ∧
      Survives exampleList cdnOrigin c s 1000 := by
  have hparse : parse exampleList cdnOrigin sessionHeader 0 = .ok ⟨"sid".toList, "abc123".toList,
      "cdn.example".toList, false, "/app".toList, true, true, .none, some 100000000000⟩ := by
    decide +kernel
  refine ⟨_, _, hparse, rfl, rfl, ?_⟩
  exact (@cookie_survives_iff _ _ _ 0 500000000 1000 _ _ hparse (by decide) rfl).mpr
    ⟨by decide, by decide, by decide, by decide +kernel⟩

/-- A pair alone is a host-only session cookie for every path. -/
theorem parse_plain {value : Text} {t : Instant}
    (htrim : trim value = value) (hsemi : ';' ∉ value) (hlen : value.len ≤ 4094) :
    parse psl origin ('a' :: '=' :: value) t =
      .ok ⟨['a'], value, toAsciiLowercase origin.host, true, "/".toList, false, false, .lax, none⟩ := by
  have hsplit : List.splitOn ';' ('a' :: '=' :: value) = ['a' :: '=' :: value] :=
    List.splitOn_eq_singleton (by simpa using hsemi)
  have hsize : Text.len ('a' :: '=' :: value) = 2 + value.len := len_append ['a', '='] value
  refine parse_eq_ok.mpr ⟨?_, ['a'], value, .start, ?_, by decide, ?_, ?_⟩
  · rw [hsize]
    exact Nat.add_le_add_left hlen 2
  · rw [hsplit]
    exact @splitOnce_append '=' ['a'] (by decide) value
  · rw [hsplit]
    rfl
  · rw [htrim]
    rfl

theorem replicate_plain (n : Nat) : trim (List.replicate n 'x') = List.replicate n 'x' ∧
    ';' ∉ List.replicate n 'x' ∧ Text.len (List.replicate n 'x') = n := by
  refine ⟨?_, ?_, ?_⟩
  · unfold trim trimStartMatches trimEndMatches
    rw [List.dropWhile_replicate, if_neg (by decide), List.rdropWhile, List.reverse_replicate,
      List.dropWhile_replicate, if_neg (by decide), List.reverse_replicate]
  · simp [List.mem_replicate]
  · rw [len_of_isAscii, List.length_replicate]
    exact List.all_replicate.trans (by simp)

/-- The path and `SameSite` spelled out take 22 bytes after a pair alone. -/
theorem plain_not_survives {value host : Text} (hlen : 4072 < value.len) :
    ¬ Survives psl origin
      ⟨['a'], value, host, true, "/".toList, false, false, .lax, none⟩
      ⟨['a'], value, host, true, "/".toList, false, false, .lax, none⟩ 1000 := by
  rintro ⟨-, h, hset, hagain⟩
  rw [toSetCookie_eq] at hset
  cases hset
  obtain ⟨d, hd, -⟩ := hagain 0
  have hbytes := (parse_eq_ok.mp hd).1
  have hsize : (header ⟨['a'], value, host, true, "/".toList, false, false, .lax, none⟩ none).len =
      2 + (value.len + 22) := by
    have htail : Text.len "; Path=/; SameSite=Lax".toList = 22 := by decide
    rw [← htail, ← len_append, ← show Text.len ['a', '='] = 2 from by decide, ← len_append]
    rfl
  rw [hsize] at hbytes
  have hmax : MAX_COOKIE_BYTES = 4096 := rfl
  omega

/-- A pair that nearly fills the header is accepted, and its cookie is lost. -/
theorem cookie_lost_at_size_limit :
    ∃ c s, parse exampleList cdnOrigin ('a' :: '=' :: List.replicate 4090 'x') 0 = .ok c ∧
      StoredCookie.fromCookie c 0 1000 = some s ∧ ¬ Survives exampleList cdnOrigin c s 1000 := by
  obtain ⟨htrim, hsemi, hlen⟩ := replicate_plain 4090
  refine ⟨_, _, parse_plain htrim hsemi (by rw [hlen]; decide), rfl, plain_not_survives ?_⟩
  rw [hlen]
  decide

end Pelorus.Store
