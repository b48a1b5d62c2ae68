import Pelorus.Lib.Numerals
import Pelorus.Net.Partition

/-
  Net/Cookie.lean --- parsing `Set-Cookie` and the jar that partitions what it
  yields (`px-net/src/cookie.rs`).

  THE CLOCK.  An `Instant` is a number of nanoseconds, and every function that reads
  the clock takes what it read.  Adding to an instant fails beyond the seconds the
  platform's type holds, and then a cookie has no expiry.

  THE JAR.  A map from partition keys to lists of cookies, oldest first; a partition
  with no cookies and an absent one are the same.
-/
set_option autoImplicit false

namespace Pelorus.Net

open Lib Lib.Text

/-- Longest `Set-Cookie` header accepted, in bytes. -/
def MAX_COOKIE_BYTES : Nat := 4096

/-- Most cookies stored per partition key. -/
def MAX_PER_KEY : Nat := 50

/-- How a cookie restricts cross-site sending. -/
inductive SameSite where
  | strict
  | lax
  | none
  deriving DecidableEq

/-- Why a `Set-Cookie` was not stored. -/
inductive Rejected where
  | tooLarge
  | malformed
  | badAttribute (which : String)
  | publicSuffixDomain
  | domainMismatch
  | insecureSameSiteNone
  | prefixViolation (why : String)
  | jarFull
  | insecureOrigin
  deriving DecidableEq

/-- A point on the monotonic clock, in nanoseconds. -/
abbrev Instant : Type := Nat

/-- `Instant::checked_add` of whole seconds. -/
def Instant.checkedAdd (now : Instant) (seconds : Nat) : Option Instant :=
  let at_ := now + seconds * 10 ^ 9
  if at_ / 10 ^ 9 < 2 ^ 63 then some at_ else none

/-- A stored cookie. -/
structure Cookie where
  name : Text
  value : Text
  /-- The host this cookie is scoped to, in lower case. -/
  domain : Text
  hostOnly : Bool
  path : Text
  secure : Bool
  httpOnly : Bool
  sameSite : SameSite
  expiresAt : Option Instant
  deriving DecidableEq

/-- `host` is below `domain`, with a label boundary between. -/
def isBelow (host domain : Text) : Bool :=
  match (stripSuffix host domain).bind fun rest => stripSuffix rest ['.'] with
  | some labels => !labels.isEmpty
  | none => false

namespace Cookie

def matchesHost (c : Cookie) (host : Text) : Bool :=
  let host := toAsciiLowercase host
  if host = c.domain then true
  else if c.hostOnly then false
  else isBelow host c.domain

def matchesPath (c : Cookie) (path : Text) : Bool :=
  if path = c.path then true
  else
    match stripPrefix path c.path with
    | none => false
    | some rest => c.path.getLast? = some '/' || rest.head? = some '/'

def isExpired (c : Cookie) (now : Instant) : Bool :=
  match c.expiresAt with
  | some at_ => at_ ≤ now
  | none => false

end Cookie

/-! ## Parsing -/

/-- What the attributes of a header say so far. -/
structure Attributes where
  domain : Option Text
  path : Option Text
  secure : Bool
  httpOnly : Bool
  sameSite : SameSite
  maxAge : Option Int
  deriving DecidableEq

/-- Before the first attribute. -/
def Attributes.start : Attributes := ⟨none, none, false, false, .lax, none⟩

/-- The key and the value of an attribute. -/
def attributeParts (attr : Text) : Text × Text :=
  match splitOnce '=' attr with
  | some (key, val) => (toAsciiLowercase (trim key), trim val)
  | none => (toAsciiLowercase attr, [])

/-- The text of a host without the dots around it. -/
def trimDots (val : Text) : Text :=
  trimEndMatches (· = '.') (trimStartMatches (· = '.') val)

/-- `SameSite`'s three values. -/
def parseSameSite (val : Text) : Option SameSite :=
  let val := toAsciiLowercase val
  if val = "strict".toList then some .strict
  else if val = "lax".toList then some .lax
  else if val = "none".toList then some .none
  else none

/-- One attribute by its key. -/
def applyAttribute (a : Attributes) (key val : Text) : Except Rejected Attributes :=
  if key = "domain".toList then
    let host := toAsciiLowercase (trimDots val)
    if host.isEmpty then .error (.badAttribute "Domain") else .ok { a with domain := some host }
  else if key = "path".toList then
    if val.head? = some '/' then .ok { a with path := some val } else .error (.badAttribute "Path")
  else if key = "secure".toList then .ok { a with secure := true }
  else if key = "httponly".toList then .ok { a with httpOnly := true }
  else if key = "samesite".toList then
    match parseSameSite val with
    | some s => .ok { a with sameSite := s }
    | none => .error (.badAttribute "SameSite")
  else if key = "max-age".toList then
    match Numerals.parseSigned (2 ^ 63) val with
    | some n => .ok { a with maxAge := some n }
    | none => .error (.badAttribute "Max-Age")
  else .ok a

/-- One turn of the attribute loop of `parse`. -/
def readAttribute (a : Attributes) (text : Text) : Except Rejected Attributes :=
  let attr := trim text
  if attr.isEmpty then .ok a else applyAttribute a (attributeParts attr).1 (attributeParts attr).2

/-- The cookie name prefixes and what they require. -/
def checkPrefixes (name : Text) (a : Attributes) : Except Rejected Unit :=
  if "__Secure-".toList.isPrefixOf name ∧ ¬ a.secure then
    .error (.prefixViolation "a __Secure- cookie must set Secure")
  else if "__Host-".toList.isPrefixOf name then
    if ¬ a.secure then .error (.prefixViolation "a __Host- cookie must set Secure")
    else if a.domain.isSome then .error (.prefixViolation "a __Host- cookie must not set Domain")
    else if a.path ≠ some "/".toList then
      .error (.prefixViolation "a __Host- cookie must set Path=/")
    else .ok ()
  else .ok ()

/-- The host the cookie is for, and whether it is for that host only. -/
def scope (psl : PublicSuffixList) (origin : Origin) (domain : Option Text) :
    Except Rejected (Text × Bool) :=
  let host := toAsciiLowercase origin.host
  match domain with
  | some requested =>
      if psl.registrableDomain requested = none then .error .publicSuffixDomain
      else if host ≠ requested ∧ ¬ isBelow host requested then .error .domainMismatch
      else .ok (requested, false)
  | none => .ok (host, true)

/-- When the cookie expires. -/
def expiry (now : Instant) : Option Int → Option Instant
  | some seconds => if seconds ≤ 0 then some now else Instant.checkedAdd now seconds.toNat
  | none => none

/-- What `parse` checks after the attributes, and what it returns. -/
def accept (psl : PublicSuffixList) (origin : Origin) (name value : Text) (a : Attributes)
    (now : Instant) : Except Rejected Cookie :=
  if a.sameSite = .none ∧ ¬ a.secure then .error .insecureSameSiteNone
  else if a.secure ∧ ¬ origin.isSecure then .error .insecureOrigin
  else do
    checkPrefixes name a
    let (domain, hostOnly) ← scope psl origin a.domain
    return { name, value, domain, hostOnly, path := a.path.getD "/".toList, secure := a.secure,
             httpOnly := a.httpOnly, sameSite := a.sameSite, expiresAt := expiry now a.maxAge }

/-- `parse`: one `Set-Cookie` value against the origin that sent it. -/
def parse (psl : PublicSuffixList) (origin : Origin) (header : Text) (now : Instant) :
    Except Rejected Cookie :=
  if MAX_COOKIE_BYTES < header.len then .error .tooLarge
  else
    let pieces := header.splitOn ';'
    match splitOnce '=' (pieces.headD []) with
    | none => .error .malformed
    | some (name, value) =>
        if (trim name).isEmpty then .error .malformed
        else do
          let a ← pieces.tail.foldlM readAttribute .start
          accept psl origin (trim name) (trim value) a now

end Pelorus.Net

/-! # What holds of a cookie that `parse` accepted

Every text of such a cookie is a part of the header, so it holds no semicolon and
is no longer; name, value and path are trimmed; and all the rejections that did
not happen are facts about it (`Cookie.Sound`). -/

namespace Pelorus.Net

open Lib Lib.Text

/-! ## Dots -/

theorem trimDots_trimDots (s : Text) : trimDots (trimDots s) = trimDots s := by
  simp only [trimDots, trimEndMatches, trimStartMatches, dropWhile_rdropWhile,
    List.dropWhile_idempotent, List.rdropWhile_idempotent]

theorem trimDots_sublist (s : Text) : List.Sublist (trimDots s) s :=
  (List.rdropWhile_prefix _ _).sublist.trans (List.dropWhile_suffix _).sublist

/-- Dots and lower case do not meet. -/
theorem trimDots_toAsciiLowercase (s : Text) :
    trimDots (toAsciiLowercase s) = toAsciiLowercase (trimDots s) := by
  have hdot : ((fun c => decide (c = '.')) ∘ Char.toLower) = fun c => decide (c = '.') := by
    funext c
    simp [toLower_eq_iff (c := c) (d := '.') (by decide)]
  simp only [trimDots, trimEndMatches, trimStartMatches, toAsciiLowercase, List.rdropWhile,
    List.dropWhile_map, ← List.map_reverse, hdot]

/-! ## Attributes -/

/-- What holds of the attributes read from a header. -/
structure Attributes.Sound (header : Text) (a : Attributes) : Prop where
  domain : ∀ d, a.domain = some d → d ≠ [] ∧ toAsciiLowercase d = d ∧ trimDots d = d ∧ ';' ∉ d ∧
    d.len ≤ header.len
  path : ∀ p, a.path = some p → p.head? = some '/' ∧ trim p = p ∧ ';' ∉ p ∧ p.len ≤ header.len
  maxAge : ∀ n, a.maxAge = some n → n < ((2 ^ 63 : Nat) : Int)

theorem Attributes.sound_start (header : Text) : Attributes.start.Sound header :=
  ⟨nofun, nofun, nofun⟩

variable {header : Text} {a : Attributes} {psl : PublicSuffixList} {origin : Origin} {now : Instant}
  {c : Cookie}

theorem applyAttribute_sound {key val : Text} {a' : Attributes} (ha : a.Sound header)
    (htrim : trim val = val) (hsemi : ';' ∉ val) (hlen : val.len ≤ header.len)
    (h : applyAttribute a key val = .ok a') : a'.Sound header := by
  unfold applyAttribute at h
  split at h
  · -- a domain: without the dots around it, in lower case
    simp only at h
    split at h
    · cases h
    · rename_i hne
      cases h
      refine ⟨fun d hd => ?_, ha.path, ha.maxAge⟩
      cases hd
      have hsub := trimDots_sublist val
      refine ⟨by simpa using hne, toAsciiLowercase_idem _, ?_, ?_, ?_⟩
      · rw [trimDots_toAsciiLowercase, trimDots_trimDots]
      · rw [mem_toAsciiLowercase (by decide)]
        exact fun hmem => hsemi (hsub.subset hmem)
      · rw [len_toAsciiLowercase]
        exact Nat.le_trans (len_le_of_sublist hsub) hlen
  split at h
  · split at h
    · rename_i hhead
      cases h
      refine ⟨ha.domain, fun p hp => ?_, ha.maxAge⟩
      cases hp
      exact ⟨hhead, htrim, hsemi, hlen⟩
    · cases h
  split at h
  · cases h
    exact ⟨ha.domain, ha.path, ha.maxAge⟩
  split at h
  · cases h
    exact ⟨ha.domain, ha.path, ha.maxAge⟩
  split at h
  · split at h
    · cases h
      exact ⟨ha.domain, ha.path, ha.maxAge⟩
    · cases h
  split at h
  · split at h
    · rename_i n hn
      cases h
      refine ⟨ha.domain, ha.path, fun m hm => ?_⟩
      cases hm
      exact Numerals.parseSigned_lt (by decide) hn
    · cases h
  · cases h
    exact ha

theorem attributeParts_snd {attr : Text} : trim (attributeParts attr).2 = (attributeParts attr).2 ∧
    List.Sublist (attributeParts attr).2 attr := by
  unfold attributeParts
  split
  · rename_i key val hsplit
    obtain ⟨rfl, -⟩ := splitOnce_eq_some hsplit
    refine ⟨trim_trim val, (trim_sublist val).trans ?_⟩
    exact (List.sublist_cons_self '=' val).trans (List.sublist_append_right key _)
  · exact ⟨rfl, List.nil_sublist _⟩

theorem readAttribute_sound {text : Text} {a' : Attributes} (ha : a.Sound header)
    (hsemi : ';' ∉ text) (hlen : text.len ≤ header.len) (h : readAttribute a text = .ok a') :
    a'.Sound header := by
  simp only [readAttribute] at h
  split at h
  · cases h
    exact ha
  · obtain ⟨htrim, hsub⟩ := @attributeParts_snd (trim text)
    have hsub' := hsub.trans (trim_sublist text)
    refine applyAttribute_sound ha htrim (fun hmem => hsemi (hsub'.subset hmem)) ?_ h
    exact Nat.le_trans (len_le_of_sublist hsub') hlen

theorem foldlM_readAttribute_sound {header : Text} : ∀ {texts : List Text} {a a' : Attributes},
    a.Sound header → (∀ t ∈ texts, ';' ∉ t ∧ t.len ≤ header.len) →
    texts.foldlM readAttribute a = .ok a' → a'.Sound header
  | [], a, a', ha, _, h => by
      cases h
      exact ha
  | t :: texts, a, a', ha, hall, h => by
      rw [List.foldlM_cons] at h
      cases hread : readAttribute a t with
      | error e =>
          rw [hread] at h
          cases h
      | ok b =>
          rw [hread] at h
          obtain ⟨hsemi, hlen⟩ := hall t (by simp)
          exact foldlM_readAttribute_sound (readAttribute_sound ha hsemi hlen hread)
            (fun u hu => hall u (by simp [hu])) h

/-! ## The cookie -/

/-- What holds of a cookie accepted from `origin`. -/
structure Cookie.Sound (psl : PublicSuffixList) (origin : Origin) (c : Cookie) : Prop where
  name : c.name ≠ [] ∧ trim c.name = c.name ∧ '=' ∉ c.name ∧ ';' ∉ c.name ∧
    c.name.len ≤ MAX_COOKIE_BYTES
  value : trim c.value = c.value ∧ ';' ∉ c.value ∧ c.value.len ≤ MAX_COOKIE_BYTES
  path : c.path.head? = some '/' ∧ trim c.path = c.path ∧ ';' ∉ c.path ∧
    c.path.len ≤ MAX_COOKIE_BYTES
  hostOnly : c.hostOnly = true → c.domain = toAsciiLowercase origin.host
  domain : c.hostOnly = false → c.domain ≠ [] ∧ toAsciiLowercase c.domain = c.domain ∧
    trimDots c.domain = c.domain ∧ ';' ∉ c.domain ∧ c.domain.len ≤ MAX_COOKIE_BYTES
  covers : c.hostOnly = false → psl.registrableDomain c.domain ≠ none ∧
    (toAsciiLowercase origin.host = c.domain ∨ isBelow (toAsciiLowercase origin.host) c.domain = true)
  sameSite : c.sameSite = .none → c.secure = true
  secure : c.secure = true → origin.isSecure = true
  prefixes : ∀ a : Attributes, a.secure = c.secure → a.path = some c.path →
    a.domain.isSome = !c.hostOnly → checkPrefixes c.name a = .ok ()

/-- The checks that passed, and the cookie they passed for. -/
theorem accept_eq_ok {psl : PublicSuffixList} {origin : Origin} {name value : Text} {a : Attributes}
    {now : Instant} {c : Cookie} :
    accept psl origin name value a now = .ok c ↔
      (a.sameSite = .none → a.secure = true) ∧ (a.secure = true → origin.isSecure = true) ∧
        checkPrefixes name a = .ok () ∧ ∃ domain hostOnly, scope psl origin a.domain = .ok (domain, hostOnly) ∧
          c = { name, value, domain, hostOnly, path := a.path.getD "/".toList, secure := a.secure,
                httpOnly := a.httpOnly, sameSite := a.sameSite, expiresAt := expiry now a.maxAge } := by
  unfold accept
  by_cases hsame : a.sameSite = .none ∧ ¬ a.secure = true
  · rw [if_pos hsame]
    simp only [reduceCtorEq, false_iff]
    exact fun h => hsame.2 (h.1 hsame.1)
  · rw [if_neg hsame]
    by_cases hsecure : a.secure = true ∧ ¬ origin.isSecure = true
    · rw [if_pos hsecure]
      simp only [reduceCtorEq, false_iff]
      exact fun h => hsecure.2 (h.2.1 hsecure.1)
    · rw [if_neg hsecure]
      have h₁ : a.sameSite = .none → a.secure = true := fun hn => by
        by_contra hnot
        exact hsame ⟨hn, hnot⟩
      have h₂ : a.secure = true → origin.isSecure = true := fun hs => by
        by_contra hnot
        exact hsecure ⟨hs, hnot⟩
      cases hcheck : checkPrefixes name a with
      | error e => simp [bind, Except.bind]
      | ok u =>
          cases hscope : scope psl origin a.domain with
          | error e => simp [bind, Except.bind]
          | ok p =>
              obtain ⟨domain, hostOnly⟩ := p
              simp only [bind, Except.bind, pure, Except.pure, Except.ok.injEq, Prod.mk.injEq]
              constructor
              · rintro rfl
                exact ⟨h₁, h₂, trivial, domain, hostOnly, ⟨rfl, rfl⟩, rfl⟩
              · rintro ⟨-, -, -, d, ho, ⟨rfl, rfl⟩, rfl⟩
                rfl

theorem scope_eq_ok {requested : Option Text} {domain : Text} {hostOnly : Bool} :
    scope psl origin requested = .ok (domain, hostOnly) ↔
      (requested = none ∧ domain = toAsciiLowercase origin.host ∧ hostOnly = true) ∨
        (requested = some domain ∧ hostOnly = false ∧ psl.registrableDomain domain ≠ none ∧
          (toAsciiLowercase origin.host = domain ∨
            isBelow (toAsciiLowercase origin.host) domain = true)) := by
  unfold scope
  cases requested with
  | none =>
      simp only [Except.ok.injEq, Prod.mk.injEq, true_and, reduceCtorEq, false_and, or_false]
      exact and_congr eq_comm eq_comm
  | some d =>
      simp only
      split
      · rename_i hnone
        simp only [reduceCtorEq, false_and, Option.some.injEq, false_or, false_iff]
        rintro ⟨rfl, -, hsome, -⟩
        exact hsome hnone
      · rename_i hsome
        split
        · rename_i hmiss
          simp only [reduceCtorEq, false_and, Option.some.injEq, false_or, false_iff]
          rintro ⟨rfl, -, -, hcover⟩
          exact hcover.elim hmiss.1 hmiss.2
        · rename_i hcover
          simp only [Except.ok.injEq, Prod.mk.injEq, reduceCtorEq, false_and, Option.some.injEq,
            false_or]
          constructor
          · rintro ⟨rfl, rfl⟩
            refine ⟨rfl, rfl, hsome, ?_⟩
            by_contra hnot
            exact hcover (not_or.mp hnot)
          · rintro ⟨rfl, rfl, -⟩
            exact ⟨rfl, rfl⟩

/-! ## The whole header -/

/-- What `parse` went through on the way to a cookie. -/
theorem parse_eq_ok :
    parse psl origin header now = .ok c ↔
      header.len ≤ MAX_COOKIE_BYTES ∧ ∃ name value a,
        splitOnce '=' ((header.splitOn ';').headD []) = some (name, value) ∧ trim name ≠ [] ∧
          (header.splitOn ';').tail.foldlM readAttribute .start = .ok a ∧
          accept psl origin (trim name) (trim value) a now = .ok c := by
  unfold parse
  by_cases hlen : MAX_COOKIE_BYTES < header.len
  · rw [if_pos hlen]
    simp only [reduceCtorEq, false_iff]
    intro h
    exact absurd h.1 (Nat.not_le_of_lt hlen)
  · rw [if_neg hlen]
    simp only [Nat.le_of_not_lt hlen, true_and]
    cases hpair : splitOnce '=' ((header.splitOn ';').headD []) with
    | none => simp
    | some p =>
        obtain ⟨name, value⟩ := p
        simp only [Option.some.injEq, Prod.mk.injEq]
        by_cases hname : (trim name).isEmpty = true
        · rw [if_pos hname]
          simp only [reduceCtorEq, false_iff]
          rintro ⟨_, _, a, ⟨rfl, rfl⟩, hne, -⟩
          exact hne (List.isEmpty_iff.mp hname)
        · rw [if_neg hname]
          cases hattrs : (header.splitOn ';').tail.foldlM readAttribute .start with
          | error e => simp [bind, Except.bind]
          | ok a =>
              simp only [bind, Except.bind]
              constructor
              · intro h
                exact ⟨name, value, a, ⟨rfl, rfl⟩, fun hnil => hname (by simp [hnil]), rfl, h⟩
              · rintro ⟨_, _, _, ⟨rfl, rfl⟩, -, ha, h⟩
                cases ha
                exact h

theorem of_mem_pieces {header piece : Text} (h : piece ∈ header.splitOn ';') :
    ';' ∉ piece ∧ piece.len ≤ header.len :=
  ⟨(of_mem_splitOn h).1, len_le_of_sublist (of_mem_splitOn h).2⟩

theorem prefixes_of_checked {name : Text} (h : checkPrefixes name a = .ok ())
    {b : Attributes} (hsecure : b.secure = a.secure) (hpath : b.path = some (a.path.getD "/".toList))
    (hdomain : b.domain.isSome = a.domain.isSome) : checkPrefixes name b = .ok () := by
  unfold checkPrefixes at h ⊢
  rw [hsecure, hdomain, hpath]
  split at h
  · cases h
  · rename_i hsec
    rw [if_neg hsec]
    split at h
    · rename_i hhost
      rw [if_pos hhost]
      split at h
      · cases h
      · rename_i hs
        rw [if_neg hs]
        split at h
        · cases h
        · rename_i hd
          rw [if_neg hd]
          split at h
          · cases h
          · rename_i hp
            have hp' : a.path = some "/".toList := Classical.not_not.mp hp
            rw [hp', Option.getD_some, if_neg (fun hne => hne rfl)]
    · rename_i hhost
      rw [if_neg hhost]

theorem rootPath_sound : "/".toList.head? = some '/' ∧ trim "/".toList = "/".toList ∧
    ';' ∉ "/".toList ∧ Text.len "/".toList ≤ MAX_COOKIE_BYTES := by decide

/-- Every accepted cookie is sound. -/
theorem parse_sound (h : parse psl origin header now = .ok c) : c.Sound psl origin := by
  obtain ⟨hlen, name, value, a, hpair, hname, hattrs, haccept⟩ := parse_eq_ok.mp h
  obtain ⟨first, rest, hpieces⟩ := List.exists_cons_of_ne_nil (List.splitOn_ne_nil ';' header)
  rw [hpieces, List.headD_cons] at hpair
  rw [hpieces, List.tail_cons] at hattrs
  have hfirst := @of_mem_pieces header first (by simp [hpieces])
  have hsound : a.Sound header := foldlM_readAttribute_sound (Attributes.sound_start header)
    (fun t ht => of_mem_pieces (by simp [hpieces, ht])) hattrs
  obtain ⟨hsame, hsecure, hcheck, domain, hostOnly, hscope, rfl⟩ := accept_eq_ok.mp haccept
  obtain ⟨rfl, heq⟩ := splitOnce_eq_some hpair
  have hsubName : List.Sublist (trim name) (name ++ '=' :: value) :=
    (trim_sublist name).trans (List.sublist_append_left name _)
  have hsubValue : List.Sublist (trim value) (name ++ '=' :: value) :=
    (trim_sublist value).trans
      ((List.sublist_cons_self '=' value).trans (List.sublist_append_right name _))
  have hpart : ∀ t : Text, List.Sublist t (name ++ '=' :: value) →
      ';' ∉ t ∧ t.len ≤ MAX_COOKIE_BYTES := by
    intro t ht
    refine ⟨fun hmem => hfirst.1 (ht.subset hmem), ?_⟩
    exact Nat.le_trans (Nat.le_trans (len_le_of_sublist ht) hfirst.2) hlen
  refine
    { name := ⟨hname, trim_trim name, fun hmem => heq ((trim_sublist name).subset hmem),
        hpart _ hsubName⟩
      value := ⟨trim_trim value, hpart _ hsubValue⟩
      path := ?_
      hostOnly := ?_
      domain := ?_
      covers := ?_
      sameSite := hsame
      secure := hsecure
      prefixes := ?_ }
  · cases hpath : a.path with
    | none => exact rootPath_sound
    | some p =>
        obtain ⟨hhead, htrim, hsemi, hle⟩ := hsound.path p hpath
        exact ⟨hhead, htrim, hsemi, Nat.le_trans hle hlen⟩
  · intro hho
    rcases scope_eq_ok.mp hscope with ⟨-, hdom, -⟩ | ⟨-, hfalse, -⟩
    · exact hdom
    · rw [hfalse] at hho
      cases hho
  · intro hho
    rcases scope_eq_ok.mp hscope with ⟨-, -, htrue⟩ | ⟨hreq, -, -⟩
    · rw [htrue] at hho
      cases hho
    · obtain ⟨hne, hlower, hdots, hsemi, hle⟩ := hsound.domain domain hreq
      exact ⟨hne, hlower, hdots, hsemi, Nat.le_trans hle hlen⟩
  · intro hho
    rcases scope_eq_ok.mp hscope with ⟨-, -, htrue⟩ | ⟨-, -, hcovers⟩
    · rw [htrue] at hho
      cases hho
    · exact hcovers
  · intro b hbsecure hbpath hbdomain
    refine prefixes_of_checked hcheck hbsecure hbpath ?_
    rcases scope_eq_ok.mp hscope with ⟨hreq, -, hho⟩ | ⟨hreq, hho, -⟩
    · rw [hbdomain, hreq, hho]
      rfl
    · rw [hbdomain, hreq, hho]
      rfl

/-- An accepted cookie expires a whole number of seconds after it was parsed. -/
theorem parse_expiry {at_ : Instant}
    (h : parse psl origin header now = .ok c) (hat : c.expiresAt = some at_) :
    ∃ n < 2 ^ 63, at_ = now + n * 10 ^ 9 := by
  obtain ⟨-, name, value, a, -, -, hattrs, haccept⟩ := parse_eq_ok.mp h
  have hsound : a.Sound header := foldlM_readAttribute_sound (Attributes.sound_start header)
    (fun t ht => of_mem_pieces (List.mem_of_mem_tail ht)) hattrs
  obtain ⟨-, -, -, domain, hostOnly, -, rfl⟩ := accept_eq_ok.mp haccept
  simp only [expiry] at hat
  split at hat
  · rename_i seconds hage
    have hlt := hsound.maxAge seconds hage
    split at hat
    · cases hat
      exact ⟨0, by decide, by simp⟩
    · simp only [Instant.checkedAdd] at hat
      split at hat
      · cases hat
        exact ⟨seconds.toNat, (Int.toNat_lt' (by decide)).mpr hlt, rfl⟩
      · cases hat
  · cases hat

/-- Whether a header is accepted, and as which cookie, is no question of the time; only its expiry is. -/
theorem parse_time (h : parse psl origin header now = .ok c) (now' : Instant) :
    ∃ c', parse psl origin header now' = .ok c' ∧ c'.name = c.name ∧ c'.domain = c.domain ∧ c'.path = c.path := by
  obtain ⟨hlen, name, value, a, hpair, hname, hattrs, haccept⟩ := parse_eq_ok.mp h
  obtain ⟨hsame, hsecure, hcheck, domain, hostOnly, hscope, rfl⟩ := accept_eq_ok.mp haccept
  have haccept' := (@accept_eq_ok psl origin (trim name) (trim value) a now' _).mpr
    ⟨hsame, hsecure, hcheck, domain, hostOnly, hscope, rfl⟩
  exact ⟨_, parse_eq_ok.mpr ⟨hlen, name, value, a, hpair, hname, hattrs, haccept'⟩, rfl, rfl, rfl⟩

end Pelorus.Net
