import Pelorus.Secure.Credentials

/-
  Secure/Location.lean --- where a redirect goes, and where its `Location` says.

  TWO READINGS.  `follow` looks for the host up to the next slash and no further, and the
  checks are about what it finds; the parts it has found are then put together to a text, and
  the URL that is requested is what the URL parser makes of that.
-/
set_option autoImplicit false

namespace Pelorus.Secure

open Lib Lib.Text Lib.Numerals Websec
open Net hiding Origin

variable {W : Type}

/-! ## What a `Location` spells out -/

/-- A text without the characters at its ends that the URL parser drops. -/
def stripped (input : Text) : Text :=
  trimEndMatches (fun c => c ≤ ' ') (trimStartMatches (fun c => c ≤ ' ') input)

/-- What `Origin::new` makes of a host. -/
def normalHost (host : Text) : Text := toAsciiLowercase (undotted (trim host))

/-- What may stand behind a host: a colon and digits, or nothing where the host has no colon. -/
def IsPortPart (host port : Text) : Prop :=
  (port = [] ∧ ':' ∉ host) ∨ ∃ digits, port = ':' :: digits ∧ digits ≠ [] ∧ digits.all Char.isDigit = true

/-- The location has the host as it is serialised (but for case and trailing dots), then perhaps a port, then a
slash or nothing more; and it does not end in white space that is no part of a fragment. -/
def SpellsOut (location : Text) (u : Url) : Prop :=
  ∃ raw host port tail, stripped location = raw ++ ':' :: '/' :: '/' :: (host ++ port ++ tail) ∧ ':' ∉ raw ∧
    IsPortPart host port ∧ (tail = [] ∨ tail.head? = some '/') ∧
    some (normalHost host) = u.host.map Host.serialize ∧
    ('#' ∈ tail ∨ (stripped location).getLast?.any isWhitespace = false)

/-- The URL has the scheme, host, port, path and query of another, and the origin that was checked. -/
structure GoesTo (v u : Url) (checked : Net.Origin) : Prop where
  scheme : v.scheme = u.scheme
  host : v.host = u.host
  port : v.effectivePort = u.effectivePort
  path : v.path = u.path
  query : v.query = u.query
  checked : netOrigin v = some checked

/-! ## White space -/

/-- At the start, both readings drop the same. -/
theorem dropWhile_isWhitespace {c : Char} {rest : Text} (hletter : isWhitespace c = false) : ∀ {input : Text},
    (∀ d ∈ trim input, ¬ d < ' ') → (input.dropWhile fun d => d ≤ ' ') = c :: rest →
    input.dropWhile isWhitespace = c :: rest
  | [], _, h => by cases h
  | a :: input, hcontrol, h => by
      by_cases hq : isWhitespace a = true
      · have htrim : trim (a :: input) = trim input := by
          simp only [trim, trimStartMatches, List.dropWhile_cons_of_pos hq]
        rw [List.dropWhile_cons_of_pos hq]
        by_cases hp : a ≤ ' '
        · rw [List.dropWhile_cons_of_pos (by simpa using hp)] at h
          exact dropWhile_isWhitespace hletter (by rwa [htrim] at hcontrol) h
        · rw [List.dropWhile_cons_of_neg (by simpa using hp)] at h
          obtain ⟨rfl, _⟩ := List.cons.inj h
          rw [hq] at hletter
          cases hletter
      · have hq' : isWhitespace a = false := by simpa using hq
        rw [List.dropWhile_cons_of_neg hq]
        by_cases hp : a ≤ ' '
        · -- a control character would still be there
          have hmem : a ∈ trim (a :: input) := by
            simp only [trim, trimStartMatches, trimEndMatches, List.dropWhile_cons_of_neg hq]
            rw [← List.nil_append (a :: input), rdropWhile_append_cons hq']
            exact List.mem_cons_self
          have hnot := hcontrol a hmem
          have hle : a.toNat ≤ 0x20 := hp
          have hge : ¬ a.toNat < 0x20 := hnot
          have hspace : a = ' ' := Char.ext (UInt32.toNat_inj.mp (show a.toNat = 0x20 by omega))
          rw [hspace] at hq'
          exact absurd hq' (by decide)
        · rwa [List.dropWhile_cons_of_neg (by simpa using hp)] at h

theorem getLast?_rdropWhile (p : Char → Bool) (s : Text) : ∀ c, (s.rdropWhile p).getLast? = some c → p c = false := by
  intro c hc
  rw [List.rdropWhile, List.getLast?_reverse] at hc
  have h := List.head?_dropWhile_not p s.reverse
  rw [hc] at h
  simpa using h

variable {input host scheme s : Text} {c : Char} {port : UInt16} {from_ : Net.Origin}

/-- The text that `resolve` reads, in the text that the URL parser reads: it may end sooner. -/
theorem stripped_eq {rest : Text} (hstart : stripped input = c :: rest)
    (hletter : isWhitespace c = false) (hcontrol : ∀ d ∈ trim input, ¬ d < ' ') :
    ∃ white, stripped input = trim input ++ white ∧ (∀ d ∈ white, isWhitespace d = true) ∧
      (∀ d, white.getLast? = some d → ¬ d ≤ ' ') := by
  obtain ⟨t, ht⟩ : stripped input <+: input.dropWhile fun d => d ≤ ' ' := List.rdropWhile_prefix _ _
  rw [hstart, List.cons_append] at ht
  have hdrop := dropWhile_isWhitespace hletter hcontrol ht.symm
  have htrim : trim input = (c :: (rest ++ t)).rdropWhile isWhitespace := by
    rw [trim, trimStartMatches, hdrop, trimEndMatches]
  have hstripped : stripped input = (c :: (rest ++ t)).rdropWhile fun d => d ≤ ' ' := by
    rw [stripped, trimStartMatches, ← ht, trimEndMatches]
  obtain ⟨white, hwhite⟩ : ∃ white, (c :: (rest ++ t)).rtakeWhile isWhitespace = white := ⟨_, rfl⟩
  have hall : ∀ d ∈ white, isWhitespace d = true := fun d hd => List.mem_rtakeWhile_imp (hwhite ▸ hd)
  have hsplit : c :: (rest ++ t) = trim input ++ white := by
    rw [htrim, ← hwhite, List.rdropWhile_append_rtakeWhile]
  have hne : trim input ≠ [] := by
    rw [htrim, ← List.nil_append (c :: (rest ++ t)), rdropWhile_append_cons hletter]
    exact List.cons_ne_nil _ _
  obtain ⟨front, z, hz⟩ := (List.eq_nil_or_concat (trim input)).resolve_left hne
  -- the last character that `resolve` reads is dropped by neither
  have hlast : isWhitespace z = false := by
    refine getLast?_rdropWhile isWhitespace (c :: (rest ++ t)) z ?_
    rw [← htrim, hz, List.concat_eq_append, List.getLast?_append]
    rfl
  have hkept : decide (z ≤ ' ') = false := by
    have hmem : z ∈ trim input := by
      rw [hz, List.concat_eq_append]
      exact List.mem_append_right _ List.mem_cons_self
    have hge : ¬ z.toNat < 0x20 := hcontrol z hmem
    refine decide_eq_false fun hle => ?_
    have hnat : z.toNat ≤ 0x20 := hle
    have hspace : z = ' ' := Char.ext (UInt32.toNat_inj.mp (show z.toNat = 0x20 by omega))
    rw [hspace] at hlast
    exact absurd hlast (by decide)
  refine ⟨white.rdropWhile fun d => d ≤ ' ', ?_, ?_, ?_⟩
  · rw [hstripped, hsplit, hz, List.concat_eq_append, List.append_assoc, List.singleton_append,
      rdropWhile_append_cons hkept, List.append_assoc, List.singleton_append]
  · intro d hd
    exact hall d ((List.rdropWhile_prefix _ _).subset hd)
  · intro d hd
    simpa using getLast?_rdropWhile _ _ d hd

/-! ## The host and the port, read twice -/

theorem isPortPart_of_number {text : Text} {n : Nat} (h : parseUnsigned 10 65536 text = some n)
    (hdigits : text.all Char.isDigit = true) : IsPortPart host (':' :: text) := by
  refine Or.inr ⟨text, rfl, ?_, hdigits⟩
  rintro rfl
  cases h

/-- What `resolve` finds in an authority. -/
theorem hostAndPort_eq_ok {authority written : Text}
    (h : Redirect.hostAndPort scheme authority = .ok (written, port)) :
    (':' ∉ authority ∧ written = authority ∧ defaultPort scheme = some port) ∨
      ∃ text n, rsplitOnce ':' authority = some (written, text) ∧ parseUnsigned 10 65536 text = some n ∧
        port = UInt16.ofNat n := by
  unfold Redirect.hostAndPort at h
  split at h
  · rename_i host text hsplit
    split at h
    · rename_i n hn
      cases h
      exact Or.inr ⟨text, n, hsplit, hn, rfl⟩
    · cases h
  · rename_i hsplit
    have hno : ':' ∉ authority := by
      intro hc
      unfold rsplitOnce at hsplit
      exact not_mem_of_splitOnce (Option.map_eq_none_iff.mp hsplit) (List.mem_reverse.mpr hc)
    split at h
    · rename_i hs
      cases h
      exact Or.inl ⟨hno, rfl, by rw [hs]; rfl⟩
    · split at h
      · rename_i hs
        cases h
        exact Or.inl ⟨hno, rfl, by rw [hs]; rfl⟩
      · cases h

theorem mem_of_parseUnsigned {text : Text} {n : Nat} (h : parseUnsigned 10 65536 text = some n)
    (hc : c ∈ text) : c = '+' ∨ c.isDigit = true := by
  unfold parseUnsigned at h
  split at h
  · rcases List.mem_cons.mp hc with rfl | hc
    · exact Or.inl rfl
    · exact Or.inr (isDigit_of_digits (digits_of_magnitude h) hc)
  · exact Or.inr (isDigit_of_digits (digits_of_magnitude h) hc)

/-- What `Url::parse` takes for the host and the port of an authority. -/
theorem splitHostPort_eq_some {hostport : Text} {port : Option Text}
    (h : splitHostPort hostport = some (host, port)) :
    (port = none ∧ host = hostport ∧ (':' ∉ hostport ∨ hostport.getLast? = some ']')) ∨
      ∃ p, port = some p ∧ hostport = host ++ ':' :: p := by
  unfold splitHostPort at h
  split at h
  · obtain ⟨⟨inner, rest⟩, hsplit, h⟩ := Option.bind_eq_some_iff.mp h
    have heq := (splitOnce_eq_some hsplit).1
    dsimp only at h
    split at h
    · cases h
      refine Or.inl ⟨rfl, heq.symm, Or.inr ?_⟩
      rw [heq, List.getLast?_append]
      rfl
    · cases h
      exact Or.inr ⟨_, rfl, by rw [heq, List.append_assoc, List.singleton_append]⟩
    · cases h
  · split at h
    · rename_i hsplit
      cases h
      exact Or.inr ⟨_, rfl, rsplitOnce_eq_some hsplit⟩
    · rename_i hsplit
      cases h
      refine Or.inl ⟨rfl, rfl, Or.inl fun hc => ?_⟩
      unfold rsplitOnce at hsplit
      exact not_mem_of_splitOnce (Option.map_eq_none_iff.mp hsplit) (List.mem_reverse.mpr hc)

theorem parseAuthority_host_port {authority : Text} {a : Authority} (hat : '@' ∉ authority)
    (h : parseAuthority authority true = some a) :
    ∃ host port, splitHostPort authority = some (host, port) ∧ parseHost host true = some a.host ∧
      a.username = [] ∧ a.password = [] ∧
      ((a.port = none ∧ ∀ p, port = some p → p = []) ∨
        ∃ p n, port = some p ∧ p.all Char.isDigit = true ∧ parseUnsigned 10 65536 p = some n ∧
          a.port = some (UInt16.ofNat n)) := by
  unfold parseAuthority at h
  simp only [rsplitOnce_eq_none hat, Option.getD_none, splitOnce] at h
  obtain ⟨⟨host, port⟩, hsplit, h⟩ := Option.bind_eq_some_iff.mp h
  simp only [Bool.true_or, if_true] at h
  split at h
  · cases h
  · obtain ⟨parsed, hparsed, h⟩ := Option.bind_eq_some_iff.mp h
    cases port with
    | none =>
        cases h
        exact ⟨host, none, hsplit, hparsed, rfl, rfl, Or.inl ⟨rfl, fun p hp => by cases hp⟩⟩
    | some p =>
        dsimp only at h
        split at h
        · rename_i hempty
          cases h
          refine ⟨host, some p, hsplit, hparsed, rfl, rfl, Or.inl ⟨rfl, fun q hq => ?_⟩⟩
          cases hq
          simpa using hempty
        · split at h
          · cases h
          · rename_i hdigits
            obtain ⟨n, hn, h⟩ := Option.bind_eq_some_iff.mp h
            cases h
            simp only [Bool.or_eq_true, Bool.not_eq_true', decide_eq_true_eq, not_or, Bool.not_eq_false] at hdigits
            exact ⟨host, some p, hsplit, hparsed, rfl, rfl, Or.inr ⟨p, n, rfl, hdigits.1, hn, rfl⟩⟩

/-- Where both read an authority, they find the same host in it, and the same port. -/
theorem authorities_agree {authority written : Text} {a : Authority}
    (hat : '@' ∉ authority) (h : Redirect.hostAndPort scheme authority = .ok (written, port))
    (ha : parseAuthority authority true = some a) :
    (∃ portPart, authority = written ++ portPart ∧ IsPortPart written portPart) ∧
      parseHost written true = some a.host ∧ a.port.or (defaultPort scheme) = some port := by
  obtain ⟨host, port?, hsplit, hhost, _, _, hport⟩ := parseAuthority_host_port hat ha
  rcases hostAndPort_eq_ok h with ⟨hno, rfl, hdefault⟩ | ⟨text, n, hrsplit, hn, rfl⟩
  · rcases splitHostPort_eq_some hsplit with ⟨rfl, rfl, _⟩ | ⟨p, rfl, rfl⟩
    · rcases hport with ⟨hnone, _⟩ | ⟨p, _, hp, _⟩
      · exact ⟨⟨[], (List.append_nil _).symm, Or.inl ⟨rfl, hno⟩⟩, hhost, by rw [hnone]; exact hdefault⟩
      · cases hp
    · exact absurd (List.mem_append_right _ List.mem_cons_self) hno
  · have heq := rsplitOnce_eq_some hrsplit
    have hne : text ≠ [] := by
      rintro rfl
      cases hn
    rcases splitHostPort_eq_some hsplit with ⟨rfl, rfl, hno | hlast⟩ | ⟨p, rfl, heq'⟩
    · exact absurd (heq ▸ List.mem_append_right _ List.mem_cons_self) hno
    · -- the last character would be one of the number
      have hmem : ']' ∈ text := by
        rw [heq, List.getLast?_append, List.getLast?_cons_of_ne_nil hne] at hlast
        rw [List.getLast?_eq_some_getLast hne, Option.some_or] at hlast
        rw [← Option.some.inj hlast]
        exact List.getLast_mem hne
      rcases mem_of_parseUnsigned hn hmem with hc | hc
      · cases hc
      · exact absurd hc (by decide)
    · have hdigits : p.all Char.isDigit = true := by
        rcases hport with ⟨_, hempty⟩ | ⟨q, _, hq, hall, _⟩
        · rw [hempty p rfl]
          rfl
        · rw [Option.some.inj hq]
          exact hall
      have hcolon : ':' ∉ p := fun hc => absurd (List.all_eq_true.mp hdigits _ hc) (by decide)
      rw [heq', rsplitOnce_append hcolon] at hrsplit
      cases hrsplit
      rcases hport with ⟨_, hempty⟩ | ⟨q, m, hq, _, hm, hport⟩
      · exact absurd (hempty text rfl) hne
      · obtain rfl := Option.some.inj hq
        rw [hn] at hm
        obtain rfl := Option.some.inj hm
        exact ⟨⟨_, heq', isPortPart_of_number hn hdigits⟩, hhost, by rw [hport]; rfl⟩

/-! ## Where the redirect leads -/

/-- What `resolve` found in a location with a scheme. -/
structure Resolved (location : Text) (o : Net.Origin) (path raw authority rest written : Text) : Prop where
  text : trim location = raw ++ ':' :: '/' :: '/' :: (authority ++ rest)
  colon : ':' ∉ raw
  controls : ∀ c ∈ trim location, ¬ c < ' '
  slash : '/' ∉ authority
  userinfo : '@' ∉ authority
  tail : rest = [] ∨ ∃ t, rest = '/' :: t
  read : Redirect.hostAndPort (toAsciiLowercase raw) authority = .ok (written, o.port)
  origin : Net.Origin.new (toAsciiLowercase raw) written o.port = some o
  path : path = if rest.isEmpty then ['/'] else rest

theorem resolveAbsolute_eq_ok {rest path : Text} {o : Net.Origin}
    (h : Redirect.resolveAbsolute scheme rest = .ok (o, path)) :
    ∃ authority tail written, rest = authority ++ tail ∧ '/' ∉ authority ∧ '@' ∉ authority ∧
      (tail = [] ∨ ∃ t, tail = '/' :: t) ∧ Redirect.hostAndPort scheme authority = .ok (written, o.port) ∧
      Net.Origin.new scheme written o.port = some o ∧ path = if tail.isEmpty then ['/'] else tail := by
  unfold Redirect.resolveAbsolute at h
  rw [List.span_eq_takeWhile_dropWhile] at h
  obtain ⟨p, hp⟩ : ∃ p : Char → Bool, p = fun c => decide (c ≠ '/') := ⟨_, rfl⟩
  rw [← hp] at h
  have hrest : rest = rest.takeWhile p ++ rest.dropWhile p := List.takeWhile_append_dropWhile.symm
  have hslash : '/' ∉ rest.takeWhile p := by
    intro hc
    have hfalse := List.mem_takeWhile_imp hc
    rw [hp] at hfalse
    exact absurd rfl (of_decide_eq_true hfalse)
  have htail : rest.dropWhile p = [] ∨ ∃ t, rest.dropWhile p = '/' :: t := by
    cases hd : rest.dropWhile p with
    | nil => exact Or.inl rfl
    | cons c t =>
        have hfirst := List.head?_dropWhile_not p rest
        rw [hd, hp] at hfirst
        simp only [List.head?_cons, decide_eq_false_iff_not, not_not] at hfirst
        exact Or.inr ⟨t, by rw [hfirst]⟩
  generalize rest.takeWhile p = authority at h hrest hslash
  generalize rest.dropWhile p = tail at h hrest htail
  dsimp only at h
  split at h
  · cases h
  · rename_i hat
    split at h
    · cases h
    · rename_i written port hread
      split at h
      · rename_i origin horigin
        cases h
        have hport : port = o.port := (Net.Origin.new_eq_some horigin).2.2.symm
        rw [hport] at hread horigin
        exact ⟨authority, tail, written, hrest, hslash, by simpa using hat, htail, hread, horigin, rfl⟩
      · cases h

/-- A location with a scheme is followed to what `resolve_absolute` finds. -/
theorem resolve_eq_ok {o : Net.Origin} {location path raw rest : Text}
    (hscheme : Redirect.splitScheme (trim location) = some (toAsciiLowercase raw, rest))
    (htext : trim location = raw ++ ':' :: rest) (hcolon : ':' ∉ raw)
    (hslash : (trim location).head? ≠ some '/') (h : Redirect.resolve from_ location = .ok (o, path)) :
    ∃ authority tail written, Resolved location o path raw authority tail written := by
  unfold Redirect.resolve at h
  dsimp only at h
  split at h
  · cases h
  · split at h
    · cases h
    · rename_i hcontrols
      have hno : stripPrefix (trim location) "//".toList = none := by
        cases hs : stripPrefix (trim location) "//".toList with
        | none => rfl
        | some t => exact absurd (by rw [stripPrefix_eq_some hs]; rfl) hslash
      rw [hno, hscheme] at h
      dsimp only at h
      split at h
      · rename_i rest' hrest
        obtain ⟨authority, tail, written, heq, h₁, h₂, h₃, h₄, h₅, h₆⟩ := resolveAbsolute_eq_ok h
        refine ⟨authority, tail, written, ?_, hcolon, ?_, h₁, h₂, h₃, h₄, h₅, h₆⟩
        · rw [htext, stripPrefix_eq_some hrest, heq]
          rfl
        · intro c hc hlt
          exact hcontrols (List.any_eq_true.mpr ⟨c, hc, by simp [hlt]⟩)
      · cases h

/-! ## The same location to the URL parser -/

/-- What the URL parser does not drop from the middle of a text. -/
def isKept (c : Char) : Bool := !(c = '\t' || c = '\n' || c = '\r')

theorem cleaned_eq (input : Text) : cleaned input = (stripped input).filter isKept := rfl

theorem isKept_of_le (h : ¬ c < ' ') : isKept c = true := by
  have hne : ∀ d : Char, d < ' ' → c ≠ d := by
    rintro d hd rfl
    exact h hd
  simp [isKept, hne '\t' (by decide), hne '\n' (by decide), hne '\r' (by decide)]

theorem Url.splitScheme_of_parse {u : Url} (h : Url.parse input = some u) :
    ∃ rest, splitScheme (cleaned input) = some (u.scheme, rest) := by
  unfold Url.parse at h
  split at h
  · cases h
  · obtain ⟨⟨scheme, rest⟩, hscheme, h⟩ := Option.bind_eq_some_iff.mp h
    dsimp only at h
    obtain ⟨p, _, h⟩ := Option.bind_eq_some_iff.mp h
    cases h
    exact ⟨rest, hscheme⟩

theorem splitScheme_append {s white scheme rest : Text} (h : splitScheme (s ++ white) = some (scheme, rest))
    (hwhite : ':' ∉ white) :
    ∃ raw rest', s = raw ++ ':' :: rest' ∧ ':' ∉ raw ∧ toAsciiLowercase raw = scheme ∧ rest = rest' ++ white ∧
      splitScheme s = some (scheme, rest') ∧ ∃ c, s.head? = some c ∧ c.isAlpha = true := by
  cases hs : splitOnce ':' s with
  | none =>
      have hno : ':' ∉ s ++ white := fun hc => (List.mem_append.mp hc).elim (not_mem_of_splitOnce hs) hwhite
      unfold splitScheme at h
      rw [splitOnce_eq_none hno] at h
      cases h
  | some p =>
      obtain ⟨raw, rest'⟩ := p
      obtain ⟨heq, hcolon⟩ := splitOnce_eq_some hs
      have hboth : splitOnce ':' (s ++ white) = some (raw, rest' ++ white) := by
        rw [heq, List.append_assoc, List.cons_append, splitOnce_append hcolon]
      unfold splitScheme at h ⊢
      rw [hboth, Option.bind_eq_bind, Option.bind_some] at h
      rw [hs, Option.bind_eq_bind, Option.bind_some]
      dsimp only at h ⊢
      obtain ⟨first, hfirst, h⟩ := Option.bind_eq_some_iff.mp h
      rw [hfirst, Option.bind_eq_bind, Option.bind_some]
      split at h
      · rename_i hok
        cases h
        refine ⟨raw, rest', heq, hcolon, rfl, rfl, if_pos hok, first, ?_, ?_⟩
        · rw [heq, List.head?_append, hfirst]
          rfl
        · exact (Bool.and_eq_true _ _ ▸ hok).1
      · cases h

/-- A location as both readings have it. -/
structure BothRead (location : Text) (u : Url) (o : Net.Origin) (path raw authority rest written white : Text) : Prop
    extends Resolved location o path raw authority rest written where
  scheme : toAsciiLowercase raw = u.scheme
  reads : stripped location = trim location ++ white
  allWhite : ∀ c ∈ white, isWhitespace c = true
  last : ∀ c, white.getLast? = some c → ¬ c ≤ ' '
  splits : splitScheme (cleaned location) =
    some (u.scheme, '/' :: '/' :: (authority ++ (rest ++ white.filter isKept)))

/-- The first character that both read is a letter. -/
theorem stripped_head {rest : Text} (h : splitScheme (cleaned input) = some (scheme, rest)) :
    ∃ c t, stripped input = c :: t ∧ c.isAlpha = true := by
  obtain ⟨raw, rest', heq, _, _, _, _, c, hc, halpha⟩ :=
    @splitScheme_append (cleaned input) [] _ _ (by rwa [List.append_nil]) (List.not_mem_nil)
  cases hs : stripped input with
  | nil =>
      rw [cleaned_eq, hs] at hc
      cases hc
  | cons d t =>
      refine ⟨d, t, rfl, ?_⟩
      have hd : ¬ d ≤ ' ' := by
        obtain ⟨z, hz⟩ : stripped input <+: input.dropWhile fun d => d ≤ ' ' := List.rdropWhile_prefix _ _
        have hfirst := List.head?_dropWhile_not (fun d => decide (d ≤ ' ')) input
        rw [← hz, hs] at hfirst
        simpa using hfirst
      have hkeep : isKept d = true := isKept_of_le fun hlt => hd (Nat.le_of_lt hlt)
      rw [cleaned_eq, hs, List.filter_cons_of_pos hkeep] at hc
      obtain rfl := Option.some.inj hc
      exact halpha

theorem isWhitespace_of_isAlpha (h : c.isAlpha = true) : isWhitespace c = false :=
  isWhitespace_of_isGraphic (isGraphic_alphanum (by rw [Char.isAlphanum, h, Bool.true_or]))

theorem bothRead_of_parse {o : Net.Origin} {location path : Text} {u : Url}
    (hu : Url.parse location = some u)
    (h : Redirect.resolve from_ location = .ok (o, path)) :
    ∃ raw authority rest written white, BothRead location u o path raw authority rest written white := by
  obtain ⟨rest, hsplit⟩ := Url.splitScheme_of_parse hu
  obtain ⟨c, t, hstart, halpha⟩ := stripped_head hsplit
  have hcontrols : ∀ d ∈ trim location, ¬ d < ' ' := by
    intro d hd hlt
    unfold Redirect.resolve at h
    dsimp only at h
    split at h
    · cases h
    · split at h
      · cases h
      · rename_i hno
        exact hno (List.any_eq_true.mpr ⟨d, hd, by simp [hlt]⟩)
  obtain ⟨white, hwhite, hall, hlast⟩ := stripped_eq hstart (isWhitespace_of_isAlpha halpha) hcontrols
  have hkeep : (trim location).filter isKept = trim location :=
    List.filter_eq_self.mpr fun d hd => isKept_of_le (hcontrols d hd)
  have hcleaned : cleaned location = trim location ++ white.filter isKept := by
    rw [cleaned_eq, hwhite, List.filter_append, hkeep]
  have hcolon : ':' ∉ white.filter isKept := by
    intro hc
    exact absurd (hall _ (List.mem_of_mem_filter hc)) (by decide)
  rw [hcleaned] at hsplit
  obtain ⟨raw, rest', htext, hraw, hscheme, hrest, hscheme', d, hd, halpha'⟩ := splitScheme_append hsplit hcolon
  have hslash : (trim location).head? ≠ some '/' := by
    intro heq
    rw [heq] at hd
    obtain rfl := Option.some.inj hd
    exact absurd halpha' (by decide)
  obtain ⟨authority, tail, written, hfollowed⟩ := resolve_eq_ok (hscheme ▸ hscheme') htext hraw hslash h
  refine ⟨raw, authority, tail, written, white, hfollowed, hscheme, hwhite, hall, hlast, ?_⟩
  have hbody : rest' = '/' :: '/' :: (authority ++ tail) :=
    (List.cons.inj (List.append_cancel_left (htext.symm.trans hfollowed.text))).2
  rw [hcleaned, hsplit, hrest, hbody, List.cons_append, List.cons_append, List.append_assoc]

/-! ## Where both find the same -/

theorem mem_dropWhile {p : Char → Bool} {c : Char} (hp : p c = false) : ∀ {s : Text}, c ∈ s → c ∈ s.dropWhile p
  | a :: s, hc => by
      by_cases ha : p a = true
      · rw [List.dropWhile_cons_of_pos ha]
        rcases List.mem_cons.mp hc with rfl | hc
        · rw [hp] at ha
          cases ha
        · exact mem_dropWhile hp hc
      · rwa [List.dropWhile_cons_of_neg ha]

theorem mem_rdropWhile {p : Char → Bool} (hp : p c = false) (hc : c ∈ s) : c ∈ s.rdropWhile p :=
  List.mem_reverse.mpr (mem_dropWhile hp (List.mem_reverse.mpr hc))

/-- A character that is neither trimmed nor a letter is still in the host. -/
theorem mem_normalHost (hc : c ∈ host) (hends : endsAuthority c = true) : c ∈ normalHost host := by
  have hchar : isWhitespace c = false ∧ c ≠ '.' ∧ c.toLower = c := by
    simp only [endsAuthority, Bool.or_eq_true, decide_eq_true_eq] at hends
    rcases hends with ((rfl | rfl) | rfl) | rfl <;> decide
  refine List.mem_map.mpr ⟨c, ?_, hchar.2.2⟩
  exact mem_rdropWhile (by simpa using hchar.2.1) (mem_rdropWhile hchar.1 (mem_dropWhile hchar.1 hc))

/-- A host that is of host characters, once it is normalised, does not have the authority end within it. -/
theorem endsAuthority_of_normalHost (h : ∀ c ∈ normalHost host, isHostChar c = true) :
    ∀ c ∈ host, endsAuthority c = false := by
  intro c hc
  by_contra hends
  have hends' : endsAuthority c = true := by simpa using hends
  rw [endsAuthority_of_isHostChar (h c (mem_normalHost hc hends'))] at hends'
  cases hends'

theorem endsAuthority_of_digit (h : c.isDigit = true) : endsAuthority c = false :=
  endsAuthority_of_isHostChar (isHostChar_alphanum (by rw [Char.isAlphanum, h, Bool.or_true]))

/-- Nor does the port that `resolve` finds. -/
theorem endsAuthority_of_hostAndPort {authority written : Text}
    (h : Redirect.hostAndPort scheme authority = .ok (written, port))
    (hhost : ∀ c ∈ written, endsAuthority c = false) : ∀ c ∈ authority, endsAuthority c = false := by
  rcases hostAndPort_eq_ok h with ⟨_, rfl, _⟩ | ⟨text, n, hsplit, hn, _⟩
  · exact hhost
  · intro c hc
    rw [rsplitOnce_eq_some hsplit] at hc
    rcases List.mem_append.mp hc with hc | hc
    · exact hhost c hc
    · rcases List.mem_cons.mp hc with rfl | hc
      · decide
      · rcases mem_of_parseUnsigned hn hc with rfl | hc
        · decide
        · exact endsAuthority_of_digit hc

/-- A byte that is not ASCII is left as it is. -/
theorem mem_percentDecode {b : UInt8} (hb : 128 ≤ b) : ∀ {bytes : List UInt8}, b ∈ bytes → b ∈ percentDecode bytes := by
  have hall : ∀ n < 256, (toDigit 16 (Char.ofNat n)).isSome = true → n < 128 := by decide +kernel
  have hdigit : ∀ h : UInt8, (toDigit 16 (Char.ofNat h.toNat)).isSome = true → h < 128 := fun h hh =>
    UInt8.lt_iff_toNat_lt.mpr (hall h.toNat h.toNat_lt hh)
  intro bytes
  fun_induction percentDecode bytes with
  | case1 => exact id
  | case2 h l rest x y hx hy ih =>
      intro hc
      have hbelow : ∀ d : UInt8, d < 128 → b ≠ d := by
        rintro d hd rfl
        exact absurd hb (UInt8.not_le.mpr hd)
      simp only [List.mem_cons] at hc
      rcases hc with hc | hc | hc | hc
      · exact absurd hc (hbelow _ (by decide))
      · exact absurd hc (hbelow _ (hdigit h (by rw [hy]; rfl)))
      · exact absurd hc (hbelow _ (hdigit l (by rw [hx]; rfl)))
      · exact List.mem_cons_of_mem _ (ih hc)
  | case3 h l rest _ ih =>
      intro hc
      rcases List.mem_cons.mp hc with rfl | hc
      · exact List.mem_cons_self
      · exact List.mem_cons_of_mem _ (ih hc)
  | case4 c h l rest _ ih =>
      intro hc
      rcases List.mem_cons.mp hc with rfl | hc
      · exact List.mem_cons_self
      · exact List.mem_cons_of_mem _ (ih hc)
  | case5 c rest _ ih =>
      intro hc
      rcases List.mem_cons.mp hc with rfl | hc
      · exact List.mem_cons_self
      · exact List.mem_cons_of_mem _ (ih hc)

theorem mem_utf8EncodeChar (h : 128 ≤ c.toNat) : ∃ b ∈ String.utf8EncodeChar c, 128 ≤ b := by
  have hval : c.val.toNat = c.toNat := rfl
  have hbyte : ∀ n, 128 ≤ n → n < 256 → 128 ≤ UInt8.ofNat n := by
    intro n h₁ h₂
    rw [UInt8.le_iff_toNat_le, UInt8.toNat_ofNat_of_lt' h₂]
    exact h₁
  fun_cases String.utf8EncodeChar with
  | case1 => omega
  | case2 => exact ⟨_, List.mem_cons_self, hbyte _ (by omega) (by omega)⟩
  | case3 => exact ⟨_, List.mem_cons_self, hbyte _ (by omega) (by omega)⟩
  | case4 => exact ⟨_, List.mem_cons_self, hbyte _ (by omega) (by omega)⟩

/-- White space that the URL parser leaves at an end. -/
theorem toNat_of_isWhitespace (h : isWhitespace c = true) (hle : ¬ c ≤ ' ') : 128 ≤ c.toNat := by
  have hgt : ¬ c.toNat ≤ 0x20 := hle
  simp only [isWhitespace, Bool.or_eq_true, Bool.and_eq_true, decide_eq_true_eq] at h
  omega

/-- A special host has no character at its end that is not ASCII. -/
theorem parseHost_white {front : Text} (hc : 128 ≤ c.toNat) : parseHost (front ++ [c]) true = none := by
  have hlast : (front ++ [c]).getLast? = some c := by
    rw [List.getLast?_append]
    rfl
  unfold parseHost
  split
  · rename_i inner heq
    have hsuffix : stripSuffix inner [']'] = none := by
      unfold stripSuffix
      refine if_neg fun hsuffix => ?_
      obtain ⟨t, rfl⟩ := List.isSuffixOf_iff_suffix.mp hsuffix
      rw [heq, ← List.cons_append, List.getLast?_append] at hlast
      obtain rfl := Option.some.inj hlast
      exact absurd hc (by decide)
    rw [hsuffix]
    rfl
  · have hdecoded : percentDecodeAscii (front ++ [c]) = none := by
      obtain ⟨b, hb, hhigh⟩ := mem_utf8EncodeChar hc
      have hmem : b ∈ percentDecode (Text.utf8 (front ++ [c])) := by
        refine mem_percentDecode hhigh ?_
        rw [utf8_append]
        exact List.mem_append_right _ (List.mem_flatMap.mpr ⟨c, List.mem_cons_self, hb⟩)
      unfold percentDecodeAscii
      refine if_neg fun hall => ?_
      exact absurd hhigh (UInt8.not_le.mpr (by simpa using List.all_eq_true.mp hall b hmem))
    rw [hdecoded]
    rfl

/-- An authority that ends in white space is refused. -/
theorem parseAuthority_white {front : Text} (hat : '@' ∉ front) (hc : 128 ≤ c.toNat) :
    parseAuthority (front ++ [c]) true = none := by
  have hat' : '@' ∉ front ++ [c] := by
    intro hmem
    rcases List.mem_append.mp hmem with h | h
    · exact hat h
    · rw [← List.mem_singleton.mp h] at hc
      exact absurd hc (by decide)
  cases ha : parseAuthority (front ++ [c]) true with
  | none => rfl
  | some a =>
      obtain ⟨host, port, hsplit, hhost, _, _, hport⟩ := parseAuthority_host_port hat' ha
      rcases splitHostPort_eq_some hsplit with ⟨_, rfl, _⟩ | ⟨p, rfl, heq⟩
      · rw [parseHost_white hc] at hhost
        cases hhost
      · -- the last character is one of the port, or the colon
        have hlast : (host ++ ':' :: p).getLast? = some c := by
          rw [← heq, List.getLast?_append]
          rfl
        have hmem : c ∈ ':' :: p := by
          rw [List.getLast?_append, List.getLast?_eq_some_getLast (List.cons_ne_nil _ _), Option.some_or] at hlast
          rw [← Option.some.inj hlast]
          exact List.getLast_mem _
        rcases List.mem_cons.mp hmem with rfl | hmem
        · exact absurd hc (by decide)
        · have hdigit : c.isDigit = true := by
            rcases hport with ⟨_, hempty⟩ | ⟨q, _, hq, hall, _⟩
            · rw [hempty p rfl] at hmem
              cases hmem
            · rw [Option.some.inj hq] at hmem
              exact List.all_eq_true.mp hall c hmem
          simp only [Char.isDigit, Bool.and_eq_true, decide_eq_true_eq] at hdigit
          have hle : c.toNat ≤ 57 := hdigit.2
          omega

section
variable {location : Text} {u v : Url} {o : Net.Origin} {path raw authority rest written white : Text}

theorem Resolved.ne_nil (h : Resolved location o path raw authority rest written) : authority ≠ [] := by
  rintro rfl
  have hnil : written = [] := by
    rcases hostAndPort_eq_ok h.read with ⟨_, hw, _⟩ | ⟨text, n, hsplit, _⟩
    · exact hw
    · cases hsplit
  refine o.valid.host_ne_nil ?_
  rw [(Net.Origin.new_eq_some h.origin).2.1, hnil]
  rfl

section

variable (h : BothRead location u o path raw authority rest written white)

include h

theorem BothRead.scheme_eq (hs : isWebScheme u.scheme) : o.scheme = u.scheme := by
  rw [(Net.Origin.new_eq_some h.origin).1, h.scheme]
  rcases hs with hs | hs <;> rw [hs] <;> rfl

/-- White space behind an authority makes the URL parser refuse it. -/
theorem BothRead.white_eq_nil (hu : Url.parse location = some u) (hs : isWebScheme u.scheme)
    (hends : ∀ c ∈ authority, endsAuthority c = false) (hrest : rest = []) : white = [] := by
  by_contra hne
  obtain ⟨front, z, hz⟩ := (List.eq_nil_or_concat white).resolve_left hne
  rw [List.concat_eq_append] at hz
  have hspace : isWhitespace z = true := h.allWhite z (by rw [hz]; exact List.mem_append_right _ List.mem_cons_self)
  have hhigh : 128 ≤ z.toNat := by
    refine toNat_of_isWhitespace hspace (h.last z ?_)
    rw [hz, List.getLast?_append]
    rfl
  have hkept : isKept z = true := by
    refine isKept_of_le fun hlt => ?_
    have hlow : z.toNat < 0x20 := hlt
    omega
  have hsplits := h.splits
  rw [hrest, hz, List.filter_append, List.filter_cons_of_pos hkept, List.filter_nil, List.nil_append,
    ← List.append_assoc] at hsplits
  have hwhite : ∀ c, isWhitespace c = true → endsAuthority c = false ∧ c ≠ '@' := by
    intro c hc
    have hne : ∀ d : Char, isWhitespace d = false → c ≠ d := by
      rintro d hd rfl
      rw [hc] at hd
      cases hd
    exact ⟨endsAuthority_eq_false.mpr ⟨hne _ (by decide), hne _ (by decide), hne _ (by decide), hne _ (by decide)⟩,
      hne _ (by decide)⟩
  have hfront : ∀ c ∈ front.filter isKept, isWhitespace c = true := fun c hc =>
    h.allWhite c (by rw [hz]; exact List.mem_append_left _ (List.mem_of_mem_filter hc))
  have hat : '@' ∉ authority ++ front.filter isKept := fun hc =>
    (List.mem_append.mp hc).elim h.userinfo fun hc => (hwhite _ (hfront _ hc)).2 rfl
  have hall : ∀ c ∈ authority ++ front.filter isKept ++ [z], endsAuthority c = false := by
    intro c hc
    rcases List.mem_append.mp hc with hc | hc
    · rcases List.mem_append.mp hc with hc | hc
      · exact hends c hc
      · exact (hwhite c (hfront c hc)).1
    · rw [List.mem_singleton.mp hc]
      exact (hwhite z hspace).1
  have hnil : IsTail [] := Or.inl rfl
  have hparse := Url.parse_assembled (isNetScheme_of_web hs) (by simp) hall hnil (Url.parse_cases hu).1
    (by rwa [List.append_nil])
  rw [parseAuthority_white hat hhigh, hu] at hparse
  cases hparse

/-- What the URL parser makes of an authority that ends where `resolve` ends it. -/
theorem BothRead.url (hu : Url.parse location = some u) (hs : isWebScheme u.scheme)
    (hends : ∀ c ∈ authority, endsAuthority c = false) :
    ∃ a, parseAuthority authority true = some a ∧ u = assemble u.scheme a (rest ++ white.filter isKept) := by
  have htail : IsTail (rest ++ white.filter isKept) := by
    rcases h.tail with hrest | ⟨t, hrest⟩
    · rw [h.white_eq_nil hu hs hends hrest, hrest]
      exact Or.inl rfl
    · rw [hrest]
      exact Or.inr ⟨'/', _, rfl, by decide⟩
  have hparse := Url.parse_assembled (isNetScheme_of_web hs) h.ne_nil hends htail (Url.parse_cases hu).1 h.splits
  rw [hu] at hparse
  obtain ⟨a, ha, heq⟩ := Option.map_eq_some_iff.mp hparse.symm
  exact ⟨a, ha, heq.symm⟩

end

/-- The text of the URL that is requested. -/
def nextText (o : Net.Origin) (path : Text) : Text :=
  o.scheme ++ "://".toList ++ o.host ++ ':' :: Nat.toDigits 10 o.port.toNat ++ path

/-- A text that neither starts nor ends with what the URL parser drops there is read as it is. -/
theorem cleaned_of_ends (hno : ∀ c ∈ s, ¬ c < ' ') (hhead : ∀ c, s.head? = some c → ¬ c ≤ ' ')
    (hlast : ∀ c, s.getLast? = some c → ¬ c ≤ ' ') : cleaned s = s := by
  have hstart : s.dropWhile (fun c => decide (c ≤ ' ')) = s := by
    cases s with
    | nil => rfl
    | cons c t => exact List.dropWhile_cons_of_neg (by simpa using hhead c rfl)
  have hend : s.rdropWhile (fun c => decide (c ≤ ' ')) = s := by
    rcases List.eq_nil_or_concat s with rfl | ⟨front, c, rfl⟩
    · rfl
    · rw [List.concat_eq_append]
      refine List.rdropWhile_concat_neg _ _ _ ?_
      simpa using hlast c (by rw [List.concat_eq_append, List.getLast?_append]; rfl)
  have hstripped : stripped s = s := by
    rw [stripped, trimStartMatches, hstart, trimEndMatches, hend]
  rw [cleaned_eq, hstripped]
  exact List.filter_eq_self.mpr fun c hc => isKept_of_le (hno c hc)

theorem last_trim (hno : ∀ c ∈ trim s, ¬ c < ' ') (hc : (trim s).getLast? = some c) : ¬ c ≤ ' ' := by
  have hwhite : isWhitespace c = false := getLast?_rdropWhile _ _ c hc
  have hge : ¬ c.toNat < 0x20 := hno c (List.mem_of_getLast? hc)
  intro hle
  have hnat : c.toNat ≤ 0x20 := hle
  have hspace : c = ' ' := Char.ext (UInt32.toNat_inj.mp (show c.toNat = 0x20 by omega))
  rw [hspace] at hwhite
  exact absurd hwhite (by decide)

theorem Resolved.path_tail (h : Resolved location o path raw authority rest written) : ∃ t, path = '/' :: t := by
  rw [h.path]
  rcases h.tail with rfl | ⟨t, rfl⟩
  · exact ⟨[], rfl⟩
  · exact ⟨t, rfl⟩

theorem Resolved.path_ends (h : Resolved location o path raw authority rest written) :
    (∀ c ∈ path, ¬ c < ' ') ∧ ∀ c, path.getLast? = some c → ¬ c ≤ ' ' := by
  have hmem : ∀ c ∈ rest, ¬ c < ' ' := fun c hc => h.controls c (by rw [h.text]; simp [hc])
  rw [h.path]
  rcases h.tail with rfl | ⟨t, rfl⟩
  · refine ⟨fun c hc => ?_, fun c hc => ?_⟩
    · rw [List.mem_singleton.mp hc]
      decide
    · rw [← Option.some.inj hc]
      decide
  · refine ⟨hmem, fun c hc => ?_⟩
    refine last_trim h.controls ?_
    have hassoc : raw ++ ':' :: '/' :: '/' :: (authority ++ '/' :: t) =
        (raw ++ ':' :: '/' :: '/' :: authority) ++ '/' :: t := by simp
    have hc' : ('/' :: t).getLast? = some c := hc
    rw [h.text, hassoc, List.getLast?_append, hc']
    rfl

theorem hostAndPort_port (scheme : Text) :
    Redirect.hostAndPort scheme (host ++ ':' :: Nat.toDigits 10 port.toNat) = .ok (host, port) := by
  have hcolon : ':' ∉ Nat.toDigits 10 port.toNat := fun hc => absurd (digit_port hc) (by decide)
  have hparse : parseUnsigned 10 65536 (Nat.toDigits 10 port.toNat) = some port.toNat :=
    parseUnsigned_toDigits (by decide) (by decide) (UInt16.toNat_lt port)
  unfold Redirect.hostAndPort
  rw [rsplitOnce_append hcolon]
  simp only [hparse, UInt16.ofNat_toNat]

/-- The URL that is requested has the host, the port and the path that were found, where the host is one. -/
theorem Resolved.next (h : Resolved location o path raw authority rest written)
    (hhost : ∀ c ∈ o.host, isHostChar c = true) (hv : Url.parse (nextText o path) = some v) :
    ∃ a, parseHost o.host true = some a.host ∧ a.port.or (defaultPort o.scheme) = some o.port ∧
      v = assemble o.scheme a path := by
  have hnet : IsNetScheme o.scheme := isNetScheme_of_web o.valid.scheme_ok.symm
  have hassoc : nextText o path =
      o.scheme ++ ':' :: '/' :: '/' :: (authorityText o.host (some o.port) ++ path) := by
    simp [nextText, authorityText]
  have hauthority : ∀ c ∈ authorityText o.host (some o.port), isHostChar c = true := authorityText_chars hhost _
  have hscheme : ∀ c ∈ o.scheme, ¬ c ≤ ' ' := by
    have hall : o.scheme.all (fun c => !decide (c ≤ ' ')) = true := by
      rcases o.valid.scheme_ok with hs | hs <;> rw [hs] <;> decide
    intro c hc
    simpa using List.all_eq_true.mp hall c hc
  have hplain : ∀ c, isHostChar c = true → ¬ c < ' ' := by
    intro c hc hlt
    have hlow : c.toNat < 0x20 := hlt
    have hgraphic := (isHostChar_iff.mp hc).1
    simp only [isGraphic, Bool.and_eq_true, decide_eq_true_eq] at hgraphic
    omega
  have hno : ∀ c ∈ nextText o path, ¬ c < ' ' := by
    intro c hc
    rw [hassoc] at hc
    simp only [List.mem_append, List.mem_cons] at hc
    rcases hc with hc | rfl | rfl | rfl | hc | hc
    · exact fun hlt => hscheme c hc (Nat.le_of_lt hlt)
    · decide
    · decide
    · decide
    · exact hplain c (hauthority c hc)
    · exact h.path_ends.1 c hc
  obtain ⟨t, hpath⟩ := h.path_tail
  have hcleaned : cleaned (nextText o path) = nextText o path := by
    refine cleaned_of_ends hno (fun c hc => ?_) fun c hc => ?_
    · rw [hassoc] at hc
      rcases o.valid.scheme_ok with hs | hs <;>
        · rw [hs] at hc
          rw [← Option.some.inj hc]
          decide
    · refine h.path_ends.2 c ?_
      rw [nextText, List.getLast?_append, hpath, List.getLast?_eq_some_getLast (List.cons_ne_nil _ _),
        Option.some_or] at hc
      rw [hpath, List.getLast?_eq_some_getLast (List.cons_ne_nil _ _), hc]
  have hsplit : splitScheme (cleaned (nextText o path)) =
      some (o.scheme, '/' :: '/' :: (authorityText o.host (some o.port) ++ path)) := by
    rw [hcleaned, hassoc, splitScheme_net hnet]
  have hparse := Url.parse_assembled hnet (by simp [authorityText])
    (fun c hc => endsAuthority_of_isHostChar (hauthority c hc)) (Or.inr ⟨'/', t, hpath, by decide⟩)
    (Url.parse_cases hv).1 hsplit
  rw [hv] at hparse
  obtain ⟨a, ha, heq⟩ := Option.map_eq_some_iff.mp hparse.symm
  have hat : '@' ∉ authorityText o.host (some o.port) := fun hc =>
    (isHostChar_iff.mp (hauthority _ hc)).2.2.2.2.2 rfl
  obtain ⟨_, hread, hport⟩ := authorities_agree hat (hostAndPort_port o.scheme) ha
  exact ⟨a, hread, hport, heq.symm⟩

end

/-! ## Hosts without their dots -/

theorem undotted_of_last (h : ∀ c, s.getLast? = some c → c ≠ '.') : undotted s = s := by
  rcases List.eq_nil_or_concat s with rfl | ⟨front, c, rfl⟩
  · rfl
  · rw [List.concat_eq_append, undotted, trimEndMatches]
    refine List.rdropWhile_concat_neg _ _ _ ?_
    simpa using h c (by rw [List.concat_eq_append, List.getLast?_append]; rfl)

theorem undotted_normalHost (host : Text) : undotted (normalHost host) = normalHost host := by
  refine undotted_of_last fun c hc => ?_
  rw [normalHost, toAsciiLowercase, List.getLast?_map] at hc
  obtain ⟨d, hd, rfl⟩ := Option.map_eq_some_iff.mp hc
  have hdot : d ≠ '.' := by simpa using getLast?_rdropWhile _ _ d hd
  exact fun heq => hdot ((toLower_eq_iff (by decide)).mp heq)

theorem undotted_ipv4 (octets : { l : List UInt8 // l.length = 4 }) :
    undotted (Host.ipv4 octets).serialize = (Host.ipv4 octets).serialize := by
  obtain ⟨l, hl⟩ := octets
  match l, hl with
  | [a, b, c, d], _ =>
      have hjoined : (Host.ipv4 ⟨[a, b, c, d], rfl⟩).serialize =
          (decimalByte a ++ '.' :: (decimalByte b ++ '.' :: (decimalByte c ++ ['.']))) ++ decimalByte d := by
        simp [Host.serialize, List.intercalate, List.intersperse]
      rw [hjoined]
      refine undotted_of_last fun z hz => ?_
      rw [List.getLast?_append, List.getLast?_eq_some_getLast (decimalByte_ne_nil d), Option.some_or] at hz
      have hdigit := isDigit_decimalByte (List.getLast_mem (decimalByte_ne_nil d))
      rw [Option.some.inj hz] at hdigit
      rintro rfl
      exact absurd hdigit (by decide)

/-- A name is read from its text as it is, but for the case. -/
theorem name_of_parseHost {name : Text} (h : parseHost s true = some (.domain name)) (hascii : s.isAscii)
    (hpercent : '%' ∉ s) : name = toAsciiLowercase s := by
  unfold parseHost at h
  split at h
  · obtain ⟨_, _, h⟩ := Option.bind_eq_some_iff.mp h
    obtain ⟨_, _, h⟩ := Option.bind_eq_some_iff.mp h
    cases h
  · simp only [Bool.not_true, Bool.false_eq_true, if_false, percentDecodeAscii_of_plain hascii hpercent,
      Option.bind_eq_bind, Option.bind_some] at h
    split at h
    · cases h
    · split at h
      · obtain ⟨_, _, h⟩ := Option.map_eq_some_iff.mp h
        cases h
      · cases h
        rfl

/-- A host that is read from its text without dots at the end has none. -/
theorem serialize_of_undotted {host : Host} (h : parseHost (undotted host.serialize) true = some host) :
    undotted host.serialize = host.serialize := by
  rcases parseHost_cases h with ⟨name, rfl, hname⟩ | ⟨octets, rfl⟩ | ⟨pieces, rfl⟩
  · have hsub : ∀ c ∈ undotted name, c ∈ name := fun c hc => (List.rdropWhile_prefix _ _).subset hc
    have hascii : (undotted name).isAscii :=
      List.all_eq_true.mpr fun c hc => List.all_eq_true.mp hname.ascii c (hsub c hc)
    have hpercent : '%' ∉ undotted name := fun hc => (hname.allowed _ (hsub _ hc)).2 rfl
    have hlower : name = toAsciiLowercase (undotted name) := name_of_parseHost h hascii hpercent
    rw [lower_undotted hname.lower] at hlower
    exact hlower.symm
  · exact undotted_ipv4 octets
  · refine undotted_of_last fun c hc => ?_
    have hlast : ('[' :: serializeIpv6 pieces.1 ++ [']']).getLast? = some c := hc
    rw [List.getLast?_append] at hlast
    rw [← Option.some.inj hlast]
    decide

/-! ## Paths and queries -/

theorem before_append_of_mem {sep : Char} {a : Text} (h : sep ∈ a) (b : Text) :
    before sep (a ++ b) = before sep a ∧ behind sep (a ++ b) = (behind sep a).map (· ++ b) := by
  cases hs : splitOnce sep a with
  | none => exact absurd h (not_mem_of_splitOnce hs)
  | some p =>
      obtain ⟨x, y⟩ := p
      obtain ⟨rfl, hx⟩ := splitOnce_eq_some hs
      rw [before, behind, before, behind, hs, List.append_assoc, List.cons_append, splitOnce_append hx]
      exact ⟨rfl, rfl⟩

theorem before_of_not_mem {sep : Char} {a : Text} (h : sep ∉ a) : before sep a = a ∧ behind sep a = none := by
  rw [before, behind, splitOnce_eq_none h]
  exact ⟨rfl, rfl⟩

theorem length_pathOf (h : s ≠ []) : (pathOf s).length = s.length := by
  unfold pathOf
  rw [if_neg (by simpa using h), List.length_map]

/-- What is appended to a path is seen, unless it is in the fragment. -/
theorem same_target {rest white : Text} (hhash : '#' ∉ white) (hquestion : '?' ∉ white) (hrest : rest ≠ [])
    (hpath : pathOf (before '?' (before '#' (rest ++ white))) = pathOf (before '?' (before '#' rest)))
    (hquery : behind '?' (before '#' (rest ++ white)) = behind '?' (before '#' rest)) : '#' ∈ rest ∨ white = [] := by
  by_contra hnot
  obtain ⟨hno, hne⟩ := not_or.mp hnot
  have hno' : '#' ∉ rest ++ white := fun hc => (List.mem_append.mp hc).elim hno hhash
  rw [(before_of_not_mem hno').1, (before_of_not_mem hno).1] at hpath hquery
  by_cases hq : '?' ∈ rest
  · rw [(before_append_of_mem hq white).2] at hquery
    cases hb : behind '?' rest with
    | none =>
        unfold behind at hb
        exact not_mem_of_splitOnce (Option.map_eq_none_iff.mp hb) hq
    | some q =>
        rw [hb] at hquery
        exact hne (List.append_right_eq_self.mp (Option.some.inj hquery))
  · have hq' : '?' ∉ rest ++ white := fun hc => (List.mem_append.mp hc).elim hq hquestion
    rw [(before_of_not_mem hq').1, (before_of_not_mem hq).1] at hpath
    have hlen := congrArg List.length hpath
    rw [length_pathOf hrest, length_pathOf (by simp [hrest]), List.length_append] at hlen
    exact hne (List.eq_nil_of_length_eq_zero (by omega))

/-! ## The redirect and its location -/

/-- `Origin::new` looks at what is left once a scheme and a host are normalised. -/
theorem new_congr {scheme' host' : Text}
    (hscheme : toAsciiLowercase (trim scheme) = toAsciiLowercase (trim scheme'))
    (hhost : normalHost host = normalHost host') : Net.Origin.new scheme host port = Net.Origin.new scheme' host' port := by
  unfold normalHost undotted at hhost
  simp only [Net.Origin.new, hscheme, hhost]

theorem hostAndPort_portPart {portPart written : Text} (hport : IsPortPart host portPart)
    (h : Redirect.hostAndPort scheme (host ++ portPart) = .ok (written, port)) : written = host := by
  rcases hport with ⟨rfl, hno⟩ | ⟨digits, rfl, _, hdigits⟩
  · rw [List.append_nil] at h
    rcases hostAndPort_eq_ok h with ⟨_, hw, _⟩ | ⟨text, n, hsplit, _⟩
    · exact hw
    · rw [rsplitOnce_eq_none hno] at hsplit
      cases hsplit
  · have hcolon : ':' ∉ digits := fun hc => absurd (List.all_eq_true.mp hdigits _ hc) (by decide)
    rcases hostAndPort_eq_ok h with ⟨hno, _⟩ | ⟨text, n, hsplit, _⟩
    · exact absurd (List.mem_append_right _ List.mem_cons_self) hno
    · rw [rsplitOnce_append hcolon] at hsplit
      cases hsplit
      rfl

theorem endsAuthority_portPart {portPart : Text} (h : IsPortPart host portPart) :
    ∀ c ∈ portPart, endsAuthority c = false := by
  rcases h with ⟨rfl, _⟩ | ⟨digits, rfl, _, hdigits⟩
  · intro c hc
    cases hc
  · intro c hc
    rcases List.mem_cons.mp hc with rfl | hc
    · decide
    · exact endsAuthority_of_digit (List.all_eq_true.mp hdigits c hc)

theorem effectivePort_assemble (scheme : Text) (a : Authority) (tail : Text) :
    (assemble scheme a tail).effectivePort = a.port.or (defaultPort scheme) := by
  unfold assemble Url.effectivePort
  dsimp only
  split
  · rename_i h
    rw [h.2, Option.none_or]
    cases hd : defaultPort scheme with
    | none =>
        rw [h.2, hd] at h
        cases h.1
    | some p => rfl
  · rfl

section
variable {location : Text} {u v : Url} {o : Net.Origin} {path raw authority rest written white : Text}

section

variable (h : BothRead location u o path raw authority rest written white)

include h

theorem BothRead.not_mem_white (hc : isWhitespace c = false) : c ∉ white ∧ c ∉ white.filter isKept := by
  have hno : c ∉ white := by
    intro hmem
    rw [h.allWhite c hmem] at hc
    cases hc
  exact ⟨hno, fun hmem => hno (List.mem_of_mem_filter hmem)⟩

theorem BothRead.filter_eq_nil (hnil : white.filter isKept = []) : white = [] := by
  by_contra hne
  have hz := List.getLast?_eq_some_getLast hne
  have hlast := h.last _ hz
  have hkept := isKept_of_le fun hlt => hlast (Nat.le_of_lt hlt)
  have hmem := List.mem_filter.mpr ⟨List.getLast_mem hne, hkept⟩
  rw [hnil] at hmem
  cases hmem

/-- The location ends in white space exactly where the URL parser reads more of it. -/
theorem BothRead.last_isWhitespace :
    (stripped location).getLast?.any isWhitespace = false ↔ white = [] := by
  rw [h.reads]
  constructor
  · intro hlast
    by_contra hne
    rw [List.getLast?_append, List.getLast?_eq_some_getLast hne, Option.some_or, Option.any_some,
      h.allWhite _ (List.getLast_mem hne)] at hlast
    cases hlast
  · rintro rfl
    rw [List.append_nil]
    cases hz : (trim location).getLast? with
    | none => rfl
    | some z => exact getLast?_rdropWhile _ _ z hz

/-- Where the redirect goes to what its location says, the location spells out its host. -/
theorem BothRead.spellsOut (hu : Url.parse location = some u) (hs : isWebScheme u.scheme)
    (hv : Url.parse (nextText o path) = some v) (hgoes : GoesTo v u o) : SpellsOut location u := by
  obtain ⟨host, hparts⟩ := urlParts hv (hgoes.scheme ▸ hs)
  obtain ⟨_, hhost, _⟩ := hparts.netOrigin hgoes.checked
  obtain ⟨input, hparsed⟩ := hparts.parsed
  have hchars : ∀ c ∈ o.host, isHostChar c = true := by
    intro c hc
    rw [hhost] at hc
    exact (hostText_serialize hparsed).2 c ((List.rdropWhile_prefix _ _).subset hc)
  obtain ⟨a', hread', _, hv'⟩ := h.next hchars hv
  have hsame : a'.host = host := by
    have hsome := hparts.host
    rw [hv'] at hsome
    exact Option.some.inj hsome
  have hdotless : o.host = host.serialize := by
    rw [hsame, hhost] at hread'
    rw [hhost, serialize_of_undotted hread']
  have hnormal : normalHost written = o.host := (Net.Origin.new_eq_some h.origin).2.1.symm
  have hends := endsAuthority_of_hostAndPort h.read (endsAuthority_of_normalHost (hnormal ▸ hchars))
  obtain ⟨a, ha, hueq⟩ := h.url hu hs hends
  obtain ⟨⟨portPart, hauthority, hportPart⟩, _, _⟩ := authorities_agree h.userinfo h.read ha
  have htail : rest ++ white = [] ∨ (rest ++ white).head? = some '/' := by
    rcases h.tail with hrest | ⟨t, hrest⟩
    · rw [h.white_eq_nil hu hs hends hrest, hrest]
      exact Or.inl rfl
    · rw [hrest]
      exact Or.inr rfl
  refine ⟨raw, written, portPart, rest ++ white, ?_, h.colon, hportPart, htail, ?_, ?_⟩
  · rw [h.reads, h.text, hauthority]
    simp
  · rw [hnormal, hdotless, ← hgoes.host, hparts.host]
    rfl
  · -- otherwise the path or the query has more than was found
    rcases h.tail with hrest | ⟨t, hrest⟩
    · exact Or.inr (h.last_isWhitespace.mpr (h.white_eq_nil hu hs hends hrest))
    · have hne : rest ≠ [] := by simp [hrest]
      have hpath : path = rest := by rw [h.path, hrest]; rfl
      have hupath := hgoes.path
      have huquery := hgoes.query
      rw [hv', hueq, hpath] at hupath huquery
      rcases same_target (h.not_mem_white (by decide)).2 (h.not_mem_white (by decide)).2 hne hupath.symm
        huquery.symm with hmem | hnil
      · exact Or.inl (List.mem_append_left _ hmem)
      · exact Or.inr (h.last_isWhitespace.mpr (h.filter_eq_nil hnil))

/-- The authority and the rest that were found are the ones that are spelled out. -/
theorem BothRead.authority_eq {raw' portPart tail : Text}
    (htext : stripped location = raw' ++ ':' :: '/' :: '/' :: (host ++ portPart ++ tail))
    (hcolon : ':' ∉ raw') (hslash : '/' ∉ host ++ portPart) (htail : tail = [] ∨ tail.head? = some '/')
    (hend : '#' ∈ tail ∨ (stripped location).getLast?.any isWhitespace = false) :
    authority = host ++ portPart ∧ tail = rest ++ white := by
  have hboth : raw ++ ':' :: '/' :: '/' :: (authority ++ (rest ++ white)) =
      raw' ++ ':' :: '/' :: '/' :: (host ++ portPart ++ tail) := by
    rw [← htext, h.reads, h.text]
    simp
  have hcut := splitOnce_append h.colon ('/' :: '/' :: (authority ++ (rest ++ white)))
  rw [hboth, splitOnce_append hcolon] at hcut
  simp only [Option.some.injEq, Prod.mk.injEq, List.cons.injEq, true_and] at hcut
  have hbody := hcut.2
  rcases htail with rfl | hhead
  · have hwhite : white = [] := h.last_isWhitespace.mp (hend.resolve_left List.not_mem_nil)
    subst hwhite
    rw [List.append_nil, List.append_nil] at hbody
    rcases h.tail with rfl | ⟨t, rfl⟩
    · rw [List.append_nil] at hbody
      exact ⟨hbody.symm, rfl⟩
    · rw [hbody] at hslash
      exact absurd (List.mem_append_right _ List.mem_cons_self) hslash
  · obtain ⟨t, rfl⟩ : ∃ t, tail = '/' :: t := by
      cases tail with
      | nil => cases hhead
      | cons c t => exact ⟨t, by rw [Option.some.inj hhead]⟩
    have hsplit := splitOnce_append hslash t
    rw [hbody] at hsplit
    rcases h.tail with rfl | ⟨t', rfl⟩
    · have hno : '/' ∉ authority ++ ([] ++ white) := fun hc =>
        (List.mem_append.mp hc).elim h.slash fun hc => (h.not_mem_white (by decide)).1 hc
      rw [splitOnce_eq_none hno] at hsplit
      cases hsplit
    · rw [List.cons_append, splitOnce_append h.slash] at hsplit
      simp only [Option.some.injEq, Prod.mk.injEq] at hsplit
      exact ⟨hsplit.1, by rw [← hsplit.2]; rfl⟩

/-- Where the location spells out its host, the redirect goes to what it says. -/
theorem BothRead.goesTo (hu : Url.parse location = some u) (hs : isWebScheme u.scheme)
    (hv : Url.parse (nextText o path) = some v) (hspells : SpellsOut location u) : GoesTo v u o := by
  obtain ⟨raw', host, portPart, tail, htext, hcolon, hportPart, htail, hhost, hend⟩ := hspells
  obtain ⟨parsed, hparts⟩ := urlParts hu hs
  obtain ⟨input, hparsed⟩ := hparts.parsed
  have hnormal : normalHost host = parsed.serialize := by
    rw [hparts.host] at hhost
    exact Option.some.inj hhost
  have hchars : ∀ c ∈ normalHost host, isHostChar c = true := by
    rw [hnormal]
    exact (hostText_serialize hparsed).2
  have hends : ∀ c ∈ host ++ portPart, endsAuthority c = false := by
    intro c hc
    rcases List.mem_append.mp hc with hc | hc
    · exact endsAuthority_of_normalHost hchars c hc
    · exact endsAuthority_portPart hportPart c hc
  have hslash : '/' ∉ host ++ portPart := fun hc => absurd (hends _ hc) (by decide)
  obtain ⟨hauthority, htail'⟩ := h.authority_eq htext hcolon hslash htail hend
  have hread := h.read
  rw [hauthority] at hread
  obtain rfl := hostAndPort_portPart hportPart hread
  obtain ⟨a, ha, hueq⟩ := h.url hu hs (hauthority ▸ hends)
  obtain ⟨_, _, hport⟩ := authorities_agree h.userinfo h.read ha
  have hahost : a.host = parsed := by
    have hsome := hparts.host
    rw [hueq] at hsome
    exact Option.some.inj hsome
  have hohost : o.host = parsed.serialize := (Net.Origin.new_eq_some h.origin).2.1.trans hnormal
  obtain ⟨a', hread', hport', hv'⟩ := h.next (by rw [hohost]; exact (hostText_serialize hparsed).2) hv
  have ha'host : a'.host = parsed := by
    rw [hohost, parseHost_serialize hparsed] at hread'
    exact (Option.some.inj hread').symm
  have hscheme := h.scheme_eq hs
  have hveffective : v.effectivePort = some o.port := by
    rw [hv', effectivePort_assemble, hport']
  have hueffective : u.effectivePort = some o.port := by
    rw [hueq, effectivePort_assemble, ← h.scheme, hport]
  have htarget : pathOf (before '?' (before '#' path)) = pathOf (before '?' (before '#' (rest ++ white.filter isKept))) ∧
      behind '?' (before '#' path) = behind '?' (before '#' (rest ++ white.filter isKept)) := by
    rcases h.tail with rfl | ⟨t, rfl⟩
    · rw [h.path, h.white_eq_nil hu hs (hauthority ▸ hends) rfl]
      decide
    · have hpath : path = '/' :: t := by rw [h.path]; rfl
      rw [hpath]
      rcases hend with hmem | hlast
      · rw [htail'] at hmem
        have hhash : '#' ∈ '/' :: t := (List.mem_append.mp hmem).resolve_right (h.not_mem_white (by decide)).1
        rw [(before_append_of_mem hhash _).1]
        exact ⟨rfl, rfl⟩
      · rw [h.last_isWhitespace.mp hlast, List.filter_nil, List.append_nil]
        exact ⟨rfl, rfl⟩
  refine ⟨?_, ?_, hveffective.trans hueffective.symm, ?_, ?_, ?_⟩
  · rw [hv']
    exact hscheme
  · rw [hv', hparts.host]
    exact congrArg some ha'host
  · rw [hv', hueq]
    exact htarget.1
  · rw [hv', hueq]
    exact htarget.2
  · have horigin : netOrigin v = Net.Origin.new v.scheme a'.host.serialize o.port := by
      unfold netOrigin
      rw [hveffective, hv']
      rfl
    have hvscheme : v.scheme = u.scheme := by
      rw [hv']
      exact hscheme
    rw [horigin, hvscheme, ha'host, ← hnormal, ← h.origin, h.scheme]
    refine new_congr rfl ?_
    rw [hnormal, normalHost, trim_of_isGraphic fun c hc => (isHostChar_iff.mp ((hostText_serialize hparsed).2 c hc)).1,
      ← hnormal, undotted_normalHost, hnormal, lower_serialize hparsed]

end

end

/-! ## Following -/

theorem follow_resolves {chain chain' : Chain} {psl : PublicSuffixList} {preload : Option PreloadList}
    {topLevelHost location : Text} {hop : Hop}
    (h : chain.follow psl preload topLevelHost from_ location = .ok (hop, chain')) :
    Redirect.resolve from_ location = .ok (hop.key.origin, hop.path) := by
  unfold Chain.follow at h
  split at h
  · cases h
  · split at h
    · cases h
    · rename_i origin path hresolve
      split at h
      · cases h
      · split at h
        · cases h
        · split at h
          · cases h
          · split at h
            · cases h
            · rename_i key hkey
              cases h
              rw [hresolve, PartitionKey.new_origin hkey]

theorem redirect_follows {topHost location : Text} {s : Settled} {response : Response} {r r' : Run W} {v : Url}
    {status : UInt16} (h : redirect topHost s response location r = .ok (.redirect v status, r')) :
    ∃ hop, r.chain.follow r.fetcher.psl none topHost s.key.origin location = .ok (hop, r'.chain) ∧
      Url.parse (hopText hop) = some v := by
  unfold redirect at h
  dsimp only at h
  split at h
  · cases h
  · split at h
    · cases h
    · rename_i hop chain hfollow
      split at h
      · rename_i next hnext
        cases h
        exact ⟨hop, hfollow, hnext⟩
      · cases h

/-- A redirect goes where its `Location` says exactly where the location spells out the host, and after it has a
slash or nothing.  Then the scheme, the host, the port, the path and the query of what is requested are those of
the location, and the origin that was checked is the one that is asked; and otherwise one of these is not so. -/
theorem redirect_goes_to_iff {topHost location : Text} {s : Settled} {response : Response} {r r' : Run W} {u v : Url}
    {status : UInt16} (hu : Url.parse location = some u) (hs : isWebScheme u.scheme)
    (h : redirect topHost s response location r = .ok (.redirect v status, r')) :
    ∃ hop, r.chain.follow r.fetcher.psl none topHost s.key.origin location = .ok (hop, r'.chain) ∧
      (GoesTo v u hop.key.origin ↔ SpellsOut location u) := by
  obtain ⟨hop, hfollow, hv⟩ := redirect_follows h
  obtain ⟨raw, authority, rest, written, white, hread⟩ := bothRead_of_parse hu (follow_resolves hfollow)
  exact ⟨hop, hfollow, hread.spellsOut hu hs hv, hread.goesTo hu hs hv⟩

/-- The place that a sample redirect comes from. -/
def sampleFrom : Net.Origin :=
  ⟨"https".toList, "a.example".toList, 443, ⟨Or.inl rfl, by decide, by decide, by decide⟩⟩

/-- The hop that is redirected. -/
def sampleSettled : Settled :=
  { request := corsRequest (sampleContext "app.example" .noCors "GET") (sampleUrl "a.example" "/")
      ⟨sampleUrl "a.example" "/", "GET".toList, [], [], none, 0, none⟩
    taint := .opaque_
    redirectCount := 0
    policy := .noReferrer
    key := ⟨"a.example".toList, sampleFrom, by decide⟩ }

def sampleRedirect (location : String) : Except (Run Unit) (HopResult × Run Unit) :=
  redirect "top.example".toList sampleSettled ⟨⟨302, [], .empty⟩, []⟩ location.toList
    (startRun (sampleContext "app.example" .noCors "GET") sampleSession (sampleUrl "a.example" "/"))

/-- The URL that a redirect leads to. -/
def target (result : Except (Run Unit) (HopResult × Run Unit)) : Option Url :=
  match result with
  | .ok (.redirect v _, _) => some v
  | _ => none

theorem target_eq_some {result : Except (Run Unit) (HopResult × Run Unit)} {v : Url} (h : target result = some v) :
    ∃ status r', result = .ok (.redirect v status, r') := by
  unfold target at h
  split at h
  · cases h
    exact ⟨_, _, rfl⟩
  · cases h

def sampleTarget : Url := { sampleUrl "b.example" "/c" with query := some "x=1".toList }

theorem redirect_goes_to_sample : ∃ checked, Url.parse "https://B.example:443/c?x=1".toList = some sampleTarget ∧
    GoesTo sampleTarget sampleTarget checked := by
  have hu : Url.parse "https://B.example:443/c?x=1".toList = some sampleTarget := by decide +kernel
  have htarget : target (sampleRedirect "https://B.example:443/c?x=1") = some sampleTarget := by decide +kernel
  obtain ⟨status, r', hredirect⟩ := target_eq_some htarget
  have hspells : SpellsOut "https://B.example:443/c?x=1".toList sampleTarget :=
    ⟨"https".toList, "B.example".toList, ":443".toList, "/c?x=1".toList, by decide, by decide,
      Or.inr ⟨"443".toList, rfl, by decide, by decide⟩, Or.inr rfl, by decide, Or.inr (by decide)⟩
  obtain ⟨hop, _, hiff⟩ := redirect_goes_to_iff hu (Or.inr rfl) hredirect
  exact ⟨hop.key.origin, hu, hiff.mpr hspells⟩

/-- It redirects the first request, and answers the second. -/
def sampleMoving (location : String) : Transport Unit :=
  ⟨fun w key _ =>
      (.ok ⟨if key.origin.host = "a.example".toList then ⟨302, [⟨"location".toList, location.toList⟩], .empty⟩
        else ⟨200, [], .empty⟩, []⟩, w),
    fun w => (0, w)⟩

/-- The checks are about the host `b.example?x=1`; what is requested is another query of `b.example`. -/
theorem location_without_slash :
    Url.parse "https://b.example?x=1".toList = some { sampleUrl "b.example" "/" with query := some "x=1".toList } ∧
      (fetch (sampleContext "app.example" .noCors "GET") (sampleMoving "https://b.example?x=1") (fun _ _ => [])
        sampleSession "https://a.example/".toList).exchanges.map Exchange.url =
        [sampleUrl "a.example" "/", { sampleUrl "b.example" "/" with query := some "x=1:443/".toList }] ∧
      (Chain.new.follow sampleSession.fetcher.psl none "top.example".toList sampleFrom
        "https://b.example?x=1".toList).toOption.map (fun hop => hop.1.key.origin.host) =
        some "b.example?x=1".toList := by
  refine ⟨?_, ?_, ?_⟩ <;> decide +kernel

end Pelorus.Secure
