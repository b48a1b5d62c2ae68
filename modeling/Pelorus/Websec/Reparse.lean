import Pelorus.Websec.HostText

/-
  Websec/Reparse.lean --- a URL that is put together from its parts is read back as they are.

  THE SCHEMES are those that are special and have an authority: all but `file`.  The authority
  ends at the first slash, backslash, question mark or hash; what is behind it is the path, the
  query and the fragment.
-/
set_option autoImplicit false

namespace Pelorus.Websec

open Lib Lib.Text Lib.Numerals

/-! ## Schemes -/

/-- A special scheme whose URLs have an authority. -/
def IsNetScheme (scheme : Text) : Prop := isSpecialScheme scheme = true ∧ scheme ≠ "file".toList

variable {scheme a input : Text} {sep c : Char}

theorem isNetScheme_cases (h : IsNetScheme scheme) :
    scheme = "http".toList ∨ scheme = "https".toList ∨ scheme = "ws".toList ∨ scheme = "wss".toList ∨
      scheme = "ftp".toList := by
  obtain ⟨hspecial, hfile⟩ := h
  simp only [isSpecialScheme, List.any_cons, List.any_nil, Bool.or_false, Bool.or_eq_true, decide_eq_true_eq]
    at hspecial
  rcases hspecial with h | h | h | h | h | h
  · exact Or.inl h.symm
  · exact Or.inr (Or.inl h.symm)
  · exact Or.inr (Or.inr (Or.inl h.symm))
  · exact Or.inr (Or.inr (Or.inr (Or.inl h.symm)))
  · exact Or.inr (Or.inr (Or.inr (Or.inr h.symm)))
  · exact absurd h.symm hfile

theorem isNetScheme_of_web (h : isWebScheme scheme) : IsNetScheme scheme := isSpecialScheme_of_web h

theorem splitScheme_net (h : IsNetScheme scheme) (rest : Text) :
    splitScheme (scheme ++ ':' :: rest) = some (scheme, rest) := by
  rcases isNetScheme_cases h with rfl | rfl | rfl | rfl | rfl <;>
    · unfold splitScheme
      rw [splitOnce_append (by decide)]
      rfl

/-! ## What is behind the authority -/

/-- A path in the form that special URLs have. -/
def pathOf (s : Text) : Text :=
  if (s.map fun c => if c = '\\' then '/' else c).isEmpty then ['/'] else s.map fun c => if c = '\\' then '/' else c

/-- Before the first such character, or all. -/
def before (sep : Char) (s : Text) : Text := ((splitOnce sep s).map Prod.fst).getD s

/-- After the first such character. -/
def behind (sep : Char) (s : Text) : Option Text := (splitOnce sep s).map Prod.snd

/-- A URL of a special scheme with this authority, and this text behind it. -/
def assemble (scheme : Text) (a : Authority) (tail : Text) : Url :=
  { scheme
    username := a.username
    password := a.password
    host := some a.host
    port := if a.port.isSome ∧ a.port = defaultPort scheme then none else a.port
    path := pathOf (before '?' (before '#' tail))
    query := behind '?' (before '#' tail)
    fragment := behind '#' tail }

theorem splitOnce_append_left (h : sep ∉ a) (b : Text) :
    splitOnce sep (a ++ b) = (splitOnce sep b).map fun p => (a ++ p.1, p.2) := by
  induction a with
  | nil => simp
  | cons c a ih =>
      simp only [List.mem_cons, not_or] at h
      rw [List.cons_append, splitOnce, if_neg (Ne.symm h.1), ih h.2, Option.map_map]
      rfl

theorem before_append (h : sep ∉ a) (b : Text) : before sep (a ++ b) = a ++ before sep b := by
  unfold before
  rw [splitOnce_append_left h]
  cases splitOnce sep b <;> rfl

theorem behind_append (h : sep ∉ a) (b : Text) : behind sep (a ++ b) = behind sep b := by
  unfold behind
  rw [splitOnce_append_left h]
  cases splitOnce sep b <;> rfl

theorem splitOnce_pair (sep : Char) (s : Text) :
    ((splitOnce sep s).map fun p => (p.1, some p.2)).getD (s, none) = (before sep s, behind sep s) := by
  unfold before behind
  cases splitOnce sep s <;> rfl

/-- The characters at which an authority ends. -/
def endsAuthority (c : Char) : Bool := c = '/' || c = '\\' || c = '?' || c = '#'

theorem endsAuthority_eq_false : endsAuthority c = false ↔ c ≠ '/' ∧ c ≠ '\\' ∧ c ≠ '?' ∧ c ≠ '#' := by
  simp [endsAuthority, and_assoc]

/-- A text that an authority can stand before. -/
def IsTail (tail : Text) : Prop := tail = [] ∨ ∃ c t, tail = c :: t ∧ endsAuthority c = true

/-- Where the authority ends, the rest starts with a slash or there is none. -/
theorem cutAt_authority {authority tail : Text} (hauth : ∀ c ∈ authority, endsAuthority c = false)
    (htail : tail = [] ∨ ∃ c t, tail = c :: t ∧ (c = '/' ∨ c = '\\')) :
    cutAt (fun c => c = '/' || (true && c = '\\')) (authority ++ tail) = (authority, tail) := by
  have hall : ∀ c ∈ authority, (!(c = '/' || (true && c = '\\'))) = true := by
    intro c hc
    obtain ⟨h₁, h₂, _⟩ := endsAuthority_eq_false.mp (hauth c hc)
    simp [h₁, h₂]
  unfold cutAt
  rw [List.span_eq_takeWhile_dropWhile, List.takeWhile_append_of_pos hall, List.dropWhile_append_of_pos hall]
  rcases htail with rfl | ⟨c, t, rfl, hc⟩
  · simp
  · rcases hc with rfl | rfl <;> simp

theorem before_cons_self (sep : Char) (s : Text) : before sep (sep :: s) = [] := by
  simp [before, splitOnce]

/-- A path that is there starts with a slash. -/
theorem tail_before {tail : Text} (h : IsTail tail) :
    before '?' (before '#' tail) = [] ∨ ∃ c t, before '?' (before '#' tail) = c :: t ∧ (c = '/' ∨ c = '\\') := by
  rcases h with rfl | ⟨c, t, rfl, hc⟩
  · exact Or.inl rfl
  · have hkeep : ∀ d : Char, d ≠ '#' → d ≠ '?' →
        before '?' (before '#' (d :: t)) = d :: before '?' (before '#' t) := by
      intro d h₁ h₂
      rw [← List.singleton_append, before_append (by simpa using Ne.symm h₁),
        before_append (by simpa using Ne.symm h₂), List.singleton_append]
    simp only [endsAuthority, Bool.or_eq_true, decide_eq_true_eq] at hc
    rcases hc with ((rfl | rfl) | rfl) | rfl
    · exact Or.inr ⟨'/', _, hkeep '/' (by decide) (by decide), Or.inl rfl⟩
    · exact Or.inr ⟨'\\', _, hkeep '\\' (by decide) (by decide), Or.inr rfl⟩
    · have hquestion : before '#' ('?' :: t) = '?' :: before '#' t := before_append (a := ['?']) (by decide) t
      exact Or.inl (by rw [hquestion, before_cons_self])
    · exact Or.inl (by rw [before_cons_self]; rfl)

/-! ## Reading a URL -/

/-- The parser on a text that is put together: the authority decides, and all else is as it was put. -/
theorem Url.parse_assembled {scheme authority tail : Text} (hs : IsNetScheme scheme) (hne : authority ≠ [])
    (hauth : ∀ c ∈ authority, endsAuthority c = false) (htail : IsTail tail)
    {input : Text} (hlen : input.len ≤ MAX_URL_BYTES)
    (hsplit : splitScheme (cleaned input) = some (scheme, '/' :: '/' :: (authority ++ tail))) :
    Url.parse input = (parseAuthority authority true).map fun a => assemble scheme a tail := by
  have hhash : '#' ∉ '/' :: '/' :: authority := by
    intro hc
    simp only [List.mem_cons] at hc
    rcases hc with hc | hc | hc
    · cases hc
    · cases hc
    · exact (endsAuthority_eq_false.mp (hauth _ hc)).2.2.2 rfl
  have hquestion : '?' ∉ '/' :: '/' :: authority := by
    intro hc
    rcases List.mem_cons.mp hc with hc | hc
    · cases hc
    · rcases List.mem_cons.mp hc with hc | hc
      · cases hc
      · exact (endsAuthority_eq_false.mp (hauth _ hc)).2.2.1 rfl
  have hdrop : (('/' :: '/' :: authority) ++ before '?' (before '#' tail)).dropWhile
      (fun c => c = '/' || (true && c = '\\')) = authority ++ before '?' (before '#' tail) := by
    obtain ⟨c, t, rfl⟩ := List.exists_cons_of_ne_nil hne
    obtain ⟨h₁, h₂, _⟩ := endsAuthority_eq_false.mp (hauth c List.mem_cons_self)
    simp [h₁, h₂]
  have hrest : '/' :: '/' :: (authority ++ tail) = ('/' :: '/' :: authority) ++ tail := rfl
  unfold cleaned at hsplit
  unfold Url.parse
  simp only [if_neg (Nat.not_lt.mpr hlen), hsplit, Option.bind_eq_bind, Option.bind_some,
    splitOnce_pair, hrest, before_append hhash, behind_append hhash, before_append hquestion,
    behind_append hquestion, parseAfterScheme, if_neg hs.2, hs.1, if_true, hdrop,
    cutAt_authority hauth (tail_before htail)]
  cases parseAuthority authority true with
  | none => rfl
  | some a => rfl

/-- A part with the character that leads it. -/
def led (sep : Char) : Option Text → Text
  | some t => sep :: t
  | none => []

theorem before_led (h : sep ∉ a) (o : Option Text) : before sep (a ++ led sep o) = a := by
  rw [before_append h]
  cases o with
  | none => exact List.append_nil a
  | some t => rw [led, before_cons_self, List.append_nil]

theorem behind_led (h : sep ∉ a) (o : Option Text) : behind sep (a ++ led sep o) = o := by
  rw [behind_append h]
  cases o with
  | none => rfl
  | some t => simp [led, behind, splitOnce]

theorem before_behind (sep : Char) (s : Text) : s = before sep s ++ led sep (behind sep s) ∧ sep ∉ before sep s := by
  unfold before behind
  cases h : splitOnce sep s with
  | none => exact ⟨(List.append_nil s).symm, not_mem_of_splitOnce h⟩
  | some p => exact splitOnce_eq_some h

/-- What was read of a URL: every part of it is where `assemble` puts it. -/
structure Url.ReadFrom (u : Url) (input raw slashes authority behind : Text) (a : Authority) : Prop where
  scheme : u.scheme = toAsciiLowercase raw
  text : splitOnce ':' (cleaned input) = some (raw, slashes ++ authority ++ behind)
  slashes : ∀ c ∈ slashes, c = '/' ∨ c = '\\'
  ends : ∀ c ∈ authority, endsAuthority c = false
  tail : IsTail behind
  read : parseAuthority authority true = some a
  url : u = assemble u.scheme a behind

theorem Url.readFrom_of_parse {u : Url} (h : Url.parse input = some u)
    (hs : IsNetScheme u.scheme) : ∃ raw slashes authority tail a, u.ReadFrom input raw slashes authority tail a := by
  unfold Url.parse at h
  split at h
  · cases h
  · obtain ⟨⟨scheme, rest⟩, hscheme, h⟩ := Option.bind_eq_some_iff.mp h
    dsimp only at h
    obtain ⟨⟨authority?, after⟩, hafter, h⟩ := Option.bind_eq_some_iff.mp h
    obtain ⟨raw, hraw, rfl⟩ := splitScheme_eq_some hscheme
    simp only [splitOnce_pair] at hafter h
    have hu : u.scheme = toAsciiLowercase raw := by
      cases h
      rfl
    rw [← hu] at hafter
    simp only [parseAfterScheme, if_neg hs.2, hs.1, if_true] at hafter
    obtain ⟨a, ha, hafter⟩ := Option.bind_eq_some_iff.mp hafter
    cases hafter
    -- the text in front of the query, cut where the parser cuts it
    obtain ⟨hrest, hhash⟩ := before_behind '#' rest
    obtain ⟨hfront, hquestion⟩ := before_behind '?' (before '#' rest)
    unfold cutAt at ha h
    rw [List.span_eq_takeWhile_dropWhile] at ha h
    simp only at ha h
    obtain ⟨p, hp⟩ : ∃ p : Char → Bool, p = fun c => c = '/' || (true && c = '\\') := ⟨_, rfl⟩
    have hnot : (fun c : Char => !(c = '/' || (true && c = '\\'))) = fun c => !p c := by rw [hp]
    rw [hnot, ← hp] at ha h
    generalize hbody : before '?' (before '#' rest) = body at hfront hquestion ha h
    have hslashes : ∀ c ∈ body.takeWhile p, p c = true := fun c hc => List.mem_takeWhile_imp hc
    have hauth : ∀ c ∈ (body.dropWhile p).takeWhile (fun c => !p c), p c = false := fun c hc => by
      simpa using List.mem_takeWhile_imp hc
    have htail : (body.dropWhile p).dropWhile (fun c => !p c) = [] ∨
        ∃ c t, (body.dropWhile p).dropWhile (fun c => !p c) = c :: t ∧ p c = true := by
      cases hd : (body.dropWhile p).dropWhile fun c => !p c with
      | nil => exact Or.inl rfl
      | cons c t =>
          refine Or.inr ⟨c, t, rfl, ?_⟩
          have hfirst := List.head?_dropWhile_not (fun c => !p c) (body.dropWhile p)
          rw [hd] at hfirst
          simpa using hfirst
    have hcut : body = body.takeWhile p ++ ((body.dropWhile p).takeWhile fun c => !p c) ++
        ((body.dropWhile p).dropWhile fun c => !p c) := by
      rw [List.append_assoc, List.takeWhile_append_dropWhile, List.takeWhile_append_dropWhile]
    generalize body.takeWhile p = slashes at hslashes hcut
    generalize (body.dropWhile p).takeWhile (fun c => !p c) = authority at hauth hcut ha
    generalize (body.dropWhile p).dropWhile (fun c => !p c) = tail at htail hcut h
    subst hcut
    -- neither a hash nor a question mark is in front of its part
    have hhash' : '#' ∉ tail ++ led '?' (behind '?' (before '#' rest)) := by
      rw [hfront, List.append_assoc] at hhash
      exact fun hc => hhash (List.mem_append_right _ hc)
    have hquestion' : '?' ∉ tail := fun hc => hquestion (List.mem_append_right _ hc)
    have hstart : ∀ c, p c = true → c = '/' ∨ c = '\\' := by
      intro c hc
      rw [hp] at hc
      simpa using hc
    refine ⟨raw, slashes, authority, tail ++ led '?' (behind '?' (before '#' rest)) ++ led '#' (behind '#' rest), a,
      hu, ?_, fun c hc => hstart c (hslashes c hc), ?_, ?_, ha, ?_⟩
    · rw [← List.append_assoc, ← List.append_assoc, ← hfront, ← hrest]
      exact hraw
    · intro c hc
      have hno := hauth c hc
      rw [hp] at hno
      simp only [Bool.true_and, Bool.or_eq_false_iff, decide_eq_false_iff_not] at hno
      refine endsAuthority_eq_false.mpr ⟨hno.1, hno.2, ?_, ?_⟩
      · rintro rfl
        exact hquestion (List.mem_append_left _ (List.mem_append_right _ hc))
      · rintro rfl
        refine hhash ?_
        rw [hfront]
        exact List.mem_append_left _ (List.mem_append_left _ (List.mem_append_right _ hc))
    · rcases htail with rfl | ⟨c, t, rfl, hc⟩
      · cases behind '?' (before '#' rest) with
        | some q => exact Or.inr ⟨'?', _, rfl, by decide⟩
        | none =>
            cases behind '#' rest with
            | some f => exact Or.inr ⟨'#', _, rfl, by decide⟩
            | none => exact Or.inl rfl
      · refine Or.inr ⟨c, _, rfl, ?_⟩
        rcases hstart c hc with rfl | rfl <;> decide
    · unfold assemble
      rw [before_led hhash', behind_led hhash', before_led hquestion', behind_led hquestion']
      have hspecial : isSpecialScheme (toAsciiLowercase raw) = true := hu ▸ hs.1
      simp only [hspecial, if_true] at h
      obtain rfl := Option.some.inj h
      rfl

/-! ## Hosts and ports as text -/

/-- The text of a host is one that the authority parsers cut where it ends. -/
theorem hostText_serialize {host : Host} (h : parseHost input true = some host) :
    IsHostText host.serialize ∧ ∀ c ∈ host.serialize, isHostChar c = true := by
  rcases parseHost_cases h with ⟨name, rfl, hname⟩ | ⟨octets, rfl⟩ | ⟨pieces, rfl⟩
  · have hallowed : ∀ c ∈ name, c ≠ '[' ∧ c ≠ ':' ∧ isHostChar c = true := by
      intro c hc
      have hno := (hname.allowed c hc).1
      have hval : c.toNat ≤ 127 := by
        have hall : c.val ≤ 127 := by simpa using List.all_eq_true.mp hname.ascii c hc
        exact hall
      simp only [forbiddenHostCp, Bool.or_eq_false_iff, decide_eq_false_iff_not] at hno
      obtain ⟨⟨hspace, hdel⟩, hlist⟩ := hno
      have hne : ∀ d ∈ "#/:<>?@[\\]^|".toList, c ≠ d := by
        rintro d hd rfl
        rw [List.contains_iff_mem.mpr hd] at hlist
        cases hlist
      have hlow : 0x21 ≤ c.toNat := by
        by_contra hle
        exact hspace (show c.toNat ≤ 0x20 by omega)
      have hhigh : c.toNat ≤ 0x7e := by
        by_contra hgt
        exact hdel (Char.ext (UInt32.toNat_inj.mp (show c.toNat = 0x7f by omega)))
      refine ⟨hne '[' (by decide), hne ':' (by decide), isHostChar_iff.mpr ⟨?_, hne '/' (by decide), hne '?' (by decide),
        hne '#' (by decide), hne '\\' (by decide), hne '@' (by decide)⟩⟩
      simp [isGraphic, hlow, hhigh]
    refine ⟨.plain hname.ne_nil ?_ fun hc => (hallowed ':' hc).2.1 rfl, fun c hc => (hallowed c hc).2.2⟩
    intro hhead
    exact (hallowed '[' (List.mem_of_mem_head? hhead)).1 rfl
  · have hchars : ∀ c ∈ (Host.ipv4 octets).serialize, c ≠ '[' ∧ c ≠ ':' ∧ isHostChar c = true := by
      intro c hc
      rcases mem_serialize_ipv4 hc with rfl | hdigit
      · decide
      · refine ⟨?_, ?_, isHostChar_alphanum (by rw [Char.isAlphanum, hdigit, Bool.or_true])⟩ <;>
          (rintro rfl; exact absurd hdigit (by decide))
    have hne : (Host.ipv4 octets).serialize ≠ [] := by
      intro hnil
      have hparse := parseHost_ipv4 octets
      rw [hnil] at hparse
      cases hparse
    refine ⟨.plain hne ?_ fun hc => (hchars ':' hc).2.1 rfl, fun c hc => (hchars c hc).2.2⟩
    intro hhead
    exact (hchars '[' (List.mem_of_mem_head? hhead)).1 rfl
  · have hchars : ∀ c ∈ serializeIpv6 pieces.1, c ≠ ']' ∧ isHostChar c = true := by
      intro c hc
      have hdigit : ∀ d < 16, Nat.digitChar d ≠ ']' ∧ isHostChar (Nat.digitChar d) = true := by decide
      rcases mem_serializeIpv6 hc with rfl | ⟨d, hd, rfl⟩
      · decide
      · exact hdigit d hd
    refine ⟨.bracketed rfl fun hc => ?_, fun c hc => ?_⟩
    · rcases List.mem_cons.mp hc with h | h
      · cases h
      · exact (hchars ']' h).1 rfl
    · simp only [Host.serialize, List.cons_append, List.mem_cons, List.mem_append, List.not_mem_nil, or_false] at hc
      rcases hc with rfl | hc | rfl
      · decide
      · exact (hchars c hc).2
      · decide

theorem authorityText_chars {host : Text} (h : ∀ c ∈ host, isHostChar c = true) (port : Option UInt16) :
    ∀ c ∈ authorityText host port, isHostChar c = true := by
  intro c hc
  rcases List.mem_append.mp hc with hc | hc
  · exact h c hc
  · cases port with
    | none => cases hc
    | some p =>
        rcases List.mem_cons.mp hc with rfl | hc
        · decide
        · refine isHostChar_alphanum ?_
          rw [Char.isAlphanum, digit_port hc, Bool.or_true]

theorem endsAuthority_of_isHostChar (h : isHostChar c = true) : endsAuthority c = false := by
  obtain ⟨_, h₁, h₂, h₃, h₄, _⟩ := isHostChar_iff.mp h
  exact endsAuthority_eq_false.mpr ⟨h₁, h₄, h₂, h₃⟩

/-- A host and a port are read as they were written. -/
theorem parseAuthority_authorityText {host : Host} (h : parseHost input true = some host)
    (port : Option UInt16) :
    parseAuthority (authorityText host.serialize port) true = some ⟨[], [], host, port⟩ := by
  obtain ⟨htext, hchars⟩ := hostText_serialize h
  have hat : '@' ∉ authorityText host.serialize port := fun hc =>
    (isHostChar_iff.mp (authorityText_chars hchars port _ hc)).2.2.2.2.2 rfl
  have hne : host.serialize ≠ [] := by
    cases htext with
    | bracketed heq _ => simp [heq]
    | plain hne _ _ => exact hne
  have hempty : host.serialize.isEmpty = false := by simpa using hne
  unfold parseAuthority
  simp only [rsplitOnce_eq_none hat, Option.getD_none, splitOnce, splitHostPort_authorityText htext,
    Option.bind_eq_bind, Option.bind_some, hempty, Bool.false_eq_true, if_false, parseHost_serialize h]
  cases port with
  | none => rfl
  | some p =>
      have hall : (Nat.toDigits 10 p.toNat).all Char.isDigit = true :=
        List.all_eq_true.mpr fun c hc => digit_port hc
      have hparse : parseUnsigned 10 65536 (Nat.toDigits 10 p.toNat) = some p.toNat :=
        parseUnsigned_toDigits (by decide) (by decide) (UInt16.toNat_lt p)
      have hlen := len_port p
      simp only [portText, List.isEmpty_iff, Nat.toDigits_ne_nil, if_false, hall, Bool.not_true, Bool.false_or,
        decide_eq_true_eq, Nat.not_lt.mpr hlen, hparse, Option.bind_some, UInt16.ofNat_toNat]

/-- A printable character is neither trimmed nor taken out. -/
theorem plain_of_isGraphic (h : isGraphic c = true) :
    decide (c ≤ ' ') = false ∧ (!(c = '\t' || c = '\n' || c = '\r')) = true := by
  have hlow : 0x21 ≤ c.toNat := by
    simp only [isGraphic, Bool.and_eq_true, decide_eq_true_eq] at h
    exact h.1
  refine ⟨decide_eq_false fun hle => ?_, ?_⟩
  · have hnat : c.toNat ≤ 0x20 := hle
    omega
  · have hne : ∀ d : Char, d.toNat < 0x21 → c ≠ d := by
      rintro d hd rfl
      omega
    simp [hne '\t' (by decide), hne '\n' (by decide), hne '\r' (by decide)]

theorem cleaned_of_isGraphic {s : Text} (h : ∀ c ∈ s, isGraphic c = true) : cleaned s = s := by
  have hplain := fun c hc => plain_of_isGraphic (h c hc)
  have hstart : s.dropWhile (fun c => decide (c ≤ ' ')) = s := by
    cases s with
    | nil => rfl
    | cons c t => rw [List.dropWhile_cons_of_neg (by rw [(hplain c List.mem_cons_self).1]; decide)]
  have hend : s.rdropWhile (fun c => decide (c ≤ ' ')) = s := by
    rw [List.rdropWhile, List.reverse_eq_iff]
    cases hr : s.reverse with
    | nil => rfl
    | cons c t =>
        have hc : c ∈ s := List.mem_reverse.mp (by rw [hr]; exact List.mem_cons_self)
        rw [List.dropWhile_cons_of_neg (by rw [(hplain c hc).1]; decide)]
  unfold cleaned trimEndMatches trimStartMatches
  rw [hstart, hend]
  exact List.filter_eq_self.mpr fun c hc => (hplain c hc).2

/-- What is read of an authority: a host that was parsed, and a userinfo of its characters. -/
theorem parseAuthority_parts {authority : Text} {a : Authority} (h : parseAuthority authority true = some a) :
    (∃ input, parseHost input true = some a.host) ∧ a.username ⊆ authority ∧ a.password ⊆ authority := by
  unfold parseAuthority at h
  have huserinfo : ((rsplitOnce '@' authority).getD ([], authority)).1 ⊆ authority := by
    cases hr : rsplitOnce '@' authority with
    | none => exact List.nil_subset _
    | some p =>
        rw [rsplitOnce_eq_some hr]
        exact List.subset_append_left _ _
  generalize (rsplitOnce '@' authority).getD ([], authority) = p at h huserinfo
  obtain ⟨userinfo, hostport⟩ := p
  have hsplit : ((splitOnce ':' userinfo).getD (userinfo, [])).1 ⊆ userinfo ∧
      ((splitOnce ':' userinfo).getD (userinfo, [])).2 ⊆ userinfo := by
    cases hr : splitOnce ':' userinfo with
    | none => exact ⟨List.Subset.refl _, List.nil_subset _⟩
    | some p =>
        rw [(splitOnce_eq_some hr).1]
        exact ⟨List.subset_append_left _ _,
          List.Subset.trans (List.subset_cons_self _ _) (List.subset_append_right _ _)⟩
  simp only at h huserinfo hsplit
  generalize (splitOnce ':' userinfo).getD (userinfo, []) = q at h hsplit
  obtain ⟨username, password⟩ := q
  obtain ⟨⟨hostS, portS⟩, _, h⟩ := Option.bind_eq_some_iff.mp h
  simp only [Bool.true_or, if_true] at h
  have hparts : username ⊆ authority ∧ password ⊆ authority :=
    ⟨List.Subset.trans hsplit.1 huserinfo, List.Subset.trans hsplit.2 huserinfo⟩
  split at h
  · cases h
  · obtain ⟨host, hhost, h⟩ := Option.bind_eq_some_iff.mp h
    split at h
    · cases h
      exact ⟨⟨_, hhost⟩, hparts⟩
    · split at h
      · cases h
        exact ⟨⟨_, hhost⟩, hparts⟩
      · split at h
        · cases h
        · obtain ⟨n, _, h⟩ := Option.bind_eq_some_iff.mp h
          cases h
          exact ⟨⟨_, hhost⟩, hparts⟩

theorem pathOf_head {s : Text} (h : s = [] ∨ ∃ c t, s = c :: t ∧ (c = '/' ∨ c = '\\')) : ∃ t, pathOf s = '/' :: t := by
  rcases h with rfl | ⟨c, t, rfl, rfl | rfl⟩
  · exact ⟨[], rfl⟩
  · exact ⟨_, rfl⟩
  · exact ⟨_, rfl⟩

end Pelorus.Websec
