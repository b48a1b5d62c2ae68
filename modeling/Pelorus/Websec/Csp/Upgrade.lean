import Pelorus.Websec.Csp.Check
import Pelorus.Websec.Reparse

/-
  Websec/Csp/Upgrade.lean --- `upgrade-insecure-requests` asks for every http URL or for none.

  THE ENGINE makes the https form of a URL by parsing a text that it puts together from the
  parts it has, and leaves the URL alone where that fails.  It does not fail for a URL that
  the engine could parse and that is not too long: so whether a URL is upgraded is a matter
  of the policies and of its scheme.
-/
set_option autoImplicit false

namespace Pelorus.Websec.Csp

open Lib Lib.Text Lib.Numerals

/-! ## Paths -/

/-- What a list of segments costs in a path: each its length, and one for the slash. -/
def segmentsLen (l : List Text) : Nat := (l.map fun p => p.len + 1).sum

theorem len_intercalate : ∀ {l : List Text}, l ≠ [] → Text.len (['/'].intercalate l) + 1 = segmentsLen l
  | [], h => absurd rfl h
  | [p], _ => by simp [segmentsLen]
  | p :: q :: l, _ => by
      have ih := len_intercalate (l := q :: l) (List.cons_ne_nil _ _)
      rw [List.intercalate_cons_cons, len_append, len_append]
      have hslash : Text.len ['/'] = 1 := rfl
      simp only [segmentsLen, List.map_cons, List.sum_cons] at ih ⊢
      omega

theorem segmentsLen_append (l m : List Text) : segmentsLen (l ++ m) = segmentsLen l + segmentsLen m := by
  simp [segmentsLen]

/-- What is kept of a path is some of its segments, and empty ones in place of others. -/
theorem normalizeSegments_spec : ∀ (segs out : List Text),
    (∀ p ∈ normalizeSegments out segs, p = [] ∨ p ∈ out ∨ p ∈ segs) ∧
      segmentsLen (normalizeSegments out segs) ≤ segmentsLen out + segmentsLen segs
  | [], out => by
      refine ⟨fun p hp => Or.inr (Or.inl (by simpa [normalizeSegments] using hp)), ?_⟩
      simp [normalizeSegments, segmentsLen]
  | seg :: segs, out => by
      -- what a dot segment leaves at the end of a path
      have hclosed : ∀ out' : List Text, (∀ p ∈ out', p ∈ out) → segmentsLen out' ≤ segmentsLen out →
          (∀ p ∈ normalizeSegments ((if segs.isEmpty then [[]] else []) ++ out') segs,
            p = [] ∨ p ∈ out ∨ p ∈ seg :: segs) ∧
          segmentsLen (normalizeSegments ((if segs.isEmpty then [[]] else []) ++ out') segs) ≤
            segmentsLen out + segmentsLen (seg :: segs) := by
        intro out' hsub hle
        obtain ⟨hmem, hlen⟩ := normalizeSegments_spec segs ((if segs.isEmpty then [[]] else []) ++ out')
        constructor
        · intro p hp
          rcases hmem p hp with h | h | h
          · exact Or.inl h
          · rcases List.mem_append.mp h with h | h
            · split at h
              · exact Or.inl (List.mem_singleton.mp h)
              · cases h
            · exact Or.inr (Or.inl (hsub p h))
          · exact Or.inr (Or.inr (List.mem_cons_of_mem _ h))
        · have hone : segmentsLen (if segs.isEmpty then [[]] else []) ≤ 1 := by
            split
            · exact Nat.le_refl _
            · exact Nat.zero_le _
          rw [segmentsLen_append] at hlen
          have hcons : segmentsLen (seg :: segs) = seg.len + 1 + segmentsLen segs := by simp [segmentsLen]
          omega
      by_cases hdot : isDotSegment seg = true
      · simp only [normalizeSegments, if_pos hdot]
        exact hclosed out (fun _ h => h) (Nat.le_refl _)
      · by_cases hdouble : isDoubleDotSegment seg = true
        · simp only [normalizeSegments, if_neg hdot, if_pos hdouble]
          refine hclosed out.tail (fun _ h => List.mem_of_mem_tail h) ?_
          cases out with
          | nil => exact Nat.le_refl _
          | cons o out => simp [segmentsLen]
        · simp only [normalizeSegments, if_neg hdot, if_neg hdouble]
          obtain ⟨hmem, hlen⟩ := normalizeSegments_spec segs (seg :: out)
          constructor
          · intro p hp
            rcases hmem p hp with h | h | h
            · exact Or.inl h
            · rcases List.mem_cons.mp h with rfl | h
              · exact Or.inr (Or.inr List.mem_cons_self)
              · exact Or.inr (Or.inl h)
            · exact Or.inr (Or.inr (List.mem_cons_of_mem _ h))
          · simp only [segmentsLen, List.map_cons, List.sum_cons] at hlen ⊢
            omega

/-- The pieces of a text cost what the text does. -/
theorem segmentsLen_splitOn (s : Text) : segmentsLen (s.splitOn '/') = s.len + 1 := by
  have h := len_intercalate (List.splitOn_ne_nil '/' s)
  rw [List.intercalate_splitOn] at h
  exact h.symm

theorem stripPrefix_getD (path : Text) : List.Sublist ((stripPrefix path ['/']).getD path) path := by
  unfold stripPrefix
  split
  · exact List.drop_sublist _ _
  · exact List.Sublist.refl _

/-- A normalised path has no characters of its own, and at most one byte more. -/
theorem normalizePath_spec (path : Text) :
    (∀ c ∈ normalizePath path, c = '/' ∨ c ∈ path) ∧ (normalizePath path).len ≤ path.len + 2 := by
  have hsub := stripPrefix_getD path
  unfold normalizePath
  generalize (stripPrefix path ['/']).getD path = rest at hsub
  obtain ⟨hmem, hlen⟩ := normalizeSegments_spec (rest.splitOn '/') []
  constructor
  · intro c hc
    rcases List.mem_cons.mp hc with h | h
    · exact Or.inl h
    · rcases mem_intercalate h with h | ⟨p, hp, hc⟩
      · exact Or.inl h
      · rcases hmem p hp with rfl | h | h
        · cases hc
        · cases h
        · exact Or.inr (hsub.subset ((of_mem_splitOn h).2.subset hc))
  · rw [segmentsLen_splitOn] at hlen
    have hrest := len_le_of_sublist hsub
    have hcons : ∀ t : Text, Text.len ('/' :: t) = t.len + 1 := fun t =>
      (len_append ['/'] t).trans (Nat.add_comm _ _)
    rw [hcons]
    cases hn : normalizeSegments [] (rest.splitOn '/') with
    | nil =>
        rw [List.intercalate_nil]
        exact Nat.le_add_left_of_le (by decide)
    | cons p l =>
        have h := len_intercalate (l := p :: l) (List.cons_ne_nil _ _)
        rw [hn] at hlen
        have hnil : segmentsLen [] = 0 := rfl
        omega

/-! ## What the engine parses -/

/-- A character that a path of the engine may have. -/
def isPathChar (c : Char) : Bool :=
  !(c ≤ ' ' || Char.ofNat 0x7f ≤ c) && c ≠ '?' && c ≠ '#' && c ≠ '\\'

/-- What the engine has of a URL whose scheme is special. -/
structure CspUrl.Parsed (cu : CspUrl) (input : Text) : Prop where
  host : ∃ host, cu.host = some host ∧ parseHost host = some host ∧ host.len ≤ input.len
  path : ∃ p, cu.path = '/' :: p
  path_chars : ∀ c ∈ cu.path, isPathChar c = true
  path_len : cu.path.len ≤ input.len + 2

/-- A host in lower case that the engine takes. -/
def isHost (host : Text) : Bool :=
  if host.head? = some '[' then validIpv6Literal host else validSpecialHost host

theorem parseHost_eq (host : Text) :
    parseHost host = if isHost (toAsciiLowercase host) then some (toAsciiLowercase host) else none := by
  simp only [parseHost, isHost]
  congr

variable {host scheme : Text} {c : Char} {cu : CspUrl} {u : Url}

theorem parseHost_eq_some {host' : Text} (h : parseHost host = some host') :
    host' = toAsciiLowercase host ∧ parseHost host' = some host' := by
  rw [parseHost_eq] at h
  split at h
  · rename_i hvalid
    cases h
    refine ⟨rfl, ?_⟩
    rw [parseHost_eq, toAsciiLowercase_idem, if_pos hvalid]
  · cases h

theorem mem_map_slash {s : Text} (h : c ∈ s.map fun c => if c = '\\' then '/' else c) :
    c = '/' ∨ c ∈ s ∧ c ≠ '\\' := by
  obtain ⟨d, hd, rfl⟩ := List.mem_map.mp h
  split
  · exact Or.inl rfl
  · rename_i hne
    exact Or.inr ⟨hd, hne⟩

theorem CspUrl.parseSpecial_spec {rest : Text} (h : parseSpecial scheme rest = some cu)
    (hrest : ∀ c ∈ rest, (!(c ≤ ' ' || Char.ofNat 0x7f ≤ c)) = true ∧ c ≠ '#') :
    cu.Parsed rest := by
  unfold parseSpecial at h
  obtain ⟨after, hafter, h⟩ := Option.bind_eq_some_iff.mp h
  have hsub : List.Sublist after ((rest.map fun c => if c = '\\' then '/' else c)) := by
    rw [stripPrefix_eq_some hafter]
    exact List.sublist_append_right _ _
  have hlen : after.len ≤ rest.len :=
    Nat.le_trans (len_le_of_sublist hsub) (Nat.le_of_eq (len_map_slash rest))
  have hchars : ∀ c ∈ after, c = '/' ∨ c ∈ rest ∧ c ≠ '\\' := fun c hc => mem_map_slash (hsub.subset hc)
  dsimp only at h
  rw [List.span_eq_takeWhile_dropWhile] at h
  obtain ⟨⟨host, portStr⟩, hsplit, h⟩ := Option.bind_eq_some_iff.mp h
  obtain ⟨host', hhost, h⟩ := Option.bind_eq_some_iff.mp h
  obtain ⟨port, _, h⟩ := Option.bind_eq_some_iff.mp h
  cases h
  obtain ⟨rfl, hhost'⟩ := parseHost_eq_some hhost
  have htail : ∀ c ∈ (after.dropWhile fun c => c ≠ '/' && c ≠ '?').takeWhile (fun c => c ≠ '?'),
      isPathChar c = true := by
    intro c hc
    have hq : c ≠ '?' := by simpa using List.mem_takeWhile_imp hc
    have hin : c ∈ after := (List.dropWhile_suffix _).subset ((List.takeWhile_prefix _).subset hc)
    rcases hchars c hin with rfl | ⟨hin, hback⟩
    · decide
    · obtain ⟨hplain, hhash⟩ := hrest c hin
      simp only [isPathChar, hplain, Bool.true_and, Bool.and_eq_true, decide_eq_true_eq]
      exact ⟨⟨hq, hhash⟩, hback⟩
  have htaillen : Text.len ((after.dropWhile fun c => c ≠ '/' && c ≠ '?').takeWhile (fun c => c ≠ '?')) ≤
      rest.len :=
    Nat.le_trans (len_le_of_sublist ((List.takeWhile_prefix _).sublist.trans
      (List.dropWhile_suffix _).sublist)) hlen
  refine ⟨⟨_, rfl, hhost', ?_⟩, ?_, ?_, ?_⟩
  · rw [len_toAsciiLowercase]
    refine Nat.le_trans (len_splitHostPort hsplit) (Nat.le_trans ?_ hlen)
    have hauthority : Text.len (after.takeWhile fun c => c ≠ '/' && c ≠ '?') ≤ after.len :=
      len_le_of_sublist (List.takeWhile_prefix _).sublist
    refine Nat.le_trans ?_ hauthority
    cases hr : rsplitOnce '@' (after.takeWhile fun c => c ≠ '/' && c ≠ '?') with
    | none => exact Nat.le_refl _
    | some p =>
        obtain ⟨before, after⟩ := p
        exact len_rsplitOnce_right hr
  · dsimp only
    split
    · exact ⟨[], rfl⟩
    · exact ⟨_, rfl⟩
  · dsimp only
    split
    · simp only [List.mem_singleton, forall_eq]
      decide
    · intro c hc
      rcases (normalizePath_spec _).1 c hc with rfl | hc
      · decide
      · exact htail c hc
  · dsimp only
    split
    · exact Nat.le_add_left_of_le (by decide)
    · exact Nat.le_trans (normalizePath_spec _).2 (Nat.add_le_add_right htaillen 2)

/-- How the engine reads a text: the scheme, then the rest where the scheme is special. -/
theorem CspUrl.parse_cases {input : Text} (h : CspUrl.parse input = some cu) :
    (∀ c ∈ input, (!(c ≤ ' ' || Char.ofNat 0x7f ≤ c)) = true) ∧
      ∃ raw rest, splitOnce ':' input = some (raw, rest) ∧
        (isSpecialScheme (toAsciiLowercase raw) = true ∧
            parseSpecial (toAsciiLowercase raw) (rest.takeWhile fun c => c ≠ '#') = some cu ∨
          isSpecialScheme (toAsciiLowercase raw) = false ∧ cu.scheme = toAsciiLowercase raw) := by
  unfold CspUrl.parse at h
  split at h
  · cases h
  · split at h
    · cases h
    · rename_i hplain
      obtain ⟨⟨raw, rest⟩, hsplit, h⟩ := Option.bind_eq_some_iff.mp h
      obtain ⟨first, _, h⟩ := Option.bind_eq_some_iff.mp h
      dsimp only at h
      split at h
      · cases h
      · refine ⟨?_, raw, rest, hsplit, ?_⟩
        · simp only [List.any_eq_true, not_exists, not_and, Bool.not_eq_true] at hplain
          intro c hc
          rw [hplain c hc]
          rfl
        · split at h
          · rename_i hspecial
            exact Or.inl ⟨hspecial, h⟩
          · rename_i hspecial
            cases h
            exact Or.inr ⟨by simpa using hspecial, rfl⟩

/-- Every URL of the engine whose scheme is special has a host and a path. -/
theorem CspUrl.parse_spec {input : Text} (h : CspUrl.parse input = some cu)
    (hs : isSpecialScheme cu.scheme = true) : cu.Parsed input := by
  obtain ⟨hplain, raw, rest, hsplit, ⟨_, h⟩ | ⟨hspecial, hscheme⟩⟩ := CspUrl.parse_cases h
  · have hrest : ∀ c ∈ rest.takeWhile fun c => c ≠ '#',
        (!(c ≤ ' ' || Char.ofNat 0x7f ≤ c)) = true ∧ c ≠ '#' := by
      intro c hc
      refine ⟨hplain c ?_, by simpa using List.mem_takeWhile_imp hc⟩
      rw [(splitOnce_eq_some hsplit).1]
      simp [(List.takeWhile_prefix _).subset hc]
    have hparsed := CspUrl.parseSpecial_spec h hrest
    have hlen : Text.len (rest.takeWhile fun c => c ≠ '#') ≤ input.len :=
      Nat.le_trans (len_le_of_sublist (List.takeWhile_prefix _).sublist) (len_splitOnce_right hsplit)
    obtain ⟨host, hhost, hparse, hhostlen⟩ := hparsed.host
    exact ⟨⟨host, hhost, hparse, Nat.le_trans hhostlen hlen⟩, hparsed.path, hparsed.path_chars,
      Nat.le_trans hparsed.path_len (Nat.add_le_add_right hlen 2)⟩
  · rw [hscheme, hspecial] at hs
    cases hs

theorem CspUrl.parseSpecial_scheme {rest : Text}
    (h : parseSpecial scheme rest = some cu) : cu.scheme = scheme := by
  obtain ⟨after, _, h⟩ := Option.bind_eq_some_iff.mp h
  dsimp only at h
  obtain ⟨_, _, h⟩ := Option.bind_eq_some_iff.mp h
  obtain ⟨_, _, h⟩ := Option.bind_eq_some_iff.mp h
  obtain ⟨_, _, h⟩ := Option.bind_eq_some_iff.mp h
  cases h
  rfl

/-! ## What the engine makes out of parts -/

/-- A host is a bracketed text that has no other `]`, or a text without a colon. -/
theorem isHost_cases (h : isHost host = true) : (∀ c ∈ host, isHostChar c = true) ∧ IsHostText host := by
  unfold isHost at h
  split at h
  · rename_i hhead
    simp only [validIpv6Literal, Bool.and_eq_true, decide_eq_true_eq] at h
    obtain ⟨⟨⟨⟨hlen, _⟩, hlast⟩, hall⟩, _⟩ := h
    cases host with
    | nil => cases hhead
    | cons first tail =>
      cases hhead
      cases tail with
      | nil => exact absurd hlen (by decide)
      | cons c rest =>
        rw [List.getLast?_cons_cons] at hlast
        have hrest : (c :: rest).dropLast ++ [']'] = c :: rest := List.dropLast_append_getLast? _ hlast
        simp only [List.drop_succ_cons, List.drop_zero, List.all_eq_true, Bool.or_eq_true,
          decide_eq_true_eq] at hall
        have hbracket : ']' ∉ '[' :: (c :: rest).dropLast := by
          intro hc
          rcases List.mem_cons.mp hc with h | h
          · cases h
          · exact absurd (hall _ h) (by decide)
        refine ⟨?_, .bracketed (by rw [List.cons_append, hrest]) hbracket⟩
        rw [← hrest]
        intro d hd
        simp only [List.mem_cons, List.mem_append, List.not_mem_nil, or_false] at hd
        rcases hd with rfl | hd | rfl
        · decide
        · rcases hall d hd with (h | rfl) | rfl
          · exact isHostChar_hex h
          · decide
          · decide
        · decide
  · rename_i hhead
    simp only [validSpecialHost, Bool.and_eq_true, List.all_eq_true, Bool.or_eq_true, decide_eq_true_eq] at h
    have hchars := h.2
    refine ⟨?_, .plain (by simpa using h.1) hhead ?_⟩
    · intro c hc
      rcases hchars c hc with ((h | rfl) | rfl) | rfl
      · exact isHostChar_alphanum h
      · decide
      · decide
      · decide
    · intro hc
      exact absurd (hchars _ hc) (by decide)

theorem parsePort_portText (port : Option UInt16) : parsePort (portText port) = some port := by
  cases port with
  | none => rfl
  | some p =>
      have hall : (Nat.toDigits 10 p.toNat).all Char.isDigit = true :=
        List.all_eq_true.mpr fun c hc => digit_port hc
      have hbytes := len_port p
      have hempty : (Nat.toDigits 10 p.toNat).isEmpty = false := by simp
      have hparse : parseUnsigned 10 65536 (Nat.toDigits 10 p.toNat) = some p.toNat :=
        parseUnsigned_toDigits (by decide) (by decide) (UInt16.toNat_lt p)
      simp only [portText, parsePort, hempty, Bool.false_eq_true, if_false]
      rw [if_neg (by simpa [hall] using hbytes), hparse]
      simp

theorem isPathChar_iff : isPathChar c = true ↔
    (c ≤ ' ' || Char.ofNat 0x7f ≤ c) = false ∧ c ≠ '?' ∧ c ≠ '#' ∧ c ≠ '\\' := by
  simp only [isPathChar, Bool.and_eq_true, decide_eq_true_eq, Bool.not_eq_true', and_assoc]

theorem taken_of_isGraphic (h : isGraphic c = true) : (c ≤ ' ' || Char.ofNat 0x7f ≤ c) = false := by
  simp only [isGraphic, Bool.and_eq_true, decide_eq_true_eq] at h
  simp only [Bool.or_eq_false_iff, decide_eq_false_iff_not]
  constructor
  · intro hle
    have hnat : c.toNat ≤ 0x20 := UInt32.le_iff_toNat_le.mp hle
    omega
  · intro hle
    have hnat : 0x7f ≤ c.toNat := UInt32.le_iff_toNat_le.mp hle
    omega

theorem CspUrl.parseSpecial_isSome (scheme : Text) (port : Option UInt16) {host p : Text}
    (hhost : parseHost host = some host) (hvalid : isHost host = true)
    (hchars : ∀ c ∈ '/' :: p, isPathChar c = true) :
    (CspUrl.parseSpecial scheme ('/' :: '/' :: (authorityText host port ++ '/' :: p))).isSome = true := by
  have hauthority := authorityText_chars (isHost_cases hvalid).1 port
  have hslash : ('/' :: '/' :: (authorityText host port ++ '/' :: p)).map
      (fun c => if c = '\\' then '/' else c) = '/' :: '/' :: (authorityText host port ++ '/' :: p) := by
    refine (List.map_congr_left ?_).trans (List.map_id _)
    intro c hc
    simp only [List.mem_append, List.mem_cons] at hc
    refine if_neg ?_
    rcases hc with rfl | rfl | hc | hc
    · decide
    · decide
    · exact (isHostChar_iff.mp (hauthority c hc)).2.2.2.2.1
    · exact (isPathChar_iff.mp (hchars c (List.mem_cons.mpr hc))).2.2.2
  have hprefix : stripPrefix ('/' :: '/' :: (authorityText host port ++ '/' :: p)) "//".toList =
      some (authorityText host port ++ '/' :: p) := stripPrefix_append "//".toList _
  have hstop : ∀ c ∈ authorityText host port, (c ≠ '/' && c ≠ '?') = true := by
    intro c hc
    have h := isHostChar_iff.mp (hauthority c hc)
    simp [h.2.1, h.2.2.1]
  have hat : '@' ∉ authorityText host port := fun hc => (isHostChar_iff.mp (hauthority _ hc)).2.2.2.2.2 rfl
  have htake : (authorityText host port ++ '/' :: p).takeWhile (fun c => c ≠ '/' && c ≠ '?') =
      authorityText host port := by
    rw [List.takeWhile_append_of_pos hstop, List.takeWhile_cons_of_neg (by decide), List.append_nil]
  unfold CspUrl.parseSpecial
  rw [hslash, hprefix]
  simp only [Option.bind_eq_bind, Option.bind_some, List.span_eq_takeWhile_dropWhile, htake,
    rsplitOnce_eq_none hat, Option.map_none, Option.getD_none, splitHostPort_authorityText (isHost_cases hvalid).2 port,
    hhost, parsePort_portText, Option.isSome_some]

/-- The parser takes the text of a web URL that is put together from a host and a path. -/
theorem CspUrl.parse_isSome {path : Text} {port : Option UInt16} (hs : isWebScheme scheme)
    (hhost : parseHost host = some host) (hpath : ∃ p, path = '/' :: p)
    (hchars : ∀ c ∈ path, isPathChar c = true)
    (hlen : Text.len (scheme ++ ':' :: '/' :: '/' :: (authorityText host port ++ path)) ≤ MAX_URL_BYTES) :
    (CspUrl.parse (scheme ++ ':' :: '/' :: '/' :: (authorityText host port ++ path))).isSome = true := by
  have hvalid : isHost host = true := by
    have h := hhost
    rw [parseHost_eq] at h
    split at h
    · rename_i hv
      rwa [Option.some.inj h] at hv
    · cases h
  have hauthority := authorityText_chars (isHost_cases hvalid).1 port
  have hscheme : ∀ c ∈ scheme, isGraphic c = true ∧ c ≠ ':' := by
    have hall : (scheme.all fun c => isGraphic c && c ≠ ':') = true := by
      rcases hs with rfl | rfl <;> decide
    simpa using hall
  obtain ⟨p, rfl⟩ := hpath
  -- no character of the text is refused
  have hplain : ((scheme ++ ':' :: '/' :: '/' :: (authorityText host port ++ '/' :: p)).any
      fun c => c ≤ ' ' || Char.ofNat 0x7f ≤ c) = false := by
    refine List.any_eq_false.mpr ?_
    intro c hc
    rw [Bool.not_eq_true]
    simp only [List.mem_append, List.mem_cons] at hc
    rcases hc with hc | rfl | rfl | rfl | hc | hc
    · exact taken_of_isGraphic (hscheme c hc).1
    · decide
    · decide
    · decide
    · exact taken_of_isGraphic (isHostChar_iff.mp (hauthority c hc)).1
    · exact (isPathChar_iff.mp (hchars c (List.mem_cons.mpr hc))).1
  have hrest : ('/' :: '/' :: (authorityText host port ++ '/' :: p)).takeWhile (fun c => c ≠ '#') =
      '/' :: '/' :: (authorityText host port ++ '/' :: p) := by
    refine List.takeWhile_eq_self_iff.mpr ?_
    intro c hc
    simp only [List.mem_append, List.mem_cons] at hc
    rw [decide_eq_true_eq]
    rcases hc with rfl | rfl | hc | hc
    · decide
    · decide
    · exact (isHostChar_iff.mp (hauthority c hc)).2.2.2.1
    · exact (isPathChar_iff.mp (hchars c (List.mem_cons.mpr hc))).2.2.1
  have hcolon : ':' ∉ scheme := fun hc => (hscheme _ hc).2 rfl
  have hmain := parseSpecial_isSome scheme port hhost hvalid hchars
  unfold CspUrl.parse
  rw [if_neg (Nat.not_lt.mpr hlen), if_neg (by rw [hplain]; decide), splitOnce_append hcolon]
  rcases hs with rfl | rfl <;>
    · simp only [Option.bind_eq_bind, Option.bind_some, hrest]
      exact hmain

theorem fromParts_eq (scheme host : Text) (port : Option UInt16) (path : Text) :
    CspUrl.fromParts scheme host port path =
      CspUrl.parse (scheme ++ ':' :: '/' :: '/' :: (authorityText host port ++ path)) := by
  cases port <;> simp [CspUrl.fromParts, authorityText]

/-! ## Web URLs -/

theorem len_cons {c : Char} (hc : c.utf8Size = 1) (s : Text) : Text.len (c :: s) = s.len + 1 := by
  simp [len_eq_sum, hc, Nat.add_comm]

theorem authorityText_len (host : Text) (port : Option UInt16) :
    (authorityText host port).len ≤ host.len + 6 := by
  unfold authorityText
  rw [len_append]
  cases port with
  | none => exact Nat.le_add_right _ _
  | some p =>
      have h := len_port p
      simp only [len_cons (c := ':') rfl]
      omega

/-- A web URL without credentials as text. -/
theorem serialize_eq (h : u.Web) (hclean : u.hasCredentials = false) :
    ∃ host query : Text, host.len ≤ Websec.MAX_URL_BYTES ∧ query.len ≤ Websec.MAX_URL_BYTES + 1 ∧
      u.serialize true =
        u.scheme ++ ':' :: '/' :: '/' :: (authorityText host u.port ++ u.path ++ query) := by
  obtain ⟨host, hhost, _, hlen⟩ := h.host
  cases hq : u.query with
  | none =>
      refine ⟨host.serialize, [], hlen, Nat.zero_le _, ?_⟩
      cases hf : u.fragment <;> cases hp : u.port <;>
          simp [Url.serialize, authorityText, hhost, hclean, hq, hf, hp]
  | some q =>
      refine ⟨host.serialize, '?' :: q, hlen, ?_, ?_⟩
      · rw [len_cons rfl]
        exact Nat.add_le_add_right (h.query q hq) 1
      · cases hf : u.fragment <;> cases hp : u.port <;>
          simp [Url.serialize, authorityText, hhost, hclean, hq, hf, hp]

/-- Such a text is far below the limit of the engine. -/
theorem serialize_len (h : u.Web) (hclean : u.hasCredentials = false) :
    (u.serialize true).len ≤ 3 * Websec.MAX_URL_BYTES + 15 := by
  obtain ⟨host, query, hhost, hquery, heq⟩ := serialize_eq h hclean
  have hscheme : u.scheme.len ≤ 5 := by
    rcases h.scheme with hs | hs <;> rw [hs] <;> decide
  have hauthority := authorityText_len host u.port
  have hpath := h.path
  rw [heq, len_append, len_cons (c := ':') rfl, len_cons (c := '/') rfl, len_cons (c := '/') rfl,
    len_append, len_append]
  omega

/-- The scheme of a web URL is the one that the engine reads. -/
theorem CspUrl.scheme_of_serialize (h : u.Web) (hclean : u.hasCredentials = false)
    (hcu : CspUrl.parse (u.serialize true) = some cu) : cu.scheme = u.scheme := by
  obtain ⟨host, query, _, _, heq⟩ := serialize_eq h hclean
  have hcolon : ':' ∉ u.scheme := by
    rcases h.scheme with hs | hs <;> rw [hs] <;> decide
  have hlower : toAsciiLowercase u.scheme = u.scheme := by
    rcases h.scheme with hs | hs <;> rw [hs] <;> rfl
  obtain ⟨_, raw, rest, hsplit, hcases⟩ := CspUrl.parse_cases hcu
  rw [heq, splitOnce_append hcolon] at hsplit
  cases hsplit
  rw [hlower] at hcases
  rcases hcases with ⟨_, hcu⟩ | ⟨_, hcu⟩
  · exact CspUrl.parseSpecial_scheme hcu
  · exact hcu

/-- A policy asks for the upgrade of what is requested in such a context. -/
def asksForUpgrade (policy : Policy) (ctx : UpgradeContext) : Prop :=
  policy.disposition ≠ .report ∧ policy.has "upgrade-insecure-requests".toList = true ∧
    ctx ≠ .crossOriginNavigation

/-- An http URL that the engine can parse is upgraded by every policy that asks for it. -/
theorem upgradeInsecureUrl_isSome (h : u.Web) (hclean : u.hasCredentials = false)
    (hhttp : u.scheme = "http".toList) (hcu : CspUrl.parse (u.serialize true) = some cu) (policy : Policy)
    (ctx : UpgradeContext) :
    (upgradeInsecureUrl policy cu ctx).isSome = true ↔ asksForUpgrade policy ctx := by
  have hscheme : cu.scheme = "http".toList := (CspUrl.scheme_of_serialize h hclean hcu).trans hhttp
  have hspecial : isSpecialScheme cu.scheme = true := by
    rw [hscheme]
    decide
  have hparsed := CspUrl.parse_spec hcu hspecial
  obtain ⟨host, hhost, hparse, hhostlen⟩ := hparsed.host
  have hlen := serialize_len h hclean
  have hmade : (CspUrl.fromParts "https".toList host cu.port cu.path).isSome = true := by
    rw [fromParts_eq]
    refine CspUrl.parse_isSome (Or.inr rfl) hparse hparsed.path hparsed.path_chars ?_
    have hauthority := authorityText_len host cu.port
    have hpathlen := hparsed.path_len
    have hhttps : Text.len "https".toList = 5 := rfl
    have hmax : 6 * Websec.MAX_URL_BYTES + 100 ≤ MAX_URL_BYTES := by decide
    rw [len_append, len_cons (c := ':') rfl, len_cons (c := '/') rfl, len_cons (c := '/') rfl, len_append]
    omega
  unfold upgradeInsecureUrl asksForUpgrade
  by_cases hasks : policy.disposition = .report ∨ (!policy.has "upgrade-insecure-requests".toList) = true ∨
      ctx = .crossOriginNavigation
  · rw [if_pos hasks]
    constructor
    · intro hsome
      cases hsome
    · rintro ⟨h₁, h₂, h₃⟩
      rcases hasks with h | h | h
      · exact absurd h h₁
      · rw [h₂] at h
        cases h
      · exact absurd h h₃
  · rw [if_neg hasks, if_pos hscheme, hhost]
    simp only [not_or] at hasks
    constructor
    · intro _
      exact ⟨hasks.1, by simpa using hasks.2.1, hasks.2.2⟩
    · intro _
      exact hmade

/-- Whether a set asks for the upgrade of an http URL is not a matter of the URL. -/
theorem PolicySet.upgradeInsecureUrl_isSome (h : u.Web)
    (hclean : u.hasCredentials = false) (hhttp : u.scheme = "http".toList)
    (hcu : CspUrl.parse (u.serialize true) = some cu) (set : PolicySet) (ctx : UpgradeContext) :
    (set.upgradeInsecureUrl cu ctx).isSome = true ↔ ∃ p ∈ set.policies, asksForUpgrade p ctx := by
  unfold PolicySet.upgradeInsecureUrl
  rw [List.findSome?_isSome_iff]
  simp only [Csp.upgradeInsecureUrl_isSome h hclean hhttp hcu]

end Pelorus.Websec.Csp

/-! # The CSP engine reads the URL that is fetched

TWO PARSERS look for the host.  The engine's is given what the first one serialised, where
the userinfo has no character that ends an authority, so that both cut it at the same place. -/

namespace Pelorus.Websec.Csp

open Lib Lib.Text Lib.Numerals

/-! ## The engine on a text that is put together -/

/-- What stands before the host: nothing, or a userinfo that ends with `@`. -/
def IsUser (user : Text) : Prop := user = [] ∨ ∃ info, user = info ++ ['@'] ∧ ∀ c ∈ info, endsAuthority c = false

theorem IsUser.ends {user : Text} (h : IsUser user) : ∀ c ∈ user, endsAuthority c = false := by
  rcases h with rfl | ⟨info, rfl, hinfo⟩
  · exact List.forall_mem_nil _
  · intro c hc
    rcases List.mem_append.mp hc with hc | hc
    · exact hinfo c hc
    · rw [List.mem_singleton.mp hc]
      decide

/-- The authority ends for the engine where it ends for the other parser. -/
theorem span_authority {authority tail : Text} (hauth : ∀ c ∈ authority, endsAuthority c = false) (htail : IsTail tail) :
    ∃ rest, ((authority ++ tail).takeWhile (fun c => c ≠ '#')).map (fun c => if c = '\\' then '/' else c) =
        authority ++ rest ∧
      (authority ++ rest).span (fun c => c ≠ '/' && c ≠ '?') = (authority, rest) := by
  have hkeep : ∀ c ∈ authority, (decide (c ≠ '#')) = true ∧ (if c = '\\' then '/' else c) = c ∧
      (decide (c ≠ '/') && decide (c ≠ '?')) = true := by
    intro c hc
    obtain ⟨h₁, h₂, h₃, h₄⟩ := endsAuthority_eq_false.mp (hauth c hc)
    exact ⟨decide_eq_true h₄, if_neg h₂, by simp [h₁, h₃]⟩
  refine ⟨(tail.takeWhile fun c => c ≠ '#').map fun c => if c = '\\' then '/' else c, ?_, ?_⟩
  · rw [List.takeWhile_append_of_pos fun c hc => (hkeep c hc).1, List.map_append,
      List.map_congr_left fun c hc => (hkeep c hc).2.1, List.map_id']
  · rw [List.span_eq_takeWhile_dropWhile, List.takeWhile_append_of_pos fun c hc => (hkeep c hc).2.2,
      List.dropWhile_append_of_pos fun c hc => (hkeep c hc).2.2]
    rcases htail with rfl | ⟨c, t, rfl, hc⟩
    · simp
    · simp only [endsAuthority, Bool.or_eq_true, decide_eq_true_eq] at hc
      rcases hc with ((rfl | rfl) | rfl) | rfl <;> simp

/-- Of a text that is put together, the engine has the scheme, the host and the port. -/
theorem CspUrl.parse_assembled {scheme user host tail : Text} {port : Option UInt16} {cu : CspUrl}
    (hs : IsNetScheme scheme) (huser : IsUser user) (hhost : IsHostText host) (hchars : ∀ c ∈ host, isHostChar c = true)
    (hlower : toAsciiLowercase host = host) (htail : IsTail tail)
    (h : CspUrl.parse (scheme ++ ':' :: '/' :: '/' :: (user ++ authorityText host port ++ tail)) = some cu) :
    cu.scheme = scheme ∧ cu.host = some host ∧
      cu.port = if port.isSome ∧ port = defaultPort scheme then none else port := by
  have hcolon : ':' ∉ scheme := by
    rcases isNetScheme_cases hs with rfl | rfl | rfl | rfl | rfl <;> decide
  have hscheme : isSpecialScheme (toAsciiLowercase scheme) = true ∧ toAsciiLowercase scheme = scheme := by
    rcases isNetScheme_cases hs with rfl | rfl | rfl | rfl | rfl <;> exact ⟨by decide, by decide⟩
  have hport := authorityText_chars hchars port
  have hauth : ∀ c ∈ user ++ authorityText host port, endsAuthority c = false := by
    intro c hc
    rcases List.mem_append.mp hc with hc | hc
    · exact huser.ends c hc
    · exact endsAuthority_of_isHostChar (hport c hc)
  have hat : '@' ∉ authorityText host port := fun hc => (isHostChar_iff.mp (hport _ hc)).2.2.2.2.2 rfl
  have huserinfo : ((rsplitOnce '@' (user ++ authorityText host port)).map Prod.snd).getD
      (user ++ authorityText host port) = authorityText host port := by
    rcases huser with rfl | ⟨info, rfl, _⟩
    · rw [List.nil_append, rsplitOnce_eq_none hat]
      rfl
    · rw [List.append_assoc, List.singleton_append, rsplitOnce_append hat]
      rfl
  obtain ⟨_, raw, rest, hsplit, ⟨_, hspecial⟩ | ⟨hnot, _⟩⟩ := CspUrl.parse_cases h
  · rw [splitOnce_append hcolon] at hsplit
    cases hsplit
    rw [hscheme.2] at hspecial
    obtain ⟨rest, hrest, hspan⟩ := span_authority hauth htail
    have hafter : (List.takeWhile (fun c => decide (c ≠ '#'))
        ('/' :: '/' :: (user ++ authorityText host port ++ tail))).map (fun c => if c = '\\' then '/' else c) =
        "//".toList ++ (user ++ authorityText host port ++ rest) := by
      rw [List.takeWhile_cons_of_pos (by decide), List.takeWhile_cons_of_pos (by decide), List.map_cons,
        List.map_cons, hrest]
      rfl
    unfold parseSpecial at hspecial
    rw [hafter, stripPrefix_append] at hspecial
    simp only [Option.bind_eq_bind, Option.bind_some, hspan, huserinfo, splitHostPort_authorityText hhost,
      parsePort_portText] at hspecial
    obtain ⟨host', hparse, hspecial⟩ := Option.bind_eq_some_iff.mp hspecial
    obtain rfl := Option.some.inj hspecial
    refine ⟨rfl, ?_, rfl⟩
    rw [(parseHost_eq_some hparse).1, hlower]
  · rw [splitOnce_append hcolon] at hsplit
    cases hsplit
    rw [hscheme.1] at hnot
    cases hnot

/-! ## Every URL -/

/-- Whatever the text of the URL was: if the engine takes what was serialised, it has its scheme, host and port. -/
theorem engine_reads_fetched_url {input : Text} {u : Url} {cu : CspUrl} (h : Url.parse input = some u)
    (hs : IsNetScheme u.scheme) (hcu : CspUrl.parse (u.serialize true) = some cu) :
    cu.scheme = u.scheme ∧ cu.host = u.host.map Host.serialize ∧ cu.port = u.port := by
  obtain ⟨raw, slashes, authority, tail, a, hread⟩ := Url.readFrom_of_parse h hs
  obtain ⟨⟨input', hhost⟩, husername, hpassword⟩ := parseAuthority_parts hread.read
  have hu := hread.url
  obtain ⟨t, ht⟩ := pathOf_head (tail_before hread.tail)
  have hinfo : ∀ c ∈ a.username ++ (if a.password.isEmpty then [] else ':' :: a.password), endsAuthority c = false := by
    intro c hc
    rcases List.mem_append.mp hc with hc | hc
    · exact hread.ends c (husername hc)
    · split at hc
      · cases hc
      · rcases List.mem_cons.mp hc with rfl | hc
        · decide
        · exact hread.ends c (hpassword hc)
  -- the text that is serialised, put together
  have huser : ∃ user, IsUser user ∧ (if u.hasCredentials then
      u.username ++ (if u.password.isEmpty then [] else ':' :: u.password) ++ ['@'] else []) = user := by
    refine ⟨_, ?_, rfl⟩
    split
    · rw [hu]
      exact Or.inr ⟨_, rfl, hinfo⟩
    · exact Or.inl rfl
  obtain ⟨user, huser, heq⟩ := huser
  have hsome : u.host = some a.host := by rw [hu]; rfl
  have hpath : u.path = '/' :: t := by rw [hu]; exact ht
  have htext : ∃ tail', IsTail tail' ∧
      u.serialize true = u.scheme ++ ':' :: '/' :: '/' :: (user ++ authorityText a.host.serialize u.port ++ tail') := by
    refine ⟨'/' :: (t ++ led '?' u.query), Or.inr ⟨'/', _, rfl, by decide⟩, ?_⟩
    unfold Url.serialize authorityText
    simp only [hsome, heq, hpath, if_true]
    cases u.fragment <;> cases u.port <;> cases u.query <;> simp [led]
  obtain ⟨tail', htail', hserialize⟩ := htext
  rw [hserialize] at hcu
  obtain ⟨h₁, h₂, h₃⟩ := CspUrl.parse_assembled hs huser (hostText_serialize hhost).1 (hostText_serialize hhost).2
    (lower_serialize hhost) htail' hcu
  refine ⟨h₁, by rw [h₂, hsome]; rfl, h₃.trans ?_⟩
  -- a parsed URL has no default port
  have hport : ¬ (u.port.isSome ∧ u.port = defaultPort u.scheme) := by
    have hp : u.port = if a.port.isSome ∧ a.port = Websec.defaultPort u.scheme then none else a.port := by
      rw [hu]
      rfl
    rw [hp]
    split
    · rintro ⟨hnone, _⟩
      cases hnone
    · rename_i hno
      exact hno
  exact if_neg hport

def sampleText : Text := "http://u:p@w@Example.com:81\\a?b#c".toList

def sampleRead : Url :=
  ⟨"http".toList, ['u'], "p@w".toList, some (.domain "example.com".toList), some 81, "/a".toList, some ['b'], some ['c']⟩

theorem engine_reads_sample : ∃ cu, CspUrl.parse "http://u:p@w@example.com:81/a?b".toList = some cu ∧
    cu.scheme = "http".toList ∧ cu.host = some "example.com".toList ∧ cu.port = some 81 := by
  have hparse : Url.parse sampleText = some sampleRead := by decide +kernel
  have htext : sampleRead.serialize true = "http://u:p@w@example.com:81/a?b".toList := by decide
  have hsome : (CspUrl.parse "http://u:p@w@example.com:81/a?b".toList).isSome = true := by decide +kernel
  obtain ⟨cu, hcu⟩ := Option.isSome_iff_exists.mp hsome
  exact ⟨cu, hcu, engine_reads_fetched_url hparse (isNetScheme_of_web (Or.inl rfl)) (by rw [htext]; exact hcu)⟩

end Pelorus.Websec.Csp
