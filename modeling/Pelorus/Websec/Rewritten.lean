import Pelorus.Websec.Revealed

/-
  Websec/Rewritten.lean --- a URL that was parsed is read back with another query.

  THE FRONT of a URL is what is before its path, credentials included.  Nothing in it ends the
  authority, and the last `@` is the one before the host.

  WHAT IS READ is trimmed, so that the end of the text is read as it is only if it is no space
  and no control character.
-/
set_option autoImplicit false

namespace Pelorus.Websec

open Lib Lib.Text

/-! ## Credentials -/

/-- An authority with its credentials, as they are serialised. -/
def withCredentials (username password hostport : Text) : Text :=
  (if !username.isEmpty || !password.isEmpty then
    username ++ (if password.isEmpty then [] else ':' :: password) ++ ['@']
  else []) ++ hostport

/-- Credentials are read back from before the host. -/
theorem parseAuthority_withCredentials {username password hostport : Text} {a : Authority} (hcolon : ':' ∉ username)
    (hat : '@' ∉ hostport) (h : parseAuthority hostport true = some a) :
    parseAuthority (withCredentials username password hostport) true =
      some { a with username := username, password := password } := by
  have hcut : ∃ userinfo, (splitOnce ':' userinfo).getD (userinfo, []) = (username, password) ∧
      (rsplitOnce '@' (withCredentials username password hostport)).getD ([], withCredentials username password hostport) =
        (userinfo, hostport) := by
    unfold withCredentials
    split
    · refine ⟨username ++ if password.isEmpty then [] else ':' :: password, ?_, ?_⟩
      · split
        · rename_i hempty
          rw [List.append_nil, splitOnce_eq_none hcolon, List.isEmpty_iff.mp hempty, Option.getD_none]
        · rw [splitOnce_append hcolon, Option.getD_some]
      · rw [List.append_assoc, List.singleton_append, rsplitOnce_append hat, Option.getD_some]
    · rename_i hnone
      simp only [Bool.or_eq_true, Bool.not_eq_true', List.isEmpty_eq_false_iff, not_or, not_not] at hnone
      refine ⟨[], ?_, ?_⟩
      · rw [hnone.1, hnone.2]
        rfl
      · rw [List.nil_append, rsplitOnce_eq_none hat, Option.getD_none]
  obtain ⟨userinfo, hsplit, hcut⟩ := hcut
  unfold parseAuthority at h ⊢
  rw [rsplitOnce_eq_none hat, Option.getD_none] at h
  rw [hcut]
  dsimp only at h ⊢
  rw [hsplit]
  have hnil : (splitOnce ':' []).getD (([] : Text), ([] : Text)) = ([], []) := rfl
  rw [hnil] at h
  dsimp only at h ⊢
  cases hhost : splitHostPort hostport with
  | none =>
      rw [hhost] at h
      cases h
  | some parts =>
      obtain ⟨hostS, portS⟩ := parts
      rw [hhost] at h
      simp only [Option.bind_eq_bind, Option.bind_some, Bool.true_or, if_true] at h ⊢
      split at h
      · cases h
      · rename_i hne
        rw [if_neg hne]
        cases hparse : parseHost hostS true with
        | none =>
            rw [hparse] at h
            cases h
        | some host =>
            rw [hparse] at h
            simp only [Option.bind_some] at h ⊢
            cases portS with
            | none =>
                cases h
                rfl
            | some port =>
                dsimp only at h ⊢
                split at h
                · rename_i hempty
                  rw [if_pos hempty]
                  cases h
                  rfl
                · rename_i hport
                  rw [if_neg hport]
                  split at h
                  · cases h
                  · rename_i hdigits
                    rw [if_neg hdigits]
                    obtain ⟨n, hn, hsome⟩ := Option.bind_eq_some_iff.mp h
                    cases hsome
                    rw [hn]
                    rfl

theorem colon_of_parseAuthority {authority : Text} {a : Authority} (h : parseAuthority authority true = some a) :
    ':' ∉ a.username := by
  unfold parseAuthority at h
  generalize (rsplitOnce '@' authority).getD ([], authority) = p at h
  obtain ⟨userinfo, hostport⟩ := p
  have hcolon : ':' ∉ ((splitOnce ':' userinfo).getD (userinfo, [])).1 := by
    cases hr : splitOnce ':' userinfo with
    | none => exact not_mem_of_splitOnce hr
    | some p => exact (splitOnce_eq_some hr).2
  simp only at h hcolon
  generalize (splitOnce ':' userinfo).getD (userinfo, []) = q at h hcolon
  obtain ⟨username, password⟩ := q
  obtain ⟨⟨hostS, portS⟩, _, h⟩ := Option.bind_eq_some_iff.mp h
  simp only [Bool.true_or, if_true] at h
  split at h
  · cases h
  · obtain ⟨host, _, h⟩ := Option.bind_eq_some_iff.mp h
    split at h
    · cases h
      exact hcolon
    · split at h
      · cases h
        exact hcolon
      · split at h
        · cases h
        · obtain ⟨n, _, h⟩ := Option.bind_eq_some_iff.mp h
          cases h
          exact hcolon

/-! ## URLs as they were parsed -/

/-- A character that `parse` takes out. -/
def isDropped (c : Char) : Bool := c = '\t' || c = '\n' || c = '\r'

/-- What holds of every part of a URL that was parsed, if its scheme has hosts. -/
structure Url.Whole (u : Url) : Prop extends u.Sound where
  colon : ':' ∉ u.username
  userinfo : ∀ c ∈ u.username ++ u.password, endsAuthority c = false
  path_plain : ∀ c ∈ u.path, c ≠ '?' ∧ c ≠ '\\'
  dropped : ∀ c ∈ u.username ++ u.password ++ u.path ++ u.query.getD [] ++ u.fragment.getD [], isDropped c = false
  fragment_end : ∀ f ∈ u.fragment, ∀ c ∈ f.getLast?, ¬ c ≤ ' '

theorem backslash_not_mem_pathOf {s : Text} : '\\' ∉ pathOf s := by
  unfold pathOf
  split
  · decide
  · intro hmem
    obtain ⟨c, _, hc⟩ := List.mem_map.mp hmem
    split at hc
    · cases hc
    · rename_i hne
      exact hne hc

/-- What is left of an input has no character that is taken out, and ends with none that is trimmed. -/
theorem cleaned_spec (input : Text) :
    (∀ c ∈ cleaned input, isDropped c = false) ∧ ∀ c ∈ (cleaned input).getLast?, ¬ c ≤ ' ' := by
  unfold cleaned trimEndMatches
  generalize trimStartMatches (fun c => decide (c ≤ ' ')) input = started
  refine ⟨fun c hc => ?_, fun c hc => ?_⟩
  · exact Bool.eq_false_of_not_eq_true' (List.mem_filter.mp hc).2
  · cases hend : (started.rdropWhile fun c => c ≤ ' ').getLast? with
    | none =>
        rw [List.getLast?_eq_none_iff] at hend
        rw [hend] at hc
        cases hc
    | some d =>
        have hne : (started.rdropWhile fun c => decide (c ≤ ' ')) ≠ [] := by
          intro hnil
          rw [hnil] at hend
          cases hend
        have hlast := List.rdropWhile_last_not _ _ hne
        rw [List.getLast?_eq_some_getLast hne] at hend
        rw [Option.some.inj hend, decide_eq_true_eq] at hlast
        have hkept : (!(d = '\t' || d = '\n' || d = '\r')) = true := by
          have hne : ∀ e : Char, e ≤ ' ' → ¬ d = e := fun e he heq => hlast (heq ▸ he)
          simp [hne '\t' (by decide), hne '\n' (by decide), hne '\r' (by decide)]
        have hsingle : [d].filter (fun c => !(c = '\t' || c = '\n' || c = '\r')) = [d] :=
          List.filter_eq_self.mpr (List.forall_mem_singleton.mpr hkept)
        rw [← List.dropLast_append_getLast hne, Option.some.inj hend, List.filter_append, hsingle,
          List.getLast?_concat] at hc
        exact Option.some.inj hc ▸ hlast

variable {u : Url} {host : Host}

theorem Url.whole_of_parse {input : Text} (h : Url.parse input = some u) (hs : IsNetScheme u.scheme) :
    u.Whole := by
  have hsound := Url.sound_of_parse h hs
  obtain ⟨raw, slashes, authority, tail, a, hread⟩ := Url.readFrom_of_parse h hs
  obtain ⟨-, huser, hpassword⟩ := parseAuthority_parts hread.read
  obtain ⟨hdropped, hlast⟩ := cleaned_spec input
  have htext := (splitOnce_eq_some hread.text).1
  have hmem : ∀ {c}, c ∈ authority ∨ c ∈ tail → isDropped c = false := by
    intro c hc
    refine hdropped c ?_
    rw [htext]
    refine List.mem_append_right _ (List.mem_cons_of_mem _ ?_)
    rcases hc with hc | hc
    · exact List.mem_append_left _ (List.mem_append_right _ hc)
    · exact List.mem_append_right _ hc
  obtain ⟨hfront, -⟩ := before_behind '#' tail
  obtain ⟨hpathQuery, hquestion⟩ := before_behind '?' (before '#' tail)
  have hurl := hread.url
  have huserinfo : ∀ c ∈ u.username ++ u.password, c ∈ authority := by
    rw [hurl]
    intro c hc
    rcases List.mem_append.mp hc with hc | hc
    · exact huser hc
    · exact hpassword hc
  have hquery : ∀ c ∈ u.query.getD [], c ∈ tail := by
    rw [hurl]
    intro c hc
    rw [hfront, hpathQuery]
    have hbehind : (Websec.assemble u.scheme a tail).query = behind '?' (before '#' tail) := rfl
    rw [hbehind] at hc
    cases hq : behind '?' (before '#' tail) with
    | none =>
        rw [hq] at hc
        cases hc
    | some q =>
        rw [hq] at hc
        exact List.mem_append_left _ (List.mem_append_right _ (List.mem_cons_of_mem _ hc))
  have hfragment : ∀ f ∈ u.fragment, tail = before '#' tail ++ '#' :: f := by
    rw [hurl]
    intro f hf
    have hbehind : behind '#' tail = some f := hf
    rw [hbehind] at hfront
    exact hfront
  have hpath : ∀ c ∈ u.path, c = '/' ∨ c ∈ before '?' (before '#' tail) := by
    rw [hurl]
    exact fun c hc => mem_pathOf hc
  have hpathTail : ∀ c ∈ before '?' (before '#' tail), c ∈ tail := by
    intro c hc
    rw [hfront, hpathQuery]
    exact List.mem_append_left _ (List.mem_append_left _ hc)
  refine ⟨hsound, ?_, fun c hc => hread.ends c (huserinfo c hc), fun c hc => ⟨?_, ?_⟩, fun c hc => ?_, fun f hf c hc => ?_⟩
  · rw [hurl]
    exact colon_of_parseAuthority hread.read
  · rintro rfl
    exact hquestion ((hpath _ hc).resolve_left (by decide))
  · rintro rfl
    rw [hurl] at hc
    exact backslash_not_mem_pathOf hc
  · simp only [List.mem_append] at hc
    rcases hc with (((hc | hc) | hc) | hc) | hc
    · exact hmem (.inl (huserinfo c (List.mem_append_left _ hc)))
    · exact hmem (.inl (huserinfo c (List.mem_append_right _ hc)))
    · rcases hpath c hc with rfl | hc
      · rfl
      · exact hmem (.inr (hpathTail c hc))
    · exact hmem (.inr (hquery c hc))
    · cases hf : u.fragment with
      | none =>
          rw [hf] at hc
          cases hc
      | some f =>
          rw [hf] at hc
          refine hmem (.inr ?_)
          rw [hfragment f hf]
          exact List.mem_append_right _ (List.mem_cons_of_mem _ hc)
  · refine hlast c ?_
    rw [htext, hfragment f hf]
    have hregroup : raw ++ ':' :: (slashes ++ authority ++ (before '#' tail ++ '#' :: f)) =
        (raw ++ ':' :: (slashes ++ authority ++ (before '#' tail ++ ['#']))) ++ f := by simp
    rw [hregroup]
    exact List.mem_getLast?_append_of_mem_getLast? hc

/-- What is before the path of a URL. -/
def Url.front (u : Url) (host : Host) : Text :=
  u.scheme ++ ':' :: '/' :: '/' :: withCredentials u.username u.password (authorityText host.serialize u.port)

theorem Url.serialize_front {u : Url} {host : Host} (h : u.host = some host) :
    u.serialize false = u.front host ++ (u.path ++ led '?' u.query ++ led '#' u.fragment) := by
  rw [Url.serialize, h, Url.front, hasCredentials]
  unfold led withCredentials authorityText
  cases u.fragment <;> cases u.query <;> cases u.port <;> simp

/-- The path, the query and the fragment are read back from behind the front. -/
theorem Url.Whole.assemble (h : u.Whole) (hhost : u.host = some host) {q f : Option Text}
    (hq : ∀ t ∈ q, '#' ∉ t) :
    Websec.assemble u.scheme ⟨u.username, u.password, host, u.port⟩ (u.path ++ led '?' q ++ led '#' f) =
      { u with query := q, fragment := f } := by
  obtain ⟨host', hhost', hparts⟩ := h.parts
  rw [hhost] at hhost'
  obtain rfl := Option.some.inj hhost'
  have hhash : '#' ∉ u.path ++ led '?' q := by
    rw [List.mem_append, not_or]
    refine ⟨h.path_hash, ?_⟩
    cases q with
    | none => exact List.not_mem_nil
    | some t => exact List.not_mem_cons_of_ne_of_not_mem (by decide) (hq t rfl)
  have hquestion : '?' ∉ u.path := fun hmem => (h.path_plain _ hmem).1 rfl
  have hpath : pathOf u.path = u.path := by
    obtain ⟨t, ht⟩ := h.path
    have hsame : (u.path.map fun c => if c = '\\' then '/' else c) = u.path :=
      (List.map_congr_left fun c hc => if_neg (h.path_plain c hc).2).trans (List.map_id' _)
    rw [pathOf, hsame, if_neg (by rw [ht]; exact Bool.false_ne_true)]
  rw [Websec.assemble, before_led hhash, behind_led hhash, before_led hquestion, behind_led hquestion, hpath,
    if_neg hparts.normal, ← hhost]

theorem Url.Whole.front_chars (h : u.Whole) (hhost : u.host = some host) :
    (∀ c ∈ withCredentials u.username u.password (authorityText host.serialize u.port), endsAuthority c = false) ∧
      ∀ c ∈ u.front host, c ≠ '?' ∧ c ≠ '#' ∧ isDropped c = false := by
  obtain ⟨host', hhost', hparts⟩ := h.parts
  rw [hhost] at hhost'
  obtain rfl := Option.some.inj hhost'
  have hchars := hparts.authority.2.2
  have hplain : ∀ {c}, isGraphic c = true → isDropped c = false := fun hc =>
    Bool.eq_false_of_not_eq_true' (plain_of_isGraphic hc).2
  have hauth : ∀ c ∈ withCredentials u.username u.password (authorityText host.serialize u.port),
      endsAuthority c = false ∧ isDropped c = false := by
    have huser : ∀ c ∈ u.username ++ u.password, endsAuthority c = false ∧ isDropped c = false := fun c hc =>
      ⟨h.userinfo c hc, h.dropped c (List.mem_append_left _ (List.mem_append_left _ (List.mem_append_left _ hc)))⟩
    intro c hc
    unfold withCredentials at hc
    rcases List.mem_append.mp hc with hc | hc
    · split at hc
      · rcases List.mem_append.mp hc with hc | hc
        · rcases List.mem_append.mp hc with hc | hc
          · exact huser c (List.mem_append_left _ hc)
          · split at hc
            · cases hc
            · rcases List.mem_cons.mp hc with rfl | hc
              · exact ⟨rfl, rfl⟩
              · exact huser c (List.mem_append_right _ hc)
        · rw [List.mem_singleton.mp hc]
          exact ⟨rfl, rfl⟩
      · cases hc
    · exact ⟨endsAuthority_of_isHostChar (hchars c hc), hplain (isHostChar_iff.mp (hchars c hc)).1⟩
  refine ⟨fun c hc => (hauth c hc).1, fun c hc => ?_⟩
  rcases List.mem_append.mp hc with hc | hc
  · have hscheme : (u.scheme.all fun c => c ≠ '?' && c ≠ '#' && !isDropped c) = true := by
      rcases isNetScheme_cases hparts.net with h | h | h | h | h <;> rw [h] <;> decide
    have hall := List.all_eq_true.mp hscheme c hc
    simp only [Bool.and_eq_true, decide_eq_true_eq, Bool.not_eq_true'] at hall
    exact ⟨hall.1.1, hall.1.2, hall.2⟩
  · simp only [List.mem_cons] at hc
    rcases hc with rfl | rfl | rfl | hc
    · decide
    · decide
    · decide
    · obtain ⟨-, -, hquestion, hhash⟩ := endsAuthority_eq_false.mp (hauth c hc).1
      exact ⟨hquestion, hhash, (hauth c hc).2⟩

/-- A URL is read back with any query, where nothing is trimmed off the text. -/
theorem Url.Whole.parse_front {u : Url} (h : u.Whole) {host : Host} (hhost : u.host = some host) {after : Text}
    {q f : Option Text} (hq : ∀ t ∈ q, '#' ∉ t)
    (hclean : cleaned (u.front host ++ after) = u.front host ++ (u.path ++ led '?' q ++ led '#' f))
    (hlen : Text.len (u.front host ++ after) ≤ MAX_URL_BYTES) :
    Url.parse (u.front host ++ after) = some { u with query := q, fragment := f } := by
  obtain ⟨host', hhost', hparts⟩ := h.parts
  have heq := hhost.symm.trans hhost'
  obtain rfl := Option.some.inj heq
  obtain ⟨hread, hne, hchars⟩ := hparts.authority
  obtain ⟨t, hpath⟩ := h.path
  have hat : '@' ∉ authorityText host.serialize u.port := fun hmem => (isHostChar_iff.mp (hchars _ hmem)).2.2.2.2.2 rfl
  have hauth := @parseAuthority_withCredentials u.username u.password _ _ h.colon hat hread
  have hne' : withCredentials u.username u.password (authorityText host.serialize u.port) ≠ [] := by
    unfold withCredentials
    exact List.append_ne_nil_of_right_ne_nil _ hne
  have hsplit : splitScheme (cleaned (u.front host ++ after)) = some (u.scheme, '/' :: '/' ::
      (withCredentials u.username u.password (authorityText host.serialize u.port) ++ (u.path ++ led '?' q ++ led '#' f))) := by
    rw [hclean, Url.front, List.append_assoc]
    exact splitScheme_net hparts.net _
  have htail : IsTail (u.path ++ led '?' q ++ led '#' f) := by
    rw [hpath]
    exact .inr ⟨'/', _, rfl, rfl⟩
  rw [Url.parse_assembled hparts.net hne' (h.front_chars hhost).1 htail hlen hsplit, hauth, Option.map_some,
    h.assemble hhost hq]

/-- What is read is trimmed at its end, and only there. -/
theorem Url.Whole.cleaned_front (h : u.Whole) (hhost : u.host = some host) {after : Text}
    (hafter : ∀ c ∈ after, isDropped c = false) :
    cleaned (u.front host ++ after) = (u.front host ++ after).rdropWhile fun c => c ≤ ' ' := by
  obtain ⟨host', hhost', hparts⟩ := h.parts
  have hfirst : ∃ c rest, u.scheme = c :: rest ∧ decide (c ≤ ' ') = false := by
    rcases isNetScheme_cases hparts.net with h | h | h | h | h <;> rw [h] <;> exact ⟨_, _, rfl, rfl⟩
  obtain ⟨c, rest, hscheme, hc⟩ := hfirst
  have hstart : trimStartMatches (fun c => decide (c ≤ ' ')) (u.front host ++ after) = u.front host ++ after := by
    rw [trimStartMatches, Url.front, hscheme]
    exact List.dropWhile_cons_of_neg (by rw [hc]; exact Bool.false_ne_true)
  rw [cleaned, hstart, trimEndMatches]
  refine List.filter_eq_self.mpr fun d hd => ?_
  have hkept : isDropped d = false := by
    rcases List.mem_append.mp ((List.rdropWhile_prefix _ _).subset hd) with hd | hd
    · exact ((h.front_chars hhost).2 d hd).2.2
    · exact hafter d hd
  exact congrArg Bool.not hkept

/-- WITH ANOTHER QUERY a URL that has a fragment is read back as it is; one that has none is read back with the end of its
query trimmed, or of its path if there is no query. -/
theorem Url.Whole.parse_rewritten (h : u.Whole) (hhost : u.host = some host) {q : Option Text}
    (hq : ∀ t ∈ q, ∀ c ∈ t, c ≠ '#' ∧ isDropped c = false)
    (hlen : Text.len (u.front host ++ (u.path ++ led '?' q ++ led '#' u.fragment)) ≤ MAX_URL_BYTES) :
    Url.parse (u.front host ++ (u.path ++ led '?' q ++ led '#' u.fragment)) =
      some (if u.fragment.isSome then { u with query := q }
        else if q.isSome then { u with query := q.map fun t => t.rdropWhile fun c => c ≤ ' ' }
        else { u with path := u.path.rdropWhile fun c => c ≤ ' ', query := none }) := by
  have hqHash : ∀ t ∈ q, '#' ∉ t := fun t ht hmem => (hq t ht _ hmem).1 rfl
  have hafter : ∀ c ∈ u.path ++ led '?' q ++ led '#' u.fragment, isDropped c = false := by
    intro c hc
    rcases List.mem_append.mp hc with hc | hc
    · rcases List.mem_append.mp hc with hc | hc
      · exact h.dropped c (List.mem_append_left _ (List.mem_append_left _ (List.mem_append_right _ hc)))
      · cases hquery : q with
        | none =>
            rw [hquery] at hc
            cases hc
        | some t =>
            rw [hquery] at hc
            rcases List.mem_cons.mp hc with rfl | hc
            · rfl
            · exact (hq t hquery c hc).2
    · cases hfragment : u.fragment with
      | none =>
          rw [hfragment] at hc
          cases hc
      | some f =>
          rw [hfragment] at hc
          rcases List.mem_cons.mp hc with rfl | hc
          · rfl
          · refine h.dropped c (List.mem_append_right _ ?_)
            rw [hfragment]
            exact hc
  have hclean := h.cleaned_front hhost hafter
  cases hfragment : u.fragment with
  | some f =>
      have hend : (f.rdropWhile fun c => decide (c ≤ ' ')) = f := by
        refine List.rdropWhile_eq_self_iff.mpr fun hne => ?_
        rw [decide_eq_true_eq]
        exact h.fragment_end f hfragment _ (List.getLast?_eq_some_getLast hne)
      rw [hfragment] at hclean hlen
      have hregroup : u.front host ++ (u.path ++ led '?' q ++ led '#' (some f)) =
          (u.front host ++ (u.path ++ led '?' q)) ++ '#' :: f := by simp [led]
      rw [hregroup, rdropWhile_append_cons (by decide), hend, ← hregroup] at hclean
      rw [h.parse_front hhost hqHash hclean hlen, if_pos (by rfl)]
  | none =>
      rw [hfragment] at hclean hlen
      rw [if_neg (by decide)]
      cases hquery : q with
      | some t =>
          rw [hquery] at hclean hlen
          have hregroup : u.front host ++ (u.path ++ led '?' (some t) ++ led '#' none) = (u.front host ++ u.path) ++ '?' :: t := by
            simp [led]
          have hregroup' : (u.front host ++ u.path) ++ '?' :: (t.rdropWhile fun c => decide (c ≤ ' ')) =
              u.front host ++ (u.path ++ led '?' (some (t.rdropWhile fun c => decide (c ≤ ' '))) ++ led '#' none) := by
            simp [led]
          rw [hregroup, rdropWhile_append_cons (by decide), ← hregroup, hregroup'] at hclean
          have hqTrim : ∀ t' ∈ some (t.rdropWhile fun c => decide (c ≤ ' ')), '#' ∉ t' := by
            intro t' ht' hmem
            cases ht'
            exact hqHash t hquery ((List.rdropWhile_prefix _ _).subset hmem)
          rw [h.parse_front hhost hqTrim hclean hlen, if_pos (by rfl)]
          rfl
      | none =>
          rw [hquery] at hclean hlen
          obtain ⟨t, ht⟩ := h.path
          have htrim : (u.path.rdropWhile fun c => decide (c ≤ ' ')) = '/' :: t.rdropWhile fun c => decide (c ≤ ' ') := by
            rw [ht]
            exact rdropWhile_append_cons (by decide) [] t
          have hsub : ∀ c ∈ u.path.rdropWhile (fun c => decide (c ≤ ' ')), c ∈ u.path := (List.rdropWhile_prefix _ _).subset
          have hwhole : Url.Whole { u with path := u.path.rdropWhile fun c => c ≤ ' ' } := by
            refine ⟨⟨h.parts, ⟨_, htrim⟩, fun hmem => h.path_hash (hsub _ hmem), h.query_hash⟩, h.colon, h.userinfo,
              fun c hc => h.path_plain c (hsub c hc), fun c hc => h.dropped c ?_, h.fragment_end⟩
            simp only [List.mem_append] at hc ⊢
            exact hc.imp_left fun hc => hc.imp_left fun hc => hc.imp_right (hsub c)
          have hregroup : u.front host ++ (u.path ++ led '?' none ++ led '#' none) = u.front host ++ '/' :: t := by
            simp [led, ht]
          have hclean' : cleaned (u.front host ++ (u.path ++ led '?' none ++ led '#' none)) =
              u.front host ++ ((u.path.rdropWhile fun c => decide (c ≤ ' ')) ++ led '?' none ++ led '#' none) := by
            rw [hclean, hregroup, rdropWhile_append_cons (by decide), htrim]
            simp [led]
          have hread := @Url.Whole.parse_front _ hwhole host hhost (u.path ++ led '?' none ++ led '#' none) none none
            (fun t ht => by cases ht) hclean' hlen
          rw [if_neg (by decide)]
          exact hread

end Pelorus.Websec
