import Pelorus.Lib.Lossy
import Pelorus.Websec.Rewritten

/-
  Block/Params.lean --- stripping tracking parameters (`px-block/src/params.rs`).

  A PAIR of the query is kept or removed by its name, percent-decoded and in lower case.

  THE RESULT is put together as text and parsed again, and given only if every component but
  the query is as it was.  What is parsed is trimmed, and so may be the last pair that is kept.
-/
set_option autoImplicit false

namespace Pelorus.Block

open Lib Lib.Text Websec

/-- Most entries (exact + prefix) a configuration may hold. -/
def MAX_ENTRIES : Nat := 1024

/-- Longest entry. -/
def MAX_ENTRY_BYTES : Nat := 128

/-- Built-in exact names (lower case). -/
def DEFAULT_EXACT : List Text :=
  ["fbclid", "gclid", "gclsrc", "dclid", "gbraid", "wbraid", "msclkid", "twclid", "ttclid", "yclid", "igshid", "mc_eid",
    "mc_cid", "_hsenc", "_hsmi", "mkt_tok", "oly_anon_id", "oly_enc_id", "vero_id", "vero_conv", "wickedid",
    "srsltid"].map String.toList

/-- Built-in prefixes (lower case). -/
def DEFAULT_PREFIXES : List Text := ["utm_".toList]

/-! ## The names -/

/-- The set of parameter names to strip.  No entry is empty. -/
structure TrackingParams where
  exact : List Text
  prefixes : List Text
  exact_ne : [] ∉ exact
  prefixes_ne : [] ∉ prefixes

namespace TrackingParams

theorem default_exact_ne : [] ∉ DEFAULT_EXACT := by decide

theorem default_prefixes_ne : [] ∉ DEFAULT_PREFIXES := by decide

def default : TrackingParams := ⟨DEFAULT_EXACT, DEFAULT_PREFIXES, default_exact_ne, default_prefixes_ne⟩

def empty : TrackingParams := ⟨[], [], List.not_mem_nil, List.not_mem_nil⟩

/-- `admit`. -/
def admitName (p : TrackingParams) (name : Text) : Option Text :=
  let n := toAsciiLowercase name.trim
  if !n.isEmpty && n.len ≤ MAX_ENTRY_BYTES &&
      !n.utf8.any (fun b => b ≤ 0x20 || b = 0x26 || b = 0x3d || b = 0x23 || b = 0x7f) &&
      p.exact.length + p.prefixes.length < MAX_ENTRIES then
    some n
  else none

theorem ne_nil_of_admitted {p : TrackingParams} {name n : Text} (h : p.admitName name = some n) : n ≠ [] := by
  unfold admitName at h
  dsimp only at h
  split at h
  · rename_i hok
    cases h
    rintro hnil
    rw [hnil] at hok
    cases hok
  · cases h

theorem nil_not_mem_insert {n : Text} {l : List Text} (hn : n ≠ []) (h : [] ∉ l) : [] ∉ l.insert n := fun hmem =>
  (List.mem_insert_iff.mp hmem).elim (fun heq => hn heq.symm) h

def addExact (p : TrackingParams) (name : Text) : TrackingParams × Bool :=
  match h : p.admitName name with
  | some n => ({ p with exact := p.exact.insert n, exact_ne := nil_not_mem_insert (ne_nil_of_admitted h) p.exact_ne }, true)
  | none => (p, false)

def addPrefix (p : TrackingParams) (lead : Text) : TrackingParams × Bool :=
  match h : p.admitName lead with
  | some n =>
      ({ p with prefixes := p.prefixes.insert n, prefixes_ne := nil_not_mem_insert (ne_nil_of_admitted h) p.prefixes_ne }, true)
  | none => (p, false)

def removeExact (p : TrackingParams) (name : Text) : TrackingParams × Bool :=
  let n := toAsciiLowercase name
  ({ p with exact := p.exact.erase n, exact_ne := fun h => p.exact_ne (List.mem_of_mem_erase h) }, p.exact.contains n)

def removePrefix (p : TrackingParams) (lead : Text) : TrackingParams × Bool :=
  let n := toAsciiLowercase lead
  ({ p with prefixes := p.prefixes.erase n, prefixes_ne := fun h => p.prefixes_ne (List.mem_of_mem_erase h) },
    p.prefixes.contains n)

def isTracking (p : TrackingParams) (name : Text) : Bool :=
  let n := toAsciiLowercase name
  p.exact.contains n || p.prefixes.any fun lead => lead.isPrefixOf n

/-- No entry names nothing. -/
theorem isTracking_nil (p : TrackingParams) : p.isTracking [] = false := by
  have hexact : p.exact.contains [] = false := by
    rw [List.contains_eq_mem]
    exact decide_eq_false p.exact_ne
  have hprefixes : (p.prefixes.any fun lead => lead.isPrefixOf ([] : Text)) = false := by
    rw [List.any_eq_false]
    intro lead hmem hlead
    cases lead with
    | nil => exact p.prefixes_ne hmem
    | cons c s => cases hlead
  exact Bool.or_eq_false_iff.mpr ⟨hexact, hprefixes⟩

/-! ## A configuration over its life -/

inductive Call where
  | addExact (name : Text)
  | addPrefix (lead : Text)
  | removeExact (name : Text)
  | removePrefix (lead : Text)

def step (p : TrackingParams) : Call → TrackingParams
  | .addExact name => (p.addExact name).1
  | .addPrefix lead => (p.addPrefix lead).1
  | .removeExact name => (p.removeExact name).1
  | .removePrefix lead => (p.removePrefix lead).1

/-- Entries as they are let through: in lower case and not too long, once each. -/
structure Entries (l : List Text) : Prop where
  nodup : l.Nodup
  clean : ∀ n ∈ l, toAsciiLowercase n = n ∧ n.len ≤ MAX_ENTRY_BYTES

structure Tidy (p : TrackingParams) : Prop where
  exact : Entries p.exact
  prefixes : Entries p.prefixes
  count : p.exact.length + p.prefixes.length ≤ MAX_ENTRIES

/-- Every entry strips something, in any case of its letters, and its own text takes it out. -/
structure Live (p : TrackingParams) : Prop where
  count : p.exact.length + p.prefixes.length ≤ MAX_ENTRIES
  exact : ∀ n ∈ p.exact, n.len ≤ MAX_ENTRY_BYTES ∧ (∀ name, eqIgnoreAsciiCase name n → p.isTracking name) ∧
    (p.removeExact n).2 = true ∧ n ∉ (p.removeExact n).1.exact
  prefixes : ∀ n ∈ p.prefixes, n.len ≤ MAX_ENTRY_BYTES ∧
    (∀ lead rest, eqIgnoreAsciiCase lead n → p.isTracking (lead ++ rest)) ∧
    (p.removePrefix n).2 = true ∧ n ∉ (p.removePrefix n).1.prefixes

section

variable {p : TrackingParams} {l : List Text} {name n : Text}

theorem admitted (h : p.admitName name = some n) : (toAsciiLowercase n = n ∧ n.len ≤ MAX_ENTRY_BYTES) ∧
    p.exact.length + p.prefixes.length < MAX_ENTRIES := by
  unfold admitName at h
  dsimp only at h
  split at h
  · rename_i hok
    cases h
    simp only [Bool.and_eq_true, decide_eq_true_eq] at hok
    exact ⟨⟨toAsciiLowercase_idem name.trim, hok.1.1.2⟩, hok.2⟩
  · cases h

theorem Entries.insert (h : Entries l) (hn : toAsciiLowercase n = n ∧ n.len ≤ MAX_ENTRY_BYTES) :
    Entries (l.insert n) ∧ (l.insert n).length ≤ l.length + 1 := by
  refine ⟨⟨h.nodup.insert, fun m hm => ?_⟩, ?_⟩
  · exact (List.mem_insert_iff.mp hm).elim (fun heq => heq ▸ hn) (h.clean m)
  · rw [List.insert]
    split <;> simp

theorem Entries.erase (h : Entries l) (n : Text) : Entries (l.erase n) ∧ (l.erase n).length ≤ l.length :=
  ⟨⟨h.nodup.erase n, fun m hm => h.clean m (List.mem_of_mem_erase hm)⟩, List.length_erase_le⟩

theorem Tidy.step (h : p.Tidy) : (call : Call) → (p.step call).Tidy
  | .addExact name => by
      simp only [TrackingParams.step, addExact]
      split
      · rename_i n hn
        obtain ⟨hclean, hroom⟩ := admitted hn
        obtain ⟨hentries, hlen⟩ := h.exact.insert hclean
        exact ⟨hentries, h.prefixes, by dsimp only; omega⟩
      · exact h
  | .addPrefix lead => by
      simp only [TrackingParams.step, addPrefix]
      split
      · rename_i n hn
        obtain ⟨hclean, hroom⟩ := admitted hn
        obtain ⟨hentries, hlen⟩ := h.prefixes.insert hclean
        exact ⟨h.exact, hentries, by dsimp only; omega⟩
      · exact h
  | .removeExact name =>
      have herase := h.exact.erase (toAsciiLowercase name)
      ⟨herase.1, h.prefixes, le_trans (Nat.add_le_add_right herase.2 _) h.count⟩
  | .removePrefix lead =>
      have herase := h.prefixes.erase (toAsciiLowercase lead)
      ⟨h.exact, herase.1, le_trans (Nat.add_le_add_left herase.2 _) h.count⟩

theorem Tidy.live (h : p.Tidy) : p.Live where
  count := h.count
  exact n hn := by
    obtain ⟨hlower, hlen⟩ := h.exact.clean n hn
    refine ⟨hlen, fun name hname => ?_, ?_, ?_⟩
    · have heq : toAsciiLowercase name = n := (of_decide_eq_true hname).trans hlower
      simp [isTracking, heq, hn]
    · simp [removeExact, hlower, hn]
    · simp [removeExact, hlower, h.exact.nodup.mem_erase_iff]
  prefixes n hn := by
    obtain ⟨hlower, hlen⟩ := h.prefixes.clean n hn
    refine ⟨hlen, fun lead rest hlead => ?_, ?_, ?_⟩
    · have heq : toAsciiLowercase (lead ++ rest) = n ++ toAsciiLowercase rest := by
        rw [toAsciiLowercase, List.map_append]
        exact congrArg (· ++ _) ((of_decide_eq_true hlead).trans hlower)
      simp only [isTracking, heq, Bool.or_eq_true, List.any_eq_true]
      exact .inr ⟨n, hn, by simp⟩
    · simp [removePrefix, hlower, hn]
    · simp [removePrefix, hlower, h.prefixes.nodup.mem_erase_iff]

end

/-- NO ENTRY IS DEAD, whatever calls were made. -/
theorem entries_live (calls : List Call) : (calls.foldl step default).Live ∧ (calls.foldl step empty).Live := by
  have hrun : ∀ start : TrackingParams, start.Tidy → (calls.foldl step start).Live := fun start hstart =>
    (List.foldlRecOn calls TrackingParams.step hstart fun p hp call _ => hp.step call).live
  exact ⟨hrun _ ⟨⟨by decide, by decide⟩, ⟨by decide, by decide⟩, by decide⟩,
    hrun _ ⟨⟨by decide, by decide⟩, ⟨by decide, by decide⟩, by decide⟩⟩

end TrackingParams

/-! ## Stripping -/

/-- A successful strip. -/
structure Stripped where
  url : Url
  removed : List Text
  deriving DecidableEq

/-- `hex`. -/
def hexByte (b : UInt8) : Option UInt8 :=
  if 0x30 ≤ b ∧ b ≤ 0x39 then some (b - 0x30)
  else if 0x61 ≤ b ∧ b ≤ 0x66 then some (b - 0x61 + 10)
  else if 0x41 ≤ b ∧ b ≤ 0x46 then some (b - 0x41 + 10)
  else none

/-- A byte that is not part of an escape. -/
def plusByte (c : UInt8) : UInt8 := if c = 0x2b then 0x20 else c

/-- The loop of `decode_name`. -/
def decodeNameBytes : Bytes → Bytes
  | [] => []
  | c :: h :: l :: rest =>
      if c = 0x25 then
        match hexByte h, hexByte l with
        | some h, some l => (h * 16 + l) :: decodeNameBytes rest
        | _, _ => plusByte c :: decodeNameBytes (h :: l :: rest)
      else plusByte c :: decodeNameBytes (h :: l :: rest)
  | c :: rest => plusByte c :: decodeNameBytes rest

def decodeName (raw : Text) : Text := fromUtf8Lossy (decodeNameBytes raw.utf8)

/-- The name of a pair, as written. -/
def nameOf (pair : Text) : Text := ((splitOnce '=' pair).map Prod.fst).getD pair

/-- A pair that is removed. -/
def isRemoved (params : TrackingParams) (pair : Text) : Bool :=
  !(nameOf pair).isEmpty && params.isTracking (decodeName (nameOf pair))

/-- The text of a URL with only these pairs in its query. -/
def strippedText (url : Url) (kept : List Text) : Text :=
  let full := url.serialize false
  let parts :=
    match splitOnce '#' full with
    | some (a, f) => (a, some f)
    | none => (full, none)
  let base := ((splitOnce '?' parts.1).map Prod.fst).getD parts.1
  base ++ (if kept.isEmpty then [] else '?' :: ['&'].intercalate kept) ++
    match parts.2 with
    | some f => '#' :: f
    | none => []

/-- Every component but the query is the same. -/
def isFaithful (cleaned url : Url) : Bool :=
  cleaned.scheme = url.scheme && cleaned.host = url.host && cleaned.port = url.port && cleaned.path = url.path &&
    cleaned.fragment = url.fragment && cleaned.username = url.username && cleaned.password = url.password

def stripTrackingParams (url : Url) (params : TrackingParams) : Option Stripped :=
  if url.scheme ≠ "http".toList ∧ url.scheme ≠ "https".toList then none
  else
    match url.query with
    | none => none
    | some query =>
        let pairs := query.splitOn '&'
        let kept := pairs.filter fun pair => !isRemoved params pair
        let removed := (pairs.filter (isRemoved params)).map nameOf
        if removed.isEmpty then none
        else
          match Url.parse (strippedText url kept) with
          | none => none
          | some cleaned => if isFaithful cleaned url then some { url := cleaned, removed } else none

/-! ## The original minus the parameters -/

/-- The pairs of a URL: what is between the `&` of its query. -/
def pairsOf (u : Url) : List Text :=
  match u.query with
  | some query => query.splitOn '&'
  | none => []

/-- The percent-decoded name of a pair is tracked. -/
def isTracked (params : TrackingParams) (pair : Text) : Bool := params.isTracking (decodeName (nameOf pair))

/-- The pairs of a URL that are not tracked. -/
def keptOf (u : Url) (params : TrackingParams) : List Text := (pairsOf u).filter fun pair => !isTracked params pair

/-- The text of the kept pairs is not read back as a URL that differs in the query alone. -/
def Unfaithful (u : Url) (params : TrackingParams) : Prop :=
  ∀ cleaned, Url.parse (strippedText u (keptOf u params)) = some cleaned → isFaithful cleaned u = false

/-- What stripping must do: the result is the original minus the tracked parameters, and without a result there are none
to strip. -/
structure IsMinus (u : Url) (params : TrackingParams) : Prop where
  faithful : ∀ s, stripTrackingParams u params = some s → isFaithful s.url u = true
  kept : ∀ s, stripTrackingParams u params = some s → pairsOf s.url = keptOf u params
  query : ∀ s, stripTrackingParams u params = some s → (s.url.query = none ↔ keptOf u params = [])
  removed : ∀ s, stripTrackingParams u params = some s →
    s.removed = ((pairsOf u).filter (isTracked params)).map nameOf ∧ s.removed ≠ []
  again : ∀ s, stripTrackingParams u params = some s → stripTrackingParams s.url params = none
  none : stripTrackingParams u params = none → (∀ pair ∈ pairsOf u, isTracked params pair = false) ∨ Unfaithful u params

/-- A pair is stripped from a URL without a fragment, and what is kept, short enough to be parsed again, ends with a
space or a control character. -/
def TrimsKept (u : Url) (params : TrackingParams) : Prop :=
  u.fragment = none ∧ (∃ pair ∈ pairsOf u, isTracked params pair = true) ∧
    (∃ c ∈ (['&'].intercalate (keptOf u params)).getLast?, c ≤ ' ') ∧
      Text.len (Url.serialize { u with query := some (['&'].intercalate (keptOf u params)) } false) ≤ MAX_URL_BYTES

end Pelorus.Block

/-! # What is left of a URL is the URL minus the tracking parameters

THE TEXT of the kept pairs is the front of the URL, its path, what is kept and its fragment.
It is read back as it is, but for its end where it has no fragment: that is trimmed. -/

namespace Pelorus.Block

open Lib Lib.Text Websec

/-! ## Pairs -/

variable {u : Url} {params : TrackingParams}

theorem isRemoved_eq (params : TrackingParams) (pair : Text) : isRemoved params pair = isTracked params pair := by
  unfold isRemoved isTracked
  cases hname : nameOf pair with
  | nil =>
      have hdecoded : decodeName [] = [] := rfl
      rw [hdecoded, params.isTracking_nil]
      rfl
  | cons c s => rfl

/-- The kept pairs, as a query. -/
def queryOf (kept : List Text) : Option Text := if kept.isEmpty then none else some (['&'].intercalate kept)

theorem amp_not_mem {u : Url} {pair : Text} (h : pair ∈ pairsOf u) : '&' ∉ pair := by
  unfold pairsOf at h
  cases hquery : u.query with
  | none =>
      rw [hquery] at h
      cases h
  | some q =>
      rw [hquery] at h
      exact (of_mem_splitOn h).1

theorem pairs_queryOf {v : Url} (h : v.query = queryOf (keptOf u params)) : pairsOf v = keptOf u params := by
  unfold pairsOf
  rw [h, queryOf]
  cases hkept : (keptOf u params).isEmpty with
  | true => exact (List.isEmpty_iff.mp hkept).symm
  | false =>
      have hne : keptOf u params ≠ [] := List.isEmpty_eq_false_iff.mp hkept
      exact List.splitOn_intercalate '&' (fun pair hpair => amp_not_mem (List.mem_of_mem_filter hpair)) hne

theorem mem_queryOf (h : u.Whole) : ∀ t ∈ queryOf (keptOf u params), ∀ c ∈ t, c ≠ '#' ∧ isDropped c = false := by
  intro t ht c hc
  unfold queryOf at ht
  split at ht
  · cases ht
  · cases ht
    rcases mem_intercalate hc with rfl | ⟨pair, hpair, hc⟩
    · decide
    · have hmem := List.mem_of_mem_filter hpair
      unfold pairsOf at hmem
      cases hquery : u.query with
      | none =>
          rw [hquery] at hmem
          cases hmem
      | some q =>
          rw [hquery] at hmem
          have hq := (of_mem_splitOn hmem).2.subset hc
          refine ⟨fun heq => h.query_hash q hquery (heq ▸ hq), h.dropped c (List.mem_append_left _ (List.mem_append_right _ ?_))⟩
          rw [hquery]
          exact hq

/-! ## The text -/

theorem splitOnce_led {sep : Char} {a : Text} (h : sep ∉ a) (o : Option Text) :
    splitOnce sep (a ++ led sep o) = o.map fun t => (a, t) := by
  cases o with
  | none =>
      rw [led, List.append_nil]
      exact splitOnce_eq_none h
  | some t => exact splitOnce_append h t

theorem strippedText_eq (h : u.Whole) {host : Host} (hhost : u.host = some host) (kept : List Text) :
    strippedText u kept = u.front host ++ (u.path ++ led '?' (queryOf kept) ++ led '#' u.fragment) := by
  obtain ⟨-, hfront⟩ := h.front_chars hhost
  have hquestion : '?' ∉ u.front host ++ u.path := by
    rw [List.mem_append, not_or]
    exact ⟨fun hmem => (hfront _ hmem).1 rfl, fun hmem => (h.path_plain _ hmem).1 rfl⟩
  have hhash : '#' ∉ u.front host ++ u.path ++ led '?' u.query := by
    simp only [List.mem_append, not_or]
    refine ⟨⟨fun hmem => (hfront _ hmem).2.1 rfl, h.path_hash⟩, ?_⟩
    cases hquery : u.query with
    | none => exact List.not_mem_nil
    | some q => exact List.not_mem_cons_of_ne_of_not_mem (by decide) (h.query_hash q hquery)
  have hfull : u.serialize false = (u.front host ++ u.path ++ led '?' u.query) ++ led '#' u.fragment := by
    rw [Url.serialize_front hhost]
    simp only [List.append_assoc]
  have hbase : ((splitOnce '?' (u.front host ++ u.path ++ led '?' u.query)).map Prod.fst).getD
      (u.front host ++ u.path ++ led '?' u.query) = u.front host ++ u.path := by
    rw [splitOnce_led hquestion]
    cases u.query with
    | none => exact List.append_nil _
    | some q => rfl
  have hquery : (if kept.isEmpty then [] else '?' :: ['&'].intercalate kept) = led '?' (queryOf kept) := by
    unfold queryOf
    split
    · rfl
    · rfl
  rw [strippedText, hfull, splitOnce_led hhash, hquery]
  cases u.fragment with
  | none =>
      have hled : led '#' none = [] := rfl
      rw [Option.map_none, hled]
      simp only [List.append_nil]
      rw [hbase, List.append_assoc]
  | some f =>
      rw [Option.map_some]
      dsimp only
      rw [hbase]
      simp only [led, List.append_assoc]

/-! ## The result -/

/-- Stripping, without the order in which the source checks. -/
theorem stripTrackingParams_eq (hscheme : u.scheme = "http".toList ∨ u.scheme = "https".toList) (params : TrackingParams) :
    stripTrackingParams u params =
      if (pairsOf u).filter (isTracked params) = [] then none
      else (Url.parse (strippedText u (keptOf u params))).bind fun cleaned =>
        if isFaithful cleaned u then some { url := cleaned, removed := ((pairsOf u).filter (isTracked params)).map nameOf }
        else none := by
  have hweb : ¬ (u.scheme ≠ "http".toList ∧ u.scheme ≠ "https".toList) := fun h => hscheme.elim h.1 h.2
  have hremoved : isRemoved params = isTracked params := funext (isRemoved_eq params)
  rw [stripTrackingParams, if_neg hweb]
  unfold keptOf pairsOf
  cases u.query with
  | none => rfl
  | some q =>
      dsimp only
      rw [hremoved]
      cases hfilter : (q.splitOn '&').filter (isTracked params) with
      | nil => rfl
      | cons pair pairs =>
          have hsome : (nameOf pair :: pairs.map nameOf).isEmpty = false := rfl
          rw [List.map_cons, hsome, if_neg Bool.false_ne_true, if_neg (List.cons_ne_nil _ _)]
          cases Url.parse _ with
          | none => rfl
          | some cleaned => rfl

theorem stripTrackingParams_eq_some (hscheme : u.scheme = "http".toList ∨ u.scheme = "https".toList) {s : Stripped} :
    stripTrackingParams u params = some s ↔ (∃ pair ∈ pairsOf u, isTracked params pair = true) ∧
      Url.parse (strippedText u (keptOf u params)) = some s.url ∧ isFaithful s.url u = true ∧
        s.removed = ((pairsOf u).filter (isTracked params)).map nameOf := by
  rw [stripTrackingParams_eq hscheme]
  split
  · rename_i hnone
    refine iff_of_false (Option.some_ne_none s).symm fun h => ?_
    obtain ⟨⟨pair, hpair, htracked⟩, -⟩ := h
    exact absurd (hnone ▸ List.mem_filter.mpr ⟨hpair, htracked⟩) List.not_mem_nil
  · rename_i hsome
    obtain ⟨pair, pairs, hfilter⟩ := List.exists_cons_of_ne_nil hsome
    have hpair : pair ∈ (pairsOf u).filter (isTracked params) := hfilter ▸ List.mem_cons_self
    rw [and_iff_right ⟨pair, List.mem_of_mem_filter hpair, (List.mem_filter.mp hpair).2⟩, Option.bind_eq_some_iff]
    constructor
    · intro h
      obtain ⟨cleaned, hparse, hsome⟩ := h
      split at hsome
      · rename_i hfaithful
        cases hsome
        exact ⟨hparse, hfaithful, rfl⟩
      · cases hsome
    · intro h
      obtain ⟨hparse, hfaithful, hremoved⟩ := h
      refine ⟨s.url, hparse, ?_⟩
      rw [if_pos hfaithful, ← hremoved]

theorem len_of_parse {input : Text} {u : Url} (h : Url.parse input = some u) : input.len ≤ MAX_URL_BYTES := by
  unfold Url.parse at h
  split at h
  · cases h
  · omega

theorem isFaithful_iff {cleaned : Url} : isFaithful cleaned u = true ↔ cleaned = { u with query := cleaned.query } := by
  unfold isFaithful
  simp only [Bool.and_eq_true, decide_eq_true_eq]
  constructor
  · intro h
    obtain ⟨⟨⟨⟨⟨⟨hscheme, hhost⟩, hport⟩, hpath⟩, hfragment⟩, husername⟩, hpassword⟩ := h
    rw [← hscheme, ← hhost, ← hport, ← hpath, ← hfragment, ← husername, ← hpassword]
  · intro h
    rw [h]
    exact ⟨⟨⟨⟨⟨⟨rfl, rfl⟩, rfl⟩, rfl⟩, rfl⟩, rfl⟩, rfl⟩

/-- The text of the kept pairs is read back with the kept pairs as the query, or else the end of the kept pairs, or of the
path, was trimmed. -/
theorem parse_strippedText (h : u.Whole) (hlen : (strippedText u (keptOf u params)).len ≤ MAX_URL_BYTES) :
    Url.parse (strippedText u (keptOf u params)) =
      some (if u.fragment.isSome then { u with query := queryOf (keptOf u params) }
        else if (queryOf (keptOf u params)).isSome then
          { u with query := (queryOf (keptOf u params)).map fun t => t.rdropWhile fun c => c ≤ ' ' }
        else { u with path := u.path.rdropWhile fun c => c ≤ ' ', query := none }) := by
  obtain ⟨host, hhost, -⟩ := h.parts
  rw [strippedText_eq h hhost] at hlen ⊢
  exact h.parse_rewritten hhost (mem_queryOf h) hlen

theorem trimmed_iff {t : Text} : (t.rdropWhile fun c => decide (c ≤ ' ')) = t ↔ ∀ c ∈ t.getLast?, ¬ c ≤ ' ' := by
  rw [List.rdropWhile_eq_self_iff]
  constructor
  · intro h c hc
    have hne : t ≠ [] := by
      rintro rfl
      cases hc
    have hlast := h hne
    rw [List.getLast?_eq_some_getLast hne] at hc
    rwa [Option.some.inj hc, decide_eq_true_eq] at hlast
  · intro h hne
    rw [decide_eq_true_eq]
    exact h _ (List.getLast?_eq_some_getLast hne)

theorem len_strippedText (h : u.Whole) (hne : keptOf u params ≠ []) : strippedText u (keptOf u params) =
    Url.serialize { u with query := some (['&'].intercalate (keptOf u params)) } false := by
  obtain ⟨host, hhost, -⟩ := h.parts
  have hquery : queryOf (keptOf u params) = some (['&'].intercalate (keptOf u params)) :=
    if_neg fun h => hne (List.isEmpty_iff.mp h)
  rw [strippedText_eq h hhost, @Url.serialize_front { u with query := some (['&'].intercalate (keptOf u params)) } host hhost,
    hquery]
  rfl

theorem ne_nil_of_getLast? {kept : List Text} {c : Char} (h : c ∈ (['&'].intercalate kept).getLast?) : kept ≠ [] := by
  rintro rfl
  cases h

/-- Where nothing kept is trimmed, the query of the result is the kept pairs. -/
theorem query_of_stripped (h : u.Whole) (hscheme : u.scheme = "http".toList ∨ u.scheme = "https".toList)
    (hkeeps : ¬ TrimsKept u params) {s : Stripped} (hs : stripTrackingParams u params = some s) :
    s.url = { u with query := queryOf (keptOf u params) } := by
  obtain ⟨htracked, hparse, hfaithful, -⟩ := (stripTrackingParams_eq_some hscheme).mp hs
  have hlen := len_of_parse hparse
  rw [parse_strippedText h hlen] at hparse
  have hurl := Option.some.inj hparse
  by_cases hfragment : u.fragment.isSome = true
  · rw [if_pos hfragment] at hurl
    exact hurl.symm
  · rw [if_neg hfragment] at hurl
    rw [Option.not_isSome_iff_eq_none] at hfragment
    cases hquery : queryOf (keptOf u params) with
    | some t =>
        have ht : t = ['&'].intercalate (keptOf u params) := by
          unfold queryOf at hquery
          split at hquery
          · cases hquery
          · exact (Option.some.inj hquery).symm
        have htrim : (t.rdropWhile fun c => decide (c ≤ ' ')) = t := by
          rw [trimmed_iff, ht]
          intro c hc hle
          refine hkeeps ⟨hfragment, htracked, ⟨c, hc, hle⟩, ?_⟩
          rw [← len_strippedText h (ne_nil_of_getLast? hc)]
          exact hlen
        rw [hquery, if_pos (by rfl), Option.map_some, htrim] at hurl
        exact hurl.symm
    | none =>
        have hnone : s.url.query = none := by
          rw [← hurl, hquery]
          rfl
        rw [← hnone]
        exact isFaithful_iff.mp hfaithful

/-- Where something kept is trimmed, there is a result, and its pairs are not the kept pairs. -/
theorem not_isMinus_of_trims (h : u.Whole) (hscheme : u.scheme = "http".toList ∨ u.scheme = "https".toList)
    (htrims : TrimsKept u params) : ¬ IsMinus u params := by
  obtain ⟨hfragment, htracked, ⟨c, hc, hle⟩, hlen⟩ := htrims
  have hne := ne_nil_of_getLast? hc
  have hquery : queryOf (keptOf u params) = some (['&'].intercalate (keptOf u params)) :=
    if_neg fun h => hne (List.isEmpty_iff.mp h)
  rw [← len_strippedText h hne] at hlen
  have hparse := parse_strippedText h hlen
  rw [hfragment, hquery, if_neg (by decide), if_pos (by rfl), Option.map_some] at hparse
  intro hminus
  have hfaithful : isFaithful { u with query := some ((['&'].intercalate (keptOf u params)).rdropWhile fun c => c ≤ ' ') } u =
      true := isFaithful_iff.mpr rfl
  rw [← hfragment] at hparse
  have hsome := (@stripTrackingParams_eq_some u params hscheme ⟨_, _⟩).mpr ⟨htracked, hparse, hfaithful, rfl⟩
  have hpairs := hminus.kept _ hsome
  have hjoin := congrArg (['&'].intercalate ·) hpairs
  dsimp only [pairsOf] at hjoin
  rw [List.intercalate_splitOn] at hjoin
  exact trimmed_iff.mp hjoin c hc hle

/-- STRIPPING LEAVES THE ORIGINAL MINUS THE TRACKING PARAMETERS, but where the end of what is kept is trimmed.  For every
URL that was parsed with the scheme `http` or `https` and all names to strip, the result, if there is one, has every other
component and the pairs that are not tracked, in order and byte for byte, and nothing is left to strip in it; and there is
a result, unless nothing is tracked or the text is not read back faithfully.  This holds if and only if no kept pair loses
its end. -/
theorem isMinus_iff {input : Text} {u : Url} (hu : Url.parse input = some u)
    (hscheme : u.scheme = "http".toList ∨ u.scheme = "https".toList) (params : TrackingParams) :
    IsMinus u params ↔ ¬ TrimsKept u params := by
  have hnet : IsNetScheme u.scheme := by
    rcases hscheme with h | h <;> rw [h] <;> exact ⟨rfl, by decide⟩
  have hwhole := Url.whole_of_parse hu hnet
  constructor
  · exact fun h htrims => not_isMinus_of_trims hwhole hscheme htrims h
  · intro hkeeps
    refine ⟨fun s hs => ?_, fun s hs => ?_, fun s hs => ?_, fun s hs => ?_, fun s hs => ?_, fun hnone => ?_⟩
    · exact ((stripTrackingParams_eq_some hscheme).mp hs).2.2.1
    · rw [query_of_stripped hwhole hscheme hkeeps hs]
      exact pairs_queryOf rfl
    · rw [query_of_stripped hwhole hscheme hkeeps hs]
      dsimp only [queryOf]
      cases keptOf u params with
      | nil => exact iff_of_true rfl rfl
      | cons pair kept => exact iff_of_false (Option.some_ne_none _) (List.cons_ne_nil _ _)
    · obtain ⟨⟨pair, hpair, htracked⟩, -, -, hremoved⟩ := (stripTrackingParams_eq_some hscheme).mp hs
      refine ⟨hremoved, ?_⟩
      rw [hremoved]
      exact List.ne_nil_of_mem (List.mem_map_of_mem (List.mem_filter.mpr ⟨hpair, htracked⟩))
    · have hurl := query_of_stripped hwhole hscheme hkeeps hs
      have hpairs : pairsOf s.url = keptOf u params := by
        rw [hurl]
        exact pairs_queryOf rfl
      have hscheme' : s.url.scheme = "http".toList ∨ s.url.scheme = "https".toList := by
        rw [hurl]
        exact hscheme
      rw [stripTrackingParams_eq hscheme', hpairs, keptOf, List.filter_filter, if_pos]
      refine List.filter_eq_nil_iff.mpr fun pair _ hboth => ?_
      rw [Bool.and_eq_true, Bool.not_eq_true'] at hboth
      exact Bool.false_ne_true (hboth.2.symm.trans hboth.1)
    · by_cases htracked : ∃ pair ∈ pairsOf u, isTracked params pair = true
      · refine .inr fun cleaned hparse => ?_
        by_contra hfaithful
        have hsome := (@stripTrackingParams_eq_some u params hscheme ⟨cleaned, _⟩).mpr
          ⟨htracked, hparse, Bool.of_not_eq_false hfaithful, rfl⟩
        rw [hnone] at hsome
        cases hsome
      · refine .inl fun pair hpair => Bool.eq_false_iff.mpr fun h => htracked ⟨pair, hpair, h⟩

/-- `https://a.com/p?a=1&gclid=2`. -/
def plainUrl : Url :=
  { scheme := "https".toList, username := [], password := [], host := some (.domain "a.com".toList), port := none,
    path := "/p".toList, query := some "a=1&gclid=2".toList, fragment := none }

theorem isMinus_iff_sample : IsMinus plainUrl .default ↔ ¬ TrimsKept plainUrl .default :=
  @isMinus_iff "https://a.com/p?a=1&gclid=2".toList plainUrl rfl (.inr rfl) .default

/-- `https://a.com/p?a=1 &gclid=2`, with a space at the end of its first pair. -/
def spacedUrl : Url := { plainUrl with query := some "a=1 &gclid=2".toList }

theorem parse_spacedUrl : Url.parse "https://a.com/p?a=1 &gclid=2".toList = some spacedUrl := rfl

/-- Of this URL `a=1` is left, and not `a=1` with its space. -/
theorem spaced_not_minus : Url.parse "https://a.com/p?a=1 &gclid=2".toList = some spacedUrl ∧ ¬ IsMinus spacedUrl .default := by
  have hnet : IsNetScheme spacedUrl.scheme := ⟨rfl, by decide⟩
  have hkept : keptOf spacedUrl .default = ["a=1 ".toList] := by decide
  refine ⟨parse_spacedUrl, not_isMinus_of_trims (Url.whole_of_parse parse_spacedUrl hnet) (.inr rfl) ⟨rfl, ?_, ?_, ?_⟩⟩
  · exact ⟨"gclid=2".toList, by decide, by decide⟩
  · rw [hkept]
    exact ⟨' ', rfl, by decide⟩
  · rw [hkept]
    decide

end Pelorus.Block
