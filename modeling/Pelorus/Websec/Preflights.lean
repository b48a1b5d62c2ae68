import Pelorus.Websec.Cors

/-
  Websec/Preflights.lean --- what a preflight grants, and what the cache of preflights says.

  A GRANT is scattered over the cache, an entry for each method and each header name, and
  the entries are recombined when a request asks.
-/
set_option autoImplicit false

namespace Pelorus.Websec.Cors

open Lib Lib.Text

/-! ## What is granted -/

/-- A grant covers the method and every unsafe header of a request. -/
structure GrantCovers (request : CorsRequest) (grant : PreflightGrant) : Prop where
  method : isSafelistedMethod request.method = true ∨ request.method ∈ grant.methods ∨
    request.credentials ≠ .include_ ∧ "*".toList ∈ grant.methods
  headers : ∀ n ∈ unsafeHeaderNames request.headers, headerListed grant.headerNames n = true ∨
    request.credentials ≠ .include_ ∧ "*".toList ∈ grant.headerNames
  authorization : hasAuthorization request.headers = true →
    headerListed grant.headerNames "authorization".toList = true

/-- An entry of the cache was granted for requests like this one, and has not expired. -/
structure EntryFor (partition : Text) (request : CorsRequest) (now : Nat) (e : CacheEntry) : Prop where
  partition : e.partition = partition
  origin : e.origin = request.origin
  url : e.url = request.url.serialize true
  credentials : request.credentials = .include_ → e.credentials = true
  live : now < e.expiresAt

/-- Entries of the cache cover the method and every unsafe header of a request. -/
structure CacheCovers (cache : PreflightCache) (partition : Text) (request : CorsRequest) (now : Nat) : Prop where
  method : isSafelistedMethod request.method = true ∨ ∃ e ∈ cache.entries,
    EntryFor partition request now e ∧ PreflightCache.coversMethod request e = true
  headers : ∀ n ∈ unsafeHeaderNames request.headers, ∃ e ∈ cache.entries,
    EntryFor partition request now e ∧ PreflightCache.coversHeader request n e = true
  authorization : hasAuthorization request.headers = true → ∃ e ∈ cache.entries,
    EntryFor partition request now e ∧ PreflightCache.coversHeader request "authorization".toList e = true

variable {request : CorsRequest}

theorem validatePreflight_covers {response : CorsResponse} {grant : PreflightGrant}
    (h : validatePreflight request response = .ok grant) : GrantCovers request grant := by
  unfold validatePreflight at h
  split at h
  · cases h
  · split at h
    · cases h
    · dsimp only at h
      split at h
      · cases h
      · rename_i hmethod
        split at h
        · cases h
        · rename_i hauth
          split at h
          · cases h
          · rename_i hheaders
            cases h
            refine ⟨?_, ?_, ?_⟩
            · simp only [Bool.and_eq_true, Bool.not_eq_true', not_and, Bool.not_eq_false] at hmethod
              by_cases hin : (grantedMethods request response).contains request.method = true
              · exact Or.inr (Or.inl (List.contains_iff_mem.mp hin))
              · by_cases hsafe : isSafelistedMethod request.method = true
                · exact Or.inl hsafe
                · have hstar := hmethod ⟨by simpa using hin, by simpa using hsafe⟩
                  simp only [Bool.and_eq_true, decide_eq_true_eq, List.contains_iff_mem] at hstar
                  exact Or.inr (Or.inr hstar)
            · intro n hn
              have hlisted := List.find?_eq_none.mp hheaders n hn
              simp only [Bool.and_eq_true, Bool.not_eq_true', not_and, Bool.not_eq_false, decide_eq_true_eq,
                List.contains_iff_mem] at hlisted
              by_cases hin : headerListed (grantedHeaders response) n = true
              · exact Or.inl hin
              · exact Or.inr (hlisted (by simpa using hin))
            · intro hauthorization
              simpa [hauthorization] using hauth

variable {now : Nat}

theorem entryFor_iff {partition : Text} {e : CacheEntry} :
    PreflightCache.baseMatch e partition request now = true ↔ EntryFor partition request now e := by
  simp only [PreflightCache.baseMatch, Bool.and_eq_true, decide_eq_true_eq, Bool.or_eq_true]
  constructor
  · rintro ⟨⟨⟨⟨hlive, hpartition⟩, horigin⟩, hurl⟩, hcredentials⟩
    refine ⟨hpartition, horigin, hurl, fun hinclude => ?_, hlive⟩
    rcases hcredentials with h | h
    · exact h
    · exact absurd hinclude h
  · rintro ⟨hpartition, horigin, hurl, hcredentials, hlive⟩
    refine ⟨⟨⟨⟨hlive, hpartition⟩, horigin⟩, hurl⟩, ?_⟩
    by_cases hinclude : request.credentials = .include_
    · exact Or.inl (hcredentials hinclude)
    · exact Or.inr hinclude

theorem any_live {cache : PreflightCache} {partition : Text} {p : CacheEntry → Bool} :
    (cache.entries.filter fun e => PreflightCache.baseMatch e partition request now).any p = true ↔
      ∃ e ∈ cache.entries, EntryFor partition request now e ∧ p e = true := by
  simp only [List.any_eq_true, List.mem_filter, entryFor_iff, and_assoc]

/-- The cache lets a request go without a preflight exactly where its entries cover it, and where the
method is covered if the request asks for a preflight. -/
theorem covers_iff {cache : PreflightCache} {partition : Text} :
    cache.covers partition request now = true ↔ CacheCovers cache partition request now ∧
      (request.useCorsPreflightFlag = true → ∃ e ∈ cache.entries,
        EntryFor partition request now e ∧ PreflightCache.coversMethod request e = true) := by
  simp only [PreflightCache.covers, Bool.and_eq_true, Bool.or_eq_true, any_live, List.all_eq_true,
    Bool.not_eq_true']
  constructor
  · rintro ⟨⟨hmethod, hauth⟩, hheaders⟩
    refine ⟨⟨?_, hheaders, fun h => ?_⟩, fun h => ?_⟩
    · rcases hmethod with h | h
      · exact Or.inr h
      · exact Or.inl h.1
    · rcases hauth with hno | hauth
      · rw [hno] at h
        cases h
      · exact hauth
    · rcases hmethod with hmethod | ⟨_, hno⟩
      · exact hmethod
      · rw [hno] at h
        cases h
  · rintro ⟨⟨hmethod, hheaders, hauth⟩, hflag⟩
    refine ⟨⟨?_, ?_⟩, hheaders⟩
    · cases hf : request.useCorsPreflightFlag with
      | true => exact Or.inl (hflag hf)
      | false =>
          rcases hmethod with h | h
          · exact Or.inr ⟨h, rfl⟩
          · exact Or.inl h
    · cases ha : hasAuthorization request.headers with
      | false => exact Or.inl rfl
      | true => exact Or.inr (hauth ha)

end Pelorus.Websec.Cors

/-! # The cache of preflights over a run of `store` and `forget_partition`

WHAT AN ENTRY SAYS was granted: it is one of the items of a grant that was stored, for its
partition, and not forgotten since.  So the cache lets nothing go that was not granted.

WHAT IT KEEPS.  An item that is in the cache is refreshed where it is, and the oldest entry makes
room for a new one: a grant can push out an item of its own that it has just refreshed.  Where it
does not, the cache covers the request that the grant was for. -/

namespace Pelorus.Websec.Cors

open Lib Lib.Text

/-! ## Runs -/

/-- A call that changes the cache. -/
inductive CacheStep where
  | store (partition : Text) (request : CorsRequest) (grant : PreflightGrant) (now : Nat)
  | forget (partition : Text)
  deriving DecidableEq

def CacheStep.apply (cache : PreflightCache) : CacheStep → PreflightCache
  | .store partition request grant now => cache.store partition request grant now
  | .forget partition => cache.forgetPartition partition

/-- The cache after a run. -/
def cacheAfter (steps : List CacheStep) : PreflightCache := steps.foldl CacheStep.apply .new

theorem cacheAfter_snoc (steps : List CacheStep) (step : CacheStep) :
    cacheAfter (steps ++ [step]) = step.apply (cacheAfter steps) := List.foldl_append ..

/-- A grant was stored in the partition, for requests like this one; it was not forgotten since, and has not
expired. -/
structure StoredFor (steps : List CacheStep) (partition : Text) (request : CorsRequest) (now : Nat)
    (grant : PreflightGrant) : Prop where
  stored : ∃ before asked time after, steps = before ++ .store partition asked grant time :: after ∧
    .forget partition ∉ after ∧ now < min (time + grant.maxAge) (2 ^ 64 - 1) ∧ asked.origin = request.origin ∧
    asked.url.serialize true = request.url.serialize true ∧
    (request.credentials = .include_ → asked.credentials = .include_)

/-- The method and every unsafe header of a request were granted, perhaps by different preflights. -/
structure IsGranted (steps : List CacheStep) (partition : Text) (request : CorsRequest) (now : Nat) : Prop where
  method : (isSafelistedMethod request.method = true ∧ request.useCorsPreflightFlag = false) ∨
    ∃ grant, StoredFor steps partition request now grant ∧
      (request.method ∈ grant.methods ∨ request.credentials ≠ .include_ ∧ "*".toList ∈ grant.methods)
  headers : ∀ n ∈ unsafeHeaderNames request.headers, ∃ grant, StoredFor steps partition request now grant ∧
    (headerListed grant.headerNames n = true ∨
      request.credentials ≠ .include_ ∧ n ≠ "authorization".toList ∧ "*".toList ∈ grant.headerNames)
  authorization : hasAuthorization request.headers = true → ∃ grant, StoredFor steps partition request now grant ∧
    headerListed grant.headerNames "authorization".toList = true

/-! ## Adding an entry -/

namespace PreflightCache

/-- An entry that is refreshed becomes the one that is added, and the others stay. -/
theorem refresh_eq_some {entry : CacheEntry} : ∀ {entries entries' : List CacheEntry},
    refresh entry entries = some entries' →
      entries'.length = entries.length ∧ entry ∈ entries' ∧ (∀ e ∈ entries', e = entry ∨ e ∈ entries) ∧
        ∀ e ∈ entries, e ∈ entries' ∨ sameGrant e entry = true
  | e :: entries, entries', h => by
      unfold refresh at h
      split at h
      · rename_i hsame
        cases h
        rw [of_decide_eq_true hsame]
        refine ⟨rfl, List.mem_cons_self, fun d hd => ?_, fun d hd => ?_⟩
        · rcases List.mem_cons.mp hd with rfl | hd
          · exact Or.inl rfl
          · exact Or.inr (List.mem_cons_of_mem _ hd)
        · rcases List.mem_cons.mp hd with rfl | hd
          · exact Or.inr hsame
          · exact Or.inl (List.mem_cons_of_mem _ hd)
      · obtain ⟨rest, hrest, rfl⟩ := Option.map_eq_some_iff.mp h
        obtain ⟨hlen, hmem, hfrom, hto⟩ := refresh_eq_some hrest
        refine ⟨by simp [hlen], List.mem_cons_of_mem _ hmem, fun d hd => ?_, fun d hd => ?_⟩
        · rcases List.mem_cons.mp hd with rfl | hd
          · exact Or.inr List.mem_cons_self
          · exact (hfrom d hd).imp_right (List.mem_cons_of_mem _)
        · rcases List.mem_cons.mp hd with rfl | hd
          · exact Or.inl List.mem_cons_self
          · exact (hto d hd).imp_left (List.mem_cons_of_mem _)

/-- The entry that makes room for another. -/
def displaced (entries : List CacheEntry) (entry : CacheEntry) : Option CacheEntry :=
  if refresh entry entries = none ∧ MAX_CACHE_ENTRIES ≤ entries.length then entries.head? else none

variable {entries : List CacheEntry}

theorem mem_add {entry e : CacheEntry} (h : e ∈ add entries entry) : e = entry ∨ e ∈ entries := by
  unfold add at h
  split at h
  · rename_i entries' hrefresh
    exact (refresh_eq_some hrefresh).2.2.1 e h
  · rcases List.mem_append.mp h with h | h
    · refine Or.inr ?_
      split at h
      · exact List.mem_of_mem_drop h
      · exact h
    · exact Or.inl (List.mem_singleton.mp h)

theorem self_mem_add (entries : List CacheEntry) (entry : CacheEntry) : entry ∈ add entries entry := by
  unfold add
  split
  · rename_i entries' hrefresh
    exact (refresh_eq_some hrefresh).2.1
  · exact List.mem_append_right _ List.mem_cons_self

/-- An entry stays, unless it is refreshed or displaced. -/
theorem mem_add_of_mem {entries : List CacheEntry} {entry e : CacheEntry} (h : e ∈ entries) :
    e ∈ add entries entry ∨ sameGrant e entry = true ∨ displaced entries entry = some e := by
  unfold add
  split
  · rename_i entries' hrefresh
    exact ((refresh_eq_some hrefresh).2.2.2 e h).imp_right Or.inl
  · rename_i hrefresh
    split
    · rename_i hfull
      cases entries with
      | nil => cases h
      | cons first rest =>
          rcases List.mem_cons.mp h with rfl | h
          · exact Or.inr (Or.inr (if_pos ⟨hrefresh, hfull⟩))
          · exact Or.inl (List.mem_append_left _ h)
    · exact Or.inl (List.mem_append_left _ h)

theorem length_add_le {entry : CacheEntry} (h : entries.length ≤ MAX_CACHE_ENTRIES) :
    (add entries entry).length ≤ MAX_CACHE_ENTRIES := by
  have hpos : 0 < MAX_CACHE_ENTRIES := by decide
  unfold add
  split
  · rename_i entries' hrefresh
    rw [(refresh_eq_some hrefresh).1]
    exact h
  · split
    · rw [List.length_append, List.length_drop, List.length_singleton]
      omega
    · rw [List.length_append, List.length_singleton]
      omega

theorem mem_foldl_add {e : CacheEntry} : ∀ {items entries : List CacheEntry}, e ∈ items.foldl add entries →
    e ∈ items ∨ e ∈ entries
  | [], _, h => Or.inr h
  | item :: items, entries, h => by
      rcases @mem_foldl_add e items (add entries item) h with h | h
      · exact Or.inl (List.mem_cons_of_mem _ h)
      · rcases mem_add h with rfl | h
        · exact Or.inl List.mem_cons_self
        · exact Or.inr h

theorem length_foldl_add_le {items : List CacheEntry} : ∀ {entries : List CacheEntry},
    entries.length ≤ MAX_CACHE_ENTRIES → (items.foldl add entries).length ≤ MAX_CACHE_ENTRIES := by
  induction items with
  | nil => exact fun h => h
  | cons item items ih => exact fun h => ih (length_add_le h)

/-- No item of a grant is displaced once it has been added, unless it is listed again. -/
def KeepsOwn (entries items : List CacheEntry) : Prop :=
  ∀ done e later, items = done ++ e :: later → ∀ x ∈ done, displaced (done.foldl add entries) e = some x → x ∈ later

/-- Then all of them are in the cache. -/
theorem mem_foldl_add_of_keepsOwn {items : List CacheEntry} (hkeeps : KeepsOwn entries items)
    (hsame : ∀ x ∈ items, ∀ y ∈ items, sameGrant x y = true → x = y) : ∀ x ∈ items, x ∈ items.foldl add entries := by
  -- over what has been added: it is there, or still to come
  have hsofar : ∀ done later, items = done ++ later → ∀ x ∈ done, x ∈ done.foldl add entries ∨ x ∈ later := by
    intro done
    induction done using List.reverseRecOn with
    | nil =>
        intro _ _ x hx
        cases hx
    | append_singleton done e ih =>
        intro later heq x hx
        rw [List.append_assoc, List.singleton_append] at heq
        rw [List.foldl_append]
        have hlast : e ∈ add (done.foldl add entries) e := self_mem_add _ _
        rcases List.mem_append.mp hx with hdone | hx
        · rcases ih _ heq x hdone with hmem | hlater
          · rcases @mem_add_of_mem _ e x hmem with hstays | hrefreshed | hdisplaced
            · exact Or.inl hstays
            · rw [hsame x (by rw [heq]; exact List.mem_append_left _ hdone) e (by rw [heq]; simp) hrefreshed]
              exact Or.inl hlast
            · exact Or.inr (hkeeps done e later heq x hdone hdisplaced)
          · rcases List.mem_cons.mp hlater with rfl | hlater
            · exact Or.inl hlast
            · exact Or.inr hlater
        · rw [List.mem_singleton.mp hx]
          exact Or.inl hlast
  intro x hx
  exact (hsofar items [] (List.append_nil _).symm x hx).resolve_right List.not_mem_nil

/-! ## The items of a grant -/

/-- The time until which a grant is kept. -/
def grantExpiry (grant : PreflightGrant) (now : Nat) : Nat := min (now + grant.maxAge) (2 ^ 64 - 1)

/-- An item of a grant: what it says but for the method and the header. -/
structure IsItem (partition : Text) (request : CorsRequest) (grant : PreflightGrant) (now : Nat) (e : CacheEntry) :
    Prop where
  partition : e.partition = partition
  origin : e.origin = request.origin
  url : e.url = request.url.serialize true
  credentials : e.credentials = decide (request.credentials = .include_)
  expiresAt : e.expiresAt = grantExpiry grant now
  what : (∃ m ∈ grant.methods, e.method = some m ∧ e.header = none) ∨
    ∃ h ∈ grant.headerNames, e.method = none ∧ e.header = some (toAsciiLowercase h)

variable {grant : PreflightGrant}

theorem isItem_of_mem {partition : Text} {request : CorsRequest} {now : Nat} {e : CacheEntry}
    (h : e ∈ grantEntries partition request grant now) : IsItem partition request grant now e := by
  rcases List.mem_append.mp h with h | h
  · obtain ⟨m, hm, rfl⟩ := List.mem_map.mp h
    exact ⟨rfl, rfl, rfl, rfl, rfl, Or.inl ⟨m, hm, rfl, rfl⟩⟩
  · obtain ⟨n, hn, rfl⟩ := List.mem_map.mp h
    exact ⟨rfl, rfl, rfl, rfl, rfl, Or.inr ⟨n, hn, rfl, rfl⟩⟩

theorem method_mem_grantEntries (partition : Text) (request : CorsRequest) (now : Nat) {m : Text}
    (h : m ∈ grant.methods) :
    ⟨partition, request.origin, request.url.serialize true, decide (request.credentials = .include_), some m, none,
      grantExpiry grant now⟩ ∈ grantEntries partition request grant now :=
  List.mem_append_left _ (List.mem_map_of_mem h)

theorem header_mem_grantEntries (partition : Text) (request : CorsRequest) (now : Nat) {n : Text}
    (h : n ∈ grant.headerNames) :
    ⟨partition, request.origin, request.url.serialize true, decide (request.credentials = .include_), none,
      some (toAsciiLowercase n), grantExpiry grant now⟩ ∈ grantEntries partition request grant now :=
  List.mem_append_right _ (List.mem_map_of_mem h)

/-- Items of one grant that differ in the time at most do not differ. -/
theorem sameGrant_items {partition : Text} {request : CorsRequest} {now : Nat} {x y : CacheEntry}
    (hx : x ∈ grantEntries partition request grant now)
    (hy : y ∈ grantEntries partition request grant now) (h : sameGrant x y = true) : x = y := by
  rw [← of_decide_eq_true h, (isItem_of_mem hy).expiresAt, ← (isItem_of_mem hx).expiresAt]

end PreflightCache

open PreflightCache

/-! ## The entries of the cache -/

/-- An entry is an item of a grant that was stored for its partition, and not forgotten since. -/
def WasStored (steps : List CacheStep) (e : CacheEntry) : Prop :=
  ∃ before asked grant time after, steps = before ++ .store e.partition asked grant time :: after ∧
    .forget e.partition ∉ after ∧ IsItem e.partition asked grant time e

variable {steps : List CacheStep}

theorem WasStored.snoc {e : CacheEntry} (h : WasStored steps e) {step : CacheStep}
    (hstep : step ≠ .forget e.partition) : WasStored (steps ++ [step]) e := by
  obtain ⟨before, asked, grant, time, after, rfl, hno, hitem⟩ := h
  refine ⟨before, asked, grant, time, after ++ [step], by simp, fun hc => ?_, hitem⟩
  rcases List.mem_append.mp hc with hc | hc
  · exact hno hc
  · exact hstep (List.mem_singleton.mp hc).symm

theorem wasStored_of_mem (steps : List CacheStep) : ∀ e ∈ (cacheAfter steps).entries, WasStored steps e := by
  induction steps using List.reverseRecOn with
  | nil =>
      intro e he
      cases he
  | append_singleton steps step ih =>
      intro e he
      rw [cacheAfter_snoc] at he
      cases step with
      | forget partition =>
          simp only [CacheStep.apply, forgetPartition, List.mem_filter, decide_eq_true_eq] at he
          refine (ih e he.1).snoc ?_
          rintro heq
          cases heq
          exact he.2 rfl
      | store partition request grant now =>
          have hkept : e ∈ (cacheAfter steps).entries → WasStored (steps ++ [.store partition request grant now]) e :=
            fun h => (ih e h).snoc (fun heq => by cases heq)
          simp only [CacheStep.apply, store] at he
          split at he
          · exact hkept he
          · rcases mem_foldl_add he with hitem | hmem
            · have hitem := isItem_of_mem hitem
              obtain rfl := hitem.partition
              exact ⟨steps, request, grant, now, [], rfl, List.not_mem_nil, hitem⟩
            · exact hkept (List.mem_filter.mp hmem).1

theorem length_cacheAfter_le (steps : List CacheStep) : (cacheAfter steps).entries.length ≤ MAX_CACHE_ENTRIES := by
  induction steps using List.reverseRecOn with
  | nil => decide
  | append_singleton steps step ih =>
      rw [cacheAfter_snoc]
      cases step with
      | forget partition => exact Nat.le_trans (List.length_filter_le _ _) ih
      | store partition request grant now =>
          simp only [CacheStep.apply, store]
          split
          · exact ih
          · exact length_foldl_add_le (Nat.le_trans (List.length_filter_le _ _) ih)

/-! ## What the cache lets go -/

variable {request : CorsRequest}
variable {now : Nat} {n : Text}

theorem storedFor_of_entry {partition : Text} {e : CacheEntry}
    (he : e ∈ (cacheAfter steps).entries) (h : EntryFor partition request now e) :
    ∃ grant, StoredFor steps partition request now grant ∧
      ((∃ m ∈ grant.methods, e.method = some m ∧ e.header = none) ∨
        ∃ n ∈ grant.headerNames, e.method = none ∧ e.header = some (toAsciiLowercase n)) := by
  obtain ⟨before, asked, grant, time, after, heq, hno, hitem⟩ := wasStored_of_mem steps e he
  rw [h.partition] at heq hno
  refine ⟨grant, ⟨before, asked, time, after, heq, hno, ?_, ?_, ?_, fun hinclude => ?_⟩, hitem.what⟩
  · have hlive := h.live
    rw [hitem.expiresAt] at hlive
    exact hlive
  · rw [← hitem.origin, h.origin]
  · rw [← hitem.url, h.url]
  · have hcredentials := h.credentials hinclude
    rw [hitem.credentials] at hcredentials
    exact of_decide_eq_true hcredentials

theorem mem_unsafeHeaderNames {headers : List Header} (h : n ∈ unsafeHeaderNames headers) :
    ∃ header ∈ headers, toAsciiLowercase header.name = n := by
  unfold unsafeHeaderNames at h
  dsimp only at h
  rw [(List.perm_insertionSort _ _).mem_iff, List.mem_dedup] at h
  have hmap : ∀ p : Header → Bool, n ∈ (headers.filter p).map (fun h => toAsciiLowercase h.name) →
      ∃ header ∈ headers, toAsciiLowercase header.name = n := by
    intro p hp
    obtain ⟨header, hheader, heq⟩ := List.mem_map.mp hp
    exact ⟨header, List.mem_of_mem_filter hheader, heq⟩
  split at h
  · exact (List.mem_append.mp h).elim (hmap _) (hmap _)
  · exact hmap _ h

theorem lower_of_mem_unsafeHeaderNames {headers : List Header} (h : n ∈ unsafeHeaderNames headers) :
    toAsciiLowercase n = n := by
  obtain ⟨header, _, rfl⟩ := mem_unsafeHeaderNames h
  exact toAsciiLowercase_idem _

theorem lower_star (h : toAsciiLowercase n = "*".toList) : n = "*".toList := by
  have hlen : (toAsciiLowercase n).length = n.length := List.length_map _
  rw [h] at hlen
  obtain ⟨c, rfl⟩ := List.length_eq_one_iff.mp hlen.symm
  have hc : c.toLower = '*' := (List.cons.inj h).1
  rw [(toLower_eq_iff (by decide)).mp hc]
  rfl

theorem granted_header {partition : Text}
    (hlower : toAsciiLowercase n = n) (h : ∃ e ∈ (cacheAfter steps).entries,
      EntryFor partition request now e ∧ coversHeader request n e = true) :
    ∃ grant, StoredFor steps partition request now grant ∧ (headerListed grant.headerNames n = true ∨
      request.credentials ≠ .include_ ∧ n ≠ "authorization".toList ∧ "*".toList ∈ grant.headerNames) := by
  obtain ⟨e, he, hentry, hcovers⟩ := h
  obtain ⟨grant, hstored, hwhat⟩ := storedFor_of_entry he hentry
  refine ⟨grant, hstored, ?_⟩
  rcases hwhat with ⟨m, _, _, hnone⟩ | ⟨name, hname, _, hsome⟩
  · rw [coversHeader, hnone] at hcovers
    cases hcovers
  · rw [coversHeader, hsome, Option.any_some, Bool.or_eq_true, decide_eq_true_eq] at hcovers
    rcases hcovers with heq | hstar
    · refine Or.inl (List.any_eq_true.mpr ⟨name, hname, eqIgnoreAsciiCase_iff.mpr ?_⟩)
      rw [heq, hlower]
    · simp only [Bool.and_eq_true, decide_eq_true_eq] at hstar
      refine Or.inr ⟨hstar.1.2, hstar.2, ?_⟩
      rw [← lower_star hstar.1.1]
      exact hname

/-- A request goes without a preflight only where it was granted. -/
theorem isGranted_of_covers {partition : Text}
    (h : (cacheAfter steps).covers partition request now = true) : IsGranted steps partition request now := by
  obtain ⟨hcovers, hflag⟩ := covers_iff.mp h
  have hmethod : ∀ e ∈ (cacheAfter steps).entries, EntryFor partition request now e → coversMethod request e = true →
      ∃ grant, StoredFor steps partition request now grant ∧
        (request.method ∈ grant.methods ∨ request.credentials ≠ .include_ ∧ "*".toList ∈ grant.methods) := by
    intro e he hentry hmethod
    obtain ⟨grant, hstored, hwhat⟩ := storedFor_of_entry he hentry
    refine ⟨grant, hstored, ?_⟩
    rcases hwhat with ⟨m, hm, hsome, _⟩ | ⟨_, _, hnone, _⟩
    · simp only [coversMethod, hsome, Option.any_some, Bool.or_eq_true, Bool.and_eq_true, decide_eq_true_eq]
        at hmethod
      rcases hmethod with heq | ⟨heq, hcredentials⟩
      · exact Or.inl (heq ▸ hm)
      · exact Or.inr ⟨hcredentials, heq ▸ hm⟩
    · rw [coversMethod, hnone] at hmethod
      cases hmethod
  refine ⟨?_, fun n hn => ?_, fun hauth => ?_⟩
  · cases hf : request.useCorsPreflightFlag with
    | true =>
        obtain ⟨e, he, hentry, hm⟩ := hflag hf
        exact Or.inr (hmethod e he hentry hm)
    | false =>
        rcases hcovers.method with hsafe | ⟨e, he, hentry, hm⟩
        · exact Or.inl ⟨hsafe, rfl⟩
        · exact Or.inr (hmethod e he hentry hm)
  · exact granted_header (lower_of_mem_unsafeHeaderNames hn) (hcovers.headers n hn)
  · obtain ⟨grant, hstored, hlisted⟩ := granted_header (by decide) (hcovers.authorization hauth)
    exact ⟨grant, hstored, hlisted.resolve_right fun h => h.2.1 rfl⟩

/-! ## What the cache keeps -/

theorem covers_of_items {cache : PreflightCache} {partition : Text} {grant : PreflightGrant}
    {time : Nat} (hgrant : GrantCovers request grant) (hflag : request.useCorsPreflightFlag = false)
    (hitems : ∀ x ∈ grantEntries partition request grant now, x ∈ cache.entries)
    (htime : time < grantExpiry grant now) : cache.covers partition request time = true := by
  have hentry : ∀ x ∈ grantEntries partition request grant now, EntryFor partition request time x := by
    intro x hx
    have hitem := isItem_of_mem hx
    refine ⟨hitem.partition, hitem.origin, hitem.url, fun hinclude => ?_, ?_⟩
    · rw [hitem.credentials]
      exact decide_eq_true hinclude
    · rw [hitem.expiresAt]
      exact htime
  have hheader : ∀ n name, name ∈ grant.headerNames → (toAsciiLowercase name = n ∨
      toAsciiLowercase name = "*".toList ∧ request.credentials ≠ .include_ ∧ n ≠ "authorization".toList) →
      ∃ e ∈ cache.entries, EntryFor partition request time e ∧ coversHeader request n e = true := by
    intro n name hname hcase
    have hmem := header_mem_grantEntries partition request now hname
    refine ⟨_, hitems _ hmem, hentry _ hmem, ?_⟩
    simp only [coversHeader, Option.any_some, Bool.or_eq_true, Bool.and_eq_true, decide_eq_true_eq, and_assoc]
    exact hcase
  have hlisted : ∀ n, toAsciiLowercase n = n → headerListed grant.headerNames n = true →
      ∃ e ∈ cache.entries, EntryFor partition request time e ∧ coversHeader request n e = true := by
    intro n hlower hin
    obtain ⟨name, hname, heq⟩ := List.any_eq_true.mp hin
    exact hheader n name hname (Or.inl ((eqIgnoreAsciiCase_iff.mp heq).trans hlower))
  refine covers_iff.mpr ⟨⟨?_, fun n hn => ?_, fun hauth => ?_⟩, fun h => ?_⟩
  · rcases hgrant.method with hsafe | hmethod | ⟨hcredentials, hstar⟩
    · exact Or.inl hsafe
    · have hmem := method_mem_grantEntries partition request now hmethod
      refine Or.inr ⟨_, hitems _ hmem, hentry _ hmem, ?_⟩
      simp only [coversMethod, Option.any_some, decide_true, Bool.true_or]
    · have hmem := method_mem_grantEntries partition request now hstar
      refine Or.inr ⟨_, hitems _ hmem, hentry _ hmem, ?_⟩
      simp only [coversMethod, Option.any_some, decide_true, hcredentials, ne_eq, not_false_eq_true, Bool.and_true,
        Bool.or_true]
  · have hlower := lower_of_mem_unsafeHeaderNames hn
    by_cases hauth : n = "authorization".toList
    · obtain ⟨header, hheader, heq⟩ := mem_unsafeHeaderNames hn
      refine hlisted n hlower ?_
      rw [hauth]
      refine hgrant.authorization (List.any_eq_true.mpr ⟨header, hheader, eqIgnoreAsciiCase_iff.mpr ?_⟩)
      rw [heq, hauth]
      rfl
    · rcases hgrant.headers n hn with hin | ⟨hcredentials, hstar⟩
      · exact hlisted n hlower hin
      · exact hheader n _ hstar (Or.inr ⟨by decide, hcredentials, hauth⟩)
  · exact hlisted _ (by decide) (hgrant.authorization hauth)
  · rw [hflag] at h
    cases h

def sampleAsked : CorsRequest :=
  { method := "PUT".toList
    url := ⟨"https".toList, [], [], some (.domain "b.example".toList), none, ['/'], none, none⟩
    origin := .tuple "https".toList (.domain "a.example".toList) none
    headers := []
    credentials := .omit_
    mode := .cors
    useCorsPreflightFlag := false
    originTainted := false }

def sampleAnswer (methods : String) : CorsResponse :=
  ⟨204, [Header.new "Access-Control-Allow-Origin".toList "*".toList,
    Header.new "Access-Control-Allow-Methods".toList methods.toList]⟩

def sampleGrant (methods : List String) : PreflightGrant := ⟨methods.map String.toList, [], 5⟩

/-- The grant of one method is stored for this many partitions. -/
def sampleFill (n : Nat) : List CacheStep :=
  (List.range n).map fun i => .store (List.replicate i 'p') sampleAsked (sampleGrant ["PUT"]) 0

/-- The entry of a partition. -/
def sampleEntry (i : Nat) (method : String) : CacheEntry :=
  ⟨List.replicate i 'p', sampleAsked.origin, sampleAsked.url.serialize true, false, some method.toList, none, 5⟩

theorem refresh_sampleEntry {i : Nat} {method : String} : ∀ {entries : List CacheEntry},
    (∀ e ∈ entries, ∃ j, e = sampleEntry j "PUT" ∧ (j = i → method ≠ "PUT")) →
      refresh (sampleEntry i method) entries = none
  | [], _ => rfl
  | e :: entries, h => by
      obtain ⟨j, rfl, hne⟩ := h e List.mem_cons_self
      have hno : sameGrant (sampleEntry j "PUT") (sampleEntry i method) = false := by
        refine decide_eq_false fun heq => ?_
        have hpartition := congrArg (fun e => e.partition.length) heq
        have hmethod := congrArg CacheEntry.method heq
        simp only [sampleEntry, List.length_replicate, Option.some.injEq] at hpartition hmethod
        exact hne hpartition (String.toList_injective hmethod).symm
      unfold refresh
      rw [hno, refresh_sampleEntry fun e he => h e (List.mem_cons_of_mem _ he)]
      rfl

/-- Storing for a partition what it has not stored adds an entry, and what it has stored changes nothing. -/
theorem store_sample {entries : List CacheEntry} (i : Nat) (methods : List String)
    (hlive : ∀ e ∈ entries, e.expiresAt = 5) :
    store ⟨entries⟩ (List.replicate i 'p') sampleAsked (sampleGrant methods) 0 =
      ⟨(methods.map (sampleEntry i)).foldl add entries⟩ := by
  have hitems : grantEntries (List.replicate i 'p') sampleAsked (sampleGrant methods) 0 =
      methods.map (sampleEntry i) := by
    simp only [grantEntries, sampleGrant, List.map_map, List.map_nil, List.append_nil]
    rfl
  have hkeep : entries.filter (fun e => 0 < e.expiresAt) = entries := by
    refine List.filter_eq_self.mpr fun e he => ?_
    rw [hlive e he]
    rfl
  simp only [store, hitems, hkeep]
  rfl

theorem cacheAfter_sampleFill : ∀ n, n ≤ MAX_CACHE_ENTRIES →
    cacheAfter (sampleFill n) = ⟨(List.range n).map fun i => sampleEntry i "PUT"⟩
  | 0, _ => rfl
  | n + 1, h => by
      have hsteps : sampleFill (n + 1) =
          sampleFill n ++ [.store (List.replicate n 'p') sampleAsked (sampleGrant ["PUT"]) 0] := by
        rw [sampleFill, List.range_succ, List.map_append]
        rfl
      have hrefresh : refresh (sampleEntry n "PUT") ((List.range n).map fun i => sampleEntry i "PUT") = none := by
        refine refresh_sampleEntry fun e he => ?_
        obtain ⟨j, hj, rfl⟩ := List.mem_map.mp he
        exact ⟨j, rfl, fun heq => absurd (List.mem_range.mp hj) (by omega)⟩
      have hlive : ∀ e ∈ (List.range n).map fun i => sampleEntry i "PUT", e.expiresAt = 5 := by
        intro e he
        obtain ⟨j, _, rfl⟩ := List.mem_map.mp he
        rfl
      rw [hsteps, cacheAfter_snoc, cacheAfter_sampleFill n (by omega), CacheStep.apply, store_sample n _ hlive]
      simp only [List.map_cons, List.map_nil, List.foldl_cons, List.foldl_nil, add, hrefresh, List.length_map,
        List.length_range, if_neg (Nat.not_le.mpr h), List.range_succ, List.map_append]

end Pelorus.Websec.Cors
