import Mathlib.Data.Nat.Find
import Pelorus.Net.Jar

/-
  Net/JarRun.lean --- what holds of a jar after any sequence of calls.

  The invariant of one partition (`Kept`) is carried over a call by `Change` alone:
  a replacement keeps the identities and their places, an appended cookie is the
  youngest, and what is dropped leaves the rest as it was.
-/
set_option autoImplicit false

namespace Pelorus.Net.Jar

open Lib Lib.Text

/-! ## History -/

/-- The identities a partition holds after the calls. -/
def identities (calls : List Call) (key : PartitionKey) : List (Text × Text × Text) :=
  ((run calls).partition key).map Cookie.identity

/-- How many calls had been made when the partition last held no cookie of this identity; the
next call created the one it holds now. -/
def createdAt (calls : List Call) (key : PartitionKey) (id : Text × Text × Text) : Nat :=
  Nat.findGreatest (fun n => id ∉ identities (calls.take n) key) calls.length

/-- The last call that stored a cookie of this identity in the partition, or forgot the
partition, stored this cookie. -/
def LastStored (calls : List Call) (key : PartitionKey) (c : Cookie) : Prop :=
  ∃ before call after, calls = before ++ call :: after ∧ call.cookie? key = some c ∧
    ∀ later ∈ after, later ≠ .forget key ∧
      ∀ d, later.cookie? key = some d → d.identity ≠ c.identity

theorem run_concat (calls : List Call) (call : Call) : run (calls ++ [call]) = (run calls).step call := by
  simp [run]

theorem findGreatest_congr {P Q : Nat → Prop} [DecidablePred P] [DecidablePred Q] : ∀ {n : Nat},
    (∀ m ≤ n, P m ↔ Q m) → Nat.findGreatest P n = Nat.findGreatest Q n
  | 0, _ => rfl
  | n + 1, h => by
      rw [Nat.findGreatest_succ, Nat.findGreatest_succ,
        findGreatest_congr fun m hm => h m (Nat.le_succ_of_le hm)]
      simp only [h (n + 1) (Nat.le_refl _)]

variable {key : PartitionKey} {calls : List Call}
variable {call : Call} {id : Text × Text × Text}

theorem createdAt_concat (h : id ∈ identities (calls ++ [call]) key) :
    createdAt (calls ++ [call]) key id = createdAt calls key id := by
  unfold createdAt
  rw [List.length_append, List.length_singleton, Nat.findGreatest_of_not]
  · refine findGreatest_congr fun m hm => ?_
    rw [List.take_append_of_le_length hm]
  · rw [List.take_of_length_le (by simp)]
    exact fun hnot => hnot h

/-- An identity the partition does not hold is created by the next call at the earliest. -/
theorem createdAt_absent (h : id ∉ identities calls key) : createdAt calls key id = calls.length := by
  refine Nat.findGreatest_eq ?_
  rw [List.take_length]
  exact h

theorem createdAt_lt (h : id ∈ identities calls key) : createdAt calls key id < calls.length := by
  refine Nat.lt_of_le_of_ne (Nat.findGreatest_le _) fun heq => ?_
  have hpos : createdAt calls key id ≠ 0 := by
    rw [heq]
    intro hzero
    rw [List.length_eq_zero_iff.mp hzero] at h
    cases h
  have hspec := Nat.findGreatest_of_ne_zero (P := fun n => id ∉ identities (calls.take n) key) rfl hpos
  rw [show Nat.findGreatest _ calls.length = calls.length from heq, List.take_length] at hspec
  exact hspec h

variable {c : Cookie}

theorem LastStored.concat (h : LastStored calls key c) (hforget : call ≠ .forget key)
    (hother : ∀ d, call.cookie? key = some d → d.identity ≠ c.identity) :
    LastStored (calls ++ [call]) key c := by
  obtain ⟨before, stored, after, rfl, hc, hlater⟩ := h
  refine ⟨before, stored, after ++ [call], by simp, hc, fun later hmem => ?_⟩
  rcases List.mem_append.mp hmem with hmem | hmem
  · exact hlater later hmem
  · rw [List.mem_singleton.mp hmem]
    exact ⟨hforget, hother⟩

theorem LastStored.now (h : call.cookie? key = some c) : LastStored (calls ++ [call]) key c :=
  ⟨calls, call, [], rfl, h, fun _ hmem => by cases hmem⟩

/-! ## The invariant of a partition -/

/-- What holds of a partition after the calls. -/
structure Kept (calls : List Call) (key : PartitionKey) : Prop where
  few : ((run calls).partition key).length ≤ MAX_PER_KEY
  ordered : (identities calls key).Pairwise fun i j => createdAt calls key i < createdAt calls key j
  last : ∀ c ∈ (run calls).partition key, LastStored calls key c

theorem kept_nil (key : PartitionKey) : Kept [] key := by
  have hnil : (run []).partition key = [] := rfl
  refine ⟨by simp [hnil], by simp [identities, hnil], ?_⟩
  rw [hnil]
  intro c hc
  cases hc

/-- Identities that were there and still are keep their order. -/
theorem ordered_of_sublist (h : Kept calls key) {ids : List (Text × Text × Text)}
    (hsub : List.Sublist ids (identities calls key))
    (hnow : ∀ i ∈ ids, i ∈ identities (calls ++ [call]) key) :
    ids.Pairwise fun i j => createdAt (calls ++ [call]) key i < createdAt (calls ++ [call]) key j := by
  refine (h.ordered.sublist hsub).imp_of_mem fun hi hj hlt => ?_
  rwa [createdAt_concat (hnow _ hi), createdAt_concat (hnow _ hj)]

theorem kept_concat (h : Kept calls key) (call : Call) : Kept (calls ++ [call]) key := by
  have hchange := step_change (run calls) call key
  rw [← run_concat] at hchange
  have hids : identities (calls ++ [call]) key =
      ((run (calls ++ [call])).partition key).map Cookie.identity := rfl
  generalize hslot : (run (calls ++ [call])).partition key = slot at hchange
  rw [hslot] at hids
  cases hchange with
  | @replaced before after old cookie hold hsame hcookie =>
      have hpre : identities calls key = identities (calls ++ [call]) key := by
        rw [hids, identities, hold]
        simp [hsame]
      have hforget : call ≠ .forget key := by
        rintro rfl
        cases hcookie
      refine ⟨?_, ?_, ?_⟩
      · have hfew := h.few
        rw [hold] at hfew
        rw [hslot]
        simpa using hfew
      · exact ordered_of_sublist h (by rw [hpre]) fun i hi => hi
      · intro c hc
        rw [hslot] at hc
        have hdistinct := h.ordered
        rw [identities, hold] at hdistinct
        rcases List.mem_append.mp hc with hc | hc
        · refine (h.last c (by simp [hold, hc])).concat hforget fun d hd heq => ?_
          cases hcookie.symm.trans hd
          rw [List.map_append, List.map_cons, List.pairwise_append] at hdistinct
          have hlt := hdistinct.2.2 c.identity (List.mem_map_of_mem hc) old.identity (by simp)
          rw [hsame, heq] at hlt
          exact Nat.lt_irrefl _ hlt
        · rcases List.mem_cons.mp hc with rfl | hc
          · exact .now hcookie
          · refine (h.last c (by simp [hold, hc])).concat hforget fun d hd heq => ?_
            cases hcookie.symm.trans hd
            rw [List.map_append, List.map_cons, List.pairwise_append, List.pairwise_cons] at hdistinct
            have hlt := hdistinct.2.1.1 c.identity (List.mem_map_of_mem hc)
            rw [hsame, heq] at hlt
            exact Nat.lt_irrefl _ hlt
  | @appended cookie hdiff hfew hcookie =>
      have hforget : call ≠ .forget key := by
        rintro rfl
        cases hcookie
      have hnow : identities (calls ++ [call]) key = identities calls key ++ [cookie.identity] := by
        rw [hids, List.map_append]
        rfl
      have habsent : cookie.identity ∉ identities calls key := by
        intro hmem
        obtain ⟨c, hc, heq⟩ := List.mem_map.mp hmem
        exact hdiff c hc heq
      refine ⟨?_, ?_, ?_⟩
      · rw [hslot, List.length_append]
        exact hfew
      · rw [hnow, List.pairwise_append]
        refine ⟨ordered_of_sublist h (List.Sublist.refl _) fun i hi => ?_,
          List.pairwise_singleton _ _, fun i hi j hj => ?_⟩
        · rw [hnow]
          exact List.mem_append_left _ hi
        · rw [List.mem_singleton.mp hj, createdAt_concat (by rw [hnow]; simp [hi]),
            createdAt_concat (by rw [hnow]; simp), createdAt_absent habsent]
          exact createdAt_lt hi
      · intro c hc
        rw [hslot] at hc
        rcases List.mem_append.mp hc with hc | hc
        · refine (h.last c hc).concat hforget fun d hd => ?_
          cases hcookie.symm.trans hd
          exact Ne.symm (hdiff c hc)
        · rw [List.mem_singleton.mp hc]
          exact .now hcookie
  | @dropped p hnone hforget =>
      have hsub : List.Sublist (((run calls).partition key).filter p) ((run calls).partition key) :=
        List.filter_sublist
      refine ⟨?_, ?_, ?_⟩
      · rw [hslot]
        exact Nat.le_trans hsub.length_le h.few
      · rw [hids]
        refine ordered_of_sublist h (hsub.map _) fun i hi => ?_
        rw [hids]
        exact hi
      · intro c hc
        rw [hslot] at hc
        refine (h.last c (hsub.subset hc)).concat ?_ fun d hd => Ne.symm (hnone d hd c (hsub.subset hc))
        intro heq
        rw [hforget heq] at hc
        cases hc

/-- The invariant holds after any calls. -/
theorem kept_run (calls : List Call) (key : PartitionKey) : Kept calls key := by
  induction calls using List.reverseRecOn with
  | nil => exact kept_nil key
  | append_singleton calls call ih => exact kept_concat ih call

/-! ## What is sent -/

/-- The host is the domain, or below it on a label boundary. -/
def Covers (domain host : Text) : Prop :=
  host = domain ∨ ∃ labels, labels ≠ [] ∧ host = labels ++ '.' :: domain

theorem covers_of_isBelow {host domain : Text} (h : isBelow host domain = true) :
    ∃ labels, labels ≠ [] ∧ host = labels ++ '.' :: domain := by
  unfold isBelow at h
  split at h
  · rename_i labels hstrip
    obtain ⟨rest, hrest, hlabels⟩ := Option.bind_eq_some_iff.mp hstrip
    refine ⟨labels, by simpa using h, ?_⟩
    rw [stripSuffix_eq_some hrest, stripSuffix_eq_some hlabels]
    simp
  · cases h

/-- What holds of a cookie that is sent. -/
structure Sent (calls : List Call) (key : PartitionKey) (path : Text) (crossSite : Bool)
    (now : Instant) (c : Cookie) : Prop where
  unexpired : ∀ at_, c.expiresAt = some at_ → now < at_
  host : toAsciiLowercase key.origin.host = c.domain ∨
    c.hostOnly = false ∧ Covers c.domain (toAsciiLowercase key.origin.host)
  path : path = c.path ∨ ∃ rest, path = c.path ++ rest ∧
    (c.path.getLast? = some '/' ∨ rest.head? = some '/')
  secure : key.origin.scheme = "http".toList → c.secure = false
  sameSite : crossSite = true → c.sameSite = .none
  /-- It was last stored under this very key, by a call that accepted it for the key's origin. -/
  stored : ∃ before psl header at_ after, calls = before ++ .store psl key header at_ :: after ∧
    parse psl key.origin header at_ = .ok c ∧
    (c.hostOnly = false → ¬ psl.IsPublicSuffix c.domain ∧
      Covers c.domain (toAsciiLowercase key.origin.host)) ∧
    ∀ later ∈ after, later ≠ .forget key ∧
      ∀ d, later.cookie? key = some d → d.identity ≠ c.identity

theorem cookie?_eq_some
    (h : call.cookie? key = some c) : ∃ psl header now, call = .store psl key header now ∧
      parse psl key.origin header now = .ok c := by
  unfold Call.cookie? at h
  split at h
  · rename_i psl k header now
    split at h
    · rename_i hk
      subst hk
      cases hparse : parse psl k.origin header now with
      | error e =>
          rw [hparse] at h
          cases h
      | ok d =>
          rw [hparse] at h
          cases h
          exact ⟨psl, header, now, rfl, hparse⟩
    · cases h
  · cases h

theorem trimEnd_of_trimDots {s : Text} (h : trimDots s = s) : trimEndMatches (· = '.') s = s := by
  have hidem : trimEndMatches (· = '.') (trimDots s) = trimDots s := List.rdropWhile_idempotent _ _
  rwa [h] at hidem

/-- A domain cookie is for no public suffix, and covers the origin that set it. -/
theorem parse_scope {psl : PublicSuffixList} {origin : Origin} {header : Text} {now : Instant} (h : parse psl origin header now = .ok c) (hho : c.hostOnly = false) :
    ¬ psl.IsPublicSuffix c.domain ∧ Covers c.domain (toAsciiLowercase origin.host) := by
  have hsound := parse_sound h
  obtain ⟨-, hlower, hdots, -⟩ := hsound.domain hho
  obtain ⟨hreg, hcovers⟩ := hsound.covers hho
  refine ⟨PublicSuffixList.not_isPublicSuffix (trimEnd_of_trimDots hdots) hlower hreg, ?_⟩
  exact hcovers.imp id covers_of_isBelow

theorem matchesPath_spec {path : Text} (h : c.matchesPath path = true) :
    path = c.path ∨ ∃ rest, path = c.path ++ rest ∧
      (c.path.getLast? = some '/' ∨ rest.head? = some '/') := by
  unfold Cookie.matchesPath at h
  split at h
  · rename_i heq
    exact Or.inl heq
  · split at h
    · cases h
    · rename_i rest hstrip
      refine Or.inr ⟨rest, ?_, by simpa using h⟩
      unfold stripPrefix at hstrip
      split at hstrip
      · rename_i hprefix
        obtain ⟨t, rfl⟩ := List.isPrefixOf_iff_prefix.mp hprefix
        cases hstrip
        simp
      · cases hstrip

theorem matchesHost_spec {host : Text} (h : c.matchesHost host = true) :
    toAsciiLowercase host = c.domain ∨
      c.hostOnly = false ∧ Covers c.domain (toAsciiLowercase host) := by
  simp only [Cookie.matchesHost] at h
  split at h
  · rename_i heq
    exact Or.inl heq
  · split at h
    · cases h
    · rename_i hho
      exact Or.inr ⟨by simpa using hho, Or.inr (covers_of_isBelow h)⟩

theorem sent_of_mem {path : Text} {crossSite : Bool} {now : Instant} (h : c ∈ (run calls).cookiesFor key path crossSite now) :
    Sent calls key path crossSite now c := by
  obtain ⟨hmem, hsend⟩ := List.mem_filter.mp ((List.mem_insertionSort _).mp h)
  simp only [sendable, Bool.and_eq_true, Bool.not_eq_true', Bool.or_eq_true] at hsend
  obtain ⟨⟨⟨⟨hexpired, hhost⟩, hpath⟩, hsecure⟩, hsite⟩ := hsend
  refine ⟨fun at_ hat => ?_, matchesHost_spec hhost, matchesPath_spec hpath, fun hhttp => ?_,
    fun hcross => ?_, ?_⟩
  · simp only [Cookie.isExpired, hat, decide_eq_false_iff_not] at hexpired
    exact Nat.lt_of_not_le hexpired
  · rcases hsecure with hsecure | hsecure
    · exact hsecure
    · simp only [Origin.isSecure, hhttp, decide_eq_true_eq] at hsecure
      exact absurd hsecure (by decide)
  · unfold sameSiteAllows at hsite
    split at hsite
    · assumption
    · rw [hcross] at hsite
      cases hsite
    · rw [hcross] at hsite
      cases hsite
  · obtain ⟨before, call, after, hcalls, hcookie, hlater⟩ := (kept_run calls key).last c hmem
    obtain ⟨psl, header, at_, rfl, hparse⟩ := cookie?_eq_some hcookie
    exact ⟨before, psl, header, at_, after, hcalls, hparse, parse_scope hparse, hlater⟩

theorem Kept.created (h : Kept calls key) :
    ((run calls).partition key).Pairwise fun c d =>
      createdAt calls key c.identity < createdAt calls key d.identity := by
  have hordered := h.ordered
  rwa [identities, List.pairwise_map] at hordered

theorem cookiesFor_ordered (calls : List Call) (key : PartitionKey) (path : Text) (crossSite : Bool)
    (now : Instant) :
    ((run calls).cookiesFor key path crossSite now).Pairwise fun c d =>
      d.path.len < c.path.len ∨ c.path.len = d.path.len ∧
        createdAt calls key c.identity < createdAt calls key d.identity := by
  let longer : Cookie → Cookie → Prop := fun c d => d.path.len ≤ c.path.len
  have htotal : Std.Total longer := ⟨fun c d => Nat.le_total d.path.len c.path.len⟩
  have htrans : IsTrans Cookie longer := ⟨fun _ _ _ hcd hde => Nat.le_trans hde hcd⟩
  have hsorted := pairwise_insertionSort (r := longer)
    ((kept_run calls key).created.sublist (List.filter_sublist (p := sendable key path crossSite now)))
  refine hsorted.imp fun {c d} hcd => ?_
  rcases Nat.lt_or_eq_of_le hcd.1 with hlt | heq
  · exact Or.inl hlt
  · exact Or.inr ⟨heq.symm, hcd.2 (Nat.le_of_eq heq.symm)⟩

theorem store_error_partition {jar : Jar} {psl : PublicSuffixList} {header : Text} {now : Instant} {e : Rejected} (h : (jar.store psl key header now).1 = .error e)
    (key' : PartitionKey) : (jar.store psl key header now).2.partition key' = jar.partition key' := by
  unfold store at h ⊢
  cases hparse : parse psl key.origin header now with
  | error e' => rfl
  | ok cookie =>
      rw [hparse] at h
      simp only at h ⊢
      cases hreplace : replace cookie (jar.partition key) with
      | some slot =>
          rw [hreplace] at h
          cases h
      | none =>
          rw [hreplace] at h
          simp only at h ⊢
          split at h
          · rename_i hfull
            rw [if_pos hfull]
            simp only [partition_insert]
            split
            · rename_i hk
              rw [hk]
            · rfl
          · cases h

/-- After any calls: a partition holds at most fifty cookies, of distinct identities; a store
that is refused changes nothing; and what is sent is sent as it should be, in order. -/
theorem jar_isolated (calls : List Call) (key : PartitionKey) :
    (((run calls).partition key).length ≤ 50 ∧
      ((run calls).partition key).Pairwise fun c d =>
        (c.name, c.domain, c.path) ≠ (d.name, d.domain, d.path)) ∧
    (∀ psl header now e, ((run calls).store psl key header now).1 = .error e →
      ∀ key', ((run calls).store psl key header now).2.partition key' = (run calls).partition key') ∧
    ∀ path crossSite now,
      (∀ c ∈ (run calls).cookiesFor key path crossSite now, Sent calls key path crossSite now c) ∧
      ((run calls).cookiesFor key path crossSite now).Pairwise fun c d =>
        d.path.len < c.path.len ∨ c.path.len = d.path.len ∧
          createdAt calls key c.identity < createdAt calls key d.identity := by
  have hkept := kept_run calls key
  refine ⟨⟨hkept.few, ?_⟩, fun psl header now e h => store_error_partition h, fun path crossSite now =>
    ⟨fun c hc => sent_of_mem hc, cookiesFor_ordered calls key path crossSite now⟩⟩
  refine hkept.created.imp fun {c d} hlt heq => ?_
  rw [show c.identity = d.identity from heq] at hlt
  exact Nat.lt_irrefl _ hlt

end Pelorus.Net.Jar
