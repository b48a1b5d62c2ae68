import Pelorus.Lib.Collections
import Pelorus.Net.Cookie

/-
  Net/Jar.lean --- the cookie jar (`px-net/src/cookie.rs`): storing, sending,
  forgetting and expiring, over any sequence of calls.

  WHAT A CALL DOES.  `Change` says what a call leaves in one partition: the list it
  had, with one cookie replaced in its place or appended, or part of it.  Every
  invariant below is an induction over `Change` and does not look at the map again.

  HISTORY.  A cookie's identity is its name, domain and path.  It was created, in a
  partition, at the last moment the partition held none of that identity
  (`createdAt`), and it is the cookie of the last call that stored its identity
  (`LastStored`).
-/
set_option autoImplicit false

namespace Pelorus.Net

open Lib Lib.Text

namespace Cookie

/-- What makes two cookies of a partition the same one. -/
def identity (c : Cookie) : Text × Text × Text := (c.name, c.domain, c.path)

end Cookie

/-- Cookies, partitioned; each partition oldest first. -/
structure Jar where
  byPartition : Map PartitionKey (List Cookie)

namespace Jar

def new : Jar := ⟨∅⟩

/-- The cookies of one partition. -/
def partition (jar : Jar) (key : PartitionKey) : List Cookie := (jar.byPartition.lookup key).getD []

/-- Put the cookie in the place of the first with its identity. -/
def replace (cookie : Cookie) : List Cookie → Option (List Cookie)
  | [] => none
  | stored :: rest =>
      if stored.name = cookie.name ∧ stored.domain = cookie.domain ∧ stored.path = cookie.path then
        some (cookie :: rest)
      else (replace cookie rest).map (stored :: ·)

def store (jar : Jar) (psl : PublicSuffixList) (key : PartitionKey) (header : Text) (now : Instant) :
    Except Rejected Unit × Jar :=
  match parse psl key.origin header now with
  | .error e => (.error e, jar)
  | .ok cookie =>
      -- the partition is there from here on, also when the cookie is refused
      let slot := jar.partition key
      match replace cookie slot with
      | some slot => (.ok (), ⟨jar.byPartition.insert key slot⟩)
      | none =>
          if MAX_PER_KEY ≤ slot.length then (.error .jarFull, ⟨jar.byPartition.insert key slot⟩)
          else (.ok (), ⟨jar.byPartition.insert key (slot ++ [cookie])⟩)

/-- May the cookie travel on this request? -/
def sameSiteAllows (c : Cookie) (crossSite : Bool) : Bool :=
  match c.sameSite with
  | .none => true
  | .lax | .strict => !crossSite

/-- The filters of `cookies_for`, in its order. -/
def sendable (key : PartitionKey) (path : Text) (crossSite : Bool) (now : Instant) (c : Cookie) : Bool :=
  !c.isExpired now && c.matchesHost key.origin.host && c.matchesPath path &&
    (!c.secure || key.origin.isSecure) && sameSiteAllows c crossSite

/-- `Jar::cookies_for`: longer paths first, by a stable sort. -/
def cookiesFor (jar : Jar) (key : PartitionKey) (path : Text) (crossSite : Bool) (now : Instant) :
    List Cookie :=
  ((jar.partition key).filter (sendable key path crossSite now)).insertionSort
    fun c d => d.path.len ≤ c.path.len

def forget (jar : Jar) (key : PartitionKey) : Jar := ⟨jar.byPartition.erase key⟩

def expire (jar : Jar) (now : Instant) : Jar :=
  ⟨jar.byPartition.refine fun _ slot =>
    let slot := slot.filter fun c => !c.isExpired now
    if slot.isEmpty then none else some slot⟩

/-! ## Calls -/

/-- A call that can change the jar, with the time it is made at. -/
inductive Call where
  | store (psl : PublicSuffixList) (key : PartitionKey) (header : Text) (now : Instant)
  | forget (key : PartitionKey)
  | expire (now : Instant)

/-- One call. -/
def step (jar : Jar) : Call → Jar
  | .store psl key header now => (jar.store psl key header now).2
  | .forget key => jar.forget key
  | .expire now => jar.expire now

/-- The jar after a sequence of calls on a new one. -/
def run (calls : List Call) : Jar := calls.foldl step new

/-- The cookie a call would store in a partition. -/
def Call.cookie? (key : PartitionKey) : Call → Option Cookie
  | .store psl k header now => if k = key then (parse psl k.origin header now).toOption else none
  | _ => none

/-! ## What a call leaves in a partition -/

theorem replace_eq_some {cookie : Cookie} : ∀ {slot slot' : List Cookie},
    replace cookie slot = some slot' → ∃ before stored after,
      slot = before ++ stored :: after ∧ stored.identity = cookie.identity ∧
        slot' = before ++ cookie :: after
  | [], _, h => by cases h
  | stored :: rest, slot', h => by
      unfold replace at h
      split at h
      · rename_i hsame
        cases h
        exact ⟨[], stored, rest, rfl, by simp [Cookie.identity, hsame], rfl⟩
      · obtain ⟨rest', hrest, rfl⟩ := Option.map_eq_some_iff.mp h
        obtain ⟨before, old, after, rfl, hsame, rfl⟩ := replace_eq_some hrest
        exact ⟨stored :: before, old, after, rfl, hsame, rfl⟩

theorem replace_eq_none {cookie : Cookie} : ∀ {slot : List Cookie}, replace cookie slot = none →
    ∀ c ∈ slot, c.identity ≠ cookie.identity
  | [], _, _, hc => by cases hc
  | stored :: rest, h, c, hc => by
      unfold replace at h
      split at h
      · cases h
      · rename_i hdiff
        rcases List.mem_cons.mp hc with rfl | hc
        · intro hsame
          simp only [Cookie.identity, Prod.mk.injEq] at hsame
          exact hdiff hsame
        · exact replace_eq_none (Option.map_eq_none_iff.mp h) c hc

/-- What a call leaves in the partition of `key`, which held `slot`. -/
inductive Change (key : PartitionKey) (call : Call) (slot : List Cookie) : List Cookie → Prop where
  /-- A cookie took the place of one with its identity. -/
  | replaced {before after : List Cookie} {old cookie : Cookie} :
      slot = before ++ old :: after → old.identity = cookie.identity →
      call.cookie? key = some cookie → Change key call slot (before ++ cookie :: after)
  /-- A cookie of a new identity was appended. -/
  | appended {cookie : Cookie} :
      (∀ c ∈ slot, c.identity ≠ cookie.identity) → slot.length < MAX_PER_KEY →
      call.cookie? key = some cookie → Change key call slot (slot ++ [cookie])
  /-- Nothing was stored, and some cookies were dropped. -/
  | dropped {p : Cookie → Bool} :
      (∀ cookie, call.cookie? key = some cookie → ∀ c ∈ slot, c.identity ≠ cookie.identity) →
      (call = .forget key → slot.filter p = []) → Change key call slot (slot.filter p)

theorem replace_isSome {cookie cookie' : Cookie} (hname : cookie'.name = cookie.name)
    (hdomain : cookie'.domain = cookie.domain) (hpath : cookie'.path = cookie.path) :
    ∀ slot, (replace cookie' slot).isSome = (replace cookie slot).isSome
  | [] => rfl
  | stored :: rest => by
      unfold replace
      rw [hname, hdomain, hpath]
      split
      · rfl
      · rw [Option.isSome_map, Option.isSome_map]
        exact replace_isSome hname hdomain hpath rest

/-- The jar takes the header, at some time. -/
def Accepts (jar : Jar) (psl : PublicSuffixList) (key : PartitionKey) (header : Text) : Prop :=
  ∃ now, (jar.store psl key header now).1 = .ok ()

variable {jar : Jar} {psl : PublicSuffixList} {key : PartitionKey} {header : Text}

theorem store_eq_ok {now : Instant} :
    (jar.store psl key header now).1 = .ok () ↔ ∃ cookie, parse psl key.origin header now = .ok cookie ∧
      ((replace cookie (jar.partition key)).isSome = true ∨ (jar.partition key).length < MAX_PER_KEY) := by
  unfold store
  cases hparse : parse psl key.origin header now with
  | error e => simp
  | ok cookie =>
      simp only [Except.ok.injEq, exists_eq_left']
      cases replace cookie (jar.partition key) with
      | some slot => simp
      | none =>
          simp only [Option.isSome_none, Bool.false_eq_true, false_or]
          split
          · rename_i hfull
            simp [hfull]
          · rename_i hroom
            simpa using hroom

/-- At any time it takes the same headers. -/
theorem accepts_iff (now : Instant) :
    jar.Accepts psl key header ↔ (jar.store psl key header now).1 = .ok () := by
  constructor
  · rintro ⟨now', h⟩
    obtain ⟨cookie, hparse, hroom⟩ := store_eq_ok.mp h
    obtain ⟨cookie', hparse', hname, hdomain, hpath⟩ := parse_time hparse now
    refine store_eq_ok.mpr ⟨cookie', hparse', ?_⟩
    rwa [replace_isSome hname hdomain hpath]
  · intro h
    exact ⟨now, h⟩

/-- Whether it takes a header is a question of the one partition. -/
theorem accepts_congr {jar' : Jar}
    (h : jar'.partition key = jar.partition key) : jar'.Accepts psl key header ↔ jar.Accepts psl key header := by
  unfold Accepts
  simp only [store_eq_ok, h]

theorem partition_insert (jar : Jar) (key key' : PartitionKey) (slot : List Cookie) :
    partition ⟨jar.byPartition.insert key slot⟩ key' = if key' = key then slot else jar.partition key' := by
  unfold partition
  split
  · rename_i h
    rw [h, AList.lookup_insert, Option.getD_some]
  · rename_i h
    rw [AList.lookup_insert_ne h]

theorem partition_of_refused {now : Instant}
    (h : (jar.store psl key header now).1 ≠ .ok ()) (key' : PartitionKey) :
    (jar.store psl key header now).2.partition key' = jar.partition key' := by
  unfold store at h ⊢
  cases hparse : parse psl key.origin header now with
  | error e => rfl
  | ok cookie =>
      simp only [hparse] at h ⊢
      cases hreplace : replace cookie (jar.partition key) with
      | some slot =>
          rw [hreplace] at h
          exact absurd rfl h
      | none =>
          simp only [hreplace] at h ⊢
          split at h
          · rename_i hfull
            rw [if_pos hfull, partition_insert]
            split
            · rename_i hk
              rw [hk]
            · rfl
          · exact absurd rfl h

/-- A call that left a partition alone. -/
theorem Change.same {call : Call} {slot : List Cookie}
    (hnone : ∀ cookie, call.cookie? key = some cookie → ∀ c ∈ slot, c.identity ≠ cookie.identity)
    (hforget : call ≠ .forget key) : Change key call slot slot := by
  have h := @Change.dropped key call slot (fun _ => true) hnone fun heq => absurd heq hforget
  rwa [List.filter_true] at h

theorem store_change (jar : Jar) (psl : PublicSuffixList) (key key' : PartitionKey) (header : Text)
    (now : Instant) :
    Change key' (.store psl key header now) (jar.partition key')
      ((jar.store psl key header now).2.partition key') := by
  unfold store
  cases hparse : parse psl key.origin header now with
  | error e =>
      refine Change.same (fun cookie hcookie => ?_) (fun h => by cases h)
      simp [Call.cookie?, hparse, Except.toOption] at hcookie
  | ok cookie =>
      have hcookie : ∀ {k : PartitionKey}, k = key →
          (Call.store psl key header now).cookie? k = some cookie := by
        rintro _ rfl
        simp [Call.cookie?, hparse, Except.toOption]
      have hother : ∀ {k : PartitionKey}, k ≠ key →
          (Call.store psl key header now).cookie? k = none := by
        intro k hk
        simp [Call.cookie?, Ne.symm hk]
      have helse : ∀ {k : PartitionKey} {slot : List Cookie}, k ≠ key →
          Change k (.store psl key header now) slot slot := by
        intro k slot hk
        refine Change.same (fun c hc => ?_) (fun h => by cases h)
        rw [hother hk] at hc
        cases hc
      simp only
      cases hreplace : replace cookie (jar.partition key) with
      | some slot' =>
          simp only [partition_insert]
          split
          · rename_i hk
            obtain ⟨before, old, after, hslot, hsame, rfl⟩ := replace_eq_some hreplace
            rw [hk]
            exact .replaced hslot hsame (hcookie rfl)
          · rename_i hk
            exact helse hk
      | none =>
          have hdiff := replace_eq_none hreplace
          simp only
          split
          · simp only [partition_insert]
            split
            · rename_i hk
              rw [hk]
              refine Change.same (fun c hc => ?_) (fun h => by cases h)
              cases (hcookie rfl).symm.trans hc
              exact hdiff
            · rename_i hk
              exact helse hk
          · rename_i hfull
            simp only [partition_insert]
            split
            · rename_i hk
              rw [hk]
              exact .appended hdiff (Nat.lt_of_not_le hfull) (hcookie rfl)
            · rename_i hk
              exact helse hk

/-- Every call changes every partition as `Change` says. -/
theorem step_change (jar : Jar) (call : Call) (key : PartitionKey) :
    Change key call (jar.partition key) ((jar.step call).partition key) := by
  cases call with
  | store psl k header now => exact store_change jar psl k key header now
  | forget k =>
      by_cases hk : key = k
      · subst hk
        have hnil : ((jar.step (.forget key)).partition key) =
            (jar.partition key).filter fun _ => false := by
          simp [step, forget, partition]
        rw [hnil]
        exact .dropped (fun c hc => by cases hc) fun _ => by simp
      · have hsame : (jar.step (.forget k)).partition key = jar.partition key := by
          simp only [step, forget, partition]
          rw [AList.lookup_erase_ne hk]
        rw [hsame]
        refine Change.same (fun c hc => by cases hc) fun heq => ?_
        cases heq
        exact hk rfl
  | expire now =>
      have hexpire : (jar.step (.expire now)).partition key =
          (jar.partition key).filter fun c => !c.isExpired now := by
        simp only [step, expire, partition, Map.lookup_refine]
        cases jar.byPartition.lookup key with
        | none => rfl
        | some slot =>
            simp only [Option.bind_some, Option.getD_some]
            split
            · rename_i hnil
              rw [Option.getD_none, List.isEmpty_iff.mp hnil]
            · rfl
      rw [hexpire]
      exact .dropped (fun c hc => by cases hc) (fun h => by cases h)

end Jar

end Pelorus.Net
