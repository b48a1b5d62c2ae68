import Mathlib.Logic.Function.Basic
import Pelorus.Lib.Collections
import Pelorus.Net.Cookie

/-
  Net/Pool.lean --- the connection pool (`px-net/src/pool.rs`), over any sequence of
  calls at any times.

  TWO STRUCTURES.  The map holds the idle connections of each key, and the order the
  keys for eviction, oldest first.  `Agree` ties them: the order is the keys of the
  map, each once.

  WHERE A CONNECTION COMES FROM.  What a call leaves in a slot, together with what it
  hands out, is part of what was there and what it put (`step_slot`).  A connection
  handed out can therefore be traced to one call of `put`, under the same key, and
  no other connection handed out is traced to that call (`Traced`).
-/
set_option autoImplicit false

namespace Pelorus.Net

open Lib

/-- Which wire protocol a pooled connection speaks. -/
inductive Protocol where
  | http11
  deriving DecidableEq

/-- How many idle connections are kept for one key. -/
def MAX_IDLE_PER_KEY : Nat := 6

/-- How many distinct keys the pool tracks before evicting. -/
def MAX_KEYS : Nat := 256

/-- How long an idle connection may sit before it is dropped: 45 seconds. -/
def IDLE_TIMEOUT : Nat := 45 * 10 ^ 9

/-- What a slot of the pool is for. -/
abbrev PoolKey : Type := PartitionKey × Protocol

/-- A pooled connection and when it went idle. -/
structure Idle (C : Type) where
  connection : C
  since : Instant

/-- A partitioned pool of reusable connections. -/
structure ConnectionPool (C : Type) where
  idle : Map PoolKey (List (Idle C))
  /-- Insertion order of keys, oldest first. -/
  order : List PoolKey

namespace ConnectionPool

variable {C : Type}

def new : ConnectionPool C := ⟨∅, []⟩

/-- Has the connection not sat too long?  A clock that went back counts as no time. -/
def fresh (now : Instant) (entry : Idle C) : Bool := now - entry.since < IDLE_TIMEOUT

def take (pool : ConnectionPool C) (key : PartitionKey) (protocol : Protocol) (now : Instant) :
    Option C × ConnectionPool C :=
  match pool.idle.lookup (key, protocol) with
  | none => (none, pool)
  | some slot =>
      let slot := slot.filter (fresh now)
      (slot.getLast?.map Idle.connection,
        { pool with idle := pool.idle.insert (key, protocol) slot.dropLast })

def evictOldest (pool : ConnectionPool C) : ConnectionPool C :=
  match pool.order with
  | [] => pool
  | oldest :: order => { idle := pool.idle.erase oldest, order }

/-- The key is tracked from here on. -/
def track (pool : ConnectionPool C) (entryKey : PoolKey) : ConnectionPool C :=
  if entryKey ∈ pool.idle then pool
  else
    let pool := if MAX_KEYS ≤ pool.order.length then pool.evictOldest else pool
    { pool with order := pool.order ++ [entryKey] }

def put (pool : ConnectionPool C) (key : PartitionKey) (protocol : Protocol) (connection : C)
    (now : Instant) : ConnectionPool C :=
  let entryKey := (key, protocol)
  let pool := pool.track entryKey
  let slot := (pool.idle.lookup entryKey).getD []
  if MAX_IDLE_PER_KEY ≤ slot.length then { pool with idle := pool.idle.insert entryKey slot }
  else { pool with idle := pool.idle.insert entryKey (slot ++ [⟨connection, now⟩]) }

def forget (pool : ConnectionPool C) (key : PartitionKey) : ConnectionPool C where
  idle := pool.idle.refine fun stored slot => if stored.1 = key then none else some slot
  order := pool.order.filter fun stored => stored.1 ≠ key

def expireIdle (pool : ConnectionPool C) (now : Instant) : ConnectionPool C :=
  let idle := pool.idle.refine fun _ slot =>
    let slot := slot.filter (fresh now)
    if slot.isEmpty then none else some slot
  { idle, order := pool.order.filter fun key => key ∈ idle }

def keyCount (pool : ConnectionPool C) : Nat := pool.idle.keys.length

/-! ## Calls -/

/-- A call, with the time it is made at. -/
inductive Call (C : Type) where
  | put (key : PartitionKey) (protocol : Protocol) (connection : C) (now : Instant)
  | take (key : PartitionKey) (protocol : Protocol) (now : Instant)
  | forget (key : PartitionKey)
  | expireIdle (now : Instant)

/-- One call, and the connection it hands out. -/
def step (pool : ConnectionPool C) : Call C → Option C × ConnectionPool C
  | .put key protocol connection now => (none, pool.put key protocol connection now)
  | .take key protocol now => pool.take key protocol now
  | .forget key => (none, pool.forget key)
  | .expireIdle now => (none, pool.expireIdle now)

/-- The pool after a sequence of calls on a new one. -/
def run (calls : List (Call C)) : ConnectionPool C :=
  calls.foldl (fun pool call => (pool.step call).2) new

/-- What the call at position `n` hands out. -/
def handedOut (calls : List (Call C)) (n : Nat) : Option C :=
  (calls[n]?).bind fun call => ((run (calls.take n)).step call).1

/-! ## The two structures agree -/

/-- The order lists the keys of the map, each once, and neither grows past its cap. -/
structure Agree (pool : ConnectionPool C) : Prop where
  order_nodup : pool.order.Nodup
  mem_order : ∀ k, k ∈ pool.order ↔ k ∈ pool.idle
  keys_le : pool.order.length ≤ MAX_KEYS
  slot_le : ∀ k slot, pool.idle.lookup k = some slot → slot.length ≤ MAX_IDLE_PER_KEY

theorem agree_new : Agree (new : ConnectionPool C) :=
  ⟨List.nodup_nil, fun k => by simp [new], by simp [new], fun k slot h => by cases h⟩

variable {pool : ConnectionPool C}
variable {key : PoolKey}

/-- A slot of a key that is tracked may be exchanged for one that is no longer. -/
theorem Agree.insert (h : pool.Agree) (hkey : key ∈ pool.order) {slot : List (Idle C)}
    (hslot : slot.length ≤ MAX_IDLE_PER_KEY) :
    Agree { pool with idle := pool.idle.insert key slot } := by
  refine ⟨h.order_nodup, fun k => ?_, h.keys_le, fun k slot' hk => ?_⟩
  · rw [AList.mem_insert, ← h.mem_order]
    constructor
    · exact Or.inr
    · rintro (rfl | hk)
      · exact hkey
      · exact hk
  · by_cases heq : k = key
    · subst heq
      rw [AList.lookup_insert] at hk
      cases hk
      exact hslot
    · rw [AList.lookup_insert_ne heq] at hk
      exact h.slot_le k slot' hk

theorem agree_take (h : pool.Agree) (key : PartitionKey)
    (protocol : Protocol) (now : Instant) : (pool.take key protocol now).2.Agree := by
  unfold take
  cases hslot : pool.idle.lookup (key, protocol) with
  | none => exact h
  | some slot =>
      refine h.insert ((h.mem_order _).mpr ?_) ?_
      · rw [← AList.lookup_isSome, hslot]
        rfl
      · rw [List.length_dropLast]
        have hfilter := List.length_filter_le (fresh now) slot
        have hle := h.slot_le _ _ hslot
        omega

theorem agree_evictOldest (h : pool.Agree) : pool.evictOldest.Agree := by
  unfold evictOldest
  split
  · exact h
  · rename_i oldest order horder
    have hnodup := h.order_nodup
    have hkeys := h.keys_le
    have hmem := h.mem_order
    rw [horder] at hnodup hkeys hmem
    obtain ⟨hnot, hnodup'⟩ := List.nodup_cons.mp hnodup
    refine ⟨hnodup', fun k => ?_, Nat.le_of_succ_le hkeys, fun k slot hk => ?_⟩
    · rw [AList.mem_erase, ← hmem]
      constructor
      · intro hk
        refine ⟨fun heq => ?_, List.mem_cons_of_mem _ hk⟩
        rw [heq] at hk
        exact hnot hk
      · rintro ⟨hne, hk⟩
        exact (List.mem_cons.mp hk).resolve_left hne
    · by_cases heq : k = oldest
      · rw [heq, AList.lookup_erase] at hk
        cases hk
      · rw [AList.lookup_erase_ne heq] at hk
        exact h.slot_le k slot hk

theorem length_evictOldest_lt (h : MAX_KEYS ≤ pool.order.length)
    (hle : pool.order.length ≤ MAX_KEYS) : pool.evictOldest.order.length < MAX_KEYS := by
  have hpos : 0 < MAX_KEYS := by decide
  unfold evictOldest
  split
  · rename_i hnil
    rw [hnil] at h
    exact absurd hpos (Nat.not_lt_of_le h)
  · rename_i oldest order horder
    rw [horder, List.length_cons] at hle
    exact hle

theorem not_mem_evictOldest (h : key ∉ pool.idle) : key ∉ pool.evictOldest.idle := by
  unfold evictOldest
  split
  · exact h
  · exact fun hmem => h (AList.mem_erase.mp hmem).2

/-- A key that was not tracked comes last in the order. -/
theorem Agree.insert_new (h : pool.Agree) (hkey : key ∉ pool.idle)
    (hroom : pool.order.length < MAX_KEYS) {slot : List (Idle C)}
    (hslot : slot.length ≤ MAX_IDLE_PER_KEY) :
    Agree { idle := pool.idle.insert key slot, order := pool.order ++ [key] } := by
  have hnot : key ∉ pool.order := fun hmem => hkey ((h.mem_order key).mp hmem)
  refine ⟨?_, fun k => ?_, by rw [List.length_append]; exact hroom, fun k slot' hk => ?_⟩
  · refine List.nodup_append.mpr ⟨h.order_nodup, List.nodup_singleton key, fun a ha b hb => ?_⟩
    rw [List.mem_singleton.mp hb]
    exact fun heq => hnot (heq ▸ ha)
  · rw [AList.mem_insert, ← h.mem_order, List.mem_append, List.mem_singleton, or_comm]
  · by_cases heq : k = key
    · subst heq
      rw [AList.lookup_insert] at hk
      cases hk
      exact hslot
    · rw [AList.lookup_insert_ne heq] at hk
      exact h.slot_le k slot' hk

/-- The slot a connection is put in. -/
def pushed (slot : List (Idle C)) (entry : Idle C) : List (Idle C) :=
  if MAX_IDLE_PER_KEY ≤ slot.length then slot else slot ++ [entry]

theorem length_pushed {slot : List (Idle C)} {entry : Idle C} (h : slot.length ≤ MAX_IDLE_PER_KEY) :
    (pushed slot entry).length ≤ MAX_IDLE_PER_KEY := by
  unfold pushed
  split
  · exact h
  · rw [List.length_append, List.length_singleton]
    omega

theorem put_eq (pool : ConnectionPool C) (key : PartitionKey) (protocol : Protocol) (connection : C)
    (now : Instant) :
    pool.put key protocol connection now =
      { pool.track (key, protocol) with
        idle := (pool.track (key, protocol)).idle.insert (key, protocol)
          (pushed (((pool.track (key, protocol)).idle.lookup (key, protocol)).getD [])
            ⟨connection, now⟩) } := by
  simp only [put, pushed]
  split <;> rfl

theorem agree_put (h : pool.Agree) (key : PartitionKey)
    (protocol : Protocol) (connection : C) (now : Instant) :
    (pool.put key protocol connection now).Agree := by
  rw [put_eq]
  by_cases hkey : (key, protocol) ∈ pool.idle
  · have htrack : pool.track (key, protocol) = pool := if_pos hkey
    rw [htrack]
    refine h.insert ((h.mem_order _).mpr hkey) (length_pushed ?_)
    obtain ⟨slot, hslot⟩ := Option.isSome_iff_exists.mp (AList.lookup_isSome.mpr hkey)
    rw [hslot]
    exact h.slot_le _ _ hslot
  · have hempty : ([] : List (Idle C)).length ≤ MAX_IDLE_PER_KEY := Nat.zero_le _
    have htrack : pool.track (key, protocol) =
        { (if MAX_KEYS ≤ pool.order.length then pool.evictOldest else pool) with
          order := (if MAX_KEYS ≤ pool.order.length then pool.evictOldest else pool).order ++
            [(key, protocol)] } := if_neg hkey
    rw [htrack]
    split
    · rename_i hfull
      have hnot := not_mem_evictOldest hkey
      simp only [AList.lookup_eq_none.mpr hnot, Option.getD_none]
      exact (agree_evictOldest h).insert_new hnot (length_evictOldest_lt hfull h.keys_le)
        (length_pushed hempty)
    · rename_i hroom
      simp only [AList.lookup_eq_none.mpr hkey, Option.getD_none]
      exact h.insert_new hkey (Nat.lt_of_not_le hroom) (length_pushed hempty)

theorem Agree.refine (h : pool.Agree)
    {f : PoolKey → List (Idle C) → Option (List (Idle C))} {p : PoolKey → Bool}
    (hle : ∀ k slot slot', f k slot = some slot' → slot'.length ≤ slot.length)
    (hp : ∀ k ∈ pool.order, p k = true ↔ k ∈ pool.idle.refine f) :
    Agree { idle := pool.idle.refine f, order := pool.order.filter p } := by
  refine ⟨h.order_nodup.filter p, fun k => ?_,
    Nat.le_trans (List.length_filter_le p pool.order) h.keys_le, fun k slot hk => ?_⟩
  · rw [List.mem_filter]
    constructor
    · rintro ⟨hk, hpk⟩
      exact (hp k hk).mp hpk
    · intro hk
      have hmem : k ∈ pool.order := by
        rw [h.mem_order, ← AList.lookup_isSome]
        rw [← AList.lookup_isSome, Map.lookup_refine] at hk
        exact Option.isSome_of_isSome_bind hk
      exact ⟨hmem, (hp k hmem).mpr hk⟩
  · rw [Map.lookup_refine] at hk
    obtain ⟨slot', hslot', hf⟩ := Option.bind_eq_some_iff.mp hk
    exact Nat.le_trans (hle k slot' slot hf) (h.slot_le k slot' hslot')

theorem agree_forget (h : pool.Agree) (key : PartitionKey) : (pool.forget key).Agree := by
  refine h.refine (fun k slot slot' hf => ?_) fun k hk => ?_
  · split at hf
    · cases hf
    · cases hf
      exact Nat.le_refl _
  · obtain ⟨slot, hslot⟩ := Option.isSome_iff_exists.mp
      (AList.lookup_isSome.mpr ((h.mem_order k).mp hk))
    rw [← AList.lookup_isSome, Map.lookup_refine, hslot, Option.bind_some]
    by_cases heq : k.1 = key
    · simp [heq]
    · simp [heq]

theorem agree_expireIdle (h : pool.Agree) (now : Instant) : (pool.expireIdle now).Agree := by
  refine h.refine (fun k slot slot' hf => ?_) fun k _ => decide_eq_true_iff
  simp only at hf
  split at hf
  · cases hf
  · cases hf
    exact List.length_filter_le _ _

theorem agree_step (h : pool.Agree) (call : Call C) : (pool.step call).2.Agree := by
  cases call with
  | put key protocol connection now => exact agree_put h key protocol connection now
  | take key protocol now => exact agree_take h key protocol now
  | forget key => exact agree_forget h key
  | expireIdle now => exact agree_expireIdle h now

theorem run_concat (calls : List (Call C)) (call : Call C) :
    run (calls ++ [call]) = ((run calls).step call).2 := by
  simp [run]

/-- The structures agree after any calls. -/
theorem agree_run (calls : List (Call C)) : (run calls).Agree := by
  induction calls using List.reverseRecOn with
  | nil => exact agree_new
  | append_singleton calls call ih =>
      rw [run_concat]
      exact agree_step ih call

/-! ## What a call leaves in a slot -/

/-- The idle connections of a key. -/
def slot (pool : ConnectionPool C) (k : PoolKey) : List (Idle C) := (pool.idle.lookup k).getD []

/-- What a call puts in a slot. -/
def Call.added (k : PoolKey) : Call C → List (Idle C)
  | .put key protocol connection now => if (key, protocol) = k then [⟨connection, now⟩] else []
  | _ => []

theorem slot_insert (pool : ConnectionPool C) (order : List PoolKey) (k k' : PoolKey)
    (entries : List (Idle C)) :
    slot ⟨pool.idle.insert k entries, order⟩ k' = if k' = k then entries else pool.slot k' := by
  unfold slot
  split
  · rename_i h
    rw [h, AList.lookup_insert, Option.getD_some]
  · rename_i h
    rw [AList.lookup_insert_ne h]

theorem slot_evictOldest (pool : ConnectionPool C) (k : PoolKey) :
    List.Sublist (pool.evictOldest.slot k) (pool.slot k) := by
  unfold evictOldest
  split
  · exact List.Sublist.refl _
  · rename_i oldest order horder
    by_cases h : k = oldest
    · rw [h, slot, AList.lookup_erase]
      exact List.nil_sublist _
    · rw [slot, AList.lookup_erase_ne h]
      exact List.Sublist.refl _

theorem slot_track (pool : ConnectionPool C) (entryKey k : PoolKey) :
    List.Sublist ((pool.track entryKey).slot k) (pool.slot k) := by
  unfold track
  split
  · exact List.Sublist.refl _
  · simp only
    split
    · exact slot_evictOldest pool k
    · exact List.Sublist.refl _

theorem pushed_sublist (entries : List (Idle C)) (entry : Idle C) :
    List.Sublist (pushed entries entry) (entries ++ [entry]) := by
  unfold pushed
  split
  · exact List.sublist_append_left entries _
  · exact List.Sublist.refl _

theorem slot_refine {order : List PoolKey} {f : PoolKey → List (Idle C) → Option (List (Idle C))}
    (hf : ∀ k entries entries', f k entries = some entries' → List.Sublist entries' entries)
    (k : PoolKey) : List.Sublist (slot ⟨pool.idle.refine f, order⟩ k) (pool.slot k) := by
  unfold slot
  rw [Map.lookup_refine]
  cases pool.idle.lookup k with
  | none => exact List.Sublist.refl _
  | some entries =>
      rw [Option.bind_some, Option.getD_some]
      cases hk : f k entries with
      | none => exact List.nil_sublist _
      | some entries' => exact hf k entries entries' hk

/-- What a call leaves in a slot and hands out of it is part of what was there and what it put;
forgetting leaves nothing. -/
theorem step_slot (pool : ConnectionPool C) (call : Call C) (k : PoolKey) :
    ∃ out, List.Sublist ((pool.step call).2.slot k ++ out) (pool.slot k ++ call.added k) ∧
      (call = .forget k.1 → (pool.step call).2.slot k = []) ∧
      ∀ now, call = .take k.1 k.2 now → out.map Idle.connection = (pool.step call).1.toList := by
  cases call with
  | put key protocol connection now =>
      refine ⟨[], ?_, (fun h => by cases h), (fun _ h => by cases h)⟩
      have htrack := slot_track pool (key, protocol) k
      simp only [step, put_eq, slot_insert, List.append_nil, Call.added]
      split
      · rename_i hk
        rw [if_pos hk.symm]
        rw [hk] at htrack ⊢
        exact (pushed_sublist _ _).trans (htrack.append_right _)
      · rename_i hk
        rw [if_neg (Ne.symm hk), List.append_nil]
        exact htrack
  | take key protocol now =>
      simp only [step, take, Call.added, List.append_nil]
      cases hslot : pool.idle.lookup (key, protocol) with
      | none =>
          exact ⟨[], by simp, (fun h => by cases h), fun _ _ => rfl⟩
      | some entries =>
          simp only [slot_insert]
          by_cases hk : k = (key, protocol)
          · refine ⟨(entries.filter (fresh now)).getLast?.toList, ?_, (fun h => by cases h), fun _ _ => ?_⟩
            · rw [if_pos hk, hk, slot, hslot, Option.getD_some]
              have hparts : (entries.filter (fresh now)).dropLast ++
                  (entries.filter (fresh now)).getLast?.toList = entries.filter (fresh now) := by
                rcases List.eq_nil_or_concat (entries.filter (fresh now)) with hnil | ⟨l, a, hl⟩
                · simp [hnil]
                · simp [hl]
              rw [hparts]
              exact List.filter_sublist
            · cases (entries.filter (fresh now)).getLast? <;> rfl
          · refine ⟨[], ?_, (fun h => by cases h), fun _ h => ?_⟩
            · rw [if_neg hk, List.append_nil]
            · cases h
              exact absurd rfl hk
  | forget key =>
      refine ⟨[], ?_, fun h => ?_, (fun _ h => by cases h)⟩
      · simp only [List.append_nil, Call.added]
        refine slot_refine (fun k' entries entries' hf => ?_) k
        split at hf
        · cases hf
        · cases hf
          exact List.Sublist.refl _
      · cases h
        simp only [step, forget, slot, Map.lookup_refine]
        cases pool.idle.lookup k <;> simp
  | expireIdle now =>
      refine ⟨[], ?_, (fun h => by cases h), (fun _ h => by cases h)⟩
      simp only [List.append_nil, Call.added]
      refine slot_refine (fun k' entries entries' hf => ?_) k
      simp only at hf
      split at hf
      · cases hf
      · cases hf
        exact List.filter_sublist

end ConnectionPool

end Pelorus.Net

/-! # Every connection handed out is traced to the call that put it in the pool

`Traced calls source` says that `source` maps the position of a call that handed
out a connection to the position of the `put` it came from, and that every
connection still in the pool has a `put` of its own, not used yet.  One call
extends it by `step_slot`. -/

namespace Pelorus.Net.ConnectionPool

open Lib

variable {C : Type}

/-- The call at `n` put this entry in the slot of `k`, and the key was not forgotten since. -/
structure PutAt (calls : List (Call C)) (k : PoolKey) (entry : Idle C) (n : Nat) : Prop where
  put : calls[n]? = some (.put k.1 k.2 entry.connection entry.since)
  kept : ∀ m, n < m → calls[m]? ≠ some (.forget k.1)

/-- The calls that handed something out are traced to different calls of `put`, under the
same key and protocol, with the key not forgotten in between. -/
def HandedOut (calls : List (Call C)) (source : Nat → Nat) : Prop :=
  ∀ n key protocol now c, calls[n]? = some (.take key protocol now) → handedOut calls n = some c →
    source n < n ∧ (∃ since, calls[source n]? = some (.put key protocol c since)) ∧
      (∀ m < n, calls[m]? = some (.forget key) → m < source n) ∧
      ∀ m < n, (handedOut calls m).isSome = true → source m ≠ source n

/-- Where the connections handed out, and those in the pool, come from. -/
structure Traced (calls : List (Call C)) (source : Nat → Nat) : Prop where
  handed : HandedOut calls source
  pooled : ∀ k, ∃ entries : List (Idle C × Nat),
    entries.map Prod.fst = (run calls).slot k ∧ entries.Pairwise (fun e e' => e.2 < e'.2) ∧
      ∀ e ∈ entries, PutAt calls k e.1 e.2 ∧
        ∀ m, (handedOut calls m).isSome = true → source m ≠ e.2

variable {calls : List (Call C)}
variable {call : Call C} {n : Nat} {k : PoolKey} {entry : Idle C} {source : Nat → Nat}

theorem handedOut_concat_lt (h : n < calls.length) : handedOut (calls ++ [call]) n = handedOut calls n := by
  unfold handedOut
  rw [List.getElem?_append_left h, List.take_append_of_le_length (Nat.le_of_lt h)]

theorem handedOut_concat_self (calls : List (Call C)) (call : Call C) :
    handedOut (calls ++ [call]) calls.length = ((run calls).step call).1 := by
  simp [handedOut]

theorem lt_of_handedOut (h : (handedOut calls n).isSome = true) : n < calls.length := by
  by_contra hle
  rw [handedOut, List.getElem?_eq_none (Nat.le_of_not_lt hle)] at h
  cases h

/-- What is handed out after one more call was before it, or is by it. -/
theorem handedOut_concat (h : (handedOut (calls ++ [call]) n).isSome = true) :
    n = calls.length ∨ n < calls.length ∧ (handedOut calls n).isSome = true := by
  have hlt := lt_of_handedOut h
  rw [List.length_append, List.length_singleton] at hlt
  rcases Nat.lt_or_eq_of_le (Nat.le_of_lt_succ hlt) with hlt | rfl
  · rw [handedOut_concat_lt hlt] at h
    exact Or.inr ⟨hlt, h⟩
  · exact Or.inl rfl

theorem PutAt.lt (h : PutAt calls k entry n) : n < calls.length := by
  by_contra hle
  have hput := h.put
  rw [List.getElem?_eq_none (Nat.le_of_not_lt hle)] at hput
  cases hput

theorem PutAt.concat (h : PutAt calls k entry n) (hcall : call ≠ .forget k.1) :
    PutAt (calls ++ [call]) k entry n := by
  refine ⟨?_, fun m hm => ?_⟩
  · rw [List.getElem?_append_left h.lt]
    exact h.put
  · by_cases hlt : m < calls.length
    · rw [List.getElem?_append_left hlt]
      exact h.kept m hm
    · rw [List.getElem?_append_right (Nat.le_of_not_lt hlt)]
      intro heq
      obtain ⟨hlt', hget⟩ := List.getElem?_eq_some_iff.mp heq
      simp only [List.length_singleton, Nat.lt_one_iff] at hlt'
      simp only [hlt', List.getElem_singleton] at hget
      exact hcall hget

theorem putAt_added (h : entry ∈ call.added k) : PutAt (calls ++ [call]) k entry calls.length := by
  cases call with
  | put key protocol connection now =>
      simp only [Call.added] at h
      split at h
      · rename_i hk
        rw [List.mem_singleton.mp h, ← hk]
        refine ⟨by simp, fun m hm => ?_⟩
        rw [List.getElem?_eq_none (by rw [List.length_append]; exact hm)]
        exact Ne.symm (Option.some_ne_none _)
      · cases h
  | take key protocol now => cases h
  | forget key => cases h
  | expireIdle now => cases h

theorem take_of_some {pool : ConnectionPool C} {c : C}
    (h : (pool.step call).1 = some c) : ∃ key protocol now, call = .take key protocol now := by
  cases call with
  | put key protocol connection now => cases h
  | take key protocol now => exact ⟨key, protocol, now, rfl⟩
  | forget key => cases h
  | expireIdle now => cases h

/-- A call that handed something out is a `take`, and its source is before it. -/
theorem Traced.source_lt (h : Traced calls source)
    {m : Nat} (hm : (handedOut calls m).isSome = true) :
    (∃ key protocol now, calls[m]? = some (.take key protocol now)) ∧ source m < m := by
  obtain ⟨c, hc⟩ := Option.isSome_iff_exists.mp hm
  obtain ⟨call, hcall, hstep⟩ := Option.bind_eq_some_iff.mp hc
  obtain ⟨key, protocol, now, rfl⟩ := take_of_some hstep
  exact ⟨⟨key, protocol, now, hcall⟩, (h.handed m key protocol now c hcall hc).1⟩

/-- What was said of an earlier call stays. -/
theorem HandedOut.concat_lt {calls : List (Call C)} {call : Call C} {source : Nat → Nat}
    (h : HandedOut calls source) {n : Nat} (hn : n < calls.length) {key : PartitionKey}
    {protocol : Protocol} {now : Instant} {c : C} (hcall : calls[n]? = some (.take key protocol now))
    (hc : handedOut calls n = some c) :
    source n < n ∧ (∃ since, (calls ++ [call])[source n]? = some (.put key protocol c since)) ∧
      (∀ m < n, (calls ++ [call])[m]? = some (.forget key) → m < source n) ∧
      ∀ m < n, (handedOut (calls ++ [call]) m).isSome = true → source m ≠ source n := by
  obtain ⟨hlt, ⟨since, hput⟩, hforget, hdistinct⟩ := h n key protocol now c hcall hc
  refine ⟨hlt, ⟨since, ?_⟩, fun m hm hget => ?_, fun m hm hsome => ?_⟩
  · rwa [List.getElem?_append_left (Nat.lt_trans hlt hn)]
  · rw [List.getElem?_append_left (Nat.lt_trans hm hn)] at hget
    exact hforget m hm hget
  · rw [handedOut_concat_lt (Nat.lt_trans hm hn)] at hsome
    exact hdistinct m hm hsome

/-- A slot after a call, with where its entries and the one handed out of it come from. -/
theorem traced_slot (h : Traced calls source)
    (call : Call C) (k : PoolKey) :
    ∃ entries out : List (Idle C × Nat),
      entries.map Prod.fst = (run (calls ++ [call])).slot k ∧
      (∀ now, call = .take k.1 k.2 now →
        out.map (fun e => e.1.connection) = ((run calls).step call).1.toList) ∧
      (entries ++ out).Pairwise (fun e e' => e.2 < e'.2) ∧
      ∀ e ∈ entries ++ out, call ≠ .forget k.1 → PutAt (calls ++ [call]) k e.1 e.2 ∧
        ∀ m, (handedOut calls m).isSome = true → source m ≠ e.2 := by
  obtain ⟨before, hbefore, hpair, hput⟩ := h.pooled k
  obtain ⟨out, hsub, -, hout⟩ := step_slot (run calls) call k
  rw [← run_concat, ← hbefore] at hsub
  have hadded : call.added k = ((call.added k).map fun e => (e, calls.length)).map Prod.fst := by
    simp [Function.comp_def]
  rw [hadded, ← List.map_append] at hsub
  obtain ⟨parts, hparts, heq⟩ := List.sublist_map_iff.mp hsub
  obtain ⟨entries, out', rfl, hentries, hout'⟩ := List.map_eq_append_iff.mp heq.symm
  refine ⟨entries, out', hentries, fun now hnow => ?_, ?_, fun e he hcall => ?_⟩
  · rw [← hout now hnow, ← hout', List.map_map]
    rfl
  · refine List.Pairwise.sublist hparts (List.pairwise_append.mpr ⟨hpair, ?_, fun e he e' he' => ?_⟩)
    · cases call with
      | put key protocol connection now =>
          simp only [Call.added]
          split
          · exact List.pairwise_singleton _ _
          · exact List.Pairwise.nil
      | take key protocol now => exact List.Pairwise.nil
      | forget key => exact List.Pairwise.nil
      | expireIdle now => exact List.Pairwise.nil
    · obtain ⟨a, -, rfl⟩ := List.mem_map.mp he'
      exact (hput e he).1.lt
  · rcases List.mem_append.mp (hparts.subset he) with hold | hnew
    · exact ⟨(hput e hold).1.concat hcall, (hput e hold).2⟩
    · obtain ⟨a, ha, rfl⟩ := List.mem_map.mp hnew
      refine ⟨putAt_added ha, fun m hm heq => ?_⟩
      -- a connection handed out before was put before
      have hlt := (h.source_lt hm).2
      rw [heq] at hlt
      exact Nat.lt_irrefl _ (Nat.lt_trans hlt (lt_of_handedOut hm))

theorem traced_take (h : Traced calls source)
    {key : PartitionKey} {protocol : Protocol} {now : Instant} {c : C}
    (hout : ((run calls).step (.take key protocol now)).1 = some c) :
    ∃ n, ∃ since, PutAt (calls ++ [.take key protocol now]) (key, protocol) ⟨c, since⟩ n ∧
      (∀ m, (handedOut calls m).isSome = true → source m ≠ n) ∧
      ∃ entries : List (Idle C × Nat),
        entries.map Prod.fst = (run (calls ++ [.take key protocol now])).slot (key, protocol) ∧
        entries.Pairwise (fun e e' => e.2 < e'.2) ∧
        ∀ e ∈ entries, e.2 ≠ n ∧ PutAt (calls ++ [.take key protocol now]) (key, protocol) e.1 e.2 ∧
          ∀ m, (handedOut calls m).isSome = true → source m ≠ e.2 := by
  obtain ⟨entries, out, hentries, hconn, hpair, hput⟩ :=
    traced_slot h (.take key protocol now) (key, protocol)
  have hone := hconn now rfl
  rw [hout, Option.toList_some] at hone
  obtain ⟨⟨⟨conn, since⟩, n⟩, rest, rfl, hc, hrest⟩ := List.map_eq_cons_iff.mp hone
  rw [List.map_eq_nil_iff] at hrest
  subst hrest
  simp only at hc
  subst hc
  have hforget : (Call.take key protocol now : Call C) ≠ .forget key := by
    intro heq
    cases heq
  obtain ⟨hputAt, hunused⟩ := hput (⟨conn, since⟩, n) (by simp) hforget
  obtain ⟨hpair', -, hlt⟩ := List.pairwise_append.mp hpair
  refine ⟨n, since, hputAt, hunused, entries, hentries, hpair', fun e he => ⟨?_, ?_⟩⟩
  · exact Nat.ne_of_lt (hlt e he (⟨conn, since⟩, n) (by simp))
  · exact hput e (List.mem_append_left _ he) hforget

/-- The slot of another key cannot hold what was put under this one. -/
theorem PutAt.key_eq {k' : PoolKey} {e e' : Idle C}
    (h : PutAt calls k e n) (h' : PutAt calls k' e' n) : k = k' := by
  obtain ⟨hkey, hprotocol, -⟩ := Call.put.inj (Option.some.inj (h.put.symm.trans h'.put))
  exact Prod.ext hkey hprotocol

theorem Traced.concat (h : Traced calls source)
    (call : Call C) : ∃ source', Traced (calls ++ [call]) source' := by
  cases hout : ((run calls).step call).1 with
  | none =>
      have hhanded : ∀ m, (handedOut (calls ++ [call]) m).isSome = true →
          m < calls.length ∧ (handedOut calls m).isSome = true := by
        intro m hm
        rcases handedOut_concat hm with rfl | h
        · rw [handedOut_concat_self, hout] at hm
          cases hm
        · exact h
      refine ⟨source, fun n key protocol now c hcall hc => ?_, fun k => ?_⟩
      · obtain ⟨hlt, -⟩ := hhanded n (by rw [hc]; rfl)
        rw [List.getElem?_append_left hlt] at hcall
        rw [handedOut_concat_lt hlt] at hc
        exact h.handed.concat_lt hlt hcall hc
      · obtain ⟨entries, out, hentries, -, hpair, hput⟩ := traced_slot h call k
        obtain ⟨hpair', -, -⟩ := List.pairwise_append.mp hpair
        by_cases hforget : call = .forget k.1
        · obtain ⟨-, -, hnil, -⟩ := step_slot (run calls) call k
          refine ⟨[], ?_, List.Pairwise.nil, fun e he => by cases he⟩
          rw [run_concat, hnil hforget]
          rfl
        · refine ⟨entries, hentries, hpair', fun e he => ?_⟩
          obtain ⟨hputAt, hunused⟩ := hput e (List.mem_append_left _ he) hforget
          exact ⟨hputAt, fun m hm => hunused m (hhanded m hm).2⟩
  | some c =>
      obtain ⟨key, protocol, now, rfl⟩ := take_of_some hout
      obtain ⟨n, since, hputAt, hunused, entries, hentries, hpair, hput⟩ := traced_take h hout
      have hn : n < calls.length := by
        have hlt := hputAt.lt
        rw [List.length_append, List.length_singleton] at hlt
        refine Nat.lt_of_le_of_ne (Nat.le_of_lt_succ hlt) ?_
        rintro rfl
        have hget := hputAt.put
        simp at hget
      have hold : ∀ m < calls.length, Function.update source calls.length n m = source m :=
        fun m hm => Function.update_of_ne (Nat.ne_of_lt hm) _ _
      refine ⟨Function.update source calls.length n, fun m key' protocol' now' c' hcall hc => ?_,
        fun k => ?_⟩
      · rcases handedOut_concat (by rw [hc]; rfl : (handedOut _ m).isSome = true) with rfl | ⟨hlt, -⟩
        rotate_left
        · rw [List.getElem?_append_left hlt] at hcall
          rw [handedOut_concat_lt hlt] at hc
          obtain ⟨hsource, hput', hforget, hdistinct⟩ :=
            @HandedOut.concat_lt C calls (.take key protocol now) source h.handed m hlt _ _ _ _ hcall hc
          rw [hold m hlt]
          refine ⟨hsource, hput', hforget, fun m' hm' hsome => ?_⟩
          rw [hold m' (Nat.lt_trans hm' hlt)]
          exact hdistinct m' hm' hsome
        · -- the call that was added
          rw [List.getElem?_concat_length, Option.some.injEq] at hcall
          cases hcall
          rw [handedOut_concat_self, hout] at hc
          cases hc
          rw [Function.update_self]
          refine ⟨hn, ⟨since, hputAt.put⟩, fun m hm hget => ?_, fun m hm hsome => ?_⟩
          · rcases Nat.lt_trichotomy m n with hlt | rfl | hgt
            · exact hlt
            · cases hget.symm.trans hputAt.put
            · exact absurd hget (hputAt.kept m hgt)
          · rw [hold m hm]
            rw [handedOut_concat_lt hm] at hsome
            exact hunused m hsome
      · have hfinish : ∀ {entries : List (Idle C × Nat)},
            (∀ e ∈ entries, e.2 ≠ n ∧ PutAt (calls ++ [.take key protocol now]) k e.1 e.2 ∧
              ∀ m, (handedOut calls m).isSome = true → source m ≠ e.2) →
            ∀ e ∈ entries, PutAt (calls ++ [.take key protocol now]) k e.1 e.2 ∧
              ∀ m, (handedOut (calls ++ [.take key protocol now]) m).isSome = true →
                Function.update source calls.length n m ≠ e.2 := by
          intro entries hall e he
          obtain ⟨hne, hputAt', hunused'⟩ := hall e he
          refine ⟨hputAt', fun m hm => ?_⟩
          rcases handedOut_concat hm with rfl | ⟨hlt, hsome⟩
          · rw [Function.update_self]
            exact Ne.symm hne
          · rw [hold m hlt]
            exact hunused' m hsome
        by_cases hk : k = (key, protocol)
        · subst hk
          exact ⟨entries, hentries, hpair, hfinish hput⟩
        · obtain ⟨others, out, hothers, -, hpair', hput'⟩ := traced_slot h (.take key protocol now) k
          refine ⟨others, hothers, (List.pairwise_append.mp hpair').1, hfinish fun e he => ?_⟩
          obtain ⟨hputAt', hunused'⟩ := hput' e (List.mem_append_left _ he) fun heq => by cases heq
          refine ⟨fun heq => ?_, hputAt', hunused'⟩
          rw [heq] at hputAt'
          exact hk (hputAt'.key_eq hputAt)

theorem traced_run (calls : List (Call C)) : ∃ source, Traced calls source := by
  induction calls using List.reverseRecOn with
  | nil =>
      refine ⟨id, fun n key protocol now c hcall => ?_, fun k => ⟨[], rfl, List.Pairwise.nil, ?_⟩⟩
      · cases hcall
      · intro e he
        cases he
  | append_singleton calls call ih =>
      obtain ⟨source, h⟩ := ih
      exact h.concat call

/-- The order and the map have the same keys, each once. -/
theorem Agree.perm {pool : ConnectionPool C} (h : pool.Agree) : pool.order.Perm pool.idle.keys :=
  (List.perm_ext_iff_of_nodup h.order_nodup pool.idle.keys_nodup).mpr fun k => h.mem_order k

/-- After any calls: every connection handed out was put under that key and protocol, by a call
no other connection handed out was put by, and not before the key was forgotten; and the order
lists the keys of the map, within the caps. -/
theorem pool_partitioned (calls : List (Call C)) :
    (∃ source : Nat → Nat, HandedOut calls source) ∧
    (run calls).order.Nodup ∧ (run calls).order.Perm (run calls).idle.keys ∧
    (run calls).keyCount ≤ 256 ∧
    ∀ k entries, (run calls).idle.lookup k = some entries → entries.length ≤ 6 := by
  obtain ⟨source, htraced⟩ := traced_run calls
  have hagree := agree_run calls
  refine ⟨⟨source, htraced.handed⟩, hagree.order_nodup, hagree.perm, ?_, hagree.slot_le⟩
  rw [keyCount, ← hagree.perm.length_eq]
  exact hagree.keys_le

end Pelorus.Net.ConnectionPool
