import Pelorus.Lib.Checked
import Pelorus.Lib.SortedMap
import Pelorus.Store.PartId

/-
  Store/Engine.lean --- the in-memory state of a store and the rules that govern
  it (`px-store/src/engine.rs`).

  State lives in an ordered map from partition ids to partitions, and a read or a
  write names exactly one partition id.  Everything that counts bytes is written
  over an `Arith`: the code is the reading at `saturating`, and `u64` abbreviates it.

  LOOKUPS are what an engine means: `Engine.lookup` is the map from partition id
  and entry key to value that the operations are specified by.
-/
set_option autoImplicit false

namespace Pelorus.Store

open Lib

/-! ## Limits -/

def MAX_ENTRIES_PER_PARTITION : Nat := 10000

def PARTITION_QUOTA_BYTES : Nat := 4 * 2 ^ 20

def GLOBAL_QUOTA_BYTES : Nat := 64 * 2 ^ 20

/-- Fixed cost of one entry on top of its key and value. -/
def ENTRY_OVERHEAD_BYTES : Nat := 48

/-! ## The engine -/

/-- The entries of one partition and the bytes they account for. -/
structure Partition where
  entries : SortedMap EntryKey Bytes
  bytes : Nat

/-- `Partition::default`. -/
def Partition.empty : Partition := ⟨SortedMap.empty, 0⟩

/-- All state, in memory. -/
structure Engine where
  parts : SortedMap PartId Partition
  total : Nat

/-- The result of reading a log. -/
structure Recovered where
  engine : Engine
  /-- bytes of the input that form the consistent prefix -/
  validLen : Nat
  /-- the input held no header -/
  fresh : Bool

/-- The code's arithmetic on `u64` and `usize`. -/
abbrev u64 : Arith Id := Arith.saturating (2 ^ 64)

namespace Engine

def default : Engine := ⟨SortedMap.empty, 0⟩

/-- What the engine holds under an entry key of a partition. -/
def lookup (e : Engine) (pid : PartId) (k : EntryKey) : Option Bytes :=
  (e.parts.get? pid).bind fun p => p.entries.get? k

def get (e : Engine) (pid : PartId) (ns : Namespace) (key : Bytes) : Option Bytes :=
  e.lookup pid ⟨ns.code, key⟩

def keys (e : Engine) (pid : PartId) (ns : Namespace) : List Bytes :=
  match e.parts.get? pid with
  | none => []
  | some p => ((p.entries.entries.map Prod.fst).filter fun k => k.ns = ns.code).map EntryKey.key

def usage (e : Engine) (pid : PartId) : Nat :=
  match e.parts.get? pid with
  | none => 0
  | some p => p.bytes

def totalUsage (e : Engine) : Nat := e.total

section Counting

variable {m : Type → Type} [Monad m] (u : Arith m)

/-- `cost`: what an entry accounts for. -/
def cost (key value : Bytes) : m Nat := do
  let n ← u.add key.length value.length
  u.add n ENTRY_OVERHEAD_BYTES

/-- `saturating_sub(old)` followed by `saturating_add(new)`. -/
def adjust (count old new : Nat) : m Nat := do
  let n ← u.sub count old
  u.add n new

def checkPut (e : Engine) (pid : PartId) (ns : Namespace) (key value : Bytes) :
    m (Except QuotaError Unit) :=
  if key.length > MAX_KEY_BYTES then return .error (.keyTooLarge key.length)
  else if value.length > MAX_VALUE_BYTES then return .error (.valueTooLarge value.length)
  else do
    let part := e.parts.get? pid
    let existing ← (part.bind fun p => p.entries.get? ⟨ns.code, key⟩).mapM fun old =>
      cost u key old
    if existing.isNone ∧ part.any (fun p => p.entries.size ≥ MAX_ENTRIES_PER_PARTITION) then
      return .error .tooManyEntries
    else
      let old := existing.getD 0
      let newCost ← cost u key value
      let partBytes := (part.map fun p => p.bytes).getD 0
      let wouldPart ← adjust u partBytes old newCost
      if wouldPart > PARTITION_QUOTA_BYTES then return .error (.partitionFull wouldPart)
      else
        let wouldTotal ← adjust u e.total old newCost
        if wouldTotal > GLOBAL_QUOTA_BYTES then return .error (.globalFull wouldTotal)
        else return .ok ()

/-- The cost of the value an insertion replaced: `map_or(0, |old| cost(key, &old))`. -/
def replacedCost (key : Bytes) : Option Bytes → m Nat
  | none => pure 0
  | some old => cost u key old

/-- `Engine::put`: callers run `check_put` first. -/
def put (e : Engine) (pid : PartId) (ns : Namespace) (key value : Bytes) : m Engine := do
  let part := (e.parts.get? pid).getD Partition.empty
  let newCost ← cost u key value
  let old ← replacedCost u key (part.entries.get? ⟨ns.code, key⟩)
  let bytes ← adjust u part.bytes old newCost
  let total ← adjust u e.total old newCost
  return ⟨e.parts.insert pid ⟨part.entries.insert ⟨ns.code, key⟩ value, bytes⟩, total⟩

/-- `Engine::delete`: whether the key existed, and the engine without it. -/
def delete (e : Engine) (pid : PartId) (ns : Namespace) (key : Bytes) : m (Bool × Engine) :=
  match e.parts.get? pid with
  | none => return (false, e)
  | some part =>
      match part.entries.get? ⟨ns.code, key⟩ with
      | none => return (false, e)
      | some old => do
          let freed ← cost u key old
          let bytes ← u.sub part.bytes freed
          let total ← u.sub e.total freed
          let entries := part.entries.erase ⟨ns.code, key⟩
          if entries.size = 0 then return (true, ⟨e.parts.erase pid, total⟩)
          else return (true, ⟨e.parts.insert pid ⟨entries, bytes⟩, total⟩)

/-- `Engine::remove_partition`: how many entries went, and the engine without them. -/
def removePartition (e : Engine) (pid : PartId) : m (Nat × Engine) :=
  match e.parts.get? pid with
  | none => return (0, e)
  | some p => do
      let total ← u.sub e.total p.bytes
      return (p.entries.size, ⟨e.parts.erase pid, total⟩)

/-- The loop of `remove_site` over the doomed partitions. -/
def removePartitions (e : Engine) : List PartId → m (Nat × Engine)
  | [] => return (0, e)
  | id :: doomed => do
      let (n, e) ← removePartition u e id
      let (n', e) ← removePartitions e doomed
      return (n + n', e)

def removeSite (e : Engine) (site : Bytes) : m (Nat × Engine) :=
  removePartitions u e ((e.parts.entries.map Prod.fst).filter fun id => id.site = site)

/-- `Engine::apply_logged`: a record read from disk, under every rule a live write
would meet. -/
def applyLogged (e : Engine) : Op → m (Option Engine)
  | .put ns pid key value =>
      match Namespace.fromCode ns with
      | none => return none
      | some ns =>
          match PartId.decode pid with
          | none => return none
          | some pid => do
              match ← checkPut u e pid ns key value with
              | .error _ => return none
              | .ok () => some <$> put u e pid ns key value
  | .delete ns pid key =>
      match Namespace.fromCode ns with
      | none => return none
      | some ns =>
          match PartId.decode pid with
          | none => return none
          | some pid => (fun r => some r.2) <$> delete u e pid ns key

/-- The loop of `recover`, from the record boundary `pos` with `rest` still to be
read.  Every record takes bytes, so the input's length is enough fuel
(`recoverLoop_fuel`). -/
def recoverLoop : Nat → Engine → Nat → Bytes → m (Engine × Nat)
  | 0, e, pos, _ => return (e, pos)
  | fuel + 1, e, pos, rest =>
      match decodeRecord rest with
      | .record op used => do
          match ← applyLogged u e op with
          | none => return (e, pos)
          | some e' => do
              let pos ← u.add pos used
              recoverLoop fuel e' pos (rest.drop used)
      | _ => return (e, pos)

def recover (bytes : Bytes) : m (Except FormatError Recovered) :=
  match checkHeader bytes with
  | .error err => return .error err
  | .ok .fresh => return .ok ⟨default, 0, true⟩
  | .ok .valid => do
      let (e, pos) ← recoverLoop u bytes.length default HEADER_LEN (bytes.drop HEADER_LEN)
      return .ok ⟨e, pos, false⟩

end Counting

/-! ## Snapshots -/

/-- The records of one partition. -/
def partitionRecords (pid : PartId) (part : Partition) : Except FormatError (List Bytes) :=
  match pid.encode with
  | none => .error .recordTooLarge
  | some pidBytes =>
      part.entries.entries.mapM fun e => encodeRecord (.put e.1.ns pidBytes e.1.key e.2)

/-- `Engine::snapshot_excluding`: a complete log of the state that would remain if
every partition for which `drop` is true were removed. -/
def snapshotExcluding (e : Engine) (drop : PartId → Bool) : Except FormatError Bytes := do
  let records ← (e.parts.entries.filter fun p => !drop p.1).mapM fun p => partitionRecords p.1 p.2
  return headerBytes ++ records.flatten.flatten

end Engine

end Pelorus.Store

/-! # What an engine counts, and that it counts it right

INVARIANT.  `Engine.Inv` says that every counter equals the sum it stands for,
that no partition is empty, and that every quota holds.  `write`, `erase` and
`forget` are the code's `put`, `delete` and `remove_partition` counted in the
naturals; under the invariant the code's operations are these in every faithful
arithmetic (`put_eq`, `delete_eq`, `removePartition_eq`), so nothing saturates.

MEANING.  Two engines with the invariant and the same lookups are the same engine
(`Inv.ext`), so an operation is specified by its lookups. -/

namespace Pelorus.Store

open Lib

/-! ## The invariant -/

/-- What an entry accounts for. -/
def entryCost (k : EntryKey) (v : Bytes) : Nat :=
  k.key.length + v.length + ENTRY_OVERHEAD_BYTES

/-- An entry a live write could have stored. -/
structure EntryOk (k : EntryKey) (v : Bytes) : Prop where
  ns_ok : ∃ ns : Namespace, k.ns = ns.code
  key_le : k.key.length ≤ MAX_KEY_BYTES
  value_le : v.length ≤ MAX_VALUE_BYTES

/-- A partition that counts its entries and is within its quotas. -/
structure Partition.Sound (p : Partition) : Prop where
  bytes_eq : p.bytes = p.entries.sum entryCost
  nonempty : 0 < p.entries.size
  count_le : p.entries.size ≤ MAX_ENTRIES_PER_PARTITION
  bytes_le : p.bytes ≤ PARTITION_QUOTA_BYTES
  entry_ok : ∀ {k : EntryKey} {v : Bytes}, p.entries.get? k = some v → EntryOk k v

namespace Engine

/-- An engine that counts its partitions and is within its quota. -/
structure Inv (e : Engine) : Prop where
  part_sound : ∀ {pid : PartId} {p : Partition}, e.parts.get? pid = some p → p.Sound
  total_eq : e.total = e.parts.sum fun _ p => p.bytes
  total_le : e.total ≤ GLOBAL_QUOTA_BYTES

theorem inv_default : default.Inv where
  part_sound := by
    intro pid p h
    simp [default] at h
  total_eq := rfl
  total_le := Nat.zero_le _

/-- The partition of an id; empty where there is none. -/
def part (e : Engine) (pid : PartId) : Partition := (e.parts.get? pid).getD Partition.empty

/-- What the entry under `k` accounts for; nothing where there is none. -/
def held (e : Engine) (pid : PartId) (k : EntryKey) : Nat := (e.lookup pid k).elim 0 (entryCost k)

theorem lookup_eq (e : Engine) (pid : PartId) (k : EntryKey) :
    e.lookup pid k = (e.part pid).entries.get? k := by
  unfold lookup part
  cases e.parts.get? pid <;> rfl

variable {pid : PartId}

theorem part_of_get? {e : Engine} {p : Partition} (h : e.parts.get? pid = some p) : e.part pid = p := by
  simp [part, h]

theorem part_of_none {e : Engine} (h : e.parts.get? pid = none) : e.part pid = Partition.empty := by
  simp [part, h]

variable {e : Engine}

theorem Inv.bytes_part (h : e.Inv) (pid : PartId) :
    (e.part pid).bytes = (e.part pid).entries.sum entryCost := by
  cases hp : e.parts.get? pid with
  | none => rw [part_of_none hp]; rfl
  | some p => rw [part_of_get? hp]; exact (h.part_sound hp).bytes_eq

theorem Inv.bytes_le (h : e.Inv) (pid : PartId) : (e.part pid).bytes ≤ e.total := by
  cases hp : e.parts.get? pid with
  | none => rw [part_of_none hp]; exact Nat.zero_le _
  | some p =>
      rw [part_of_get? hp, h.total_eq]
      exact SortedMap.le_sum (f := fun _ p => p.bytes) hp

theorem Inv.held_le (h : e.Inv) (pid : PartId) (k : EntryKey) : e.held pid k ≤ (e.part pid).bytes := by
  rw [held, lookup_eq, h.bytes_part]
  cases hv : (e.part pid).entries.get? k with
  | none => exact Nat.zero_le _
  | some v => exact SortedMap.le_sum (f := entryCost) hv

theorem Inv.entry_ok (h : e.Inv) {k : EntryKey} {v : Bytes} (hv : e.lookup pid k = some v) :
    EntryOk k v := by
  cases hp : e.parts.get? pid with
  | none => simp [lookup, hp] at hv
  | some p =>
      simp only [lookup, hp, Option.bind_some] at hv
      exact (h.part_sound hp).entry_ok hv

theorem Inv.ext {e' : Engine} (h : e.Inv) (h' : e'.Inv)
    (heq : ∀ pid k, e.lookup pid k = e'.lookup pid k) : e = e' := by
  -- a partition that one of them lacks would be empty in the other
  have hnone : ∀ {a b : Engine}, b.Inv → (∀ pid k, a.lookup pid k = b.lookup pid k) → ∀ {pid},
      a.parts.get? pid = none → b.parts.get? pid = none := by
    intro a b hb hab pid ha
    cases hp : b.parts.get? pid with
    | none => rfl
    | some p =>
        obtain ⟨k, v, hk⟩ := SortedMap.size_pos_iff.mp (hb.part_sound hp).nonempty
        have := hab pid k
        simp [lookup, ha, hp, hk] at this
  have hparts : e.parts = e'.parts := by
    apply SortedMap.ext_get?
    intro pid
    cases hp : e.parts.get? pid with
    | none => exact (hnone h' heq hp).symm
    | some p =>
        cases hp' : e'.parts.get? pid with
        | none =>
            rw [hnone h (fun pid k => (heq pid k).symm) hp'] at hp
            cases hp
        | some p' =>
            have hentries : p.entries = p'.entries := by
              apply SortedMap.ext_get?
              intro k
              have := heq pid k
              simpa [lookup, hp, hp'] using this
            have hbytes : p.bytes = p'.bytes := by
              rw [(h.part_sound hp).bytes_eq, (h'.part_sound hp').bytes_eq, hentries]
            cases p
            cases p'
            simp_all
  have htotal : e.total = e'.total := by
    rw [h.total_eq, h'.total_eq, hparts]
  cases e
  cases e'
  simp_all

/-! ## The operations, counted in the naturals -/

/-- `put`. -/
def write (e : Engine) (pid : PartId) (k : EntryKey) (v : Bytes) : Engine where
  parts := e.parts.insert pid
    ⟨(e.part pid).entries.insert k v, (e.part pid).bytes - e.held pid k + entryCost k v⟩
  total := e.total - e.held pid k + entryCost k v

/-- `delete`. -/
def erase (e : Engine) (pid : PartId) (k : EntryKey) : Engine where
  parts :=
    if ((e.part pid).entries.erase k).size = 0 then e.parts.erase pid
    else e.parts.insert pid ⟨(e.part pid).entries.erase k, (e.part pid).bytes - e.held pid k⟩
  total := e.total - e.held pid k

/-- `remove_partition`. -/
def forget (e : Engine) (pid : PartId) : Engine where
  parts := e.parts.erase pid
  total := e.total - (e.part pid).bytes

/-- What `check_put` lets through. -/
structure Room (e : Engine) (pid : PartId) (k : EntryKey) (v : Bytes) : Prop where
  entry_ok : EntryOk k v
  count_lt : e.lookup pid k = none → (e.part pid).entries.size < MAX_ENTRIES_PER_PARTITION
  part_le : (e.part pid).bytes - e.held pid k + entryCost k v ≤ PARTITION_QUOTA_BYTES
  total_le : e.total - e.held pid k + entryCost k v ≤ GLOBAL_QUOTA_BYTES

/-! ## Lookups after an operation -/

theorem get?_write (e : Engine) (pid : PartId) (k : EntryKey) (v : Bytes) (pid' : PartId) :
    (e.write pid k v).parts.get? pid' = if pid' = pid then
      some ⟨(e.part pid).entries.insert k v, (e.part pid).bytes - e.held pid k + entryCost k v⟩
      else e.parts.get? pid' :=
  SortedMap.get?_insert ..

theorem lookup_write (e : Engine) (pid : PartId) (k : EntryKey) (v : Bytes) (pid' : PartId)
    (k' : EntryKey) : (e.write pid k v).lookup pid' k' =
      if pid' = pid ∧ k' = k then some v else e.lookup pid' k' := by
  by_cases hpid : pid' = pid
  · subst hpid
    rw [lookup, get?_write, if_pos rfl, Option.bind_some, SortedMap.get?_insert, lookup_eq]
    by_cases hk : k' = k <;> simp [hk]
  · simp only [lookup, get?_write, hpid, false_and, if_false]

theorem get?_erase_of_ne {pid' : PartId} (h : pid' ≠ pid) (k : EntryKey) :
    (e.erase pid k).parts.get? pid' = e.parts.get? pid' := by
  unfold erase
  simp only
  split
  · rw [SortedMap.get?_erase, if_neg h]
  · rw [SortedMap.get?_insert, if_neg h]

theorem lookup_erase (e : Engine) (pid : PartId) (k : EntryKey) (pid' : PartId) (k' : EntryKey) :
    (e.erase pid k).lookup pid' k' =
      if pid' = pid ∧ k' = k then none else e.lookup pid' k' := by
  by_cases hpid : pid' = pid
  · subst hpid
    have hentry : ((e.part pid').entries.erase k).get? k' =
        if pid' = pid' ∧ k' = k then none else e.lookup pid' k' := by
      rw [SortedMap.get?_erase, lookup_eq]
      by_cases hk : k' = k <;> simp [hk]
    rw [← hentry]
    unfold erase lookup
    simp only
    split
    · rename_i hempty
      rw [SortedMap.get?_erase, if_pos rfl, Option.bind_none]
      -- an empty map has no entry
      cases hv : ((e.part pid').entries.erase k).get? k' with
      | none => rfl
      | some v =>
          have := SortedMap.size_pos_iff.mpr ⟨k', v, hv⟩
          omega
    · rw [SortedMap.get?_insert, if_pos rfl, Option.bind_some]
  · simp only [lookup, get?_erase_of_ne hpid, hpid, false_and, if_false]

theorem get?_forget (e : Engine) (pid pid' : PartId) :
    (e.forget pid).parts.get? pid' = if pid' = pid then none else e.parts.get? pid' :=
  SortedMap.get?_erase ..

theorem lookup_forget (e : Engine) (pid pid' : PartId) (k : EntryKey) :
    (e.forget pid).lookup pid' k = if pid' = pid then none else e.lookup pid' k := by
  unfold lookup
  rw [get?_forget]
  split <;> rfl

/-! ## The operations keep the invariant -/

theorem sum_parts (pid : PartId) : (e.parts.get? pid).elim 0 (fun p => p.bytes) =
    (e.part pid).bytes := by
  unfold part
  cases e.parts.get? pid <;> rfl

theorem sum_entries (pid : PartId) (k : EntryKey) :
    ((e.part pid).entries.get? k).elim 0 (entryCost k) = e.held pid k := by
  rw [held, lookup_eq]

theorem Inv.write (h : e.Inv) {k : EntryKey} {v : Bytes} (hroom : e.Room pid k v) :
    (e.write pid k v).Inv := by
  have hheld := h.held_le pid k
  have hbytes := h.bytes_le pid
  refine ⟨?_, ?_, hroom.total_le⟩
  · intro pid' p hp
    rw [get?_write] at hp
    split at hp
    · cases hp
      have hsum := SortedMap.sum_insert entryCost (e.part pid).entries k v
      have hsize := SortedMap.size_insert (e.part pid).entries k v
      rw [sum_entries, ← h.bytes_part] at hsum
      refine ⟨?_, ?_, ?_, hroom.part_le, ?_⟩
      · simp only
        omega
      · exact SortedMap.size_pos_iff.mpr ⟨k, v, SortedMap.get?_insert_self ..⟩
      · rw [hsize, ← lookup_eq]
        split
        · rename_i hnone
          exact hroom.count_lt hnone
        · cases hp : e.parts.get? pid with
          | none =>
              rw [part_of_none hp]
              exact Nat.zero_le _
          | some p =>
              rw [part_of_get? hp]
              exact (h.part_sound hp).count_le
      · intro k' v' hv'
        rw [SortedMap.get?_insert] at hv'
        split at hv'
        · rename_i hk
          cases hv'
          rw [hk]
          exact hroom.entry_ok
        · rw [← lookup_eq] at hv'
          exact h.entry_ok hv'
    · exact h.part_sound hp
  · have hsum := SortedMap.sum_insert (fun _ p => p.bytes) e.parts pid
      ⟨(e.part pid).entries.insert k v, (e.part pid).bytes - e.held pid k + entryCost k v⟩
    rw [sum_parts, ← h.total_eq] at hsum
    show e.total - e.held pid k + entryCost k v = _
    simp only [Engine.write] at hsum ⊢
    omega

theorem Inv.erase (h : e.Inv) (pid : PartId) (k : EntryKey) : (e.erase pid k).Inv := by
  have hheld := h.held_le pid k
  have hbytes := h.bytes_le pid
  have hsum := SortedMap.sum_erase entryCost (e.part pid).entries k
  rw [sum_entries, ← h.bytes_part] at hsum
  refine ⟨?_, ?_, Nat.le_trans (Nat.sub_le _ _) h.total_le⟩
  · intro pid' p hp
    by_cases hpid : pid' = pid
    · subst hpid
      simp only [Engine.erase] at hp
      split at hp
      · rw [SortedMap.get?_erase, if_pos rfl] at hp
        cases hp
      · rename_i hne
        rw [SortedMap.get?_insert, if_pos rfl] at hp
        cases hp
        -- an entry was there, so the partition was
        have hpos : 0 < (e.part pid').entries.size := by
          obtain ⟨k', v, hv⟩ := SortedMap.size_pos_iff.mp (Nat.pos_of_ne_zero hne)
          rw [SortedMap.get?_erase] at hv
          split at hv
          · cases hv
          · exact SortedMap.size_pos_iff.mpr ⟨k', v, hv⟩
        cases hp : e.parts.get? pid' with
        | none =>
            rw [part_of_none hp] at hpos
            cases hpos
        | some p =>
            have hsound := h.part_sound hp
            rw [part_of_get? hp] at hsum hne hheld ⊢
            have hcount := SortedMap.sum_erase (fun _ _ => 1) p.entries k
            rw [← SortedMap.size_eq_sum, ← SortedMap.size_eq_sum] at hcount
            refine ⟨?_, Nat.pos_of_ne_zero hne, ?_, ?_, ?_⟩
            · simp only
              omega
            · have := hsound.count_le
              simp only
              omega
            · exact Nat.le_trans (Nat.sub_le _ _) hsound.bytes_le
            · intro k' v hv
              rw [SortedMap.get?_erase] at hv
              split at hv
              · cases hv
              · exact hsound.entry_ok hv
    · rw [get?_erase_of_ne hpid] at hp
      exact h.part_sound hp
  · simp only [Engine.erase]
    split
    · rename_i hempty
      -- what was left of the partition had no entries, so no bytes
      have hzero : ((e.part pid).entries.erase k).sum entryCost = 0 := by
        have hnil : ((e.part pid).entries.erase k).entries = [] := List.length_eq_zero_iff.mp hempty
        simp [SortedMap.sum, hnil]
      have htotal := SortedMap.sum_erase (fun _ p => p.bytes) e.parts pid
      rw [sum_parts, ← h.total_eq] at htotal
      omega
    · have htotal := SortedMap.sum_insert (fun _ p => p.bytes) e.parts pid
        ⟨(e.part pid).entries.erase k, (e.part pid).bytes - e.held pid k⟩
      rw [sum_parts, ← h.total_eq] at htotal
      simp only at htotal
      omega

theorem Inv.forget (h : e.Inv) (pid : PartId) : (e.forget pid).Inv := by
  refine ⟨?_, ?_, Nat.le_trans (Nat.sub_le _ _) h.total_le⟩
  · intro pid' p hp
    rw [get?_forget] at hp
    split at hp
    · cases hp
    · exact h.part_sound hp
  · have htotal := SortedMap.sum_erase (fun _ p => p.bytes) e.parts pid
    rw [sum_parts, ← h.total_eq] at htotal
    simp only [Engine.forget]
    omega

end Engine

end Pelorus.Store
