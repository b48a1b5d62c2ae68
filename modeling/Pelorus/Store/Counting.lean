import Pelorus.Store.Engine

/-
  Store/Counting.lean --- the code's counting is the naturals' counting.

  Under the invariant every operation of the engine returns the same engine in
  every faithful arithmetic, and that engine is given by `write`, `erase` and
  `forget`.  A log is read back one accepted record at a time (`Logged`), each of
  them under the checks a live write would meet.
-/
set_option autoImplicit false

namespace Pelorus.Store

open Lib Lib.Arith

namespace Engine

variable {e : Engine}

/-! ## One operation -/

section Faithful

variable {m : Type → Type} [Monad m] [LawfulMonad m] {u : Arith m} (hu : u.Faithful (2 ^ 64))

include hu

theorem cost_eq {key value : Bytes} (hkey : key.length ≤ MAX_KEY_BYTES)
    (hvalue : value.length ≤ MAX_VALUE_BYTES) (ns : UInt8) :
    cost u key value = pure (entryCost ⟨ns, key⟩ value) := by
  simp only [MAX_KEY_BYTES, MAX_VALUE_BYTES] at hkey hvalue
  have h₁ : key.length + value.length < 2 ^ 64 := by omega
  have h₂ : key.length + value.length + ENTRY_OVERHEAD_BYTES < 2 ^ 64 := by
    simp only [ENTRY_OVERHEAD_BYTES]
    omega
  rw [cost, hu.add_eq h₁, pure_bind, hu.add_eq h₂, entryCost]

theorem adjust_eq {count old new : Nat} (hle : old ≤ count) (hlt : count - old + new < 2 ^ 64) :
    adjust u count old new = pure (count - old + new) := by
  rw [adjust, hu.sub_eq hle, pure_bind, hu.add_eq hlt]

end Faithful

theorem entryCost_lt {k : EntryKey} {v : Bytes} (hkey : k.key.length ≤ MAX_KEY_BYTES)
    (hvalue : v.length ≤ MAX_VALUE_BYTES) : entryCost k v < 2 ^ 32 := by
  simp only [MAX_KEY_BYTES, MAX_VALUE_BYTES] at hkey hvalue
  simp only [entryCost, ENTRY_OVERHEAD_BYTES]
  omega

/-- The entry a put would replace, as `check_put` looks it up and prices it. -/
theorem Inv.mapM_cost (h : e.Inv) {m : Type → Type} [Monad m] [LawfulMonad m] {u : Arith m}
    (hu : u.Faithful (2 ^ 64)) (pid : PartId) (ns : Namespace) {key : Bytes}
    (hkey : key.length ≤ MAX_KEY_BYTES) :
    ((e.parts.get? pid).bind fun p => p.entries.get? ⟨ns.code, key⟩).mapM
        (fun old => cost u key old) =
      (pure ((e.lookup pid ⟨ns.code, key⟩).map (entryCost ⟨ns.code, key⟩)) : m _) := by
  show (e.lookup pid ⟨ns.code, key⟩).mapM _ = _
  cases hold : e.lookup pid ⟨ns.code, key⟩ with
  | none => rfl
  | some old =>
      rw [Option.mapM_some, cost_eq hu hkey (h.entry_ok hold).value_le ns.code]
      simp

theorem getD_map_lookup (e : Engine) (pid : PartId) (k : EntryKey) :
    ((e.lookup pid k).map (entryCost k)).getD 0 = e.held pid k := by
  unfold held
  cases e.lookup pid k <;> rfl

theorem getD_map_bytes (e : Engine) (pid : PartId) :
    ((e.parts.get? pid).map fun p => p.bytes).getD 0 = (e.part pid).bytes := by
  unfold part
  cases e.parts.get? pid <;> rfl

/-- The entry count is checked for a new key only. -/
theorem full_iff (e : Engine) (pid : PartId) (k : EntryKey) :
    (((e.lookup pid k).map (entryCost k)).isNone ∧
        (e.parts.get? pid).any (fun p => p.entries.size ≥ MAX_ENTRIES_PER_PARTITION)) ↔
      e.lookup pid k = none ∧ (e.part pid).entries.size ≥ MAX_ENTRIES_PER_PARTITION := by
  unfold part
  cases e.parts.get? pid <;> simp [Partition.empty, SortedMap.empty, SortedMap.size,
    MAX_ENTRIES_PER_PARTITION]

/-- A refusal is right where there is no room. -/
theorem error_iff {err : QuotaError} {p : Prop} (h : ¬ p) :
    (Except.error err : Except QuotaError Unit) = .ok () ↔ p := by
  constructor
  · intro heq
    cases heq
  · intro hp
    exact absurd hp h

/-- `check_put` answers the same in every arithmetic, and lets through exactly what
there is room for. -/
theorem checkPut_spec (h : e.Inv) (pid : PartId) (ns : Namespace) (key value : Bytes) :
    ∃ r : Except QuotaError Unit,
      Computes (2 ^ 64) (fun _ _ u => checkPut u e pid ns key value) r ∧
        (r = .ok () ↔ e.Room pid ⟨ns.code, key⟩ value) := by
  by_cases hkey : key.length > MAX_KEY_BYTES
  · refine ⟨.error (.keyTooLarge key.length), ?_, error_iff fun hroom => ?_⟩
    · intro m _ _ u hu
      simp only [checkPut, if_pos hkey]
    · exact absurd hroom.entry_ok.key_le (Nat.not_le.mpr hkey)
  by_cases hvalue : value.length > MAX_VALUE_BYTES
  · refine ⟨.error (.valueTooLarge value.length), ?_, error_iff fun hroom => ?_⟩
    · intro m _ _ u hu
      simp only [checkPut, if_neg hkey, if_pos hvalue]
    · exact absurd hroom.entry_ok.value_le (Nat.not_le.mpr hvalue)
  have hkey' := Nat.not_lt.mp hkey
  have hvalue' := Nat.not_lt.mp hvalue
  have hfull := e.full_iff pid ⟨ns.code, key⟩
  by_cases hmany : e.lookup pid ⟨ns.code, key⟩ = none ∧
      (e.part pid).entries.size ≥ MAX_ENTRIES_PER_PARTITION
  · refine ⟨.error .tooManyEntries, ?_, error_iff fun hroom => ?_⟩
    · intro m _ _ u hu
      simp only [checkPut, if_neg hkey, if_neg hvalue, h.mapM_cost hu pid ns hkey', pure_bind,
        if_pos (hfull.mpr hmany)]
    · exact absurd (hroom.count_lt hmany.1) (Nat.not_lt.mpr hmany.2)
  have hheld := h.held_le pid ⟨ns.code, key⟩
  have hbytes := h.bytes_le pid
  have hwords := h.total_le
  have hcost := entryCost_lt (k := ⟨ns.code, key⟩) (v := value) hkey' hvalue'
  simp only [GLOBAL_QUOTA_BYTES] at hwords
  -- the two sums stay far below a word, whatever the verdict
  generalize hpart : (e.part pid).bytes - e.held pid ⟨ns.code, key⟩ +
    entryCost ⟨ns.code, key⟩ value = wouldPart
  generalize htotal : e.total - e.held pid ⟨ns.code, key⟩ +
    entryCost ⟨ns.code, key⟩ value = wouldTotal
  have hchecks : ∀ (m : Type → Type) [Monad m] [LawfulMonad m] (u : Arith m),
      u.Faithful (2 ^ 64) → checkPut u e pid ns key value =
        if wouldPart > PARTITION_QUOTA_BYTES then return .error (.partitionFull wouldPart)
        else if wouldTotal > GLOBAL_QUOTA_BYTES then return .error (.globalFull wouldTotal)
        else return .ok () := by
    intro m _ _ u hu
    have hadjustPart := adjust_eq hu hheld (hpart ▸ (by omega : wouldPart < 2 ^ 64))
    have hadjustTotal := adjust_eq hu (Nat.le_trans hheld hbytes)
      (htotal ▸ (by omega : wouldTotal < 2 ^ 64))
    simp only [checkPut, if_neg hkey, if_neg hvalue, h.mapM_cost hu pid ns hkey', pure_bind,
      if_neg (fun hc => hmany (hfull.mp hc)), getD_map_lookup, getD_map_bytes,
      cost_eq hu hkey' hvalue' ns.code, hadjustPart, hadjustTotal, hpart, htotal]
  by_cases hwouldPart : wouldPart > PARTITION_QUOTA_BYTES
  · refine ⟨.error (.partitionFull wouldPart), ?_, error_iff fun hroom => ?_⟩
    · intro m _ _ u hu
      simp only [hchecks m u hu, if_pos hwouldPart]
    · exact absurd hroom.part_le (by omega)
  by_cases hwouldTotal : wouldTotal > GLOBAL_QUOTA_BYTES
  · refine ⟨.error (.globalFull wouldTotal), ?_, error_iff fun hroom => ?_⟩
    · intro m _ _ u hu
      simp only [hchecks m u hu, if_neg hwouldPart, if_pos hwouldTotal]
    · exact absurd hroom.total_le (by omega)
  · refine ⟨.ok (), ?_, fun _ => ⟨⟨⟨ns, rfl⟩, hkey', hvalue'⟩, ?_, ?_, ?_⟩, fun _ => rfl⟩
    · intro m _ _ u hu
      simp only [hchecks m u hu, if_neg hwouldPart, if_neg hwouldTotal]
    · intro hnone
      exact Nat.lt_of_not_ge fun hge => hmany ⟨hnone, hge⟩
    · omega
    · omega

/-- `put` is `write`, where there is room. -/
theorem put_eq (h : e.Inv) {pid : PartId} {ns : Namespace} {key value : Bytes}
    (hroom : e.Room pid ⟨ns.code, key⟩ value) :
    Computes (2 ^ 64) (fun _ _ u => put u e pid ns key value)
      (e.write pid ⟨ns.code, key⟩ value) := by
  intro m _ _ u hu
  have hheld := h.held_le pid ⟨ns.code, key⟩
  have hbytes := h.bytes_le pid
  have hpart := hroom.part_le
  have htotal := hroom.total_le
  simp only [PARTITION_QUOTA_BYTES, GLOBAL_QUOTA_BYTES] at hpart htotal
  have hold : replacedCost u key ((e.part pid).entries.get? ⟨ns.code, key⟩) =
      (pure (e.held pid ⟨ns.code, key⟩) : m Nat) := by
    rw [held, ← lookup_eq]
    cases hold : e.lookup pid ⟨ns.code, key⟩ with
    | none => rfl
    | some old =>
        exact cost_eq hu hroom.entry_ok.key_le (h.entry_ok hold).value_le ns.code
  have hadjustPart := adjust_eq hu hheld (Nat.lt_of_le_of_lt hpart (by decide))
  have hadjustTotal := adjust_eq hu (Nat.le_trans hheld hbytes)
    (Nat.lt_of_le_of_lt htotal (by decide))
  have hdef : (e.parts.get? pid).getD Partition.empty = e.part pid := rfl
  simp only [put, hdef, cost_eq hu hroom.entry_ok.key_le hroom.entry_ok.value_le ns.code, pure_bind,
    hold, hadjustPart, hadjustTotal]
  rfl

theorem Inv.erase_of_none (h : e.Inv) {pid : PartId} {k : EntryKey} (hk : e.lookup pid k = none) :
    e.erase pid k = e := by
  apply (h.erase pid k).ext h
  intro pid' k'
  rw [lookup_erase]
  split
  · rename_i heq
    rw [heq.1, heq.2, hk]
  · rfl

/-- `delete` is `erase`, and says whether the key was there. -/
theorem delete_eq (h : e.Inv) (pid : PartId) (ns : Namespace) (key : Bytes) :
    Computes (2 ^ 64) (fun _ _ u => delete u e pid ns key)
      ((e.get pid ns key).isSome, e.erase pid ⟨ns.code, key⟩) := by
  intro m _ _ u hu
  simp only [delete, get]
  cases hp : e.parts.get? pid with
  | none =>
      have hnone : e.lookup pid ⟨ns.code, key⟩ = none := by
        simp [lookup, hp]
      simp only [hnone, h.erase_of_none hnone, Option.isSome_none]
  | some part =>
      have hpart := part_of_get? hp
      cases hold : part.entries.get? ⟨ns.code, key⟩ with
      | none =>
          have hnone : e.lookup pid ⟨ns.code, key⟩ = none := by
            simp [lookup, hp, hold]
          simp only [hold, hnone, h.erase_of_none hnone, Option.isSome_none]
      | some old =>
          have hlookup : e.lookup pid ⟨ns.code, key⟩ = some old := by
            simp [lookup, hp, hold]
          have hok := h.entry_ok hlookup
          have hheld : e.held pid ⟨ns.code, key⟩ = entryCost ⟨ns.code, key⟩ old := by
            simp [held, hlookup]
          have hle := h.held_le pid ⟨ns.code, key⟩
          have hle' := h.bytes_le pid
          rw [hheld, hpart] at hle
          rw [hpart] at hle'
          simp only [hold, cost_eq hu hok.key_le hok.value_le ns.code, pure_bind, hu.sub_eq hle,
            hu.sub_eq (Nat.le_trans hle hle'), hlookup, Option.isSome_some, Engine.erase, hpart,
            hheld]
          split <;> rfl

/-- `remove_partition` is `forget`, and counts the entries that went. -/
theorem removePartition_eq (h : e.Inv) (pid : PartId) :
    Computes (2 ^ 64) (fun _ _ u => removePartition u e pid)
      ((e.part pid).entries.size, e.forget pid) := by
  intro m _ _ u hu
  simp only [removePartition]
  cases hp : e.parts.get? pid with
  | none =>
      have hpart := part_of_none hp
      have hsame : e.forget pid = e := by
        apply (h.forget pid).ext h
        intro pid' k
        rw [lookup_forget]
        split
        · rename_i heq
          simp [lookup, heq, hp]
        · rfl
      rw [hsame, hpart]
      rfl
  | some p =>
      have hle := h.bytes_le pid
      rw [part_of_get? hp] at hle
      simp only [hu.sub_eq hle, pure_bind, forget, part_of_get? hp]

/-! ## A site -/

/-- The partitions of a site, as `remove_site` collects them. -/
def doomed (e : Engine) (site : Bytes) : List PartId :=
  (e.parts.entries.map Prod.fst).filter fun id => id.site = site

/-- `remove_site`. -/
def forgetSite (e : Engine) (site : Bytes) : Engine := (e.doomed site).foldl forget e

theorem inv_foldl_forget (ids : List PartId) : ∀ {e : Engine}, e.Inv → (ids.foldl forget e).Inv := by
  induction ids with
  | nil => exact fun h => h
  | cons id ids ih => exact fun h => ih (h.forget id)

theorem Inv.forgetSite (h : e.Inv) (site : Bytes) : (e.forgetSite site).Inv :=
  inv_foldl_forget _ h

theorem get?_foldl_forget (ids : List PartId) (e : Engine) (pid : PartId) :
    (ids.foldl forget e).parts.get? pid = if pid ∈ ids then none else e.parts.get? pid := by
  induction ids generalizing e with
  | nil => simp
  | cons id ids ih =>
      rw [List.foldl_cons, ih, get?_forget]
      by_cases hmem : pid ∈ ids
      · simp [hmem]
      · by_cases heq : pid = id <;> simp [hmem, heq]

theorem mem_doomed {site : Bytes} {pid : PartId} :
    pid ∈ e.doomed site ↔ (∃ p, e.parts.get? pid = some p) ∧ pid.site = site := by
  simp only [doomed, List.mem_filter, List.mem_map, decide_eq_true_eq]
  constructor
  · rintro ⟨⟨⟨pid', p⟩, hmem, rfl⟩, hsite⟩
    exact ⟨⟨p, SortedMap.mem_entries.mp hmem⟩, hsite⟩
  · rintro ⟨⟨p, hp⟩, hsite⟩
    exact ⟨⟨(pid, p), SortedMap.mem_entries.mpr hp, rfl⟩, hsite⟩

theorem get?_forgetSite (e : Engine) (site : Bytes) (pid : PartId) :
    (e.forgetSite site).parts.get? pid = if pid.site = site then none else e.parts.get? pid := by
  rw [forgetSite, get?_foldl_forget]
  by_cases hsite : pid.site = site
  · cases hp : e.parts.get? pid with
    | none => simp
    | some p =>
        have hmem : pid ∈ e.doomed site := mem_doomed.mpr ⟨⟨p, hp⟩, hsite⟩
        simp [hmem, hsite]
  · have hmem : pid ∉ e.doomed site := fun hmem => hsite (mem_doomed.mp hmem).2
    simp [hmem, hsite]

theorem lookup_forgetSite (e : Engine) (site : Bytes) (pid : PartId) (k : EntryKey) :
    (e.forgetSite site).lookup pid k = if pid.site = site then none else e.lookup pid k := by
  unfold lookup
  rw [get?_forgetSite]
  split <;> rfl

theorem removePartitions_eq (ids : List PartId) : ∀ {e : Engine}, e.Inv →
    ∃ n, Computes (2 ^ 64) (fun _ _ u => removePartitions u e ids) (n, ids.foldl forget e) := by
  induction ids with
  | nil =>
      intro e h
      exact ⟨0, fun m _ _ u hu => rfl⟩
  | cons id ids ih =>
      intro e h
      obtain ⟨n, hn⟩ := ih (h.forget id)
      refine ⟨(e.part id).entries.size + n, ?_⟩
      intro m _ _ u hu
      have hone := removePartition_eq h id m u hu
      have hrest := hn m u hu
      simp only at hone hrest
      simp only [removePartitions, hone, pure_bind, hrest, List.foldl_cons]

/-- `remove_site` is `forgetSite`. -/
theorem removeSite_eq (h : e.Inv) (site : Bytes) :
    ∃ n, Computes (2 ^ 64) (fun _ _ u => removeSite u e site) (n, e.forgetSite site) :=
  removePartitions_eq (e.doomed site) h

end Engine

end Pelorus.Store
