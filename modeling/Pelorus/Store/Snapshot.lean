import Pelorus.Store.Replay

/-
  Store/Snapshot.lean --- a rewritten log means what the engine meant.

  A snapshot is a header and one put per surviving entry.  Read back, each put
  meets the quota checks of an engine that holds only entries of the original
  (`Sub`), so there is always room (`room_of_sub`), whatever the order; and the
  engine at the end has the original's lookups outside the dropped partitions.

  FORGETTING.  The bytes are a function of the surviving lookups alone
  (`snapshotExcluding_congr`).
-/
set_option autoImplicit false

namespace Pelorus.Store

open Lib Lib.Arith

namespace Engine

variable {e : Engine}

/-! ## What survives -/

/-- The engine without the dropped partitions. -/
def excluding (e : Engine) (drop : PartId → Bool) : Engine where
  parts := e.parts.filter fun p => !drop p.1
  total := (e.parts.filter fun p => !drop p.1).sum fun _ p => p.bytes

theorem get?_excluding (e : Engine) (drop : PartId → Bool) (pid : PartId) :
    (e.excluding drop).parts.get? pid = if drop pid then none else e.parts.get? pid := by
  simp only [excluding, SortedMap.get?_filter]
  cases drop pid <;> cases e.parts.get? pid <;> rfl

theorem lookup_excluding (e : Engine) (drop : PartId → Bool) (pid : PartId) (k : EntryKey) :
    (e.excluding drop).lookup pid k = if drop pid then none else e.lookup pid k := by
  unfold lookup
  rw [get?_excluding]
  split <;> rfl

theorem Inv.excluding (h : e.Inv) (drop : PartId → Bool) : (e.excluding drop).Inv where
  part_sound := by
    intro pid p hp
    rw [get?_excluding] at hp
    split at hp
    · cases hp
    · exact h.part_sound hp
  total_eq := rfl
  total_le := by
    refine Nat.le_trans ?_ h.total_le
    rw [h.total_eq]
    show ((e.excluding drop).parts.sum fun _ p => p.bytes) ≤ _
    apply SortedMap.sum_le_sum
    intro pid p hp
    rw [get?_excluding] at hp
    split at hp
    · cases hp
    · exact ⟨p, hp, Nat.le_refl _⟩

/-! ## A part of an engine -/

/-- Every entry of one engine is in the other. -/
def Sub (s e : Engine) : Prop :=
  ∀ {pid : PartId} {k : EntryKey} {v : Bytes}, s.lookup pid k = some v → e.lookup pid k = some v

/-- The entries of a part, with one more, cost no more than the whole. -/
theorem insert_sub {s : Engine} (hsub : Sub s e) {pid : PartId} {k : EntryKey} {v : Bytes}
    (hv : e.lookup pid k = some v) {k' : EntryKey} {v' : Bytes}
    (hv' : ((s.part pid).entries.insert k v).get? k' = some v') :
    (e.part pid).entries.get? k' = some v' := by
  rw [← lookup_eq]
  rw [SortedMap.get?_insert] at hv'
  split at hv'
  · rename_i hk
    cases hv'
    rw [hk]
    exact hv
  · rw [← lookup_eq] at hv'
    exact hsub hv'

theorem room_of_sub {s : Engine} (hs : s.Inv) (h : e.Inv) (hsub : Sub s e) {pid : PartId}
    {k : EntryKey} {v : Bytes} (hv : e.lookup pid k = some v) : s.Room pid k v := by
  have hpart : ∃ p, e.parts.get? pid = some p := by
    cases hp : e.parts.get? pid with
    | none => simp [lookup, hp] at hv
    | some p => exact ⟨p, rfl⟩
  obtain ⟨p, hp⟩ := hpart
  have hsound := h.part_sound hp
  have hsum := SortedMap.sum_insert entryCost (s.part pid).entries k v
  rw [sum_entries, ← hs.bytes_part] at hsum
  have hheld := hs.held_le pid k
  have hbytes := hs.bytes_le pid
  have hentries := fun k' v' => @insert_sub e s hsub pid k v hv k' v'
  have hcost : ((s.part pid).entries.insert k v).sum entryCost ≤ (e.part pid).bytes := by
    rw [h.bytes_part]
    exact SortedMap.sum_le_sum fun k' v' hk' => ⟨v', hentries k' v' hk', Nat.le_refl _⟩
  have hpartLe : (s.part pid).bytes - s.held pid k + entryCost k v ≤ (e.part pid).bytes := by
    omega
  refine ⟨h.entry_ok hv, ?_, ?_, ?_⟩
  · intro hnone
    have hsize := SortedMap.size_insert (s.part pid).entries k v
    rw [← lookup_eq, if_pos hnone] at hsize
    have hle : ((s.part pid).entries.insert k v).size ≤ (e.part pid).entries.size := by
      rw [SortedMap.size_eq_sum, SortedMap.size_eq_sum]
      exact SortedMap.sum_le_sum fun k' v' hk' => ⟨v', hentries k' v' hk', Nat.le_refl _⟩
    have hcount := hsound.count_le
    rw [part_of_get? hp] at hle
    omega
  · refine Nat.le_trans hpartLe ?_
    rw [part_of_get? hp]
    exact hsound.bytes_le
  · refine Nat.le_trans ?_ h.total_le
    -- the total after the write is a sum over partitions, each below its own in `e`
    have htotal := SortedMap.sum_insert (fun _ p => p.bytes) s.parts pid
      ⟨(s.part pid).entries.insert k v, (s.part pid).bytes - s.held pid k + entryCost k v⟩
    rw [sum_parts, ← hs.total_eq] at htotal
    have hle : (s.parts.insert pid ⟨(s.part pid).entries.insert k v,
        (s.part pid).bytes - s.held pid k + entryCost k v⟩).sum (fun _ p => p.bytes) ≤ e.total := by
      rw [h.total_eq]
      apply SortedMap.sum_le_sum
      intro pid' p' hp'
      rw [SortedMap.get?_insert] at hp'
      split at hp'
      · rename_i hpid
        cases hp'
        rw [hpid]
        rw [part_of_get? hp] at hpartLe
        exact ⟨p, hp, hpartLe⟩
      · obtain ⟨k', v', hk'⟩ := SortedMap.size_pos_iff.mp (hs.part_sound hp').nonempty
        have hlookup : s.lookup pid' k' = some v' := by
          simp [lookup, hp', hk']
        have hin := hsub hlookup
        cases hq : e.parts.get? pid' with
        | none => simp [lookup, hq] at hin
        | some q =>
            refine ⟨q, rfl, ?_⟩
            rw [(hs.part_sound hp').bytes_eq, (h.part_sound hq).bytes_eq]
            refine SortedMap.sum_le_sum fun k'' v'' hk'' => ⟨v'', ?_, Nat.le_refl _⟩
            have hlookup' : s.lookup pid' k'' = some v'' := by
              simp [lookup, hp', hk'']
            simpa [lookup, hq] using hsub hlookup'
    simp only at htotal
    omega

/-! ## The records of a snapshot -/

/-- One entry and where it is. -/
structure Item where
  pid : PartId
  k : EntryKey
  v : Bytes

/-- The put that stores an item. -/
def Item.op (it : Item) : Op := .put it.k.ns it.pid.encoding it.k.key it.v

/-- The surviving entries, in the order of the snapshot. -/
def items (e : Engine) (drop : PartId → Bool) : List Item :=
  (e.parts.entries.filter fun p => !drop p.1).flatMap fun p =>
    p.2.entries.entries.map fun entry => ⟨p.1, entry.1, entry.2⟩

/-- Every partition id is one that `from_key` or `decode` built. -/
def Ids (e : Engine) : Prop :=
  ∀ {pid : PartId} {p : Partition}, e.parts.get? pid = some p → pid.Stored

/-- Every partition id is ASCII. -/
def AsciiIds (e : Engine) : Prop :=
  ∀ {pid : PartId} {p : Partition}, e.parts.get? pid = some p → pid.Ascii

theorem asciiIds_of_entries (h : ∀ p ∈ e.parts.entries, p.1.Ascii) : e.AsciiIds :=
  fun hp => h _ (SortedMap.mem_entries.mpr hp)

theorem mem_items {drop : PartId → Bool} {it : Item} :
    it ∈ e.items drop ↔ drop it.pid = false ∧ e.lookup it.pid it.k = some it.v := by
  simp only [items, List.mem_flatMap, List.mem_filter, List.mem_map, Bool.not_eq_true']
  constructor
  · rintro ⟨⟨pid, p⟩, ⟨hp, hdrop⟩, ⟨k, v⟩, hk, rfl⟩
    refine ⟨hdrop, ?_⟩
    rw [SortedMap.mem_entries] at hp hk
    simp [lookup, hp, hk]
  · rintro ⟨hdrop, hv⟩
    cases hp : e.parts.get? it.pid with
    | none => simp [lookup, hp] at hv
    | some p =>
        simp only [lookup, hp, Option.bind_some] at hv
        exact ⟨(it.pid, p), ⟨SortedMap.mem_entries.mpr hp, hdrop⟩, (it.k, it.v),
          SortedMap.mem_entries.mpr hv, rfl⟩

theorem fits_item {it : Item} (hid : it.pid.Stored) (hok : EntryOk it.k it.v) : it.op.Fits :=
  ⟨hid.length_le, hok.key_le, hok.value_le⟩

theorem mapM_ok {α β : Type} {f : α → Except FormatError β} {g : α → β} {l : List α}
    (h : ∀ a ∈ l, f a = .ok (g a)) : l.mapM f = .ok (l.map g) := by
  induction l with
  | nil => rfl
  | cons a l ih =>
      rw [List.mapM_cons, h a (by simp), ih fun b hb => h b (by simp [hb])]
      rfl

theorem partitionRecords_eq {pid : PartId} {p : Partition} (hid : pid.Stored) (hp : p.Sound) :
    partitionRecords pid p = .ok (p.entries.entries.map fun entry =>
      frame (Item.op ⟨pid, entry.1, entry.2⟩).body) := by
  rw [partitionRecords, hid.encode_eq]
  apply mapM_ok
  intro entry hentry
  have hok := hp.entry_ok (SortedMap.mem_entries.mp hentry)
  exact encodeRecord_eq_ok (@fits_item ⟨pid, entry.1, entry.2⟩ hid hok)

/-- A snapshot is the header and one put per surviving entry. -/
theorem snapshotExcluding_eq (h : e.Inv) (hids : e.Ids) (drop : PartId → Bool) :
    e.snapshotExcluding drop = .ok (headerBytes ++ logOf ((e.items drop).map Item.op)) := by
  have hrecords : (e.parts.entries.filter fun p => !drop p.1).mapM
      (fun p => partitionRecords p.1 p.2) = .ok ((e.parts.entries.filter fun p => !drop p.1).map
        fun p => p.2.entries.entries.map fun entry => frame (Item.op ⟨p.1, entry.1, entry.2⟩).body) := by
    apply mapM_ok
    rintro ⟨pid, p⟩ hp
    have hget := SortedMap.mem_entries.mp (List.mem_filter.mp hp).1
    exact partitionRecords_eq (hids hget) (h.part_sound hget)
  rw [snapshotExcluding, hrecords]
  simp only [logOf, items, List.map_flatMap, List.map_map, Function.comp_def]
  rfl

/-! ## Reading a snapshot back -/

/-- Puts of entries of `e`, replayed on a part of `e`. -/
theorem replays_items (h : e.Inv) : ∀ {its : List Item},
    (∀ it ∈ its, e.lookup it.pid it.k = some it.v ∧ it.pid.Stored ∧ it.pid.Ascii) →
    ∀ {s : Engine}, s.Inv → Sub s e → ∃ s', Replays s (its.map Item.op) s' ∧
      ∀ pid k, s'.lookup pid k =
        if ∃ it ∈ its, it.pid = pid ∧ it.k = k then e.lookup pid k else s.lookup pid k
  | [], _, s, _, _ => ⟨s, .nil, by simp⟩
  | it :: its, hits, s, hs, hsub => by
      obtain ⟨hv, hid, hascii⟩ := hits it (by simp)
      have hroom := room_of_sub hs h hsub hv
      obtain ⟨ns, hns⟩ := hroom.entry_ok.ns_ok
      have hsub' : Sub (s.write it.pid it.k it.v) e := by
        intro pid k v hk
        rw [lookup_write] at hk
        split at hk
        · rename_i heq
          cases hk
          rw [heq.1, heq.2]
          exact hv
        · exact hsub hk
      have hits' : ∀ it' ∈ its,
          e.lookup it'.pid it'.k = some it'.v ∧ it'.pid.Stored ∧ it'.pid.Ascii :=
        fun it' hit' => hits it' (by simp [hit'])
      obtain ⟨s', hr, hlookup⟩ := replays_items h hits' (hs.write hroom) hsub'
      have hlogged : Logged s it.op (s.write it.pid it.k it.v) :=
        .put (hns ▸ Namespace.fromCode_code ns) (PartId.decode_encoding hid hascii) hroom
      refine ⟨s', .cons (fits_item hid hroom.entry_ok) hlogged hr, ?_⟩
      intro pid k
      rw [hlookup, lookup_write]
      by_cases hlater : ∃ it' ∈ its, it'.pid = pid ∧ it'.k = k
      · obtain ⟨it', hit', heq⟩ := hlater
        rw [if_pos ⟨it', hit', heq⟩, if_pos ⟨it', by simp [hit'], heq⟩]
      · rw [if_neg hlater]
        by_cases hhere : pid = it.pid ∧ k = it.k
        · rw [if_pos hhere, if_pos ⟨it, by simp, hhere.1.symm, hhere.2.symm⟩, hhere.1, hhere.2, hv]
        · rw [if_neg hhere, if_neg]
          rintro ⟨it', hit', heq⟩
          rcases List.mem_cons.mp hit' with rfl | hit'
          · exact hhere ⟨heq.1.symm, heq.2.symm⟩
          · exact hlater ⟨it', hit', heq⟩

theorem replays_snapshot (h : e.Inv) (hids : e.Ids) (hascii : e.AsciiIds) (drop : PartId → Bool) :
    Replays default ((e.items drop).map Item.op) (e.excluding drop) := by
  have hits : ∀ it ∈ e.items drop,
      e.lookup it.pid it.k = some it.v ∧ it.pid.Stored ∧ it.pid.Ascii := by
    intro it hit
    obtain ⟨-, hv⟩ := mem_items.mp hit
    cases hp : e.parts.get? it.pid with
    | none => simp [lookup, hp] at hv
    | some p => exact ⟨hv, hids hp, hascii hp⟩
  have hsub : Sub default e := by
    intro pid k v hk
    simp [lookup, default] at hk
  obtain ⟨s', hr, hlookup⟩ := replays_items h hits inv_default hsub
  have heq : s' = e.excluding drop := by
    apply (hr.inv inv_default).ext (h.excluding drop)
    intro pid k
    rw [hlookup, lookup_excluding]
    cases hdrop : drop pid with
    | true =>
        rw [if_neg, if_pos rfl]
        · rfl
        · rintro ⟨it, hit, rfl, -⟩
          rw [(mem_items.mp hit).1] at hdrop
          cases hdrop
    | false =>
        cases hv : e.lookup pid k with
        | none =>
            simp only [Bool.false_eq_true, ite_self]
            split <;> rfl
        | some v => rw [if_pos ⟨⟨pid, k, v⟩, mem_items.mpr ⟨hdrop, hv⟩, rfl, rfl⟩]; simp
  exact heq ▸ hr

/-! ## Reachable engines -/

theorem Ids.write (h : e.Ids) {pid : PartId} (hid : pid.Stored) (k : EntryKey)
    (v : Bytes) : (e.write pid k v).Ids := by
  intro pid' p hp
  rw [get?_write] at hp
  split at hp
  · rename_i heq
    rw [heq]
    exact hid
  · exact h hp

theorem Ids.erase (h : e.Ids) (pid : PartId) (k : EntryKey) : (e.erase pid k).Ids := by
  intro pid' p hp
  simp only [Engine.erase] at hp
  split at hp
  · rw [SortedMap.get?_erase] at hp
    split at hp
    · cases hp
    · exact h hp
  · rename_i hne
    rw [SortedMap.get?_insert] at hp
    split at hp
    · rename_i heq
      -- what is left of the partition was there before
      obtain ⟨k', v, hv⟩ := SortedMap.size_pos_iff.mp (Nat.pos_of_ne_zero hne)
      cases hq : e.parts.get? pid with
      | none =>
          rw [part_of_none hq, SortedMap.get?_erase] at hv
          split at hv <;> cases hv
      | some q =>
          rw [heq]
          exact h hq
    · exact h hp

theorem Ids.forget (h : e.Ids) (pid : PartId) : (e.forget pid).Ids := by
  intro pid' p hp
  rw [get?_forget] at hp
  split at hp
  · cases hp
  · exact h hp

theorem Ids.logged {e' : Engine} {op : Op} (h : e.Ids) (hfits : op.Fits) (hl : Logged e op e') :
    e'.Ids := by
  cases hl with
  | put _ hpid _ => exact h.write ((PartId.decode_sound hpid).2.2 hfits.1) _ _
  | delete _ _ => exact h.erase _ _

theorem ids_default : default.Ids := by
  intro pid p hp
  simp [default] at hp

theorem Reachable.ids (h : Reachable e) : e.Ids :=
  (h.induction (P := Ids) ids_default (fun _ hfits hl h => h.logged hfits hl)
    (fun _ hkey _ h => h.write (PartId.fromKey_eq_ok hkey).1 _ _) (fun pid k _ h => h.erase pid k)
    (fun pid _ h => h.forget pid)).2

/-! ## The size of a snapshot -/

/-- What an entry takes on disk. -/
def recordSize (pid : PartId) (k : EntryKey) (v : Bytes) : Nat :=
  FRAME_LEN + 6 + pid.encoding.length + k.key.length + v.length

theorem length_frame_item (it : Item) : (frame it.op.body).length = recordSize it.pid it.k it.v := by
  rw [length_frame_body]
  rfl

/-- The bytes of the snapshot that keeps everything but the dropped partitions. -/
def snapshotLen (e : Engine) : Nat :=
  HEADER_LEN + e.parts.sum fun pid p => p.entries.sum (recordSize pid)

theorem length_logOf_items (e : Engine) (drop : PartId → Bool) :
    (headerBytes ++ logOf ((e.items drop).map Item.op)).length = (e.excluding drop).snapshotLen := by
  rw [List.length_append, length_headerBytes, snapshotLen]
  congr 1
  simp only [logOf, items, excluding, SortedMap.filter, SortedMap.sum, List.length_flatten,
    List.map_map, Function.comp_def, length_frame_item, List.map_flatMap]
  induction e.parts.entries.filter (fun p => !drop p.1) with
  | nil => rfl
  | cons p l ih => simp [ih]

/-- A record takes at most 22 times what its entry accounts for. -/
theorem recordSize_le {pid : PartId} (hid : pid.Stored) (k : EntryKey) (v : Bytes) :
    recordSize pid k v ≤ 22 * entryCost k v := by
  have := hid.length_le
  simp only [MAX_PARTITION_ID_BYTES] at this
  simp only [recordSize, FRAME_LEN, entryCost, ENTRY_OVERHEAD_BYTES]
  omega

theorem snapshotLen_le (h : e.Inv) (hids : e.Ids) :
    e.snapshotLen ≤ HEADER_LEN + 22 * GLOBAL_QUOTA_BYTES := by
  have hpart : ∀ pid p, e.parts.get? pid = some p →
      p.entries.sum (recordSize pid) ≤ 22 * p.bytes := by
    intro pid p hp
    rw [(h.part_sound hp).bytes_eq, ← SortedMap.sum_mul_left]
    exact SortedMap.sum_le_sum fun k v hk => ⟨v, hk, recordSize_le (hids hp) k v⟩
  have hsum : (e.parts.sum fun pid p => p.entries.sum (recordSize pid)) ≤ 22 * e.total := by
    rw [h.total_eq, ← SortedMap.sum_mul_left]
    exact SortedMap.sum_le_sum fun pid p hp => ⟨p, hp, hpart pid p hp⟩
  have htotal := h.total_le
  rw [snapshotLen]
  omega

theorem Ids.excluding (h : e.Ids) (drop : PartId → Bool) : (e.excluding drop).Ids := by
  intro pid p hp
  rw [get?_excluding] at hp
  split at hp
  · cases hp
  · exact h hp

/-- `recover` reads a whole snapshot, and what it reads is what survives. -/
theorem recover_snapshot (h : e.Inv) (hids : e.Ids) (hascii : e.AsciiIds) (drop : PartId → Bool)
    {bytes : Bytes} (hbytes : bytes = headerBytes ++ logOf ((e.items drop).map Item.op)) :
    Computes (2 ^ 64) (fun _ _ u => recover u bytes)
      (.ok ⟨e.excluding drop, bytes.length, false⟩) := by
  have hlen : bytes.length < 2 ^ 64 := by
    rw [hbytes, length_logOf_items]
    have := snapshotLen_le (h.excluding drop) (hids.excluding drop)
    simp only [HEADER_LEN, GLOBAL_QUOTA_BYTES] at this
    omega
  have hdrop : bytes.drop HEADER_LEN = logOf ((e.items drop).map Item.op) ++ [] := by
    rw [hbytes, ← length_headerBytes, List.drop_left, List.append_nil]
  have hall : HEADER_LEN + (logOf ((e.items drop).map Item.op)).length = bytes.length := by
    rw [hbytes, List.length_append, length_headerBytes]
  have hheader : checkHeader bytes = .ok .valid := by
    rw [hbytes]
    exact checkHeader_append _
  rw [← hall]
  exact recover_valid hheader hlen hdrop (replays_snapshot h hids hascii drop)
    (stuck_of_torn (Or.inl rfl))

/-- The bytes of a snapshot are a function of the surviving entries. -/
theorem snapshotExcluding_congr {e' : Engine} (h : e.Inv) (h' : e'.Inv) {drop : PartId → Bool}
    (heq : ∀ pid k, drop pid = false → e.lookup pid k = e'.lookup pid k) :
    e.snapshotExcluding drop = e'.snapshotExcluding drop := by
  have hsame : e.excluding drop = e'.excluding drop := by
    apply (h.excluding drop).ext (h'.excluding drop)
    intro pid k
    rw [lookup_excluding, lookup_excluding]
    cases hdrop : drop pid with
    | true => rfl
    | false => simpa using heq pid k hdrop
  have hparts : (e.parts.entries.filter fun p => !drop p.1) =
      e'.parts.entries.filter fun p => !drop p.1 :=
    congrArg (fun x : Engine => x.parts.entries) hsame
  rw [snapshotExcluding, snapshotExcluding, hparts]

/-- A snapshot of a reachable engine with ASCII ids is written and read back whole,
to exactly the engine without the dropped partitions; and engines that agree
outside the dropped partitions write the same bytes. -/
theorem snapshot_sound (e : Engine) (hreach : Reachable e) (hascii : e.AsciiIds)
    (drop : PartId → Bool) :
    (∃ bytes, e.snapshotExcluding drop = .ok bytes ∧
      recover u64 bytes = Except.ok ⟨e.excluding drop, bytes.length, false⟩) ∧
    (∀ pid, (e.excluding drop).parts.get? pid = if drop pid then none else e.parts.get? pid) ∧
    (e.excluding drop).total = (e.excluding drop).parts.sum (fun _ p => p.bytes) ∧
    ∀ e' : Engine, Reachable e' →
      (∀ pid k, drop pid = false → e.lookup pid k = e'.lookup pid k) →
        e'.snapshotExcluding drop = e.snapshotExcluding drop := by
  refine ⟨⟨_, snapshotExcluding_eq hreach.inv hreach.ids drop, ?_⟩, ?_, rfl, ?_⟩
  · exact (recover_snapshot hreach.inv hreach.ids hascii drop rfl).saturating
  · exact e.get?_excluding drop
  · intro e' hreach' heq
    exact (snapshotExcluding_congr hreach.inv hreach'.inv heq).symm

theorem asciiIds_sampleEngine : sampleEngine.AsciiIds := asciiIds_of_entries (by decide)

theorem snapshot_sound_one_entry :
    sampleEngine.lookup sampleId ⟨0, [1]⟩ = some [2, 3] ∧
      ∃ bytes, sampleEngine.snapshotExcluding (fun _ => false) = .ok bytes ∧
        recover u64 bytes =
          Except.ok ⟨sampleEngine.excluding fun _ => false, bytes.length, false⟩ :=
  ⟨by decide, (snapshot_sound _ reachable_sampleEngine asciiIds_sampleEngine fun _ => false).1⟩

end Engine

end Pelorus.Store
