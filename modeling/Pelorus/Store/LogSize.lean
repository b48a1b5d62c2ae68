import Pelorus.Store.Durability

/-
  Store/LogSize.lean --- when a store writes a log that it can open again.

  What an entry accounts for and what it takes on disk are different measures: the
  quotas count neither the framing nor the partition id.  A log that was just
  rewritten can therefore be as long as the limit allows, and `append` writes after
  a rewrite without looking at the length again.

  `Request.Fits` is the condition on a call that keeps the log within its limit:
  the snapshot of the live entries, with the call's own record, fits.
-/
set_option autoImplicit false
set_option linter.dupNamespace false

namespace Pelorus.Store

open Lib Lib.Crash

/-! ## Snapshots after a write -/

namespace Engine

variable {e : Engine}

/-- The bytes the entry under `k` takes in a snapshot; nothing where there is none. -/
def heldRecord (e : Engine) (pid : PartId) (k : EntryKey) : Nat :=
  (e.lookup pid k).elim 0 (recordSize pid k)

theorem sum_records (e : Engine) (pid : PartId) :
    (e.parts.get? pid).elim 0 (fun p => p.entries.sum (recordSize pid)) =
      (e.part pid).entries.sum (recordSize pid) := by
  unfold part
  cases e.parts.get? pid <;> rfl

theorem snapshotLen_write (e : Engine) (pid : PartId) (k : EntryKey) (v : Bytes) :
    (e.write pid k v).snapshotLen + e.heldRecord pid k = e.snapshotLen + recordSize pid k v := by
  have hparts := SortedMap.sum_insert (fun pid (p : Partition) => p.entries.sum (recordSize pid))
    e.parts pid
    ⟨(e.part pid).entries.insert k v, (e.part pid).bytes - e.held pid k + entryCost k v⟩
  have hentries := SortedMap.sum_insert (recordSize pid) (e.part pid).entries k v
  rw [sum_records] at hparts
  simp only [snapshotLen, write, heldRecord, lookup_eq]
  simp only at hparts
  omega

theorem snapshotLen_erase_le (e : Engine) (pid : PartId) (k : EntryKey) :
    (e.erase pid k).snapshotLen ≤ e.snapshotLen := by
  have hentries := SortedMap.sum_erase (recordSize pid) (e.part pid).entries k
  simp only [snapshotLen, erase]
  split
  · have hparts := SortedMap.sum_erase (fun pid (p : Partition) => p.entries.sum (recordSize pid))
      e.parts pid
    omega
  · have hparts := SortedMap.sum_insert (fun pid (p : Partition) => p.entries.sum (recordSize pid))
      e.parts pid ⟨(e.part pid).entries.erase k, (e.part pid).bytes - e.held pid k⟩
    rw [sum_records] at hparts
    simp only at hparts
    omega

/-- An engine with some of another's entries has the shorter snapshot. -/
theorem snapshotLen_le_of_get? {e' : Engine}
    (h : ∀ {pid p}, e'.parts.get? pid = some p → e.parts.get? pid = some p) :
    e'.snapshotLen ≤ e.snapshotLen := by
  have hsum := SortedMap.sum_le_sum (f := fun pid (p : Partition) => p.entries.sum (recordSize pid))
    (g := fun pid (p : Partition) => p.entries.sum (recordSize pid)) (m := e'.parts)
    fun pid p hp => ⟨p, h hp, Nat.le_refl _⟩
  simp only [snapshotLen]
  omega

theorem snapshotLen_le_log {ops : List Op} {e' : Engine} (h : Replays e ops e') :
    e'.snapshotLen ≤ e.snapshotLen + (logOf ops).length := by
  induction h with
  | nil => exact Nat.le_add_right _ _
  | @cons e e' e'' op ops hfits hl _ ih =>
      have hstep : e'.snapshotLen ≤ e.snapshotLen + op.size := by
        cases hl with
        | @put code ns pidBytes key value pid _ hpid hroom =>
            have hwrite := e.snapshotLen_write pid ⟨code, key⟩ value
            have hsize : recordSize pid ⟨code, key⟩ value = (Op.put code pidBytes key value).size := by
              rw [(PartId.decode_sound hpid).1]
              rfl
            omega
        | delete _ _ => exact Nat.le_trans (snapshotLen_erase_le _ _ _) (Nat.le_add_right _ _)
      rw [logOf_cons, List.length_append, length_frame_body]
      omega

end Engine

/-! ## Sessions -/

/-- A store opened on an empty directory and successful calls, each meeting `ok` in
the state it is made in, with the map of what was acknowledged. -/
inductive Session (ok : Store → Request → Prop) : List Request → Contents → Store → Disk → Prop
  | opened {s : Store} : Store.openDir.value ⟨none, none⟩ = .ok s →
      Session ok [] (fun _ _ => none) s (Store.openDir.final ⟨none, none⟩)
  | call {rs : List Request} {m : Contents} {s s' : Store} {d : Disk} {r : Request} :
      Session ok rs m s d → ok s r → (s.perform r).value d = .ok s' →
      Session ok (rs ++ [r]) (r.apply m) s' ((s.perform r).final d)

/-- The log left on disk is within the limit, and opening it again reads back
everything acknowledged. -/
def Openable (m : Contents) (d : Disk) : Prop :=
  (∃ bytes, d.log = some bytes ∧ bytes.length ≤ MAX_LOG_BYTES) ∧
    ∃ s, Store.openDir.value d = .ok s ∧ s.engine.lookup = m

/-- The call keeps the log within its limit: a put names an ASCII site and the live
entries with the new one make a log within the limit; the record of a delete fits
after the live entries. -/
def Request.Fits (s : Store) : Request → Prop
  | put partition ns key value => partition.topLevelSite.isAscii ∧
      ∀ {pid}, PartId.fromKey partition = .ok pid →
        s.engine.snapshotLen + Engine.recordSize pid ⟨ns.code, key⟩ value ≤
          MAX_LOG_BYTES + s.engine.heldRecord pid ⟨ns.code, key⟩
  | delete partition ns key =>
      s.engine.snapshotLen + (Request.delete partition ns key).recordBytes s.engine ≤ MAX_LOG_BYTES
  | clearPartition _ => True
  | clearSite _ => True
  | compact => True

/-! ## Calls that fit keep the log openable -/

variable {s : Store} {d : Disk} {r : Request}

theorem snapshotLen_le_logLen (hup : s.Up d) : s.engine.snapshotLen ≤ s.logLen := by
  obtain ⟨ops, hlog, hr⟩ := hup.written
  obtain ⟨bytes, hbytes, hlen⟩ := hup.logLen
  cases hlog.symm.trans hbytes
  have hle := Engine.snapshotLen_le_log hr
  have hdefault : Engine.default.snapshotLen = HEADER_LEN := rfl
  rw [hlen, List.length_append, length_headerBytes]
  omega

theorem Request.Fits.ascii (h : r.Fits s) : r.Ascii := by
  cases r with
  | put partition ns key value => exact h.1
  | _ => trivial

/-- The live entries after a call that fits make a log within the limit. -/
theorem Request.Fits.snapshotLen_result (h : r.Fits s)
    (hlive : s.engine.snapshotLen ≤ MAX_LOG_BYTES) :
    (r.result s.engine).snapshotLen ≤ MAX_LOG_BYTES := by
  cases r with
  | put partition ns key value =>
      simp only [Request.result]
      cases hpid : PartId.fromKey partition with
      | error err => exact hlive
      | ok pid =>
          have hwrite := s.engine.snapshotLen_write pid ⟨ns.code, key⟩ value
          have hfits := h.2 hpid
          simp only
          omega
  | delete partition ns key =>
      simp only [Request.result]
      cases PartId.fromKey partition with
      | error err => exact hlive
      | ok pid => exact Nat.le_trans (Engine.snapshotLen_erase_le _ _ _) hlive
  | clearPartition partition =>
      simp only [Request.result]
      cases PartId.fromKey partition with
      | error err => exact hlive
      | ok pid =>
          refine Nat.le_trans (Engine.snapshotLen_le_of_get? ?_) hlive
          intro pid' p hp
          rw [Engine.get?_forget] at hp
          split at hp
          · cases hp
          · exact hp
  | clearSite partition =>
      refine Nat.le_trans (Engine.snapshotLen_le_of_get? ?_) hlive
      intro pid' p hp
      simp only [Request.result, Engine.get?_forgetSite] at hp
      split at hp
      · cases hp
      · exact hp
  | compact => exact hlive

theorem Request.Fits.snapshotLen_record (h : r.Fits s)
    (hlive : s.engine.snapshotLen ≤ MAX_LOG_BYTES) :
    s.engine.snapshotLen + r.recordBytes s.engine ≤ MAX_LOG_BYTES := by
  cases r with
  | delete partition ns key => exact h
  | _ => exact hlive

theorem within_of_logLen (hup : s.Up d) (h : s.logLen ≤ MAX_LOG_BYTES) : d.Within := by
  obtain ⟨bytes, hlog, hlen⟩ := hup.logLen
  intro bytes' hbytes'
  cases hlog.symm.trans hbytes'
  rw [← hlen]
  exact h

theorem Session.sound {rs : List Request} {m : Contents}
    (h : Session (fun s r => r.Fits s) rs m s d) : s.Up d ∧ d.Within ∧ s.engine.lookup = m := by
  induction h with
  | opened hopen =>
      have hholds : Holds ⟨none, none⟩ Engine.default := Or.inl ⟨rfl, rfl⟩
      obtain ⟨s', hs', hup, he, hwithin⟩ := (Store.safe_openDir hholds nofun).post
      cases hopen.symm.trans hs'
      exact ⟨hup, hwithin, by rw [he]; rfl⟩
  | @call rs m s s' d r _ hfits hok ih =>
      obtain ⟨hup, hwithin, rfl⟩ := ih
      have hlive := Nat.le_trans (snapshotLen_le_logLen hup) (Store.logLen_le hup hwithin)
      have hpost := (Store.safe_perform hup hwithin hfits.ascii).post
      rw [hok] at hpost
      obtain ⟨hup', hengine, hlen⟩ := hpost
      have hshort : s'.logLen ≤ MAX_LOG_BYTES := by
        rcases hlen with hlen | hlen | hlen
        · exact hlen
        · rw [hlen]
          exact hfits.snapshotLen_result hlive
        · rw [hlen]
          exact hfits.snapshotLen_record hlive
      exact ⟨hup', within_of_logLen hup' hshort, by rw [hengine, r.lookup_result]⟩

/-- Successful calls that fit leave a log within its limit, which opens to everything
acknowledged. -/
theorem log_openable {rs : List Request} {m : Contents} {s : Store} {d : Disk}
    (h : Session (fun s r => r.Fits s) rs m s d) : Openable m d := by
  obtain ⟨hup, hwithin, rfl⟩ := h.sound
  obtain ⟨bytes, hlog, -⟩ := hup.logLen
  obtain ⟨s', hs', -, he, -⟩ := (Store.safe_openDir hup.written.holds hwithin).post
  exact ⟨⟨bytes, hlog, hwithin hlog⟩, s', hs', by rw [he]⟩

theorem log_openable_one_put : ∃ m s d,
    Session (fun s r => r.Fits s) [.put Engine.sampleKey .storage [1] [2, 3]] m s d ∧
      m Engine.sampleId ⟨0, [1]⟩ = some [2, 3] ∧ Openable m d := by
  have hopened := @Session.opened (fun s r => r.Fits s) ⟨Engine.default, 16⟩ rfl
  have hfits : (Request.put Engine.sampleKey .storage [1] [2, 3]).Fits ⟨Engine.default, 16⟩ := by
    refine ⟨rfl, ?_⟩
    intro pid hpid
    cases hpid
    decide
  have hcall := Session.call hopened hfits rfl
  exact ⟨_, _, _, hcall, by decide, log_openable hcall⟩

/-! ## A log that does not open -/

/-- A host of 1006 characters. -/
def longHost (t : Nat) : Text :=
  List.replicate 1005 'a' ++ [['a', 'b', 'c', 'd'].getD (t / 65536) 'a']

theorem longHost_valid (t : Nat) : Net.OriginParts "https".toList (longHost t) := by
  have hlast : ['a', 'b', 'c', 'd'].getD (t / 65536) 'a' ∈ ['a', 'b', 'c', 'd'] := by
    rw [List.getD_eq_getElem?_getD]
    cases hget : ['a', 'b', 'c', 'd'][t / 65536]? with
    | none => decide
    | some c => exact List.mem_of_getElem? hget
  have hmem : ∀ c ∈ longHost t, c ∈ ['a', 'b', 'c', 'd'] := by
    intro c hc
    rcases List.mem_append.mp hc with hc | hc
    · rw [List.eq_of_mem_replicate hc]
      decide
    · rw [List.mem_singleton.mp hc]
      exact hlast
  have hdot : '.' ∉ longHost t := fun hc => absurd (hmem '.' hc) (by decide)
  refine ⟨Or.inl rfl, ?_, ⟨?_, ?_⟩, ?_⟩
  · exact List.append_ne_nil_of_right_ne_nil _ (List.cons_ne_nil _ _)
  · intro hdots
    exact hdot (hdots.subset (by simp))
  · intro hhead
    exact hdot (List.mem_of_mem_head? hhead)
  · rw [Text.isAscii, List.all_eq_true]
    intro c hc
    have hletter := hmem c hc
    simp only [List.mem_cons, List.not_mem_nil, or_false] at hletter
    rcases hletter with rfl | rfl | rfl | rfl <;> decide

/-- The `t`-th origin embedded under `a.com`: 65536 ports for each of four hosts. -/
def longKey (t : Nat) : Net.PartitionKey where
  topLevelSite := "a.com".toList
  origin := ⟨"https".toList, longHost t, UInt16.ofNat t, longHost_valid t⟩
  site_ne_nil := List.cons_ne_nil _ _

def longId (t : Nat) : PartId :=
  ⟨Text.utf8 "a.com".toList, Text.utf8 "https".toList, Text.utf8 (longHost t), UInt16.ofNat t⟩

theorem length_longHost (t : Nat) : (Text.utf8 (longHost t)).length = 1006 := by
  have hlen := Text.len_of_isAscii (longHost_valid t).host_ascii
  rw [Text.len] at hlen
  rw [hlen, longHost, List.length_append, List.length_replicate, List.length_singleton]

theorem length_longId (t : Nat) : (longId t).encoding.length = 1024 := by
  rw [PartId.length_encoding]
  simp only [longId, length_longHost]
  decide

theorem fromKey_longKey (t : Nat) : PartId.fromKey (longKey t) = .ok (longId t) := by
  have hfits : 8 + (longId t).site.length + (longId t).scheme.length + (longId t).host.length ≤
      MAX_PARTITION_ID_BYTES := by
    rw [← PartId.length_encoding, length_longId]
    decide
  have hencode := PartId.encode_of_fits hfits
  simp only [longId] at hencode
  simp only [PartId.fromKey, longKey, hencode]
  have hlen := length_longId t
  simp only [longId] at hlen
  rw [hlen]
  rfl

/-- Origins below four times 65536 are different partitions. -/
theorem longId_injective {t t' : Nat} (ht : t < 262144) (ht' : t' < 262144)
    (h : longId t = longId t') : t = t' := by
  simp only [longId, PartId.mk.injEq, true_and] at h
  have hport : t % 65536 = t' % 65536 := by
    have := congrArg UInt16.toNat h.2
    simpa using this
  have hhost := Text.utf8_injective h.1
  have hlast := List.append_inj_right' hhost rfl
  have hquot : t / 65536 = t' / 65536 := by
    have hlt : t / 65536 < 4 := by omega
    have hlt' : t' / 65536 < 4 := by omega
    generalize t / 65536 = a at hlast hlt
    generalize t' / 65536 = b at hlast hlt'
    revert hlast
    revert a b
    decide
  omega

/-- Puts of an empty value under an empty key, each in a partition of its own. -/
def longPut (t : Nat) : Request := .put (longKey t) .storage [] []

/-- What the first `n` of these puts lead to. -/
structure AfterPuts (n : Nat) (s : Store) (d : Disk) : Prop where
  up : s.Up d
  total : s.engine.total = 48 * n
  fresh : ∀ {t}, n ≤ t → t < 262144 → s.engine.parts.get? (longId t) = none
  live : s.engine.snapshotLen = 16 + 1038 * n
  short : s.logLen ≤ MAX_LOG_BYTES ∨ s.logLen = s.engine.snapshotLen

theorem afterPuts_step {n : Nat} (h : AfterPuts n s d) (hn : n < 258609) :
    ∃ s', (s.perform (longPut n)).value d = .ok s' ∧
      AfterPuts (n + 1) s' ((s.perform (longPut n)).final d) := by
  have hwithin : d.Within := by
    apply within_of_logLen h.up
    rcases h.short with hs | hs
    · exact hs
    · rw [hs, h.live]
      simp only [MAX_LOG_BYTES]
      omega
  have hnone := h.fresh (Nat.le_refl n) (by omega)
  have hlookup : s.engine.lookup (longId n) ⟨Namespace.storage.code, []⟩ = none := by
    simp [Engine.lookup, hnone]
  have hheld : s.engine.held (longId n) ⟨Namespace.storage.code, []⟩ = 0 := by
    simp [Engine.held, hlookup]
  have hcost : entryCost ⟨Namespace.storage.code, []⟩ [] = 48 := rfl
  have hroom : s.engine.Room (longId n) ⟨Namespace.storage.code, []⟩ [] := by
    refine ⟨⟨⟨.storage, rfl⟩, Nat.zero_le _, Nat.zero_le _⟩, ?_, ?_, ?_⟩
    · intro _
      rw [Engine.part_of_none hnone]
      decide
    · rw [Engine.part_of_none hnone, hheld, hcost]
      decide
    · rw [hheld, hcost, h.total]
      simp only [GLOBAL_QUOTA_BYTES]
      omega
  obtain ⟨s', hok, hup, hengine, hshort⟩ :=
    (@Store.safe_put_of_room s d h.up hwithin (longKey n) rfl _ (fromKey_longKey n) _ _ _ hroom).post
  refine ⟨s', hok, hup, ?_, ?_, ?_, hshort⟩
  · rw [hengine, Engine.write, hheld, hcost, h.total]
    simp only
    omega
  · intro t hle hlt
    have hne : longId t ≠ longId n := fun heq => by
      have := longId_injective hlt (by omega) heq
      omega
    rw [hengine, Engine.get?_write, if_neg hne]
    exact h.fresh (by omega) hlt
  · have hwrite := s.engine.snapshotLen_write (longId n) ⟨Namespace.storage.code, []⟩ []
    have hrecord : Engine.recordSize (longId n) ⟨Namespace.storage.code, []⟩ [] = 1038 := by
      rw [Engine.recordSize, length_longId]
      rfl
    have hheldRecord : s.engine.heldRecord (longId n) ⟨Namespace.storage.code, []⟩ = 0 := by
      simp [Engine.heldRecord, hlookup]
    rw [hrecord, hheldRecord, h.live, Nat.add_zero] at hwrite
    rw [hengine, hwrite, Nat.mul_succ, Nat.add_assoc]

theorem session_longPuts : ∀ n ≤ 258609, ∃ m s d,
    Session (fun _ _ => True) ((List.range n).map longPut) m s d ∧ AfterPuts n s d
  | 0, _ => by
      have hholds : Holds ⟨none, none⟩ Engine.default := Or.inl ⟨rfl, rfl⟩
      obtain ⟨s, hs, hup, he, hwithin⟩ := (Store.safe_openDir hholds nofun).post
      refine ⟨_, s, _, .opened hs, hup, ?_, ?_, ?_, Or.inl (Store.logLen_le hup hwithin)⟩
      · rw [he]
        rfl
      · intro t _ _
        rw [he]
        rfl
      · rw [he]
        rfl
  | n + 1, hn => by
      obtain ⟨m, s, d, hsession, hafter⟩ := session_longPuts n (by omega)
      obtain ⟨s', hok, hafter'⟩ := afterPuts_step hafter (by omega)
      have hcall := Session.call hsession trivial hok
      rw [show (List.range n).map longPut ++ [longPut n] = (List.range (n + 1)).map longPut by
        simp [List.range_succ]] at hcall
      exact ⟨_, s', _, hcall, hafter'⟩

/-- 258609 puts of empty values leave a log past the limit. -/
theorem log_not_openable : ∃ m s d,
    Session (fun _ _ => True) ((List.range 258609).map longPut) m s d ∧ ¬ Openable m d := by
  obtain ⟨m, s, d, hsession, hafter⟩ := session_longPuts 258609 (Nat.le_refl _)
  refine ⟨m, s, d, hsession, ?_⟩
  rintro ⟨⟨bytes, hlog, hle⟩, -⟩
  obtain ⟨bytes', hlog', hlen⟩ := hafter.up.logLen
  cases hlog.symm.trans hlog'
  have hlive := snapshotLen_le_logLen hafter.up
  rw [hafter.live, hlen] at hlive
  simp only [MAX_LOG_BYTES] at hle
  omega

end Pelorus.Store
