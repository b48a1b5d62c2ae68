import Pelorus.Store.Store

/-
  Store/Durability.lean --- no acknowledged write is lost.

  `Written d e` says that the log is the header and records that replay to `e`;
  `Holds d e` allows a torn tail after them, or no log yet.  Every operation of an
  open store passes only through disks that hold the state before it or the state
  after it, and `open` takes a disk that holds a state to a store with that state.

  WORLDS.  A run alternates between an open store and a directory nobody has open;
  it carries the map of acknowledged writes, and after a crash also that map with
  the operation in flight applied.
-/
set_option autoImplicit false
set_option linter.dupNamespace false

namespace Pelorus.Store

open Lib Lib.Crash

/-! ## What a disk holds -/

/-- The log is the header and records that replay to `e`. -/
def Written (d : Disk) (e : Engine) : Prop :=
  ∃ ops, d.log = some (headerBytes ++ logOf ops) ∧ Engine.Replays Engine.default ops e

/-- Opening the directory recovers `e`. -/
def Holds (d : Disk) (e : Engine) : Prop :=
  (d.log = none ∧ e = Engine.default) ∨
    ∃ ops tail, d.log = some (headerBytes ++ logOf ops ++ tail) ∧
      Engine.Replays Engine.default ops e ∧ Engine.Stuck e tail

variable {e : Engine}

theorem Written.holds {d : Disk} (h : Written d e) : Holds d e := by
  obtain ⟨ops, hlog, hr⟩ := h
  exact Or.inr ⟨ops, [], by rw [hlog, List.append_nil], hr, Engine.stuck_of_torn (Or.inl rfl)⟩

theorem Holds.of_log {d d' : Disk} (h : Holds d e) (heq : d'.log = d.log) : Holds d' e := by
  rcases h with ⟨hlog, he⟩ | ⟨ops, tail, hlog, hrest⟩
  · exact Or.inl ⟨heq.trans hlog, he⟩
  · exact Or.inr ⟨ops, tail, heq.trans hlog, hrest⟩

/-- What replays from nothing has the invariant, and its ids were decoded. -/
theorem replays_default {ops : List Op} (h : Engine.Replays Engine.default ops e) :
    e.Inv ∧ e.Ids ∧ e.AsciiIds := by
  refine h.keeps (P := fun e => e.Inv ∧ e.Ids ∧ e.AsciiIds) ?_
    ⟨Engine.inv_default, Engine.ids_default, ?_⟩
  · rintro e e' op hfits hl ⟨hinv, hids, hascii⟩
    refine ⟨hl.inv hinv, hids.logged hfits hl, ?_⟩
    cases hl with
    | put _ hpid _ =>
        intro pid' p hp
        rw [Engine.get?_write] at hp
        split at hp
        · rename_i heq
          rw [heq]
          exact (PartId.decode_sound hpid).2.1
        · exact hascii hp
    | @delete _ _ _ key pid _ hpid =>
        intro pid' p hp
        by_cases heq : pid' = pid
        · rw [heq]
          exact (PartId.decode_sound hpid).2.1
        · rw [Engine.get?_erase_of_ne heq] at hp
          exact hascii hp
  · intro pid p hp
    simp [Engine.default] at hp

theorem Written.sound {d : Disk} (h : Written d e) : e.Inv ∧ e.Ids ∧ e.AsciiIds := by
  obtain ⟨ops, -, hr⟩ := h
  exact replays_default hr

/-! ## Writing -/

/-- Replacing the log leaves the old one or the new one. -/
theorem safe_writeAtomic {d : Disk} {bytes : Bytes} {C : Disk → Prop}
    (hold : ∀ t : Disk, t.log = d.log → C t) (hnew : C ⟨some bytes, none⟩) :
    Safe C d (writeAtomic bytes) fun _ t => t = ⟨some bytes, none⟩ := by
  refine Safe.bind (Q := fun _ t => t.log = d.log ∧ t.tmp = some bytes) ?_ ?_
  · apply Safe.progress
    · intro n _
      exact hold _ rfl
    · exact ⟨rfl, by simp⟩
  · rintro _ t ⟨-, htmp⟩
    have ht : ({ log := t.tmp, tmp := none } : Disk) = ⟨some bytes, none⟩ := by rw [htmp]
    apply Safe.step
    · rw [ht]
      exact hnew
    · exact ht

variable {op : Op}

/-- A log cut inside an appended record holds what it held before. -/
theorem holds_cut {d : Disk} (h : Written d e) (hfits : op.Fits) {n : Nat} (hn : n < op.size) :
    Holds { d with log := d.log.map (· ++ (frame op.body).take n) } e := by
  obtain ⟨ops, hlog, hr⟩ := h
  exact Or.inr ⟨ops, (frame op.body).take n, by simp [hlog], hr,
    Engine.stuck_of_torn (decodeRecord_take hfits hn)⟩

theorem written_append {d : Disk} {e' : Engine} (h : Written d e) (hfits : op.Fits)
    (hl : Engine.Logged e op e') :
    Written { d with log := d.log.map (· ++ frame op.body) } e' := by
  obtain ⟨ops, hlog, hr⟩ := h
  exact ⟨ops ++ [op], by simp [hlog], hr.append (.cons hfits hl .nil)⟩

/-- The length of the log, as the store keeps it. -/
def LogLen (s : Store) (d : Disk) : Prop := ∃ bytes, d.log = some bytes ∧ s.logLen = bytes.length

/-- The log is short enough to be opened. -/
def Disk.Within (d : Disk) : Prop := ∀ {bytes : Bytes}, d.log = some bytes → bytes.length ≤ MAX_LOG_BYTES

theorem size_le (h : op.Fits) : op.size ≤ 2 ^ 21 := by
  obtain ⟨hpid, hkey, hvalue⟩ := h
  simp only [MAX_PARTITION_ID_BYTES, MAX_KEY_BYTES, MAX_VALUE_BYTES] at hpid hkey hvalue
  simp only [Op.size, FRAME_LEN]
  omega

theorem add_eq {a b : Nat} (h : a + b < 2 ^ 64) : (u64.add a b).run = a + b :=
  (Arith.faithful_saturating (2 ^ 64)).add_eq h

namespace Store

/-- An open store: the log replays to the engine in memory. -/
structure Up (s : Store) (d : Disk) : Prop where
  written : Written d s.engine
  logLen : LogLen s d

variable {s : Store} {d : Disk}

theorem safe_rewrite (hw : Written d e) (he : s.engine = e) (drop : PartId → Bool) :
    Safe (fun t => Holds t e ∨ Holds t (e.excluding drop)) d (s.rewrite drop) fun r t =>
      ∃ s', r = .ok s' ∧ s'.engine = e ∧ Written t (e.excluding drop) ∧ LogLen s' t ∧
        s'.logLen = (e.excluding drop).snapshotLen := by
  subst he
  obtain ⟨hinv, hids, hascii⟩ := hw.sound
  have hsnapshot := Engine.snapshotExcluding_eq hinv hids drop
  have hwritten : Written ⟨some (headerBytes ++ logOf ((s.engine.items drop).map Engine.Item.op)), none⟩
      (s.engine.excluding drop) :=
    ⟨_, rfl, Engine.replays_snapshot hinv hids hascii drop⟩
  simp only [rewrite, hsnapshot]
  refine Safe.bind (safe_writeAtomic (fun t ht => Or.inl (hw.holds.of_log ht))
    (Or.inr hwritten.holds)) ?_
  rintro _ t rfl
  exact Safe.pure ⟨_, rfl, rfl, hwritten, ⟨_, rfl, rfl⟩, Engine.length_logOf_items ..⟩

theorem excluding_none (h : e.Inv) : e.excluding (fun _ => false) = e := by
  apply (h.excluding _).ext h
  intro pid k
  rw [Engine.lookup_excluding]
  rfl

theorem safe_appendRecord {e' : Engine} (hw : Written d e) (hlen : LogLen s d)
    (hshort : s.logLen < 2 ^ 63) {op : Op} (hfits : op.Fits) (hl : Engine.Logged e op e') :
    Safe (fun t => Holds t e ∨ Holds t e') d (s.appendRecord (frame op.body)) fun r t =>
      ∃ s', r = .ok s' ∧ s'.engine = s.engine ∧ Written t e' ∧ LogLen s' t ∧
        s'.logLen = s.logLen + op.size := by
  have hsize := length_frame_body op
  have hle := size_le hfits
  have hwritten := written_append hw hfits hl
  refine Safe.bind (Q := fun _ t => t = { d with log := d.log.map (· ++ frame op.body) }) ?_ ?_
  · apply Safe.progress
    · intro n hn
      by_cases hlt : n < op.size
      · exact Or.inl (holds_cut hw hfits hlt)
      · rw [List.take_of_length_le (by omega)]
        exact Or.inr hwritten.holds
    · rw [List.take_length]
  · rintro _ t rfl
    obtain ⟨bytes, hlog, hbytes⟩ := hlen
    have hadd : (u64.add s.logLen (frame op.body).length).run = s.logLen + op.size := by
      rw [hsize]
      exact add_eq (by omega)
    refine Safe.pure ⟨_, rfl, rfl, hwritten, ⟨bytes ++ frame op.body, by simp [hlog], ?_⟩, hadd⟩
    rw [List.length_append, ← hbytes]
    exact hadd.trans (by rw [hsize])

/-- An append leaves the state before it or the state after it. -/
theorem safe_append {e' : Engine} (hup : s.Up d) (hwithin : d.Within)
    {op : Op} (hfits : op.Fits) (hl : Engine.Logged s.engine op e') :
    Safe (fun t => Holds t s.engine ∨ Holds t e') d (s.append (frame op.body)) fun r t =>
      ∃ s', r = .ok s' ∧ s'.engine = s.engine ∧ Written t e' ∧ LogLen s' t ∧
        (s'.logLen ≤ MAX_LOG_BYTES ∨ s'.logLen = s.engine.snapshotLen + op.size) := by
  obtain ⟨hinv, hids, -⟩ := hup.written.sound
  have hshort : s.logLen < 2 ^ 63 := by
    obtain ⟨bytes, hlog, hbytes⟩ := hup.logLen
    have := hwithin hlog
    simp only [MAX_LOG_BYTES] at this
    omega
  unfold append
  split
  · have hsame := excluding_none hinv
    have hrewrite := safe_rewrite hup.written rfl fun _ => false
    rw [hsame] at hrewrite
    refine Safe.bind (hrewrite.mono (fun t ht => Or.inl (ht.elim id id)) fun _ _ h => h) ?_
    rintro r t ⟨s', rfl, hengine, hw, hlen, hlogLen⟩
    have hbound := Engine.snapshotLen_le hinv hids
    simp only [HEADER_LEN, GLOBAL_QUOTA_BYTES] at hbound
    refine (safe_appendRecord hw hlen (by omega) hfits hl).mono (fun _ h => h) ?_
    rintro r t ⟨s'', rfl, hengine', hw', hlen', hgrown⟩
    exact ⟨s'', rfl, hengine'.trans hengine, hw', hlen', Or.inr (by rw [hgrown, hlogLen])⟩
  · rename_i hfit
    have hsize := size_le hfits
    rw [length_frame_body, add_eq (by omega)] at hfit
    refine (safe_appendRecord hup.written hup.logLen hshort hfits hl).mono (fun _ h => h) ?_
    rintro r t ⟨s', rfl, hengine, hw, hlen, hgrown⟩
    exact ⟨s', rfl, hengine, hw, hlen, Or.inl (by omega)⟩

/-- After a write the log is far below its limit, or it is a snapshot. -/
theorem safe_maybeCompact (hup : s.Up d) :
    Safe (fun t => Holds t s.engine) d s.maybeCompact fun s' t => s'.Up t ∧ s'.engine = s.engine ∧
      (s'.logLen ≤ MAX_LOG_BYTES ∨ s'.logLen = s.engine.snapshotLen) := by
  obtain ⟨hinv, -, -⟩ := hup.written.sound
  unfold maybeCompact
  split
  · have hrewrite := safe_rewrite hup.written rfl fun _ => false
    rw [excluding_none hinv] at hrewrite
    refine Safe.bind (hrewrite.mono (fun t ht => ht.elim id id) fun _ _ h => h) ?_
    rintro r t ⟨s', rfl, hengine, hw, hlen, hlogLen⟩
    exact Safe.pure ⟨⟨hengine ▸ hw, hlen⟩, hengine, Or.inr hlogLen⟩
  · rename_i hshort
    refine Safe.pure ⟨hup, rfl, Or.inl ?_⟩
    have htotal := hinv.total_le
    simp only [GLOBAL_QUOTA_BYTES] at htotal
    have hmul : saturatingMul s.engine.totalUsage 2 = s.engine.total * 2 := by
      simp only [saturatingMul, Engine.totalUsage]
      omega
    rw [hmul, add_eq (by simp only [COMPACT_SLACK]; omega)] at hshort
    simp only [COMPACT_SLACK] at hshort
    simp only [MAX_LOG_BYTES]
    omega

end Store

/-! ## What a call means -/

/-- What a store holds: the map from partition and entry key to value. -/
abbrev Contents : Type := PartId → EntryKey → Option Bytes

namespace Request

/-- The map after an acknowledged call. -/
def apply (r : Request) (m : Contents) : Contents :=
  match r with
  | put partition ns key value =>
      match PartId.fromKey partition with
      | .error _ => m
      | .ok pid => fun pid' k => if pid' = pid ∧ k = ⟨ns.code, key⟩ then some value else m pid' k
  | delete partition ns key =>
      match PartId.fromKey partition with
      | .error _ => m
      | .ok pid => fun pid' k => if pid' = pid ∧ k = ⟨ns.code, key⟩ then none else m pid' k
  | clearPartition partition =>
      match PartId.fromKey partition with
      | .error _ => m
      | .ok pid => fun pid' k => if pid' = pid then none else m pid' k
  | clearSite partition => fun pid k => if pid.site = partition.topLevelSite.utf8 then none else m pid k
  | compact => m

/-- A put names an ASCII top-level site; the origin's host always is ASCII. -/
def Ascii : Request → Prop
  | put partition .. => partition.topLevelSite.isAscii
  | _ => True

/-- The engine after an acknowledged call. -/
def result (r : Request) (e : Engine) : Engine :=
  match r with
  | put partition ns key value =>
      match PartId.fromKey partition with
      | .error _ => e
      | .ok pid => e.write pid ⟨ns.code, key⟩ value
  | delete partition ns key =>
      match PartId.fromKey partition with
      | .error _ => e
      | .ok pid => e.erase pid ⟨ns.code, key⟩
  | clearPartition partition =>
      match PartId.fromKey partition with
      | .error _ => e
      | .ok pid => e.forget pid
  | clearSite partition => e.forgetSite partition.topLevelSite.utf8
  | compact => e

theorem lookup_result (r : Request) (e : Engine) : (r.result e).lookup = r.apply e.lookup := by
  cases r with
  | put partition ns key value =>
      simp only [result, apply]
      cases PartId.fromKey partition with
      | error err => rfl
      | ok pid =>
          funext pid' k
          exact Engine.lookup_write ..
  | delete partition ns key =>
      simp only [result, apply]
      cases PartId.fromKey partition with
      | error err => rfl
      | ok pid =>
          funext pid' k
          exact Engine.lookup_erase ..
  | clearPartition partition =>
      simp only [result, apply]
      cases PartId.fromKey partition with
      | error err => rfl
      | ok pid =>
          funext pid' k
          exact Engine.lookup_forget ..
  | clearSite partition =>
      funext pid k
      exact Engine.lookup_forgetSite ..
  | compact => rfl

/-- The bytes of the record that a delete appends, if it appends one. -/
def recordBytes (e : Engine) : Request → Nat
  | delete partition ns key =>
      match PartId.fromKey partition with
      | .error _ => 0
      | .ok pid =>
          if e.get pid ns key = none then 0 else Engine.recordSize pid ⟨ns.code, key⟩ []
  | _ => 0

end Request

theorem ascii_of_fromKey {key : Net.PartitionKey} {pid : PartId}
    (h : PartId.fromKey key = .ok pid) (ha : key.topLevelSite.isAscii) : pid.Ascii := by
  obtain ⟨-, hsite, hhost⟩ := PartId.fromKey_eq_ok h
  refine ⟨?_, hhost⟩
  rw [hsite]
  exact PartId.isAscii_utf8 ha

namespace Store

/-- How a call ends: acknowledged, with a log that is short, a snapshot, or a
snapshot and one record of `extra` bytes; or refused with nothing changed. -/
def Answered (s : Store) (d : Disk) (e' : Engine) (extra : Nat) :
    Except StoreError Store → Disk → Prop
  | .ok s', t => s'.Up t ∧ s'.engine = e' ∧
      (s'.logLen ≤ MAX_LOG_BYTES ∨ s'.logLen = e'.snapshotLen ∨
        s'.logLen = s.engine.snapshotLen + extra)
  | .error _, t => s.Up t ∧ t = d

variable {d : Disk} {s : Store}

theorem logLen_le (hup : s.Up d) (hwithin : d.Within) : s.logLen ≤ MAX_LOG_BYTES := by
  obtain ⟨bytes, hlog, hlen⟩ := hup.logLen
  rw [hlen]
  exact hwithin hlog

theorem safe_put_of_room {s : Store} {d : Disk} (hup : s.Up d) (hwithin : d.Within)
    {partition : Net.PartitionKey} (ha : partition.topLevelSite.isAscii) {pid : PartId}
    (hpid : PartId.fromKey partition = .ok pid) {ns : Namespace} {key value : Bytes}
    (hroom : s.engine.Room pid ⟨ns.code, key⟩ value) :
    Safe (fun t => Holds t s.engine ∨ Holds t (s.engine.write pid ⟨ns.code, key⟩ value)) d
      (s.put partition ns key value) fun r t =>
        ∃ s', r = .ok s' ∧ s'.Up t ∧ s'.engine = s.engine.write pid ⟨ns.code, key⟩ value ∧
          (s'.logLen ≤ MAX_LOG_BYTES ∨ s'.logLen = s'.engine.snapshotLen) := by
  obtain ⟨hinv, -, -⟩ := hup.written.sound
  obtain ⟨hstored, -, -⟩ := PartId.fromKey_eq_ok hpid
  have hcheck : (Engine.checkPut u64 s.engine pid ns key value).run = .ok () :=
    Engine.checkPut_of_room hinv hroom
  have hfits : (Op.put ns.code pid.encoding key value).Fits :=
    ⟨hstored.length_le, hroom.entry_ok.key_le, hroom.entry_ok.value_le⟩
  have hlogged : Engine.Logged s.engine (.put ns.code pid.encoding key value)
      (s.engine.write pid ⟨ns.code, key⟩ value) :=
    .put (Namespace.fromCode_code ns)
      (PartId.decode_encoding hstored (ascii_of_fromKey hpid ha)) hroom
  simp only [put, hpid, hcheck, hstored.encode_eq, encodeRecord_eq_ok hfits]
  refine Safe.bind (safe_append hup hwithin hfits hlogged) ?_
  rintro r t ⟨s', rfl, hengine, hw, hlen, -⟩
  simp only [hengine, Engine.put_run hinv hroom]
  have hup' : Up ⟨s.engine.write pid ⟨ns.code, key⟩ value, s'.logLen⟩ t := ⟨hw, hlen⟩
  refine Safe.bind ((safe_maybeCompact hup').mono (fun _ h => Or.inr h) fun _ _ h => h) ?_
  rintro s'' t' ⟨hup'', hengine'', hlogLen⟩
  exact Safe.pure ⟨s'', rfl, hup'', hengine'', by rw [hengine'']; exact hlogLen⟩

variable {e' : Engine}

theorem safe_put (hup : s.Up d) (hwithin : d.Within) {partition : Net.PartitionKey}
    (ha : partition.topLevelSite.isAscii) (ns : Namespace) (key value : Bytes)
    (he' : (Request.put partition ns key value).result s.engine = e') :
    Safe (fun t => Holds t s.engine ∨ Holds t e') d (s.put partition ns key value)
      (Answered s d e' 0) := by
  obtain ⟨hinv, -, -⟩ := hup.written.sound
  cases hpid : PartId.fromKey partition with
  | error err =>
      simp only [put, hpid]
      exact Safe.pure ⟨hup, rfl⟩
  | ok pid =>
      simp only [Request.result, hpid] at he'
      subst he'
      cases hcheck : (Engine.checkPut u64 s.engine pid ns key value).run with
      | error err =>
          simp only [put, hpid, hcheck]
          exact Safe.pure ⟨hup, rfl⟩
      | ok _ =>
          have hroom := Engine.room_of_checkPut hinv hcheck
          refine (safe_put_of_room hup hwithin ha hpid hroom).mono (fun _ h => h) ?_
          rintro r t ⟨s', rfl, hup', hengine, hlen | hlen⟩
          · exact ⟨hup', hengine, Or.inl hlen⟩
          · exact ⟨hup', hengine, Or.inr (Or.inl (by rw [hlen, hengine]))⟩

theorem safe_delete (hup : s.Up d) (hwithin : d.Within) (partition : Net.PartitionKey) (ns : Namespace)
    (key : Bytes) (he' : (Request.delete partition ns key).result s.engine = e') :
    Safe (fun t => Holds t s.engine ∨ Holds t e') d (s.delete partition ns key) fun r t =>
      Answered s d e' ((Request.delete partition ns key).recordBytes s.engine)
        (r.map Prod.snd) t := by
  obtain ⟨hinv, hids, hascii⟩ := hup.written.sound
  unfold delete
  cases hpid : PartId.fromKey partition with
  | error err => exact Safe.pure ⟨hup, rfl⟩
  | ok pid =>
      simp only [Request.result, hpid] at he'
      subst he'
      simp only [Request.recordBytes, hpid]
      cases hget : s.engine.get pid ns key with
      | none =>
          exact Safe.pure ⟨hup, (hinv.erase_of_none hget).symm, Or.inl (logLen_le hup hwithin)⟩
      | some old =>
          have hpart : ∃ p, s.engine.parts.get? pid = some p := by
            cases hp : s.engine.parts.get? pid with
            | none => simp [Engine.get, Engine.lookup, hp] at hget
            | some p => exact ⟨p, rfl⟩
          obtain ⟨p, hp⟩ := hpart
          have hstored := hids hp
          have hok := hinv.entry_ok hget
          have hfits : (Op.delete ns.code pid.encoding key).Fits :=
            ⟨hstored.length_le, hok.key_le, Nat.zero_le _⟩
          have hlogged : Engine.Logged s.engine (.delete ns.code pid.encoding key)
              (s.engine.erase pid ⟨ns.code, key⟩) :=
            .delete (Namespace.fromCode_code ns) (PartId.decode_encoding hstored (hascii hp))
          simp only [hstored.encode_eq, encodeRecord_eq_ok hfits]
          refine Safe.bind (safe_append hup hwithin hfits hlogged) ?_
          rintro r t ⟨s', rfl, hengine, hw, hlen, hlogLen⟩
          simp only [hengine, Engine.delete_run hinv]
          refine Safe.pure ⟨⟨hw, hlen⟩, rfl, ?_⟩
          rcases hlogLen with hle | heq
          · exact Or.inl hle
          · exact Or.inr (Or.inr heq)

/-- A rewrite that leaves on disk what the same removal leaves in memory. -/
theorem safe_clear {s : Store} {d : Disk} (hup : s.Up d) {drop : PartId → Bool} {e' : Engine}
    (he' : e'.Inv)
    (hlookup : ∀ pid k, e'.lookup pid k = if drop pid then none else s.engine.lookup pid k) :
    Safe (fun t => Holds t s.engine ∨ Holds t e') d (s.rewrite drop) fun r t =>
      ∃ s', r = .ok s' ∧ s'.engine = s.engine ∧ Up { s' with engine := e' } t ∧
        s'.logLen = e'.snapshotLen := by
  obtain ⟨hinv, -, -⟩ := hup.written.sound
  have hsame : s.engine.excluding drop = e' := by
    apply (hinv.excluding drop).ext he'
    intro pid k
    rw [Engine.lookup_excluding, hlookup]
  have hrewrite := safe_rewrite hup.written rfl drop
  rw [hsame] at hrewrite
  refine hrewrite.mono (fun t ht => ht) ?_
  rintro r t ⟨s', rfl, hengine, hw, hlen, hlogLen⟩
  exact ⟨s', rfl, hengine, ⟨hw, hlen⟩, hlogLen⟩

theorem safe_clearPartition (hup : s.Up d) (partition : Net.PartitionKey)
    (he' : (Request.clearPartition partition).result s.engine = e') :
    Safe (fun t => Holds t s.engine ∨ Holds t e') d (s.clearPartition partition) fun r t =>
      Answered s d e' 0 (r.map Prod.snd) t := by
  obtain ⟨hinv, -, -⟩ := hup.written.sound
  unfold clearPartition
  cases hpid : PartId.fromKey partition with
  | error err => exact Safe.pure ⟨hup, rfl⟩
  | ok pid =>
      simp only [Request.result, hpid] at he'
      subst he'
      refine Safe.bind (@safe_clear s d hup (fun id => id = pid) _ (hinv.forget pid) ?_) ?_
      · intro pid' k
        rw [Engine.lookup_forget]
        simp
      · rintro r t ⟨s', rfl, hengine, hup', hlogLen⟩
        simp only [hengine, Engine.removePartition_run hinv]
        exact Safe.pure ⟨hup', rfl, Or.inr (Or.inl hlogLen)⟩

theorem safe_clearSite (hup : s.Up d) (partition : Net.PartitionKey) :
    Safe (fun t => Holds t s.engine ∨ Holds t (s.engine.forgetSite partition.topLevelSite.utf8)) d
      (s.clearSite partition) fun r t =>
        Answered s d (s.engine.forgetSite partition.topLevelSite.utf8) 0 (r.map Prod.snd) t := by
  obtain ⟨hinv, -, -⟩ := hup.written.sound
  refine Safe.bind (@safe_clear s d hup (fun id => id.site = partition.topLevelSite.utf8) _
    (hinv.forgetSite _) ?_) ?_
  · intro pid k
    rw [Engine.lookup_forgetSite]
    simp
  · rintro r t ⟨s', rfl, hengine, hup', hlogLen⟩
    have hremove := Engine.removeSite_run hinv partition.topLevelSite.utf8
    simp only [hengine]
    refine Safe.pure ⟨?_, hremove, Or.inr (Or.inl hlogLen)⟩
    rw [hremove]
    exact hup'

theorem safe_compact (hup : s.Up d) :
    Safe (fun t => Holds t s.engine ∨ Holds t s.engine) d s.compact
      (Answered s d s.engine 0) := by
  obtain ⟨hinv, -, -⟩ := hup.written.sound
  refine (@safe_clear s d hup (fun _ => false) _ hinv fun _ _ => rfl).mono (fun _ h => h) ?_
  rintro r t ⟨s', rfl, hengine, hup', hlogLen⟩
  have hsame : ({ s' with engine := s.engine } : Store) = s' := by
    rw [← hengine]
  exact ⟨hsame ▸ hup', hengine, Or.inr (Or.inl hlogLen)⟩

/-- Every call passes only through disks that hold the state before it or the state
after it. -/
theorem safe_perform (hup : s.Up d) (hwithin : d.Within) {r : Request}
    (ha : r.Ascii) :
    Safe (fun t => Holds t s.engine ∨ Holds t (r.result s.engine)) d (s.perform r)
      (Answered s d (r.result s.engine) (r.recordBytes s.engine)) := by
  cases r with
  | put partition ns key value => exact safe_put hup hwithin ha ns key value rfl
  | delete partition ns key => exact (safe_delete hup hwithin partition ns key rfl).map
  | clearPartition partition => exact (safe_clearPartition hup partition rfl).map
  | clearSite partition => exact (safe_clearSite hup partition).map
  | compact => exact safe_compact hup

/-! ## Opening -/

/-- The bytes after the temporary is gone. -/
theorem recover_of_holds (h : Holds d e) (hwithin : d.Within) :
    (d.log = none ∧ e = Engine.default ∧
      (Engine.recover u64 []).run = .ok ⟨Engine.default, 0, true⟩) ∨
    ∃ ops tail, d.log = some (headerBytes ++ logOf ops ++ tail) ∧
      Engine.Replays Engine.default ops e ∧
      (Engine.recover u64 (headerBytes ++ logOf ops ++ tail)).run =
        .ok ⟨e, (headerBytes ++ logOf ops).length, false⟩ := by
  rcases h with ⟨hlog, he⟩ | ⟨ops, tail, hlog, hr, hs⟩
  · exact Or.inl ⟨hlog, he, rfl⟩
  · refine Or.inr ⟨ops, tail, hlog, hr, ?_⟩
    have hlen := hwithin hlog
    have hheader : checkHeader (headerBytes ++ logOf ops ++ tail) = .ok .valid := by
      rw [List.append_assoc]
      exact checkHeader_append _
    have hdrop : (headerBytes ++ logOf ops ++ tail).drop HEADER_LEN = logOf ops ++ tail := by
      rw [List.append_assoc, ← length_headerBytes, List.drop_left]
    have hrecover := Engine.recover_valid hheader
      (by simp only [MAX_LOG_BYTES] at hlen; omega) hdrop hr hs
    have hpos : (headerBytes ++ logOf ops).length = HEADER_LEN + (logOf ops).length := by
      rw [List.length_append, length_headerBytes]
    rw [hpos]
    exact Engine.recover_run hrecover

/-- `open` on a directory with no log writes the header. -/
theorem safe_openBytes_nil {C : Disk → Prop} (hkeep : ∀ t : Disk, t.log = d.log → C t)
    (hnew : C ⟨some headerBytes, none⟩) :
    Safe C d (openBytes []) fun r t =>
      ∃ s, r = .ok s ∧ s.engine = Engine.default ∧ s.logLen = headerBytes.length ∧
        t = ⟨some headerBytes, none⟩ := by
  refine Safe.bind (safe_writeAtomic hkeep hnew) ?_
  rintro _ _ rfl
  exact Safe.get_bind (Safe.pure ⟨_, rfl, rfl, rfl, rfl⟩)

/-- `open` on a log cuts off what does not replay. -/
theorem safe_openBytes {C : Disk → Prop} {bytes tail : Bytes} (hlog : d.log = some (bytes ++ tail))
    (hrecover : (Engine.recover u64 (bytes ++ tail)).run = .ok ⟨e, bytes.length, false⟩)
    (hnew : ∀ t : Disk, t.log = some bytes → C t) :
    Safe C d (openBytes (bytes ++ tail)) fun r t =>
      ∃ s, r = .ok s ∧ s.engine = e ∧ s.logLen = bytes.length ∧ t.log = some bytes := by
  simp only [openBytes, hrecover, Bool.false_eq_true, if_false]
  by_cases htail : bytes.length < (bytes ++ tail).length
  · have hcut : d.log.map (·.take bytes.length) = some bytes := by
      rw [hlog, Option.map_some, List.take_left]
    rw [if_pos htail]
    refine Safe.step_bind (hnew _ hcut) (Safe.get_bind (Safe.pure ⟨_, rfl, rfl, ?_, hcut⟩))
    simp only [hcut, Option.getD_some]
  · have hnil : tail = [] := by
      rw [List.length_append] at htail
      exact List.length_eq_zero_iff.mp (by omega)
    rw [hnil, List.append_nil] at hlog
    rw [if_neg htail]
    refine Safe.get_bind (Safe.pure ⟨_, rfl, rfl, ?_, hlog⟩)
    simp only [hlog, Option.getD_some]

/-- Opening a directory that holds a state gives a store with that state, and a
crash on the way leaves a directory that holds it still. -/
theorem safe_openDir (h : Holds d e) (hwithin : d.Within) :
    Safe (fun t => Holds t e ∧ t.Within) d openDir fun r t =>
      ∃ s, r = .ok s ∧ s.Up t ∧ s.engine = e ∧ t.Within := by
  have hkeep : ∀ t : Disk, t.log = d.log → Holds t e ∧ t.Within := by
    intro t ht
    refine ⟨h.of_log ht, ?_⟩
    intro bytes hbytes
    exact hwithin (ht.symm.trans hbytes)
  refine Safe.step_bind (hkeep _ rfl) (Safe.get_bind ?_)
  rcases recover_of_holds h hwithin with ⟨hlog, rfl, -⟩ | ⟨ops, tail, hlog, hr, hrecover⟩
  · have hwritten : Written ⟨some headerBytes, none⟩ Engine.default := ⟨[], by simp, .nil⟩
    have hshort : Disk.Within ⟨some headerBytes, none⟩ := by
      rintro bytes ⟨⟩
      rw [length_headerBytes]
      decide
    simp only [hlog]
    refine (safe_openBytes_nil (fun t ht => hkeep t (ht.trans hlog.symm))
      ⟨hwritten.holds, hshort⟩).mono (fun _ h => h) ?_
    rintro r t ⟨s, rfl, he, hlen, rfl⟩
    exact ⟨s, rfl, ⟨he ▸ hwritten, ⟨_, rfl, hlen⟩⟩, he, hshort⟩
  · have hlen := hwithin hlog
    have hshort : ∀ t : Disk, t.log = some (headerBytes ++ logOf ops) → t.Within := by
      intro t ht bytes hbytes
      cases ht.symm.trans hbytes
      rw [List.length_append] at hlen
      omega
    simp only [hlog, if_neg (Nat.not_lt.mpr hlen)]
    refine (safe_openBytes rfl hrecover fun t ht =>
      ⟨Written.holds ⟨ops, ht, hr⟩, hshort t ht⟩).mono (fun _ h => h) ?_
    rintro r t ⟨s, rfl, rfl, hlen, ht⟩
    exact ⟨s, rfl, ⟨⟨ops, ht, hr⟩, ⟨_, ht, hlen⟩⟩, rfl, hshort t ht⟩

end Store

/-! ## Runs -/

/-- An open store over its directory, or a directory that nobody has open. -/
inductive World where
  | up (s : Store) (d : Disk)
  | down (d : Disk)

/-- A run from an empty directory, with the map of acknowledged calls; in a
directory left by a crash the second map also has the call that was in flight.
Calls name ASCII sites and logs stay within `MAX_LOG_BYTES`. -/
inductive Runs : World → Contents → Contents → Prop
  | start : Runs (.down ⟨none, none⟩) (fun _ _ => none) (fun _ _ => none)
  /-- a call returns `Ok` -/
  | acknowledged {s s' : Store} {d : Disk} {m m' : Contents} {r : Request} :
      Runs (.up s d) m m' → r.Ascii → (s.perform r).value d = .ok s' →
      ((s.perform r).final d).Within →
      Runs (.up s' ((s.perform r).final d)) (r.apply m) (r.apply m)
  /-- a call returns an error -/
  | refused {s : Store} {d : Disk} {m m' : Contents} {r : Request} {err : StoreError} :
      Runs (.up s d) m m' → r.Ascii → (s.perform r).value d = .error err →
      Runs (.up s ((s.perform r).final d)) m m
  /-- a crash at any point of a call -/
  | crashed {s : Store} {d d' : Disk} {m m' : Contents} {r : Request} :
      Runs (.up s d) m m' → r.Ascii → (s.perform r).Leaves d d' → d'.Within →
      Runs (.down d') m (r.apply m)
  /-- a crash between calls, or an orderly end -/
  | closed {s : Store} {d : Disk} {m m' : Contents} : Runs (.up s d) m m' → Runs (.down d) m m
  /-- the directory is opened, and operations continue from what was recovered -/
  | opened {s : Store} {d : Disk} {m m' : Contents} :
      Runs (.down d) m m' → Store.openDir.value d = .ok s →
      Runs (.up s (Store.openDir.final d)) s.engine.lookup s.engine.lookup
  /-- a crash at any point of `open` -/
  | crashedOpening {d d' : Disk} {m m' : Contents} :
      Runs (.down d) m m' → Store.openDir.Leaves d d' → Runs (.down d') m m'

/-- A directory that a crash between two maps may leave. -/
def HoldsEither (m m' : Contents) (d : Disk) : Prop :=
  ∃ e, Holds d e ∧ (e.lookup = m ∨ e.lookup = m')

/-- What holds at every point of a run. -/
def World.Sound (m m' : Contents) : World → Prop
  | .up s d => s.Up d ∧ d.Within ∧ s.engine.lookup = m
  | .down d => HoldsEither m m' d ∧ d.Within

/-- Opening a directory that holds one of two maps gives that map. -/
theorem open_of_holdsEither {d : Disk} {m m' : Contents} (h : HoldsEither m m' d)
    (hwithin : d.Within) :
    ∃ s, Store.openDir.value d = .ok s ∧ s.Up (Store.openDir.final d) ∧
      (Store.openDir.final d).Within ∧ (s.engine.lookup = m ∨ s.engine.lookup = m') := by
  obtain ⟨e, hholds, hmap⟩ := h
  obtain ⟨s, hs, hup, rfl, hwithin'⟩ := (Store.safe_openDir hholds hwithin).post
  exact ⟨s, hs, hup, hwithin', hmap⟩

theorem Runs.sound {w : World} {m m' : Contents} (h : Runs w m m') : w.Sound m m' := by
  induction h with
  | start => exact ⟨⟨Engine.default, Or.inl ⟨rfl, rfl⟩, Or.inl rfl⟩, nofun⟩
  | @acknowledged s s' d m m' r _ ha hok hwithin ih =>
      obtain ⟨hup, hw, rfl⟩ := ih
      have hpost := (Store.safe_perform hup hw ha).post
      rw [hok] at hpost
      exact ⟨hpost.1, hwithin, by rw [hpost.2.1, r.lookup_result]⟩
  | @refused s d m m' r err _ ha herr ih =>
      obtain ⟨hup, hw, hm⟩ := ih
      have hpost := (Store.safe_perform hup hw ha).post
      rw [herr] at hpost
      exact ⟨hpost.1, by rw [hpost.2]; exact hw, hm⟩
  | @crashed s d d' m m' r _ ha hleaves hwithin ih =>
      obtain ⟨hup, hw, rfl⟩ := ih
      refine ⟨?_, hwithin⟩
      rcases (Store.safe_perform hup hw ha).leaves (Or.inl hup.written.holds) hleaves with h | h
      · exact ⟨_, h, Or.inl rfl⟩
      · exact ⟨_, h, Or.inr (r.lookup_result _)⟩
  | closed _ ih =>
      obtain ⟨hup, hw, rfl⟩ := ih
      exact ⟨⟨_, hup.written.holds, Or.inl rfl⟩, hw⟩
  | opened _ hok ih =>
      obtain ⟨s', hs', hup, hw, -⟩ := open_of_holdsEither ih.1 ih.2
      cases hok.symm.trans hs'
      exact ⟨hup, hw, rfl⟩
  | crashedOpening _ hleaves ih =>
      obtain ⟨⟨e, hholds, hmap⟩, hw⟩ := ih
      have hleft := (Store.safe_openDir hholds hw).leaves ⟨hholds, hw⟩ hleaves
      exact ⟨⟨e, hleft.1, hmap⟩, hleft.2⟩

/-- At every point of every run: an open store holds the map of the acknowledged
calls; a directory left by a crash opens, to that map or to that map with the call
in flight applied; and opening it once more gives the same engine. -/
theorem store_durable {w : World} {m m' : Contents} (h : Runs w m m') :
    (∀ s d, w = .up s d → s.engine.lookup = m) ∧
    ∀ d, w = .down d → ∃ s, Store.openDir.value d = .ok s ∧
      (s.engine.lookup = m ∨ s.engine.lookup = m') ∧
      ∃ s', Store.openDir.value (Store.openDir.final d) = .ok s' ∧ s'.engine = s.engine := by
  have hsound := h.sound
  constructor
  · rintro s d rfl
    exact hsound.2.2
  · rintro d rfl
    obtain ⟨s, hs, hup, hw, hmap⟩ := open_of_holdsEither hsound.1 hsound.2
    obtain ⟨s', hs', -, he, -⟩ := (Store.safe_openDir hup.written.holds hw).post
    exact ⟨s, hs, hmap, s', hs', he⟩

/-- A put into a new store, cut after three bytes of its record. -/
def cutRequest : Request := .put Engine.sampleKey .storage [1] [2, 3]

theorem runs_cut : Runs (.down ⟨some (headerBytes ++ [34, 0, 0]), none⟩) (fun _ _ => none)
    (cutRequest.apply fun _ _ => none) := by
  have hopen : Runs (.up ⟨Engine.default, 16⟩ ⟨some headerBytes, none⟩) (fun _ _ => none)
      (fun _ _ => none) :=
    @Runs.opened ⟨Engine.default, 16⟩ _ _ _ .start rfl
  refine .crashed (r := cutRequest) hopen rfl (Or.inr ?_) ?_
  · decide +kernel
  · rintro bytes ⟨⟩
    decide

theorem store_durable_cut_append :
    ∃ s, Store.openDir.value ⟨some (headerBytes ++ [34, 0, 0]), none⟩ = .ok s ∧
      (s.engine.lookup = (fun _ _ => none) ∨
        s.engine.lookup = cutRequest.apply fun _ _ => none) := by
  obtain ⟨s, hs, hmap, -⟩ := (store_durable runs_cut).2 _ rfl
  exact ⟨s, hs, hmap⟩

end Pelorus.Store
