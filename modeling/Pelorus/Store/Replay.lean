import Pelorus.Store.Counting

/-
  Store/Replay.lean --- reading a log back.

  `Logged e op e'` says that `apply_logged` accepts a record and what it makes of
  the engine; `Replays` chains it along a list of records.  Every input splits as
  the bytes of some records that replay and a tail that does not continue them
  (`exists_replay`), and the loop of `recover` returns exactly that split
  (`recoverLoop_eq`), in every faithful arithmetic.
-/
set_option autoImplicit false

namespace Pelorus.Store

open Lib Lib.Arith

/-- The bytes of some records. -/
def logOf (ops : List Op) : Bytes := (ops.map fun op => frame op.body).flatten

@[simp] theorem logOf_nil : logOf [] = [] := rfl

@[simp] theorem logOf_cons (op : Op) (ops : List Op) : logOf (op :: ops) = frame op.body ++ logOf ops := rfl

@[simp] theorem logOf_append (ops ops' : List Op) : logOf (ops ++ ops') = logOf ops ++ logOf ops' := by
  simp [logOf]

namespace Engine

/-- A record that `apply_logged` accepts, and the engine it leaves. -/
inductive Logged (e : Engine) : Op → Engine → Prop
  | put {code : UInt8} {ns : Namespace} {pidBytes key value : Bytes} {pid : PartId} :
      Namespace.fromCode code = some ns → PartId.decode pidBytes = some pid →
      e.Room pid ⟨code, key⟩ value →
      Logged e (.put code pidBytes key value) (e.write pid ⟨code, key⟩ value)
  | delete {code : UInt8} {ns : Namespace} {pidBytes key : Bytes} {pid : PartId} :
      Namespace.fromCode code = some ns → PartId.decode pidBytes = some pid →
      Logged e (.delete code pidBytes key) (e.erase pid ⟨code, key⟩)

variable {e e' : Engine}
variable {op : Op} {ops : List Op} {bytes : Bytes}

theorem Logged.inv (hl : Logged e op e') (h : e.Inv) : e'.Inv := by
  cases hl with
  | put _ _ hroom => exact h.write hroom
  | delete _ _ => exact h.erase _ _

theorem Logged.target (hl : Logged e op e') :
    Namespace.fromCode op.ns ≠ none ∧ PartId.decode op.pid ≠ none := by
  cases hl with
  | put hns hpid _ => exact ⟨by simp [Op.ns, hns], by simp [Op.pid, hpid]⟩
  | delete hns hpid => exact ⟨by simp [Op.ns, hns], by simp [Op.pid, hpid]⟩

theorem applyLogged_no_target (hno : Namespace.fromCode op.ns = none ∨ PartId.decode op.pid = none)
    {m : Type → Type} [Monad m] (u : Arith m) : applyLogged u e op = pure none := by
  cases op with
  | put code pidBytes key value =>
      simp only [Op.ns, Op.pid] at hno
      rcases hno with hno | hno
      · simp only [applyLogged, hno]
      · cases hns : Namespace.fromCode code <;> simp only [applyLogged, hns, hno]
  | delete code pidBytes key =>
      simp only [Op.ns, Op.pid] at hno
      rcases hno with hno | hno
      · simp only [applyLogged, hno]
      · cases hns : Namespace.fromCode code <;> simp only [applyLogged, hns, hno]

theorem applyLogged_put (h : e.Inv) {code : UInt8} {ns : Namespace} {pidBytes key value : Bytes}
    {pid : PartId} (hns : Namespace.fromCode code = some ns)
    (hpid : PartId.decode pidBytes = some pid) :
    ∃ r : Option Engine, Computes (2 ^ 64) (fun _ _ u => applyLogged u e (.put code pidBytes key value)) r ∧
      ∀ e', r = some e' ↔ Logged e (.put code pidBytes key value) e' := by
  have hcode := Namespace.code_of_fromCode hns
  obtain ⟨r, hr, hroom⟩ := checkPut_spec h pid ns key value
  rw [hcode] at hroom
  -- the id decodes in one way only
  have hinv : ∀ {e'}, Logged e (.put code pidBytes key value) e' →
      e.Room pid ⟨code, key⟩ value ∧ e' = e.write pid ⟨code, key⟩ value := by
    intro e' hl
    cases hl with
    | put _ hpid' hroom' =>
        rw [hpid] at hpid'
        cases hpid'
        exact ⟨hroom', rfl⟩
  cases r with
  | error err =>
      refine ⟨none, ?_, fun e' => ⟨nofun, fun hl => ?_⟩⟩
      · intro m _ _ u hu
        have hcheck := hr m u hu
        simp only at hcheck
        simp only [applyLogged, hns, hpid, hcheck, pure_bind]
      · exact absurd (hroom.mpr (hinv hl).1) (by simp)
  | ok _ =>
      have hroom' := hroom.mp rfl
      refine ⟨some (e.write pid ⟨code, key⟩ value), ?_, fun e' => ⟨?_, fun hl => ?_⟩⟩
      · intro m _ _ u hu
        have hcheck := hr m u hu
        have hput := put_eq h (hcode.symm ▸ hroom') m u hu
        simp only at hcheck hput
        simp only [applyLogged, hns, hpid, hcheck, pure_bind, hput, hcode, map_pure]
      · intro heq
        cases heq
        exact .put hns hpid hroom'
      · rw [(hinv hl).2]

theorem applyLogged_delete (h : e.Inv) {code : UInt8} {ns : Namespace} {pidBytes key : Bytes}
    {pid : PartId} (hns : Namespace.fromCode code = some ns)
    (hpid : PartId.decode pidBytes = some pid) :
    ∃ r : Option Engine, Computes (2 ^ 64) (fun _ _ u => applyLogged u e (.delete code pidBytes key)) r ∧
      ∀ e', r = some e' ↔ Logged e (.delete code pidBytes key) e' := by
  have hcode := Namespace.code_of_fromCode hns
  refine ⟨some (e.erase pid ⟨code, key⟩), ?_, fun e' => ⟨?_, fun hl => ?_⟩⟩
  · intro m _ _ u hu
    have hdelete := delete_eq h pid ns key m u hu
    simp only at hdelete
    simp only [applyLogged, hns, hpid, hdelete, hcode, map_pure]
  · intro heq
    cases heq
    exact .delete hns hpid
  · cases hl with
    | delete _ hpid' =>
        rw [hpid] at hpid'
        cases hpid'
        rfl

/-- `apply_logged` accepts the records that are `Logged`. -/
theorem applyLogged_spec (h : e.Inv) (op : Op) :
    ∃ r : Option Engine, Computes (2 ^ 64) (fun _ _ u => applyLogged u e op) r ∧
      ∀ e', r = some e' ↔ Logged e op e' := by
  cases hns : Namespace.fromCode op.ns with
  | none =>
      exact ⟨none, fun m _ _ u _ => applyLogged_no_target (Or.inl hns) u,
        fun e' => ⟨nofun, fun hl => absurd hns hl.target.1⟩⟩
  | some ns =>
      cases hpid : PartId.decode op.pid with
      | none =>
          exact ⟨none, fun m _ _ u _ => applyLogged_no_target (Or.inr hpid) u,
            fun e' => ⟨nofun, fun hl => absurd hpid hl.target.2⟩⟩
      | some pid =>
          cases op with
          | put code pidBytes key value => exact applyLogged_put h hns hpid
          | delete code pidBytes key => exact applyLogged_delete h hns hpid

/-! ## Replaying -/

/-- Records accepted one after another. -/
inductive Replays : Engine → List Op → Engine → Prop
  | nil {e : Engine} : Replays e [] e
  | cons {e e' e'' : Engine} {op : Op} {ops : List Op} :
      op.Fits → Logged e op e' → Replays e' ops e'' → Replays e (op :: ops) e''

theorem Replays.append {ops' : List Op} {e'' : Engine} (h : Replays e ops e')
    (h' : Replays e' ops' e'') : Replays e (ops ++ ops') e'' := by
  induction h with
  | nil => exact h'
  | cons hfits hl _ ih => exact .cons hfits hl (ih h')

theorem Replays.keeps {P : Engine → Prop}
    (hstep : ∀ {e e' : Engine} {op : Op}, op.Fits → Logged e op e' → P e → P e') (h : Replays e ops e') :
    P e → P e' := by
  induction h with
  | nil => exact fun hp => hp
  | cons hfits hl _ ih => exact fun hp => ih (hstep hfits hl hp)

theorem Replays.inv (hr : Replays e ops e') (h : e.Inv) : e'.Inv :=
  hr.keeps (fun _ hl h => hl.inv h) h

/-- A tail that does not start with a record the engine accepts. -/
def Stuck (e : Engine) (tail : Bytes) : Prop :=
  ∀ {op : Op} {used : Nat}, decodeRecord tail = .record op used → ∀ e', ¬ Logged e op e'

theorem stuck_of_torn {tail : Bytes} (h : decodeRecord tail = .done ∨ decodeRecord tail = .torn) :
    Stuck e tail := by
  intro op used hrec
  rcases h with h | h <;> rw [h] at hrec <;> cases hrec

/-- Every input is some records that replay and a tail that does not continue them. -/
theorem exists_replay (rest : Bytes) : ∀ e : Engine,
    ∃ ops tail e', rest = logOf ops ++ tail ∧ Replays e ops e' ∧ Stuck e' tail := by
  induction hn : rest.length using Nat.strongRecOn generalizing rest with
  | ind n ih =>
      intro e
      by_cases hstuck : Stuck e rest
      · exact ⟨[], rest, e, rfl, .nil, hstuck⟩
      · simp only [Stuck, not_forall, not_not] at hstuck
        obtain ⟨op, used, hrec, e', hl⟩ := hstuck
        obtain ⟨hfits, -, rest', hrest⟩ := decodeRecord_sound hrec
        have hshort : rest'.length < n := by
          have := congrArg List.length hrest
          rw [List.length_append, length_frame, FRAME_LEN] at this
          omega
        obtain ⟨ops, tail, e'', rfl, hreplay, hend⟩ := ih _ hshort rest' rfl e'
        exact ⟨op :: ops, tail, e'', by simp [hrest], .cons hfits hl hreplay, hend⟩

/-- The loop of `recover` reads the records that replay and stops at the tail. -/
theorem recoverLoop_eq {ops : List Op} {tail : Bytes} (hr : Replays e ops e') (hs : Stuck e' tail) :
    ∀ {fuel pos : Nat}, e.Inv → (logOf ops ++ tail).length ≤ fuel →
      pos + (logOf ops ++ tail).length < 2 ^ 64 →
      Computes (2 ^ 64) (fun _ _ u => recoverLoop u fuel e pos (logOf ops ++ tail))
        (e', pos + (logOf ops).length) := by
  induction hr with
  | nil =>
      intro fuel pos h hfuel hpos m _ _ u hu
      simp only [logOf_nil, List.nil_append, List.length_nil, Nat.add_zero]
      cases fuel with
      | zero => rfl
      | succ fuel =>
          simp only [recoverLoop]
          cases hrec : decodeRecord tail with
          | done => rfl
          | torn => rfl
          | record op used =>
              obtain ⟨r, hr, hiff⟩ := applyLogged_spec h op
              have happly := hr m u hu
              simp only at happly
              cases r with
              | none => simp only [happly, pure_bind]
              | some e'' => exact absurd ((hiff e'').mp rfl) (hs hrec e'')
  | @cons e e₁ e₂ op ops hfits hl hrest ih =>
      intro fuel pos h hfuel hpos m _ _ u hu
      have hsize := length_frame_body op
      have hpositive : 0 < op.size := by
        rw [Op.size, FRAME_LEN]
        omega
      simp only [logOf_cons, List.append_assoc, List.length_append] at hfuel hpos
      cases fuel with
      | zero => omega
      | succ fuel =>
          obtain ⟨r, hr, hiff⟩ := applyLogged_spec h op
          have happly := hr m u hu
          rw [(hiff e₁).mpr hl] at happly
          have hnext := @ih hs fuel (pos + op.size) (hl.inv h)
            (by rw [List.length_append]; omega) (by rw [List.length_append]; omega) m _ _ u hu
          have hdrop : (frame op.body ++ (logOf ops ++ tail)).drop op.size = logOf ops ++ tail := by
            rw [← hsize, List.drop_left]
          have hadd : u.add pos op.size = pure (pos + op.size) := hu.add_eq (by omega)
          simp only at happly hnext
          simp only [recoverLoop, logOf_cons, List.append_assoc, decodeRecord_append hfits, happly,
            pure_bind, hadd, hdrop, hnext, List.length_append, hsize, Nat.add_assoc]

/-! ## Recovery -/

theorem recover_fresh (h : checkHeader bytes = .ok .fresh) :
    Computes (2 ^ 64) (fun _ _ u => recover u bytes) (.ok ⟨default, 0, true⟩) := by
  intro m _ _ u hu
  simp only [recover, h]

theorem recover_error {err : FormatError} (h : checkHeader bytes = .error err) :
    Computes (2 ^ 64) (fun _ _ u => recover u bytes) (.error err) := by
  intro m _ _ u hu
  simp only [recover, h]

theorem length_of_valid (h : checkHeader bytes = .ok .valid) : HEADER_LEN ≤ bytes.length := by
  unfold checkHeader at h
  split at h
  · cases h
  · split at h
    · split at h <;> cases h
    · rename_i hlen
      exact Nat.not_lt.mp hlen

/-- A log with a valid header is read up to where its records stop replaying. -/
theorem recover_valid {tail : Bytes} (h : checkHeader bytes = .ok .valid)
    (hlen : bytes.length < 2 ^ 64) (hbytes : bytes.drop HEADER_LEN = logOf ops ++ tail)
    (hr : Replays default ops e) (hs : Stuck e tail) :
    Computes (2 ^ 64) (fun _ _ u => recover u bytes)
      (.ok ⟨e, HEADER_LEN + (logOf ops).length, false⟩) := by
  intro m _ _ u hu
  have hheader := length_of_valid h
  have hrest := congrArg List.length hbytes
  rw [List.length_drop] at hrest
  have hloop := @recoverLoop_eq _ _ ops tail hr hs bytes.length HEADER_LEN inv_default
    (by omega) (by omega) m _ _ u hu
  simp only at hloop
  simp only [recover, h, hbytes, hloop, pure_bind]

theorem recover_run {r : Except FormatError Recovered}
    (h : Computes (2 ^ 64) (fun _ _ u => recover u bytes) r) : (recover u64 bytes).run = r :=
  h.saturating

/-- `recover` returns the same in every arithmetic, and what it returns replays. -/
theorem recover_spec {bytes : Bytes} (hlen : bytes.length < 2 ^ 64) :
    ∃ r : Except FormatError Recovered, Computes (2 ^ 64) (fun _ _ u => recover u bytes) r ∧
      ∀ {rec : Recovered}, r = .ok rec → ∃ ops, Replays default ops rec.engine := by
  cases hheader : checkHeader bytes with
  | error err => exact ⟨_, recover_error hheader, nofun⟩
  | ok header =>
      cases header with
      | fresh =>
          refine ⟨_, recover_fresh hheader, ?_⟩
          intro rec heq
          cases heq
          exact ⟨[], .nil⟩
      | valid =>
          obtain ⟨ops, tail, e, hbytes, hr, hs⟩ := exists_replay (bytes.drop HEADER_LEN) default
          refine ⟨_, recover_valid hheader hlen hbytes hr hs, ?_⟩
          intro rec heq
          cases heq
          exact ⟨ops, hr⟩

end Engine

end Pelorus.Store

/-! # Every engine the code can build

An engine starts from `recover` on any bytes and moves by guarded puts, deletes
and removals.  Each of these keeps the invariant, so every reachable engine
counts right, stays within its quotas, never saturates, and keeps partitions
apart. -/

namespace Pelorus.Store

open Lib Lib.Arith

/-- The code's arithmetic, failing where it would saturate. -/
abbrev checkedU64 : Arith Option := Arith.checked (2 ^ 64)

namespace Engine

/-- The engines that `recover` on some byte string and the engine's operations build.
A slice holds at most `isize::MAX` bytes, and a partition id is made from a
partition key. -/
inductive Reachable : Engine → Prop
  | recover {bytes : Bytes} {r : Recovered} : bytes.length < 2 ^ 63 →
      recover u64 bytes = Except.ok r → Reachable r.engine
  | put {e : Engine} {key : Net.PartitionKey} {pid : PartId} {ns : Namespace} {k v : Bytes} :
      Reachable e → PartId.fromKey key = .ok pid → checkPut u64 e pid ns k v = Except.ok () →
      Reachable (put u64 e pid ns k v).run
  | delete {e : Engine} {key : Net.PartitionKey} {pid : PartId} (ns : Namespace) (k : Bytes) :
      Reachable e → PartId.fromKey key = .ok pid → Reachable (delete u64 e pid ns k).run.2
  | removePartition {e : Engine} {key : Net.PartitionKey} {pid : PartId} :
      Reachable e → PartId.fromKey key = .ok pid → Reachable (removePartition u64 e pid).run.2
  | removeSite {e : Engine} (key : Net.PartitionKey) :
      Reachable e → Reachable (removeSite u64 e key.topLevelSite.utf8).run.2

/-! ## The code's operations, under the invariant -/

variable {e : Engine}
variable {pid : PartId} {ns : Namespace} {k v : Bytes}

theorem room_of_checkPut (h : e.Inv) (hok : checkPut u64 e pid ns k v = Except.ok ()) :
    e.Room pid ⟨ns.code, k⟩ v := by
  obtain ⟨r, hr, hroom⟩ := checkPut_spec h pid ns k v
  exact hroom.mp (hr.saturating.symm.trans hok)

theorem checkPut_of_room (h : e.Inv) (hroom : e.Room pid ⟨ns.code, k⟩ v) :
    checkPut u64 e pid ns k v = Except.ok () := by
  obtain ⟨r, hr, hiff⟩ := checkPut_spec h pid ns k v
  exact hr.saturating.trans (hiff.mpr hroom)

theorem put_run (h : e.Inv) (hroom : e.Room pid ⟨ns.code, k⟩ v) :
    (put u64 e pid ns k v).run = e.write pid ⟨ns.code, k⟩ v :=
  (put_eq h hroom).saturating

theorem delete_run (h : e.Inv) (pid : PartId) (ns : Namespace) (k : Bytes) :
    (delete u64 e pid ns k).run = ((e.get pid ns k).isSome, e.erase pid ⟨ns.code, k⟩) :=
  (delete_eq h pid ns k).saturating

theorem removePartition_run (h : e.Inv) (pid : PartId) :
    (removePartition u64 e pid).run = ((e.part pid).entries.size, e.forget pid) :=
  (removePartition_eq h pid).saturating

theorem removeSite_run (h : e.Inv) (site : Bytes) : (removeSite u64 e site).run.2 = e.forgetSite site := by
  obtain ⟨n, hn⟩ := removeSite_eq h site
  exact congrArg Prod.snd hn.saturating

/-- What holds of the empty engine and is kept by every way to change one, holds of
every reachable engine. -/
theorem Reachable.induction {P : Engine → Prop} (hdefault : P default)
    (hlogged : ∀ {e e' : Engine} {op : Op}, e.Inv → op.Fits → Logged e op e' → P e → P e')
    (hwrite : ∀ {e : Engine} {key : Net.PartitionKey} {pid : PartId} {k : EntryKey} {v : Bytes},
      e.Inv → PartId.fromKey key = .ok pid → e.Room pid k v → P e → P (e.write pid k v))
    (herase : ∀ {e : Engine} (pid : PartId) (k : EntryKey), e.Inv → P e → P (e.erase pid k))
    (hforget : ∀ {e : Engine} (pid : PartId), e.Inv → P e → P (e.forget pid))
    (h : Reachable e) : e.Inv ∧ P e := by
  induction h with
  | @recover bytes r hlen hrec =>
      obtain ⟨r', hr, hreplays⟩ := @recover_spec bytes (by omega)
      obtain ⟨ops, hops⟩ := hreplays (hr.saturating.symm.trans hrec)
      exact hops.keeps (P := fun e => e.Inv ∧ P e)
        (fun hfits hl hp => ⟨hl.inv hp.1, hlogged hp.1 hfits hl hp.2⟩) ⟨inv_default, hdefault⟩
  | put _ hkey hok ih =>
      have hroom := room_of_checkPut ih.1 hok
      rw [put_run ih.1 hroom]
      exact ⟨ih.1.write hroom, hwrite ih.1 hkey hroom ih.2⟩
  | @delete _ _ pid ns k _ _ ih =>
      rw [delete_run ih.1]
      exact ⟨ih.1.erase _ _, herase pid ⟨ns.code, k⟩ ih.1 ih.2⟩
  | @removePartition _ _ pid _ _ ih =>
      rw [removePartition_run ih.1]
      exact ⟨ih.1.forget _, hforget pid ih.1 ih.2⟩
  | @removeSite e key _ ih =>
      rw [removeSite_run ih.1]
      have hfold : ∀ (ids : List PartId) {e : Engine}, e.Inv → P e → P (ids.foldl forget e) := by
        intro ids
        induction ids with
        | nil => exact fun _ hp => hp
        | cons id ids ih => exact fun hi hp => ih (hi.forget id) (hforget id hi hp)
      exact ⟨ih.1.forgetSite _, hfold _ ih.1 ih.2⟩

theorem Reachable.inv (h : Reachable e) : e.Inv :=
  (h.induction (P := fun _ => True) trivial (fun _ _ _ _ => trivial) (fun _ _ _ _ => trivial)
    (fun _ _ _ _ => trivial) (fun _ _ _ => trivial)).1

/-! ## Accounting -/

/-- The counters equal what they count and every quota holds. -/
structure Accounted (e : Engine) : Prop where
  bytes_eq : ∀ {pid : PartId} {p : Partition}, e.parts.get? pid = some p →
    p.bytes = p.entries.sum fun k v => k.key.length + v.length + 48
  total_eq : e.total = e.parts.sum fun _ p => p.bytes
  nonempty : ∀ {pid : PartId} {p : Partition}, e.parts.get? pid = some p → p.entries.size ≠ 0
  count_le : ∀ {pid : PartId} {p : Partition}, e.parts.get? pid = some p → p.entries.size ≤ 10000
  bytes_le : ∀ {pid : PartId} {p : Partition}, e.parts.get? pid = some p →
    p.bytes ≤ PARTITION_QUOTA_BYTES
  total_le : e.total ≤ GLOBAL_QUOTA_BYTES

/-- No operation on the engine saturates: the arithmetic that fails instead of
saturating gives the code's results. -/
structure NeverSaturates (e : Engine) : Prop where
  checkPut_eq : ∀ (pid : PartId) (ns : Namespace) (k v : Bytes),
    checkPut checkedU64 e pid ns k v = some (checkPut u64 e pid ns k v).run
  put_eq : ∀ {pid : PartId} {ns : Namespace} {k v : Bytes},
    checkPut u64 e pid ns k v = Except.ok () →
      put checkedU64 e pid ns k v = some (put u64 e pid ns k v).run
  delete_eq : ∀ (pid : PartId) (ns : Namespace) (k : Bytes),
    delete checkedU64 e pid ns k = some (delete u64 e pid ns k).run
  removePartition_eq : ∀ pid : PartId,
    removePartition checkedU64 e pid = some (removePartition u64 e pid).run
  removeSite_eq : ∀ site : Bytes, removeSite checkedU64 e site = some (removeSite u64 e site).run

/-- A partition reads the same in both engines. -/
structure SameFor (pid : PartId) (e e' : Engine) : Prop where
  get_eq : ∀ (ns : Namespace) (k : Bytes), e'.get pid ns k = e.get pid ns k
  keys_eq : ∀ ns : Namespace, e'.keys pid ns = e.keys pid ns
  usage_eq : e'.usage pid = e.usage pid

/-- An operation that names one partition leaves every other as it was. -/
structure Isolated (e : Engine) : Prop where
  put_same : ∀ {pid pid' : PartId} {ns : Namespace} {k v : Bytes},
    checkPut u64 e pid ns k v = Except.ok () → pid' ≠ pid →
      SameFor pid' e (put u64 e pid ns k v).run
  delete_same : ∀ {pid pid' : PartId} (ns : Namespace) (k : Bytes), pid' ≠ pid →
    SameFor pid' e (delete u64 e pid ns k).run.2
  removePartition_same : ∀ {pid pid' : PartId}, pid' ≠ pid →
    SameFor pid' e (removePartition u64 e pid).run.2
  removeSite_same : ∀ {pid' : PartId} {site : Bytes}, pid'.site ≠ site →
    SameFor pid' e (removeSite u64 e site).run.2

theorem sameFor_of_get? {e' : Engine} (h : e'.parts.get? pid = e.parts.get? pid) :
    SameFor pid e e' where
  get_eq ns k := by simp [get, lookup, h]
  keys_eq ns := by simp [keys, h]
  usage_eq := by simp [usage, h]

theorem Inv.accounted (h : e.Inv) : e.Accounted where
  bytes_eq hp := (h.part_sound hp).bytes_eq
  total_eq := h.total_eq
  nonempty hp := Nat.pos_iff_ne_zero.mp (h.part_sound hp).nonempty
  count_le hp := (h.part_sound hp).count_le
  bytes_le hp := (h.part_sound hp).bytes_le
  total_le := h.total_le

theorem Inv.neverSaturates (h : e.Inv) : e.NeverSaturates where
  checkPut_eq pid ns k v := by
    obtain ⟨r, hr, -⟩ := checkPut_spec h pid ns k v
    exact hr.checked.trans (congrArg some hr.saturating.symm)
  put_eq hok := by
    have hput := put_eq h (room_of_checkPut h hok)
    exact hput.checked.trans (congrArg some hput.saturating.symm)
  delete_eq pid ns k := by
    have hdelete := delete_eq h pid ns k
    exact hdelete.checked.trans (congrArg some hdelete.saturating.symm)
  removePartition_eq pid := by
    have hremove := removePartition_eq h pid
    exact hremove.checked.trans (congrArg some hremove.saturating.symm)
  removeSite_eq site := by
    obtain ⟨n, hn⟩ := removeSite_eq h site
    exact hn.checked.trans (congrArg some hn.saturating.symm)

theorem Inv.isolated (h : e.Inv) : e.Isolated where
  put_same := by
    intro pid pid' ns k v hok hne
    rw [put_run h (room_of_checkPut h hok)]
    apply sameFor_of_get?
    rw [get?_write, if_neg hne]
  delete_same := by
    intro pid pid' ns k hne
    rw [delete_run h]
    exact sameFor_of_get? (get?_erase_of_ne hne _)
  removePartition_same := by
    intro pid pid' hne
    rw [removePartition_run h]
    apply sameFor_of_get?
    rw [get?_forget, if_neg hne]
  removeSite_same := by
    intro pid' site hne
    rw [removeSite_run h]
    apply sameFor_of_get?
    rw [get?_forgetSite, if_neg hne]

/-- Reading a log never saturates, and every engine reached from one counts right,
keeps its quotas, never saturates and keeps partitions apart. -/
theorem accounting_sound :
    (∀ bytes : Bytes, bytes.length < 2 ^ 63 →
      recover checkedU64 bytes = some (recover u64 bytes).run) ∧
    ∀ e : Engine, Reachable e → e.Accounted ∧ e.NeverSaturates ∧ e.Isolated := by
  constructor
  · intro bytes hlen
    obtain ⟨r, hr, -⟩ := @recover_spec bytes (by omega)
    exact hr.checked.trans (congrArg some hr.saturating.symm)
  · intro e h
    exact ⟨h.inv.accounted, h.inv.neverSaturates, h.inv.isolated⟩

/-- The partition of `cdn.com` embedded under `a.com`. -/
def sampleKey : Net.PartitionKey where
  topLevelSite := "a.com".toList
  origin := ⟨"https".toList, "cdn.com".toList, 443,
    ⟨Or.inl rfl, by decide, by decide, by decide⟩⟩
  site_ne_nil := by decide

def sampleId : PartId :=
  ⟨sampleKey.topLevelSite.utf8, sampleKey.origin.scheme.utf8, sampleKey.origin.host.utf8, 443⟩

/-- One entry, put into the engine a new store starts from. -/
def sampleEngine : Engine := (put u64 default sampleId .storage [1] [2, 3]).run

theorem reachable_sampleEngine : Reachable sampleEngine := by
  have hfresh : Reachable default := @Reachable.recover [] ⟨default, 0, true⟩ (by decide) rfl
  exact @Reachable.put _ sampleKey sampleId .storage [1] [2, 3] hfresh rfl rfl

theorem accounting_sound_one_entry :
    Reachable sampleEngine ∧ sampleEngine.get sampleId .storage [1] = some [2, 3] ∧
      sampleEngine.total = 51 ∧
      sampleEngine.Accounted ∧ sampleEngine.NeverSaturates ∧ sampleEngine.Isolated :=
  ⟨reachable_sampleEngine, by decide, by decide, accounting_sound.2 _ reachable_sampleEngine⟩

/-! ## A log that is cut -/

variable {e' : Engine} {ops : List Op}

/-- The log of some operations, cut anywhere, is that of its whole records and a tail that is none. -/
theorem replays_take (hr : Replays e ops e') : ∀ n : Nat, ∃ k s tail,
    (logOf ops).take n = logOf (ops.take k) ++ tail ∧ Replays e (ops.take k) s ∧ Stuck s tail ∧
      (k < ops.length → n < (logOf (ops.take (k + 1))).length) := by
  induction hr with
  | @nil e => exact fun n => ⟨0, e, [], by simp, .nil, stuck_of_torn (Or.inl rfl), nofun⟩
  | @cons e e₁ e' op ops hfits hl hr ih =>
      intro n
      have hsize := length_frame_body op
      rcases Nat.lt_or_ge n op.size with hcut | hwhole
      · refine ⟨0, e, (frame op.body).take n, ?_, .nil, stuck_of_torn (decodeRecord_take hfits hcut), fun _ => ?_⟩
        · rw [logOf_cons, List.take_append_of_le_length (hsize ▸ hcut.le)]
          rfl
        · rw [List.take_succ_cons, logOf_cons, List.length_append]
          omega
      · obtain ⟨k, s, tail, htake, hreplays, hstuck, hlt⟩ := ih (n - op.size)
        refine ⟨k + 1, s, tail, ?_, .cons hfits hl hreplays, hstuck, fun hk => ?_⟩
        · rw [logOf_cons, List.take_append, hsize, htake, List.take_succ_cons, logOf_cons,
            List.append_assoc, List.take_of_length_le (hsize ▸ hwhole)]
        · have := hlt (Nat.lt_of_succ_lt_succ hk)
          rw [List.take_succ_cons, logOf_cons, List.length_append]
          omega

end Engine

end Pelorus.Store
