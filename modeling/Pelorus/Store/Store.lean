import Pelorus.Lib.FileSystem
import Pelorus.Store.Snapshot

/-
  Store/Store.lean --- the file-backed store: one append-only log, rewritten
  atomically (`px-store/src/store.rs`).

  The DISK is the log file and the temporary of an atomic replacement.  A write
  reaches the disk byte by byte, so a crash leaves any prefix of it; a rename is
  atomic.  Operating system errors are not modelled, and with them the poisoned
  state they lead to.
-/
set_option autoImplicit false
set_option linter.dupNamespace false

namespace Pelorus.Store

open Lib

/-- Largest log file that is read at open. -/
def MAX_LOG_BYTES : Nat := 256 * 2 ^ 20

/-- Slack allowed before a write triggers compaction. -/
def COMPACT_SLACK : Nat := 2 ^ 20

/-- What a store operation can fail with. -/
inductive StoreError where
  | quota (err : QuotaError)
  | format (err : FormatError)
  deriving DecidableEq, Repr

/-- The store directory: `store.log` and `store.log.tmp`. -/
structure Disk where
  log : Option Bytes
  tmp : Option Bytes
  deriving DecidableEq, Repr

/-- Programs over the directory. -/
abbrev Io : Type → Type := Crash Disk

/-- `write_atomic`: replace the log. -/
def writeAtomic (bytes : Bytes) : Io Unit := do
  Crash.progress bytes.length fun n d => { d with tmp := some (bytes.take n) }
  Crash.step fun d => { log := d.tmp, tmp := none }

/-- `write_all` on the log, which is open for appending. -/
def appendLog (record : Bytes) : Io Unit :=
  Crash.progress record.length fun n d => { d with log := d.log.map (· ++ record.take n) }

/-- `saturating_mul` on `u64`. -/
def saturatingMul (a b : Nat) : Nat := min (a * b) (2 ^ 64 - 1)

/-- Partitioned key-value storage on disk: the state in memory, and the length of
the log. -/
structure Store where
  engine : Engine
  logLen : Nat

namespace Store

/-- `Store::open`, once the log has been read. -/
def openBytes (bytes : Bytes) : Io (Except StoreError Store) :=
  match (Engine.recover u64 bytes).run with
  | .error err => return .error (.format err)
  | .ok recovered => do
      if recovered.fresh then writeAtomic headerBytes
      else if recovered.validLen < bytes.length then
        Crash.step fun d => { d with log := d.log.map (·.take recovered.validLen) }
      else pure ()
      let d ← Crash.get
      return .ok ⟨recovered.engine, (d.log.getD []).length⟩

/-- `Store::open`. -/
def openDir : Io (Except StoreError Store) := do
  -- a leftover temporary is an unfinished replacement
  Crash.step fun d => { d with tmp := none }
  let d ← Crash.get
  match d.log with
  | none => openBytes []
  | some bytes =>
      if bytes.length > MAX_LOG_BYTES then return .error (.format .recordTooLarge)
      else openBytes bytes

def rewrite (s : Store) (drop : PartId → Bool) : Io (Except StoreError Store) :=
  match s.engine.snapshotExcluding drop with
  | .error err => return .error (.format err)
  | .ok snapshot => do
      writeAtomic snapshot
      return .ok { s with logLen := snapshot.length }

/-- `Store::append`, once there is room in the log or nothing can make any. -/
def appendRecord (s : Store) (record : Bytes) : Io (Except StoreError Store) := do
  appendLog record
  return .ok { s with logLen := (u64.add s.logLen record.length).run }

def append (s : Store) (record : Bytes) : Io (Except StoreError Store) :=
  if (u64.add s.logLen record.length).run > MAX_LOG_BYTES then do
    match ← s.rewrite fun _ => false with
    | .error err => return .error err
    | .ok s => s.appendRecord record
  else s.appendRecord record

/-- `Store::maybe_compact`: a failure here is not a failure of the write. -/
def maybeCompact (s : Store) : Io Store :=
  if s.logLen > (u64.add (saturatingMul s.engine.totalUsage 2) COMPACT_SLACK).run then do
    match ← s.rewrite fun _ => false with
    | .error _ => return s
    | .ok s => return s
  else return s

def put (s : Store) (partition : Net.PartitionKey) (ns : Namespace) (key value : Bytes) :
    Io (Except StoreError Store) :=
  match PartId.fromKey partition with
  | .error err => return .error (.quota err)
  | .ok pid =>
      match (Engine.checkPut u64 s.engine pid ns key value).run with
      | .error err => return .error (.quota err)
      | .ok () =>
          match pid.encode with
          | none => return .error (.quota .partitionKeyTooLarge)
          | some pidBytes =>
              match encodeRecord (.put ns.code pidBytes key value) with
              | .error err => return .error (.format err)
              | .ok record => do
                  match ← s.append record with
                  | .error err => return .error err
                  | .ok s =>
                      let s ← maybeCompact
                        { s with engine := (Engine.put u64 s.engine pid ns key value).run }
                      return .ok s

/-- `Store::delete`: whether the key existed, and the store without it. -/
def delete (s : Store) (partition : Net.PartitionKey) (ns : Namespace) (key : Bytes) :
    Io (Except StoreError (Bool × Store)) :=
  match PartId.fromKey partition with
  | .error err => return .error (.quota err)
  | .ok pid =>
      match s.engine.get pid ns key with
      | none => return .ok (false, s)
      | some _ =>
          match pid.encode with
          | none => return .error (.quota .partitionKeyTooLarge)
          | some pidBytes =>
              match encodeRecord (.delete ns.code pidBytes key) with
              | .error err => return .error (.format err)
              | .ok record => do
                  match ← s.append record with
                  | .error err => return .error err
                  | .ok s =>
                      return .ok (true,
                        { s with engine := (Engine.delete u64 s.engine pid ns key).run.2 })

/-- `Store::clear_partition`: how many entries went, and the store without them. -/
def clearPartition (s : Store) (partition : Net.PartitionKey) :
    Io (Except StoreError (Nat × Store)) :=
  match PartId.fromKey partition with
  | .error err => return .error (.quota err)
  | .ok pid => do
      match ← s.rewrite fun id => id = pid with
      | .error err => return .error err
      | .ok s =>
          let (n, engine) := (Engine.removePartition u64 s.engine pid).run
          return .ok (n, { s with engine })

def clearSite (s : Store) (partition : Net.PartitionKey) : Io (Except StoreError (Nat × Store)) := do
  let site := partition.topLevelSite.utf8
  match ← s.rewrite fun id => id.site = site with
  | .error err => return .error err
  | .ok s =>
      let (n, engine) := (Engine.removeSite u64 s.engine site).run
      return .ok (n, { s with engine })

def compact (s : Store) : Io (Except StoreError Store) := s.rewrite fun _ => false

def get (s : Store) (partition : Net.PartitionKey) (ns : Namespace) (key : Bytes) : Option Bytes :=
  match PartId.fromKey partition with
  | .error _ => none
  | .ok pid => s.engine.get pid ns key

def keys (s : Store) (partition : Net.PartitionKey) (ns : Namespace) : List Bytes :=
  match PartId.fromKey partition with
  | .error _ => []
  | .ok pid => s.engine.keys pid ns

def partitionUsage (s : Store) (partition : Net.PartitionKey) : Nat :=
  match PartId.fromKey partition with
  | .error _ => 0
  | .ok pid => s.engine.usage pid

end Store

/-- A call that changes the store. -/
inductive Request where
  | put (partition : Net.PartitionKey) (ns : Namespace) (key value : Bytes)
  | delete (partition : Net.PartitionKey) (ns : Namespace) (key : Bytes)
  | clearPartition (partition : Net.PartitionKey)
  | clearSite (partition : Net.PartitionKey)
  | compact

/-- The store after a call that returned `Ok`. -/
def Store.perform (s : Store) : Request → Io (Except StoreError Store)
  | .put partition ns key value => s.put partition ns key value
  | .delete partition ns key => (·.map Prod.snd) <$> s.delete partition ns key
  | .clearPartition partition => (·.map Prod.snd) <$> s.clearPartition partition
  | .clearSite partition => (·.map Prod.snd) <$> s.clearSite partition
  | .compact => s.compact

end Pelorus.Store
