import Pelorus.Migrate.Scan

/-
  Migrate/Migrator.lean --- the migration itself (`Migrator` of
  `px-store/src/migrate.rs`), as a program over the disk.

  Every change of the disk is a state the program passes through, so that it can be
  interrupted before any of them; removing a directory and writing a file pass
  through a state for every node and every byte, which is finer than the source's
  `tick`.  An operating system error that the disk does not explain is an
  interruption: the program returns there.

  Permissions are not modelled.  Names are texts: a name that is not UTF-8 has no
  counterpart here.
-/
set_option autoImplicit false

namespace Pelorus.Migrate

open Lib

/-- What a migration did. -/
inductive Outcome where
  | noLegacy
  | alreadyCurrent
  | migrated (source : Text) (files dirs : Nat) (bytes : UInt64) (sourceRemoved : Bool)
  | cleanedUp (sourceRemoved : Bool)
  deriving DecidableEq

/-- Programs of the migration. -/
abbrev Migration : Type → Type := ExceptT MigrateError (Crash Disk)

/-! ## Steps -/

/-- Look at the disk. -/
def look : Migration Disk := ExceptT.lift Crash.get

/-- Go on with a result, or fail. -/
def check {α : Type} (x : Except MigrateError α) : Migration α := ExceptT.mk (pure x)

/-- One operation that changes the disk. -/
def attempt (op : String) (path : Path) (f : Disk → Except IoError Disk) : Migration Unit := do
  match f (← look) with
  | .ok d => ExceptT.lift (Crash.step fun _ => d)
  | .error e => throw (.io op path e)

/-- One operation whose failure does not matter. -/
def attemptQuietly (f : Disk → Except IoError Disk) : Migration Unit := do
  match f (← look) with
  | .ok d => ExceptT.lift (Crash.step fun _ => d)
  | .error _ => pure ()

/-- `metadata`, of which only the failure matters here. -/
def stat (path : Path) : Migration Unit := do
  match (← look).lstat path with
  | some _ => pure ()
  | none => throw (.io "stat" path .notFound)

/-- `File::create` and `write_all`. -/
def writeFile (path : Path) (content : Bytes) : Migration Unit := do
  attempt "create" path fun d => d.createFile path
  ExceptT.lift (Crash.progress content.length fun i d => d.put path (.file (content.take i)))

/-- `Migrator::remove_tree`. -/
def removeTree (path : Path) : Migration Unit := do
  match (← look).lstat path with
  | some .dir => ExceptT.lift (Disk.removeDirAll path)
  | some _ => attempt "remove" path fun d => d.removeFile path
  | none => pure ()

/-- `Migrator::copy_file`. -/
def copyFile (source target : Path) : Migration Unit := do
  let content ← check (ioErr "open" source ((← look).readFile source))
  writeFile target content
  stat source

/-- `Migrator::make_dir`. -/
def makeDir (source : Option Path) (target : Path) : Migration Unit := do
  attempt "create directory" target fun d => d.createDir target
  stat (source.getD target)

/-! ## Cleaning up -/

/-- `path_has_no_symlink`: whether the components lead somewhere from `cur`, over no
link. -/
def pathHasNoSymlink (d : Disk) : Path → List Text → Bool
  | _, [] => true
  | cur, comp :: rest =>
      match d.lstat (cur ++ [comp]) with
      | some (.symlink _) => false
      | some _ => pathHasNoSymlink d (cur ++ [comp]) rest
      | none => false

/-- The file an entry was made for is still exactly what it was. -/
def unchanged (d : Disk) (path : Path) (size : UInt64) (crc : UInt32) (fnv : UInt64) : Bool :=
  match d.readFile path with
  | .ok content => hashFile content = (size, crc, fnv)
  | .error _ => false

/-- One turn of the first loop of `cleanup`: a file. -/
def cleanupFile (source : Path) (e : Entry) : Migration Unit :=
  match e.kind with
  | .dir => pure ()
  | .file size crc fnv => do
      let d ← look
      let path := source ++ components e.rel
      if pathHasNoSymlink d source (components e.rel) ∧ unchanged d path size crc fnv then
        attempt "remove" path fun d => d.removeFile path

/-- One turn of its second loop: a directory. -/
def cleanupDir (source : Path) (e : Entry) : Migration Unit := do
  let d ← look
  if e.kind = .dir ∧ pathHasNoSymlink d source (components e.rel) then
    attemptQuietly fun d => d.removeDir (source ++ components e.rel)

/-- `Migrator::cleanup`. -/
def cleanup (source : Path) (entries : List Entry) : Migration Bool := do
  entries.forM (cleanupFile source)
  entries.reverse.forM (cleanupDir source)
  attemptQuietly fun d => d.removeDir source
  return (← look).lstat source = none

/-! ## The run -/

/-- What a copy has counted. -/
structure Counts where
  files : Nat
  dirs : Nat
  bytes : UInt64
  deriving DecidableEq

/-- One turn of the copy loop. -/
def copyEntry (source staging : Path) (counts : Counts) (e : Entry) : Migration Counts := do
  let target := staging ++ components e.rel
  let path := source ++ components e.rel
  match e.kind with
  | .dir =>
      makeDir (some path) target
      return { counts with dirs := counts.dirs + 1 }
  | .file size _ _ =>
      copyFile path target
      return { counts with files := counts.files + 1, bytes := counts.bytes + size }

/-- The newest legacy name that exists, of the names from the newest to the oldest. -/
def findLegacy (d : Disk) (configDir : Text) : List Text → Except MigrateError (Option Text)
  | [] => .ok none
  | name :: older =>
      if name = configDir then findLegacy d configDir older
      else
        match d.lstat [name] with
        | some (.symlink _) => .error (.symlinkRefused [name])
        | some .dir => .ok (some name)
        | some _ => .error (.unsupportedEntry [name])
        | none => findLegacy d configDir older

/-- The staging directory. -/
def stagingOf (configDir : Text) : Text := configDir ++ STAGING_SUFFIX

/-- The bytes of the marker. -/
def markerBytes (source : Text) (manifest : List Entry) : Bytes :=
  Text.utf8 (encodeMarker source manifest)

/-- Step 4: a copy that is not the manifest is removed again, whatever comes of that. -/
def verify (staging scanned : Path) (manifest : List Entry) (why : String) : Migration Unit := do
  let found ← check (scan (← look) scanned true)
  if found ≠ manifest then
    ExceptT.lift (discard (removeTree staging).run)
    throw (.verificationFailed why)

/-- An empty directory under the new name must not block the migration, so it goes. -/
def clearDest (dest : Path) (removeEmptyDest : Bool) : Migration Unit :=
  if removeEmptyDest then attempt "remove" dest fun d => d.removeDir dest else pure ()

/-- Steps 4 to 6: verify the copy, activate it, and remove what it was made from. -/
def commit (configDir source : Text) (manifest : List Entry) (counts : Counts) :
    Migration Outcome := do
  let dest : Path := [configDir]
  let staging : Path := [stagingOf configDir]
  verify staging staging manifest "the copy differs from the source"
  verify staging [source] manifest "the source changed during the copy"
  writeFile (staging ++ [MARKER_NAME]) (markerBytes source manifest)
  attempt "rename" staging fun d => d.rename staging dest
  let sourceRemoved ← cleanup [source] manifest
  return .migrated source counts.files counts.dirs counts.bytes sourceRemoved

/-- Steps 3 to 6, from the legacy directory `source` with this manifest. -/
def carryOver (configDir source : Text) (manifest : List Entry) (removeEmptyDest : Bool) :
    Migration Outcome := do
  let staging : Path := [stagingOf configDir]
  clearDest [configDir] removeEmptyDest
  removeTree staging
  makeDir none staging
  let counts ← manifest.foldlM (copyEntry [source] staging) ⟨0, 0, 0⟩
  commit configDir source manifest counts

/-- Steps 1 and 2, and the rest. -/
def migrateLegacy (configDir : Text) (legacyDirs : List Text) (removeEmptyDest : Bool) :
    Migration Outcome := do
  let d ← look
  match ← check (findLegacy d configDir legacyDirs.reverse) with
  | none => return .noLegacy
  | some source =>
      let manifest ← check (scan d [source] true)
      carryOver configDir source manifest removeEmptyDest

/-- What the marker in a profile says, if it has a readable one. -/
def readMarker (d : Disk) (dest : Path) : Option (Text × List Entry) :=
  match d.readFile (dest ++ [MARKER_NAME]) with
  | .ok bytes => (Text.fromUtf8 bytes).bind parseMarker
  | .error _ => none

/-- `Migrator::run`. -/
def run (configDir : Text) (legacyDirs : List Text) : Migration Outcome := do
  let dest : Path := [configDir]
  match (configDir :: legacyDirs).find? (fun name => !nameIsPlain name) with
  | some name => throw (.invalidConfigName name)
  | none =>
      let d ← look
      match d.lstat dest with
      | some (.symlink _) => throw (.symlinkRefused dest)
      | some .dir =>
          match readMarker d dest with
          | some (source, entries) =>
              match d.lstat [source] with
              | some .dir => return .cleanedUp (← cleanup [source] entries)
              | _ => return .alreadyCurrent
          | none =>
              if (d.names dest).isEmpty then migrateLegacy configDir legacyDirs true
              else return .alreadyCurrent
      | some _ => throw (.unsupportedEntry dest)
      | none => migrateLegacy configDir legacyDirs false

end Pelorus.Migrate

/-! # What each step of the migration does to the disk

One triple for every function below the run.  The crash condition of each is the
same kind of statement: a state that differs from the first below one path only
(`SameOutside`) is safe, and the step leaves no other. -/

namespace Pelorus.Migrate

open Lib Lib.Crash

/-- The disks differ at or below `p` only. -/
def SameOutside (p : Path) (d t : Disk) : Prop := ∀ q, ¬ p <+: q → t.lstat q = d.lstat q

theorem SameOutside.refl (p : Path) (d : Disk) : SameOutside p d d := fun _ _ => rfl

theorem SameOutside.trans {p : Path} {d t u : Disk} (h : SameOutside p d t)
    (h' : SameOutside p t u) : SameOutside p d u :=
  fun q hq => (h' q hq).trans (h q hq)

/-- One path below `p` changed. -/
theorem SameOutside.of_lstat {p q : Path} {d t : Disk} {n : Option Node} (hpq : p <+: q)
    (h : ∀ r, t.lstat r = if r = q then n else d.lstat r) : SameOutside p d t := by
  intro r hr
  rw [h, if_neg]
  rintro rfl
  exact hr hpq

/-- Paths in different directories of the root. -/
theorem not_isPrefix_cons {a b : Text} (h : a ≠ b) (q : Path) : ¬ [a] <+: b :: q := by
  intro hp
  rw [List.cons_prefix_cons] at hp
  exact h hp.1

section Rules

variable {C : Disk → Prop} {d : Disk} {α β : Type}
variable {R : Except MigrateError β → Disk → Prop} {Q : Except MigrateError Unit → Disk → Prop}

theorem safe_look {f : Disk → Migration β} (h : Safe C d (f d).run R) : Safe C d (look >>= f).run R :=
  Safe.ok_bind (P := fun a t => a = d ∧ t = d) (Safe.lift (Safe.get ⟨d, rfl, rfl, rfl⟩)) fun a t hat => by
    rw [hat.1, hat.2]
    exact h

theorem safe_check_ok {x : Except MigrateError α} {a : α} {f : α → Migration β}
    (hx : x = .ok a) (h : Safe C d (f a).run R) :
    Safe C d (check x >>= f).run R := by
  refine Safe.ok_bind (P := fun b t => b = a ∧ t = d) (Safe.pure ⟨a, hx, rfl, rfl⟩) fun b t hbt => ?_
  rw [hbt.1, hbt.2]
  exact h

theorem safe_check_error {x : Except MigrateError α} {e : MigrateError} {f : α → Migration β}
    (hx : x = .error e) (h : R (.error e) d) :
    Safe C d (check x >>= f).run R := by
  subst hx
  exact ⟨nofun, h⟩

theorem safe_attempt {op : String} {path : Path} {f : Disk → Except IoError Disk} {d' : Disk}
    (hf : f d = .ok d') (hc : C d')
    (hq : Q (.ok ()) d') : Safe C d (attempt op path f).run Q := by
  refine safe_look ?_
  rw [hf]
  exact Safe.lift (Safe.step hc hq)

theorem safe_attemptQuietly {f : Disk → Except IoError Disk}
    (hok : ∀ d', f d = .ok d' → C d' ∧ Q (.ok ()) d')
    (herror : ∀ e, f d = .error e → Q (.ok ()) d) : Safe C d (attemptQuietly f).run Q := by
  refine safe_look ?_
  cases hf : f d with
  | ok d' => exact Safe.lift (Safe.step (hok d' hf).1 (hok d' hf).2)
  | error e => exact Safe.ok (herror e hf)

theorem safe_stat {path : Path}
    (h : d.lstat path ≠ none) (hq : Q (.ok ()) d) : Safe C d (stat path).run Q := by
  refine safe_look ?_
  obtain ⟨n, hn⟩ := Option.ne_none_iff_exists'.mp h
  rw [hn]
  exact Safe.ok hq

/-! ## Below one path -/

variable {p q : Path}

theorem safe_writeFile (hC : ∀ t, SameOutside p d t → C t) (hpq : p <+: q) {content : Bytes}
    (hparent : d.lstat q.dropLast = some .dir) (hnone : d.lstat q = none) :
    Safe C d (writeFile q content).run fun r t => r = .ok () ∧
      ∀ r, t.lstat r = if r = q then some (.file content) else d.lstat r := by
  have hndir : d.lstat q ≠ some .dir := by
    rw [hnone]
    nofun
  have hcreate := Disk.lstat_put hparent hndir (.file [])
  have hqne : q.dropLast ≠ q := by
    intro heq
    rw [heq, hnone] at hparent
    cases hparent
  -- the file is there, and any part of its content
  have hparent' : (d.put q (.file [])).lstat q.dropLast = some .dir := by
    rw [hcreate, if_neg hqne, hparent]
  have hndir' : (d.put q (.file [])).lstat q ≠ some .dir := by
    rw [hcreate, if_pos rfl]
    nofun
  have hwrite : ∀ i r, ((d.put q (.file [])).put q (.file (content.take i))).lstat r =
      if r = q then some (.file (content.take i)) else d.lstat r := by
    intro i r
    rw [Disk.lstat_put hparent' hndir', hcreate]
    split <;> rfl
  refine Safe.ok_bind (P := fun _ t => t = d.put q (.file [])) ?_ ?_
  · exact safe_attempt (Disk.createFile_eq hparent hnone) (hC _ (.of_lstat hpq hcreate)) ⟨(), rfl, rfl⟩
  · rintro _ _ rfl
    refine Safe.lift (Safe.progress (fun i _ => hC _ (.of_lstat hpq (hwrite i))) ⟨rfl, ?_⟩)
    simpa only [List.take_length] using hwrite content.length

theorem safe_makeDir (hC : ∀ t, SameOutside p d t → C t) (hpq : p <+: q) {source : Option Path}
    (hparent : d.lstat q.dropLast = some .dir) (hnone : d.lstat q = none)
    (hsource : ∀ s, source = some s → s ≠ q → d.lstat s ≠ none) :
    Safe C d (makeDir source q).run fun r t => r = .ok () ∧
      ∀ r, t.lstat r = if r = q then some .dir else d.lstat r := by
  have hcreate := Disk.lstat_put hparent (by rw [hnone]; nofun) .dir
  refine Safe.ok_bind (P := fun _ t => t = d.put q .dir) ?_ ?_
  · exact safe_attempt (Disk.createDir_eq hparent hnone) (hC _ (.of_lstat hpq hcreate)) ⟨(), rfl, rfl⟩
  · rintro _ _ rfl
    refine safe_stat ?_ ⟨rfl, hcreate⟩
    rw [hcreate]
    split
    · nofun
    · rename_i hne
      cases source with
      | none => exact absurd rfl hne
      | some s => exact hsource s rfl hne

theorem safe_copyFile (hC : ∀ t, SameOutside p d t → C t) (hpq : p <+: q) {s : Path} {content : Bytes}
    (hsource : d.lstat s = some (.file content)) (hsq : s ≠ q)
    (hparent : d.lstat q.dropLast = some .dir) (hnone : d.lstat q = none) :
    Safe C d (copyFile s q).run fun r t => r = .ok () ∧
      ∀ r, t.lstat r = if r = q then some (.file content) else d.lstat r := by
  have hread : ioErr "open" s (d.readFile s) = .ok content := by
    simp [ioErr, Disk.readFile, hsource, Except.mapError]
  refine safe_look (safe_check_ok hread ?_)
  refine Safe.ok_bind (P := fun _ t => ∀ r, t.lstat r =
    if r = q then some (.file content) else d.lstat r) ?_ ?_
  · exact (safe_writeFile hC hpq hparent hnone).mono (fun _ h => h) fun r t h => ⟨(), h.1, h.2⟩
  · intro _ t ht
    refine safe_stat ?_ ⟨rfl, ht⟩
    rw [ht, if_neg hsq, hsource]
    nofun

theorem safe_removeTree (hp : p ≠ []) (hC : ∀ t, SameOutside p d t → C t) :
    Safe C d (removeTree p).run fun r t => r = .ok () ∧ SameOutside p d t ∧
      ∀ q, t.lstat (p ++ q) = none := by
  refine safe_look ?_
  split
  · refine Safe.lift ((Disk.removeDirAll_safe hp hC).mono (fun _ h => h) ?_)
    exact fun _ t h => ⟨rfl, h⟩
  · rename_i n hnot hn
    have hndir : d.lstat p ≠ some .dir := by
      rw [hn]
      rintro ⟨⟩
      exact hnot rfl
    cases hremove : d.removeFile p with
    | error e => simp [Disk.removeFile, hn] at hremove
    | ok d' =>
        have hd' := Disk.lstat_removeFile hremove
        have houtside : SameOutside p d d' := .of_lstat (List.prefix_refl p) hd'
        refine safe_attempt hremove (hC _ houtside) ⟨rfl, houtside, fun q => ?_⟩
        rw [hd']
        split
        · rfl
        · rename_i hne
          exact Disk.lstat_below hndir fun hq => hne (by rw [hq, List.append_nil])
  · rename_i hn
    refine Safe.ok ⟨rfl, .refl p d, fun q => ?_⟩
    by_cases hq : q = []
    · rw [hq, List.append_nil, hn]
    · exact Disk.lstat_below (by rw [hn]; nofun) hq

theorem safe_verify {staging scanned : Path} {manifest : List Entry} {why : String}
    (h : scan d scanned true = .ok manifest) :
    Safe C d (verify staging scanned manifest why).run fun r t => r = .ok () ∧ t = d := by
  refine safe_look (safe_check_ok h ?_)
  rw [if_neg (by simp)]
  exact Safe.ok ⟨rfl, rfl⟩

end Rules

end Pelorus.Migrate
