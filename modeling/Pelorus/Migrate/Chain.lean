import Pelorus.Migrate.Resume

/-
  Migrate/Chain.lean --- a profile that is renamed again and again.

  Each run leaves its marker in the new profile, and the next run's scan REFUSES a
  marker in the root of what it is to carry over.  So a profile is carried over at
  most once: the property of the whole chain holds for no rename, or for one.

  For one rename it fails in two ways.  The scan refuses the tree, or the old name
  is the new name with the staging suffix: then the run removes its own source
  before it copies, and what had a file in it cannot be copied any more.
-/
set_option autoImplicit false

namespace Pelorus.Migrate

open Lib Lib.Crash

/-- A regular file, or nothing. -/
def FileOrNone : Option Node → Prop
  | none => True
  | some (.file _) => True
  | some _ => False

/-- Ordinary files of the profile were written, made or removed. -/
def Edited (name : Text) (t u : Disk) : Prop :=
  ∀ p, u.lstat p = t.lstat p ∨ ∃ q, p = name :: q ∧ q ≠ [MARKER_NAME] ∧
    FileOrNone (t.lstat p) ∧ FileOrNone (u.lstat p)

/-- From here on, with the profile under `current`, each rename is followed by a run that
reports a migration and leaves every file of the profile under the new name. -/
def Carries (legacyDirs : List Text) (current : Text) : List Text → Disk → Prop
  | [], _ => True
  | configDir :: later, d =>
      (∃ source files dirs bytes removed, (run configDir legacyDirs).run.value d =
        .ok (.migrated source files dirs bytes removed)) ∧
      (∀ q content, d.lstat (current :: q) = some (.file content) →
        ((run configDir legacyDirs).run.final d).lstat (configDir :: q) = some (.file content)) ∧
      ∀ u, Edited configDir ((run configDir legacyDirs).run.final d) u →
        Carries (legacyDirs ++ [configDir]) configDir later u

/-- A profile `first`, and names for it that are plain, distinct and not in use. -/
structure Chain (d : Disk) (first : Text) (later : List Text) : Prop where
  plain : ∀ name ∈ first :: later, nameIsPlain name = true
  distinct : (first :: later).Nodup
  profile : d.lstat [first] = some .dir
  unused : ∀ name ∈ later, d.lstat [name] = none

/-- A tree without a file. -/
def NoFiles (d : Disk) (name : Text) : Prop :=
  ∀ q content, d.lstat (name :: q) ≠ some (.file content)

theorem Edited.refl (name : Text) (t : Disk) : Edited name t t := fun _ => Or.inl rfl

section First

variable {d : Disk} {first configDir : Text} {later : List Text}

theorem Chain.ne (h : Chain d first (configDir :: later)) : first ≠ configDir := by
  have hnodup := (List.nodup_cons.mp h.distinct).1
  simp only [List.mem_cons, not_or] at hnodup
  exact hnodup.1

/-- The first rename is a pending migration, if the old name is not the staging name. -/
theorem Chain.pending (h : Chain d first (configDir :: later)) (hne : first ≠ stagingOf configDir) :
    Pending d configDir [first] first where
  plain name hname := by
    simp only [List.mem_cons, List.not_mem_nil, or_false] at hname
    exact h.plain name (by rcases hname with rfl | rfl <;> simp)
  staging := by simpa using Ne.symm hne
  newest := ⟨[], [], rfl, h.ne, h.profile, nofun⟩
  vacant := vacant_of_none (h.unused configDir (by simp))

/-- What the first run did, when it did. -/
structure FirstRun (d : Disk) (first configDir : Text) (r : Except MigrateError Outcome) (u : Disk) :
    Prop where
  migrated : ∃ source files dirs bytes removed, r = .ok (.migrated source files dirs bytes removed)
  marker : u.lstat [configDir, MARKER_NAME] ≠ none
  profile : ∀ q, q ≠ [MARKER_NAME] → u.lstat (configDir :: q) = d.lstat (first :: q)

/-- The first run into a name that is not the staging name's. -/
theorem run_first (h : Chain d first (configDir :: later)) (hne : first ≠ stagingOf configDir) :
    Safe (fun _ => True) d (run configDir [first]).run fun r u =>
      ((∃ e, r = .error e) ∧ ¬ Tidy d [first]) ∨ (FirstRun d first configDir r u ∧ Tidy d [first]) := by
  have hp := h.pending hne
  have hbefore : Before d configDir d := ⟨fun _ _ _ => rfl, hp.vacant⟩
  refine (safe_run_before hp hbefore).mono (fun _ _ => trivial) fun r u hru => ?_
  rcases hru with ⟨e, he, -, hnot⟩ | ⟨files, dirs, bytes, hr, M, hscan, hafter, -⟩
  · exact Or.inl ⟨⟨e, he⟩, hnot⟩
  · refine Or.inr ⟨⟨⟨_, _, _, _, _, hr⟩, ?_, fun q hq => ?_⟩, ((scan_eq_ok h.profile).mp hscan).1⟩
    · rw [hafter.profile, if_pos rfl]
      exact Option.some_ne_none _
    · rw [hafter.profile, if_neg hq]

/-! ## A run that stages over its own source -/

variable {M : List Entry}

/-- The entries of directories are copied onto themselves. -/
theorem safe_copy_dirs (htidy : Tidy d [first]) (hlisted : Listed d [first] M) {front back : List Entry}
    (hM : M = front ++ back) (hdirs : ∀ e ∈ front, e.kind = .dir) {t : Disk}
    (hstart : CopyInv d first first [] t) :
    Safe (fun _ => True) t (front.foldlM (copyEntry [first] [first]) ⟨0, 0, 0⟩).run fun r u =>
      ∃ counts, r = .ok counts ∧ CopyInv d first first front u := by
  refine Safe.foldlM front (fun done e rest counts u hfront h => ?_) _ hstart
  have hM' : M = done ++ e :: (rest ++ back) := by
    rw [hM, hfront, List.append_assoc, List.cons_append]
  exact safe_copyEntry_dir (fun _ _ => trivial) htidy hlisted hM' h (hdirs e (by simp [hfront])) counts

/-- A file is gone with the source before it is copied. -/
theorem copyEntry_gone (htidy : Tidy d [first]) (hlisted : Listed d [first] M) {front back : List Entry}
    {e : Entry} (hM : M = front ++ e :: back) (hfile : e.kind ≠ .dir) {t : Disk}
    (h : CopyInv d first first front t) (counts : Counts) :
    Safe (fun _ => True) t (copyEntry [first] [first] counts e).run fun r _ => ∃ err, r = .error err := by
  have he : e ∈ M := by simp [hM]
  obtain ⟨p, hp, hrel, hcomp, hnode⟩ := hlisted.node htidy he
  rcases hnode with ⟨-, hk⟩ | ⟨content, hcontent, hk⟩
  · exact absurd hk hfile
  · obtain ⟨-, hnone, -⟩ := h.ready htidy hlisted hM hp hrel hcomp
      (by rw [List.singleton_append] at hcontent; rw [hcontent]; exact Option.some_ne_none _)
    simp only [copyEntry, hcomp, hk, List.singleton_append]
    refine Safe.error_bind (safe_look (safe_check_error (e := .io "open" (first :: p) .notFound) ?_
      ⟨_, rfl, _, rfl⟩))
    simp [ioErr, Disk.readFile, hnone, Except.mapError]

/-- The copy loop over the run's own source fails at the first file. -/
theorem safe_copy_gone (htidy : Tidy d [first]) (hlisted : Listed d [first] M)
    (hfiles : ¬ ∀ e ∈ M, e.kind = .dir) {t : Disk} (hstart : CopyInv d first first [] t) :
    Safe (fun _ => True) t (M.foldlM (copyEntry [first] [first]) ⟨0, 0, 0⟩).run fun r _ =>
      ∃ err, r = .error err := by
  -- cut the manifest at its first file
  obtain ⟨front, e, back, hM, hfront, he⟩ : ∃ front e back, M = front ++ e :: back ∧
      (∀ e ∈ front, e.kind = .dir) ∧ e.kind ≠ .dir := by
    clear hstart hlisted
    induction M with
    | nil => exact absurd (fun e he => absurd he List.not_mem_nil) hfiles
    | cons e M ih =>
        by_cases hk : e.kind = .dir
        · have hrest : ¬ ∀ e ∈ M, e.kind = .dir := fun hall => hfiles (by simpa [hk] using hall)
          obtain ⟨front, e', back, rfl, hfront, he'⟩ := ih hrest
          exact ⟨e :: front, e', back, rfl, by simpa [hk] using hfront, he'⟩
        · exact ⟨[], e, M, rfl, fun e he => absurd he List.not_mem_nil, hk⟩
  have hsplit : M.foldlM (copyEntry [first] [first]) ⟨0, 0, 0⟩ =
      front.foldlM (copyEntry [first] [first]) ⟨0, 0, 0⟩ >>= fun counts =>
        (e :: back).foldlM (copyEntry [first] [first]) counts := by
    rw [hM, List.foldlM_append]
  rw [hsplit]
  refine Safe.ok_bind (safe_copy_dirs htidy hlisted hM hfront hstart) fun counts u hu => ?_
  refine Safe.error_bind ((copyEntry_gone htidy hlisted hM he hu counts).mono (fun _ h => h) ?_)
  rintro r v ⟨err, hr⟩
  exact ⟨err, hr, err, rfl⟩

/-- The first run when the old name is the staging name of the new one. -/
theorem run_first_staging (h : Chain d first (configDir :: later)) (heq : first = stagingOf configDir) :
    Safe (fun _ => True) d (run configDir [first]).run fun r u =>
      ((∃ e, r = .error e) ∧ ¬ (Tidy d [first] ∧ NoFiles d first)) ∨
        (FirstRun d first configDir r u ∧ Tidy d [first] ∧ NoFiles d first) := by
  have hplain : (configDir :: [first]).find? (fun name => !nameIsPlain name) = none := by
    refine List.find?_eq_none.mpr fun name hname => ?_
    have := h.plain name (by simp only [List.mem_cons] at hname ⊢; tauto)
    simp [this]
  have hfree : d.lstat [configDir] = none := h.unused configDir (by simp)
  simp only [run, hplain]
  refine safe_look ?_
  rw [hfree]
  have hfind : findLegacy d configDir [first].reverse = .ok (some first) := by
    simp [findLegacy, h.ne, h.profile]
  refine safe_look (safe_check_ok hfind ?_)
  cases hscan : scan d [first] true with
  | error e =>
      refine safe_check_error hscan (Or.inl ⟨⟨e, rfl⟩, fun hboth => ?_⟩)
      obtain ⟨M, hM⟩ := scan_complete h.profile hboth.1
      rw [hscan] at hM
      cases hM
  | ok M =>
      obtain ⟨htidy, hlisted⟩ := (scan_eq_ok h.profile).mp hscan
      refine safe_check_ok hscan (Safe.ok_bind (P := fun _ t => t = d) (Safe.ok ⟨(), rfl, rfl⟩) ?_)
      intro _ t ht
      rw [ht, ← heq]
      refine safe_fresh first (fun _ _ => trivial) fun t hstart => ?_
      by_cases hdirs : ∀ e ∈ M, e.kind = .dir
      · refine Safe.ok_bind (safe_copy_dirs htidy hlisted (List.append_nil M).symm hdirs hstart)
          fun counts u hu => ?_
        have hsame : ∀ q, u.lstat (first :: q) = d.lstat (first :: q) := hu.complete h.profile htidy hlisted
        have hfree' : u.lstat [configDir] = none :=
          (hu.outside _ (not_isPrefix_cons h.ne [])).trans hfree
        refine (safe_commit h.ne ((hsame []).trans h.profile) hfree' (fun q => by rw [← heq])
          ((scan_congr h.profile hsame).mpr hscan) (fun _ _ => trivial) (fun _ _ => trivial) counts).mono
          (fun _ hc => hc) fun r v hrv => ?_
        obtain ⟨hr, hv, -⟩ := hrv
        refine Or.inr ⟨⟨⟨_, _, _, _, _, hr⟩, ?_, fun q hq => ?_⟩, htidy, fun q content hfile => ?_⟩
        · rw [hv.profile, if_pos rfl]
          exact Option.some_ne_none _
        · rw [hv.profile, if_neg hq, hsame]
        · obtain ⟨e, he, hentry⟩ : ∃ e ∈ M, e = entryAt d [first] q := by
            refine ⟨_, (hlisted.mem _).mpr ⟨q, ?_, ?_, rfl⟩, rfl⟩
            rotate_left
            · rw [List.singleton_append, hfile]
              exact Option.some_ne_none _
            rintro rfl
            rw [h.profile] at hfile
            cases hfile
          have hk := hdirs e he
          rw [hentry, entryAt_file hfile] at hk
          exact kind_ne_dir hk
      · refine Safe.error_bind ((safe_copy_gone htidy hlisted hdirs hstart).mono (fun _ hc => hc) ?_)
        rintro r v ⟨err, hr⟩
        refine ⟨err, hr, Or.inl ⟨⟨err, rfl⟩, fun hboth => hdirs fun e he => ?_⟩⟩
        obtain ⟨p, -, -, -, hnode⟩ := hlisted.node htidy he
        rcases hnode with ⟨-, hk⟩ | ⟨content, hfile, -⟩
        · exact hk
        · exact absurd hfile (hboth.2 p content)

theorem run_first_iff (h : Chain d first (configDir :: later)) :
    Safe (fun _ => True) d (run configDir [first]).run fun r u =>
      ((∃ e, r = .error e) ∧ ¬ (Tidy d [first] ∧ (first = stagingOf configDir → NoFiles d first))) ∨
        (FirstRun d first configDir r u ∧ Tidy d [first] ∧
          (first = stagingOf configDir → NoFiles d first)) := by
  by_cases heq : first = stagingOf configDir
  · refine (run_first_staging h heq).mono (fun _ hc => hc) fun r u hru => ?_
    rcases hru with ⟨he, hnot⟩ | ⟨hfirst, htidy, hno⟩
    · exact Or.inl ⟨he, fun hboth => hnot ⟨hboth.1, hboth.2 heq⟩⟩
    · exact Or.inr ⟨hfirst, htidy, fun _ => hno⟩
  · refine (run_first h heq).mono (fun _ hc => hc) fun r u hru => ?_
    rcases hru with ⟨he, hnot⟩ | ⟨hfirst, htidy⟩
    · exact Or.inl ⟨he, fun hboth => hnot hboth.1⟩
    · exact Or.inr ⟨hfirst, htidy, fun hs => absurd hs heq⟩

/-! ## The second run -/

/-- A run does not report a migration. -/
def NotMigrated (r : Except MigrateError Outcome) : Prop :=
  ∀ source files dirs bytes removed, r ≠ .ok (.migrated source files dirs bytes removed)

theorem notMigrated_error (e : MigrateError) : NotMigrated (.error e) := by
  intro _ _ _ _ _ h
  cases h

theorem notMigrated_alreadyCurrent : NotMigrated (.ok .alreadyCurrent) := by
  intro _ _ _ _ _ h
  cases h

theorem notMigrated_cleanedUp (removed : Bool) : NotMigrated (.ok (.cleanedUp removed)) := by
  intro _ _ _ _ _ h
  cases h

/-- The newest legacy profile has a marker: the scan refuses it. -/
theorem migrateLegacy_marked {legacyDirs : List Text} {name : Text} (hne : name ≠ configDir)
    (hdir : d.lstat [name] = some .dir) (hmarker : d.lstat [name, MARKER_NAME] ≠ none)
    (removeEmptyDest : Bool) :
    Safe (fun _ => True) d (migrateLegacy configDir (legacyDirs ++ [name]) removeEmptyDest).run
      fun r _ => NotMigrated r := by
  have hfind : findLegacy d configDir (legacyDirs ++ [name]).reverse = .ok (some name) := by
    rw [List.reverse_append, List.reverse_singleton, List.singleton_append, findLegacy, if_neg hne, hdir]
  refine safe_look (safe_check_ok hfind ?_)
  cases hscan : scan d [name] true with
  | error e =>
      exact safe_check_error hscan (notMigrated_error e)
  | ok M =>
      have htidy := (scan_sound hdir hscan).1
      exact absurd rfl (htidy.carried [MARKER_NAME] (by simp) hmarker).marker

/-- Whatever is under the new name, a run with such a profile reports no migration. -/
theorem run_marked {legacyDirs : List Text} {name : Text} (hne : name ≠ configDir)
    (hdir : d.lstat [name] = some .dir) (hmarker : d.lstat [name, MARKER_NAME] ≠ none) :
    Safe (fun _ => True) d (run configDir (legacyDirs ++ [name])).run fun r _ => NotMigrated r := by
  unfold run
  split
  · exact Safe.throw (notMigrated_error _)
  · refine safe_look ?_
    split
    · exact Safe.throw (notMigrated_error _)
    · split
      · split
        · refine (Safe.trivial _ _).bind fun r t _ => ?_
          cases r with
          | error e => exact Safe.pure (notMigrated_error e)
          | ok removed => exact Safe.ok (notMigrated_cleanedUp removed)
        · exact Safe.ok notMigrated_alreadyCurrent
      · split
        · exact migrateLegacy_marked hne hdir hmarker true
        · exact Safe.ok notMigrated_alreadyCurrent
    · exact Safe.throw (notMigrated_error _)
    · exact migrateLegacy_marked hne hdir hmarker false

end First

/-- A profile is carried through a chain of renames exactly if there is none, or one and the
scan accepts the profile and the run does not stage over files of its own source. -/
theorem chain_carries_iff {d : Disk} {first : Text} {later : List Text} (h : Chain d first later) :
    Carries [first] first later d ↔
      later = [] ∨ ∃ configDir, later = [configDir] ∧ Tidy d [first] ∧
        (first = stagingOf configDir → NoFiles d first) := by
  cases later with
  | nil => simp [Carries]
  | cons configDir later =>
      have hrun := (run_first_iff h).post
      simp only [reduceCtorEq, false_or, List.cons.injEq]
      constructor
      · rintro ⟨⟨source, files, dirs, bytes, removed, hvalue⟩, -, hlater⟩
        rcases hrun with ⟨⟨e, he⟩, -⟩ | ⟨hfirst, htidy, hno⟩
        · have hclash := hvalue.symm.trans he
          cases hclash
        · refine ⟨configDir, ⟨rfl, ?_⟩, htidy, hno⟩
          -- a further rename finds the marker of this one
          cases later with
          | nil => rfl
          | cons next later =>
              obtain ⟨⟨_, _, _, _, _, hnext⟩, -⟩ := hlater _ (Edited.refl _ _)
              have hne : configDir ≠ next := by
                have hdistinct := (List.nodup_cons.mp (List.nodup_cons.mp h.distinct).2).1
                simp only [List.mem_cons, not_or] at hdistinct
                exact hdistinct.1
              have hdir := (hfirst.profile [] (by simp)).trans h.profile
              have hmarked := @run_marked _ next [first] configDir hne hdir hfirst.marker
              exact absurd hnext (hmarked.post _ _ _ _ _)
      · rintro ⟨_, ⟨rfl, rfl⟩, htidy, hno⟩
        rcases hrun with ⟨-, hnot⟩ | ⟨hfirst, -⟩
        · exact absurd ⟨htidy, hno⟩ hnot
        · refine ⟨hfirst.migrated, fun q content hfile => ?_, fun _ _ => trivial⟩
          rw [hfirst.profile q, hfile]
          rintro rfl
          exact (htidy.carried [MARKER_NAME] (by simp)
            (by rw [List.singleton_append, hfile]; exact Option.some_ne_none _)).marker rfl

theorem chain_one_file (later : List Text) (hplain : ∀ name ∈ later, nameIsPlain name = true)
    (hdistinct : ("a".toList :: later).Nodup)
    (hunused : ∀ name ∈ later, (oneFile "a".toList).lstat [name] = none) :
    Chain (oneFile "a".toList) "a".toList later := by
  refine ⟨fun name hname => ?_, hdistinct, by decide +kernel, hunused⟩
  rcases List.mem_cons.mp hname with rfl | hname
  · decide
  · exact hplain name hname

theorem tidy_one_file : Tidy (oneFile "a".toList) ["a".toList] := by
  have hscan : scan (oneFile "a".toList) ["a".toList] true =
      .ok [⟨"f".toList, .file 0 0 0xcbf29ce484222325⟩] := by decide +kernel
  exact (scan_sound (by decide +kernel) hscan).1

/-- One rename carries a profile with one file. -/
theorem chain_carries_one_rename :
    Chain (oneFile "a".toList) "a".toList ["b".toList] ∧
      Carries ["a".toList] "a".toList ["b".toList] (oneFile "a".toList) := by
  have hchain : Chain (oneFile "a".toList) "a".toList ["b".toList] :=
    chain_one_file _ (by decide) (by decide) (by decide +kernel)
  exact ⟨hchain, (chain_carries_iff hchain).mpr
    (Or.inr ⟨_, rfl, tidy_one_file, fun h => absurd h (by decide)⟩)⟩

/-- The second rename of the same profile is refused. -/
theorem chain_not_carried_twice :
    Chain (oneFile "a".toList) "a".toList ["b".toList, "c".toList] ∧
      Tidy (oneFile "a".toList) ["a".toList] ∧
      ¬ Carries ["a".toList] "a".toList ["b".toList, "c".toList] (oneFile "a".toList) := by
  refine ⟨chain_one_file _ (by decide) (by decide) (by decide +kernel), tidy_one_file, ?_⟩
  rintro ⟨-, -, hlater⟩
  obtain ⟨⟨source, files, dirs, bytes, removed, hvalue⟩, -⟩ := hlater _ (Edited.refl _ _)
  have hrefused : (run "c".toList (["a".toList] ++ ["b".toList])).run.value
      ((run "b".toList ["a".toList]).run.final (oneFile "a".toList)) =
        .error (.unsupportedEntry ["b".toList, MARKER_NAME]) := by decide +kernel
  have hclash := hvalue.symm.trans hrefused
  cases hclash

end Pelorus.Migrate
