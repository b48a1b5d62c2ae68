import Mathlib.Logic.Relation
import Pelorus.Migrate.Cleanup

/-
  Migrate/Resume.lean --- a migration that is interrupted and run again.

  TWO PHASES.  Until the rename the new profile is vacant and the legacy tree is the
  original (`Before`); from the rename on the new profile is the original tree with
  the marker, and of the legacy tree a part is left (`After`).  An interrupted run
  leaves one of the two, a run that completes leaves the second with nothing left of
  the legacy tree, and the next run finds that and changes nothing.

  A run after the commit finishes the cleanup from the marker, so it depends on the
  marker being readable: on a source name WITHOUT A NEWLINE.
-/
set_option autoImplicit false

namespace Pelorus.Migrate

open Lib Lib.Crash

/-! ## The setting -/

/-- There is no profile under this name, or an empty directory. -/
def Vacant (t : Disk) (name : Text) : Prop :=
  (t.lstat [name] = none ∨ t.lstat [name] = some .dir) ∧ ∀ q, q ≠ [] → t.lstat (name :: q) = none

/-- `source` is the newest legacy name that exists, and is a directory. -/
def Newest (d : Disk) (configDir : Text) (legacyDirs : List Text) (source : Text) : Prop :=
  ∃ older newer, legacyDirs = older ++ source :: newer ∧ source ≠ configDir ∧
    d.lstat [source] = some .dir ∧ ∀ name ∈ newer, name = configDir ∨ d.lstat [name] = none

/-- A legacy profile `source` that is to be carried over to `configDir`. -/
structure Pending (d : Disk) (configDir : Text) (legacyDirs : List Text) (source : Text) : Prop where
  plain : ∀ name ∈ configDir :: legacyDirs, nameIsPlain name = true
  staging : stagingOf configDir ∉ legacyDirs
  newest : Newest d configDir legacyDirs source
  vacant : Vacant d configDir

/-- One run of the migration, interrupted anywhere or not at all. -/
def RunStep (configDir : Text) (legacyDirs : List Text) (s t : Disk) : Prop :=
  (run configDir legacyDirs).run.Leaves s t ∨ t = (run configDir legacyDirs).run.final s

/-- Any number of runs. -/
def Runs (configDir : Text) (legacyDirs : List Text) : Disk → Disk → Prop :=
  Relation.ReflTransGen (RunStep configDir legacyDirs)

/-- The new profile does not exist or is empty, and the legacy tree is the original. -/
def Untouched (d : Disk) (configDir source : Text) (t : Disk) : Prop :=
  Vacant t configDir ∧ ∀ q, t.lstat (source :: q) = d.lstat (source :: q)

/-- The new profile holds every original file and directory. -/
def Complete (d : Disk) (configDir source : Text) (t : Disk) : Prop :=
  ∀ q, d.lstat (source :: q) ≠ none → t.lstat (configDir :: q) = d.lstat (source :: q)

/-- What a run that completed leaves: the original tree and the marker as the new profile,
no staging directory, and no file of the manifest as it was in the legacy directory. -/
structure Finished (d : Disk) (configDir source : Text) (M : List Entry) (t : Disk) : Prop where
  profile : ∀ q, t.lstat (configDir :: q) =
    if q = [MARKER_NAME] then some (.file (markerBytes source M)) else d.lstat (source :: q)
  staging : ∀ q, t.lstat (stagingOf configDir :: q) = none
  legacy : ∀ e ∈ M, ∀ size crc fnv, e.kind = .file size crc fnv →
    unchanged t (source :: components e.rel) size crc fnv = false

/-- The migration is crash safe and resumable. -/
structure Resumable (d : Disk) (configDir : Text) (legacyDirs : List Text) (source : Text) : Prop where
  safe : ∀ t, Runs configDir legacyDirs d t →
    Untouched d configDir source t ∨ Complete d configDir source t
  finishes : ∀ t, Runs configDir legacyDirs d t → ∀ out,
    (run configDir legacyDirs).run.value t = .ok out →
    ∃ M, scan d [source] true = .ok M ∧
      Finished d configDir source M ((run configDir legacyDirs).run.final t)
  again : ∀ t, Runs configDir legacyDirs d t → ∀ out,
    (run configDir legacyDirs).run.value t = .ok out →
    (run configDir legacyDirs).run.trace ((run configDir legacyDirs).run.final t) = [] ∧
      (run configDir legacyDirs).run.final ((run configDir legacyDirs).run.final t) =
        (run configDir legacyDirs).run.final t
  succeeds : Tidy d [source] → ∀ t, Runs configDir legacyDirs d t →
    ∃ out, (run configDir legacyDirs).run.value t = .ok out

/-! ## The two phases -/

/-- Before the commit. -/
structure Before (d : Disk) (configDir : Text) (t : Disk) : Prop where
  outside : ∀ p, ¬ [stagingOf configDir] <+: p → ¬ [configDir] <+: p → t.lstat p = d.lstat p
  vacant : Vacant t configDir

/-- From the commit on. -/
structure After (d : Disk) (configDir source : Text) (M : List Entry) (t : Disk) : Prop where
  profile : ∀ q, t.lstat (configDir :: q) =
    if q = [MARKER_NAME] then some (.file (markerBytes source M)) else d.lstat (source :: q)
  staging : ∀ q, t.lstat (stagingOf configDir :: q) = none
  leftover : Leftover d source t

section Phases

variable {d : Disk} {configDir source : Text} {legacyDirs : List Text} {M : List Entry}

section

variable (h : Pending d configDir legacyDirs source)

include h

theorem Pending.source_mem : source ∈ legacyDirs := by
  obtain ⟨older, newer, rfl, -⟩ := h.newest
  simp

theorem Pending.source_ne : source ≠ configDir := by
  obtain ⟨_, _, _, hne, _⟩ := h.newest
  exact hne

theorem Pending.source_ne_staging : source ≠ stagingOf configDir :=
  fun heq => h.staging (heq ▸ h.source_mem)

theorem Pending.source_dir : d.lstat [source] = some .dir := by
  obtain ⟨_, _, _, _, hdir, _⟩ := h.newest
  exact hdir

end

variable {t u : Disk} {removeEmptyDest : Bool}

theorem Vacant.congr {name : Text} (h : Vacant t name)
    (hu : ∀ q, u.lstat (name :: q) = t.lstat (name :: q)) : Vacant u name :=
  ⟨by rw [hu []]; exact h.1, fun q hq => by rw [hu q]; exact h.2 q hq⟩

/-- Changes in the staging directory do not leave the first phase. -/
theorem Before.sameOutside (h : Before d configDir t) (hu : SameOutside [stagingOf configDir] t u) :
    Before d configDir u where
  outside := fun p hs hc => (hu p hs).trans (h.outside p hs hc)
  vacant := h.vacant.congr fun q => hu _ (not_isPrefix_cons (stagingOf_ne configDir) q)

/-- The legacy tree is the original in the first phase. -/
theorem Before.legacy (hp : Pending d configDir legacyDirs source) (h : Before d configDir t) (q : Path) :
    t.lstat (source :: q) = d.lstat (source :: q) :=
  h.outside _ (not_isPrefix_cons (Ne.symm hp.source_ne_staging) q)
    (not_isPrefix_cons (Ne.symm hp.source_ne) q)

/-- Changes in the legacy directory that only remove do not leave the second phase. -/
theorem After.sameOutside (hp : Pending d configDir legacyDirs source)
    (h : After d configDir source M t) (hu : SameOutside [source] t u) (hleft : Leftover d source u) :
    After d configDir source M u where
  profile := fun q => (hu _ (not_isPrefix_cons hp.source_ne q)).trans (h.profile q)
  staging := fun q => (hu _ (not_isPrefix_cons hp.source_ne_staging q)).trans (h.staging q)
  leftover := hleft

/-! ## A run before the commit -/

theorem findLegacy_eq (hp : Pending d configDir legacyDirs source) (h : Before d configDir t) :
    findLegacy t configDir legacyDirs.reverse = .ok (some source) := by
  obtain ⟨older, newer, hlist, hne, hdir, hnewer⟩ := hp.newest
  have hstaging := hp.staging
  rw [hlist] at hstaging ⊢
  rw [List.reverse_append, List.reverse_cons, List.append_assoc]
  -- the names after it are skipped, one by one from the last
  have hskip : ∀ names rest : List Text,
      (∀ name ∈ names, (name = configDir ∨ d.lstat [name] = none) ∧ name ≠ stagingOf configDir) →
      findLegacy t configDir (names ++ rest) = findLegacy t configDir rest := by
    intro names rest hnames
    induction names with
    | nil => rfl
    | cons name names ih =>
        have ih' := ih fun n hn => hnames n (by simp [hn])
        obtain ⟨hname, hns⟩ := hnames name (by simp)
        rw [List.cons_append, findLegacy]
        by_cases hc : name = configDir
        · rw [if_pos hc, ih']
        · have hnone : t.lstat [name] = none := by
            rw [h.outside [name] (not_isPrefix_cons (Ne.symm hns) [])
              (not_isPrefix_cons (Ne.symm hc) [])]
            exact hname.resolve_left hc
          rw [if_neg hc, hnone, ih']
  rw [hskip]
  · have hsource : t.lstat [source] = some .dir := (h.legacy hp []).trans hdir
    rw [List.singleton_append, findLegacy, if_neg hne, hsource]
  · intro name hname
    rw [List.mem_reverse] at hname
    exact ⟨hnewer name hname, fun heq => hstaging (heq ▸ by simp [hname])⟩

/-- An empty new directory goes first. -/
theorem safe_clearDest {C : Disk → Prop} (hC : ∀ u, Before d configDir u → C u)
    (h : Before d configDir t)
    (hdest : t.lstat [configDir] = if removeEmptyDest then some .dir else none) :
    Safe C t (clearDest [configDir] removeEmptyDest).run fun r u =>
      ∃ a, r = .ok a ∧ Before d configDir u ∧ u.lstat [configDir] = none := by
  cases removeEmptyDest with
  | false => exact Safe.ok ⟨(), rfl, h, hdest⟩
  | true =>
      have hremove := Disk.removeDir_eq (p := [configDir]) (by simp) hdest h.vacant.2
      have hlstat := Disk.lstat_removeDir hremove
      have hgone : ∀ q, (t.remove [configDir]).lstat (configDir :: q) = none := by
        intro q
        rw [hlstat]
        split
        · rfl
        · rename_i hne
          exact h.vacant.2 q fun hq => hne (by rw [hq])
      have hbefore : Before d configDir (t.remove [configDir]) :=
        ⟨fun p hs hc => (SameOutside.of_lstat (List.prefix_refl _) hlstat p hc).trans (h.outside p hs hc),
          Or.inl (hgone []), fun q _ => hgone q⟩
      exact safe_attempt hremove (hC _ hbefore) ⟨(), rfl, hbefore, hgone []⟩

/-- From the first phase a run that scans goes all the way. -/
theorem safe_carryOver (hp : Pending d configDir legacyDirs source)
    (hscan : scan d [source] true = .ok M) (h : Before d configDir t)
    (hdest : t.lstat [configDir] = if removeEmptyDest then some .dir else none) :
    Safe (fun u => Before d configDir u ∨ After d configDir source M u) t
      (carryOver configDir source M removeEmptyDest).run fun r u =>
        (∃ files dirs bytes, r = .ok (.migrated source files dirs bytes true)) ∧
          After d configDir source M u ∧ ∀ q, u.lstat (source :: q) = none := by
  have hns := hp.source_ne_staging
  refine Safe.ok_bind (safe_clearDest (fun u => Or.inl) h hdest) ?_
  rintro _ t₁ ⟨h₁, hdest₁⟩
  have hscan₁ : scan t₁ [source] true = .ok M := (scan_congr hp.source_dir (h₁.legacy hp)).mpr hscan
  have hdir₁ : t₁.lstat [source] = some .dir := (h₁.legacy hp []).trans hp.source_dir
  obtain ⟨htidy, hlisted⟩ := (scan_eq_ok hdir₁).mp hscan₁
  -- everything up to the commit happens in the staging directory
  have hC : ∀ u, SameOutside [stagingOf configDir] t₁ u →
      Before d configDir u ∨ After d configDir source M u :=
    fun u hu => Or.inl (h₁.sameOutside hu)
  refine safe_fresh source hC fun t₃ hstart => ?_
  refine Safe.ok_bind (safe_copy hC hns htidy hlisted hstart) fun counts t₄ h₄ => ?_
  have hlegacy₄ : ∀ q, t₄.lstat (source :: q) = d.lstat (source :: q) :=
    (h₁.sameOutside h₄.outside).legacy hp
  have hcopied : ∀ q, t₄.lstat (stagingOf configDir :: q) = t₄.lstat (source :: q) := by
    intro q
    rw [h₄.complete hdir₁ htidy hlisted, hlegacy₄, h₁.legacy hp]
  have hfree : t₄.lstat [configDir] = none :=
    (h₄.outside _ (not_isPrefix_cons (stagingOf_ne configDir) [])).trans hdest₁
  have hscan₄ : scan t₄ [source] true = .ok M := (scan_congr hp.source_dir hlegacy₄).mpr hscan
  have hdir₄ : t₄.lstat [source] = some .dir := (hlegacy₄ []).trans hp.source_dir
  -- the same, said of the original
  have hafter : ∀ u, Committed t₄ configDir source M u → After d configDir source M u := by
    rintro u ⟨hprofile, hstaging, hleft⟩
    refine ⟨fun q => ?_, hstaging hns, fun q => ?_⟩
    · rw [hprofile, hlegacy₄]
    · rw [← hlegacy₄]
      exact hleft q
  refine (safe_commit hp.source_ne hdir₄ hfree hcopied hscan₄ (fun u hu => hC u (h₄.outside.trans hu))
    (fun u hu => Or.inr (hafter u hu)) counts).mono (fun _ hc => hc) fun r u ⟨hr, hu, hnone⟩ => ?_
  exact ⟨⟨_, _, _, hr⟩, hafter u hu, hnone⟩

/-- The first phase, or the second with the manifest of the original. -/
def Phase (d : Disk) (configDir source : Text) (t : Disk) : Prop :=
  Before d configDir t ∨ ∃ M, scan d [source] true = .ok M ∧ After d configDir source M t

/-- The second phase with nothing left of the legacy tree. -/
def Done (d : Disk) (configDir source : Text) (t : Disk) : Prop :=
  ∃ M, scan d [source] true = .ok M ∧ After d configDir source M t ∧ ∀ q, t.lstat (source :: q) = none

section

variable (hp : Pending d configDir legacyDirs source)

include hp

theorem Pending.find?_plain : (configDir :: legacyDirs).find? (fun name => !nameIsPlain name) = none := by
  refine List.find?_eq_none.mpr fun name hname => ?_
  simp [hp.plain name hname]

theorem safe_migrateLegacy (h : Before d configDir t)
    (hdest : t.lstat [configDir] = if removeEmptyDest then some .dir else none) :
    Safe (Phase d configDir source) t (migrateLegacy configDir legacyDirs removeEmptyDest).run
      fun r u => (∃ e, r = .error e ∧ Before d configDir u ∧ ¬ Tidy d [source]) ∨
        ∃ files dirs bytes, r = .ok (.migrated source files dirs bytes true) ∧
          Done d configDir source u := by
  refine safe_look (safe_check_ok (findLegacy_eq hp h) ?_)
  have hdir : t.lstat [source] = some .dir := (h.legacy hp []).trans hp.source_dir
  cases hscan : scan t [source] true with
  | error e =>
      refine safe_check_error hscan (Or.inl ⟨e, rfl, h, fun htidy => ?_⟩)
      obtain ⟨M, hM⟩ := scan_complete hp.source_dir htidy
      have hM' : scan t [source] true = .ok M := (scan_congr hp.source_dir (h.legacy hp)).mpr hM
      rw [hscan] at hM'
      cases hM'
  | ok M =>
      have hM : scan d [source] true = .ok M := (scan_congr hp.source_dir (h.legacy hp)).mp hscan
      refine safe_check_ok hscan ((safe_carryOver hp hM h hdest).mono ?_ ?_)
      · rintro u (hu | hu)
        · exact Or.inl hu
        · exact Or.inr ⟨M, hM, hu⟩
      · rintro r u ⟨⟨files, dirs, bytes, hr⟩, hu, hnone⟩
        exact Or.inr ⟨files, dirs, bytes, hr, M, hM, hu, hnone⟩

/-- A run from the first phase: the scan refuses the tree and nothing has changed, or the
profile is carried over. -/
theorem safe_run_before (h : Before d configDir t) :
    Safe (Phase d configDir source) t (run configDir legacyDirs).run
      fun r u => (∃ e, r = .error e ∧ Before d configDir u ∧ ¬ Tidy d [source]) ∨
        ∃ files dirs bytes, r = .ok (.migrated source files dirs bytes true) ∧
          Done d configDir source u := by
  simp only [run, hp.find?_plain]
  refine safe_look ?_
  rcases h.vacant.1 with hnone | hdir
  · rw [hnone]
    exact safe_migrateLegacy hp h (by simpa using hnone)
  · have hmarker : readMarker t [configDir] = none := by
      have hfree : t.lstat ([configDir] ++ [MARKER_NAME]) = none := h.vacant.2 [MARKER_NAME] (by simp)
      simp only [readMarker, Disk.readFile, hfree]
    have hempty : t.names [configDir] = [] := Disk.names_eq_nil.mpr h.vacant.2
    simp only [hdir, hmarker, hempty, List.isEmpty_nil, if_true]
    exact safe_migrateLegacy hp h (by simpa using hdir)

end

/-! ## A run after the commit -/

theorem Listed.length_le {root : Path} (htidy : Tidy d root) (h : Listed d root M) :
    M.length ≤ MAX_ENTRIES := by
  rw [← List.length_map (f := fun e : Entry => components e.rel)]
  refine htidy.count _ ?_ ?_
  · refine List.Nodup.map_on ?_ ?_
    · intro e he e' he' heq
      obtain ⟨q, hq, hpresent, rfl⟩ := (h.mem e).mp he
      obtain ⟨q', hq', hpresent', rfl⟩ := (h.mem e').mp he'
      have hnames := (htidy.carried q hq hpresent).names
      have hnames' := (htidy.carried q' hq' hpresent').names
      have hqq : q = q' := by
        rw [← components_joinRel hq hnames, ← components_joinRel hq' hnames']
        exact heq
      rw [hqq]
    · refine List.Pairwise.imp ?_ h.sorted
      rintro a b hlt rfl
      exact lt_irrefl _ hlt
  · intro p hp
    obtain ⟨e, he, rfl⟩ := List.mem_map.mp hp
    obtain ⟨q, hq, hpresent, rfl⟩ := (h.mem e).mp he
    have hcomp : components (entryAt d root q).rel = q :=
      components_joinRel hq (htidy.carried q hq hpresent).names
    rw [hcomp]
    exact ⟨hq, hpresent⟩

section

variable (hp : Pending d configDir legacyDirs source)

include hp

theorem readMarker_eq (hline : '\n' ∉ source) (hscan : scan d [source] true = .ok M)
    (h : After d configDir source M t) :
    readMarker t [configDir] = some (source, M) := by
  obtain ⟨htidy, hlisted⟩ := (scan_eq_ok hp.source_dir).mp hscan
  have hfile : t.lstat ([configDir] ++ [MARKER_NAME]) = some (.file (markerBytes source M)) :=
    (h.profile [MARKER_NAME]).trans (if_pos rfl)
  have hsafe : ∀ e ∈ M, relIsSafe e.rel = true := by
    intro e he
    obtain ⟨p, hne, hpresent, rfl⟩ := (hlisted.mem e).mp he
    exact relIsSafe_joinRel hne (htidy.carried p hne hpresent).names
  have hplain : nameIsPlain source = true := hp.plain source (by simp [hp.source_mem])
  simp only [readMarker, Disk.readFile, hfile, markerBytes, Text.fromUtf8_utf8, Option.bind_some]
  exact parseMarker_encodeMarker hplain hline hsafe (hlisted.length_le htidy)

theorem After.dir (h : After d configDir source M t) : t.lstat [configDir] = some .dir :=
  (h.profile []).trans ((if_neg (by simp)).trans hp.source_dir)

/-- A run with nothing left of the legacy tree changes nothing. -/
theorem safe_run_done (hline : '\n' ∉ source) {C : Disk → Prop} (h : Done d configDir source t) :
    Safe C t (run configDir legacyDirs).run fun r u => r = .ok .alreadyCurrent ∧ u = t := by
  obtain ⟨M, hscan, hafter, hnone⟩ := h
  simp only [run, hp.find?_plain]
  refine safe_look ?_
  simp only [hafter.dir hp, readMarker_eq hp hline hscan hafter, hnone []]
  exact Safe.ok ⟨rfl, rfl⟩

/-- A run from the second phase finishes the cleanup. -/
theorem safe_run_after (hline : '\n' ∉ source) (hscan : scan d [source] true = .ok M)
    (h : After d configDir source M t) :
    Safe (After d configDir source M) t (run configDir legacyDirs).run
      fun r u => ∃ out, r = .ok out ∧ Done d configDir source u := by
  rcases h.leftover [] with hnone | hsame
  · have hgone : ∀ q, t.lstat (source :: q) = none := by
      intro q
      by_cases hq : q = []
      · rw [hq, hnone]
      · exact Disk.lstat_below (p := [source]) (by rw [hnone]; nofun) hq
    have hdone : Done d configDir source t := ⟨M, hscan, h, hgone⟩
    refine (safe_run_done hp hline hdone).mono (fun _ hc => hc) fun r u hu => ?_
    exact ⟨_, hu.1, hu.2 ▸ hdone⟩
  · obtain ⟨htidy, hlisted⟩ := (scan_eq_ok hp.source_dir).mp hscan
    have hdir : t.lstat [source] = some .dir := hsame.trans hp.source_dir
    simp only [run, hp.find?_plain]
    refine safe_look ?_
    simp only [h.dir hp, readMarker_eq hp hline hscan h, hdir]
    refine Safe.ok_bind (P := fun _ u => Done d configDir source u) ?_
      fun removed u hu => Safe.ok ⟨.cleanedUp removed, rfl, hu⟩
    refine (safe_cleanup (fun u hu hleft => h.sameOutside hp hu hleft) hp.source_dir htidy hlisted
      h.leftover).mono (fun _ hc => hc) fun r u ⟨hr, hu, hnone⟩ => ?_
    exact ⟨true, hr, M, hscan, h.sameOutside hp hu fun q => Or.inl (hnone q), hnone⟩

end

/-! ## Any number of runs -/

section

variable (hp : Pending d configDir legacyDirs source)

include hp

theorem Phase.runStep (hline : '\n' ∉ source) (h : Phase d configDir source t)
    (hstep : RunStep configDir legacyDirs t u) :
    Phase d configDir source u := by
  rcases h with hbefore | ⟨M, hscan, hafter⟩
  · have hsafe := safe_run_before hp hbefore
    rcases hstep with hleaves | rfl
    · exact hsafe.leaves (Or.inl hbefore) hleaves
    · rcases hsafe.post with ⟨-, -, hfinal, -⟩ | ⟨-, -, -, -, M, hscan, hfinal, -⟩
      · exact Or.inl hfinal
      · exact Or.inr ⟨M, hscan, hfinal⟩
  · have hsafe := safe_run_after hp hline hscan hafter
    rcases hstep with hleaves | rfl
    · exact Or.inr ⟨M, hscan, hsafe.leaves hafter hleaves⟩
    · obtain ⟨-, -, M', hscan', hfinal, -⟩ := hsafe.post
      exact Or.inr ⟨M', hscan', hfinal⟩

theorem Phase.runs (hline : '\n' ∉ source) (h : Runs configDir legacyDirs d t) :
    Phase d configDir source t := by
  induction h with
  | refl => exact Or.inl ⟨fun _ _ _ => rfl, hp.vacant⟩
  | tail _ hstep ih => exact ih.runStep hp hline hstep

theorem Phase.safe (h : Phase d configDir source t) :
    Untouched d configDir source t ∨ Complete d configDir source t := by
  rcases h with hbefore | ⟨M, hscan, hafter⟩
  · exact Or.inl ⟨hbefore.vacant, hbefore.legacy hp⟩
  · refine Or.inr fun q hq => ?_
    rw [hafter.profile, if_neg]
    rintro rfl
    obtain ⟨htidy, -⟩ := (scan_eq_ok hp.source_dir).mp hscan
    exact (htidy.carried [MARKER_NAME] (by simp) hq).marker rfl

/-- Where a run that returned a result ended. -/
theorem Phase.done (hline : '\n' ∉ source) (h : Phase d configDir source t) {out : Outcome}
    (hout : (run configDir legacyDirs).run.value t = .ok out) :
    Done d configDir source ((run configDir legacyDirs).run.final t) := by
  rcases h with hbefore | ⟨M, hscan, hafter⟩
  · rcases (safe_run_before hp hbefore).post with ⟨e, he, -⟩ | ⟨-, -, -, -, hdone⟩
    · rw [hout] at he
      cases he
    · exact hdone
  · obtain ⟨-, -, hdone⟩ := (safe_run_after hp hline hscan hafter).post
    exact hdone

end

theorem Done.finished (h : Done d configDir source t) :
    ∃ M, scan d [source] true = .ok M ∧ Finished d configDir source M t := by
  obtain ⟨M, hscan, hafter, hnone⟩ := h
  refine ⟨M, hscan, hafter.profile, hafter.staging, fun e _ size crc fnv _ => ?_⟩
  simp [unchanged, Disk.readFile, hnone]

end Phases

/-- A migration from a name without a newline is crash safe and resumable, over any number
of runs. -/
theorem migration_resumable {d : Disk} {configDir source : Text} {legacyDirs : List Text}
    (hp : Pending d configDir legacyDirs source) (hline : '\n' ∉ source) :
    Resumable d configDir legacyDirs source where
  safe t ht := (Phase.runs hp hline ht).safe hp
  finishes t ht out hout := ((Phase.runs hp hline ht).done hp hline hout).finished
  again t ht out hout := by
    have hdone := (Phase.runs hp hline ht).done hp hline hout
    have hsafe := safe_run_done (C := fun _ => False) hp hline hdone
    exact ⟨List.eq_nil_iff_forall_not_mem.mpr hsafe.crash, hsafe.post.2⟩
  succeeds htidy t ht := by
    rcases Phase.runs hp hline ht with hbefore | ⟨M, hscan, hafter⟩
    · rcases (safe_run_before hp hbefore).post with ⟨-, -, -, hnot⟩ | ⟨files, dirs, bytes, hout, -⟩
      · exact absurd htidy hnot
      · exact ⟨_, hout⟩
    · obtain ⟨out, hout, -⟩ := (safe_run_after hp hline hscan hafter).post
      exact ⟨out, hout⟩

theorem vacant_of_none {t : Disk} {name : Text} (h : t.lstat [name] = none) : Vacant t name :=
  ⟨Or.inl h, fun _ hq => Disk.lstat_below (p := [name]) (by rw [h]; nofun) hq⟩

/-- A profile with one empty file. -/
def oneFile (name : Text) : Disk :=
  (Disk.empty.put [name] .dir).put [name, "f".toList] (.file [])

/-- A profile `old` is pending, and its migration resumable. -/
theorem migration_resumable_one_file :
    Pending (oneFile "old".toList) "new".toList ["old".toList] "old".toList ∧
      Resumable (oneFile "old".toList) "new".toList ["old".toList] "old".toList := by
  have hp : Pending (oneFile "old".toList) "new".toList ["old".toList] "old".toList := by
    refine ⟨by decide, by decide, ⟨[], [], rfl, by decide, by decide +kernel, nofun⟩, ?_⟩
    exact vacant_of_none (by decide +kernel)
  exact ⟨hp, migration_resumable hp (by decide)⟩

/-- A run that is interrupted, and a next run that completes but leaves a file it had
copied. -/
theorem not_resumable {d : Disk} {configDir source : Text} {legacyDirs : List Text} (i : Nat)
    (out : Outcome) (hi : i < ((run configDir legacyDirs).run.trace d).length)
    (hout : (run configDir legacyDirs).run.value (((run configDir legacyDirs).run.trace d).getD i d) =
      .ok out)
    {M : List Entry} (hscan : scan d [source] true = .ok M) {e : Entry} (he : e ∈ M) {size fnv : UInt64}
    {crc : UInt32} (hkind : e.kind = .file size crc fnv)
    (hleft : unchanged ((run configDir legacyDirs).run.final
      (((run configDir legacyDirs).run.trace d).getD i d)) (source :: components e.rel) size crc fnv =
        true) :
    ¬ Resumable d configDir legacyDirs source := by
  intro h
  have hmem : ((run configDir legacyDirs).run.trace d).getD i d ∈ (run configDir legacyDirs).run.trace d := by
    simp [List.getD, List.getElem?_eq_getElem hi]
  have hruns : Runs configDir legacyDirs d (((run configDir legacyDirs).run.trace d).getD i d) :=
    Relation.ReflTransGen.single (Or.inl (Or.inr hmem))
  obtain ⟨M', hM', hfinished⟩ := h.finishes _ hruns out hout
  rw [hscan] at hM'
  cases hM'
  rw [hfinished.legacy e he size crc fnv hkind] at hleft
  cases hleft

/-- A legacy name with a newline: the run is interrupted after the commit, the next one does
not read the marker and reports a profile in use, with the file still in the legacy
directory. -/
theorem migration_not_resumable_newline :
    Pending (oneFile "a\nb".toList) "new".toList ["a\nb".toList] "a\nb".toList ∧
      Tidy (oneFile "a\nb".toList) ["a\nb".toList] ∧
      ¬ Resumable (oneFile "a\nb".toList) "new".toList ["a\nb".toList] "a\nb".toList := by
  have hdir : (oneFile "a\nb".toList).lstat ["a\nb".toList] = some .dir := by decide +kernel
  have hscan : scan (oneFile "a\nb".toList) ["a\nb".toList] true =
      .ok [⟨"f".toList, .file 0 0 0xcbf29ce484222325⟩] := by decide +kernel
  refine ⟨?_, (scan_sound hdir hscan).1, ?_⟩
  · refine ⟨by decide, by decide, ⟨[], [], rfl, by decide, hdir, nofun⟩, ?_⟩
    exact vacant_of_none (by decide +kernel)
  · exact not_resumable 65 .alreadyCurrent (by decide +kernel) (by decide +kernel) hscan
      (List.mem_singleton.mpr rfl) rfl (by decide +kernel)

end Pelorus.Migrate
