import Pelorus.Migrate.Migrator

/-
  Migrate/Cleanup.lean --- removing the legacy directory.

  The cleanup starts from a directory that holds a PART of the tree the manifest was
  made from (`Leftover`): all of it after the commit, less after an interrupted
  cleanup.  It removes every file and then, from the last path to the first, every
  directory, which is empty by then because the manifest lists what was in it later.
-/
set_option autoImplicit false

/-
  The copy loop.

  INVARIANT (`CopyInv`).  The staging directory holds, of the source tree, exactly
  what the manifest entries done so far name.  One entry extends it because the
  manifest is sorted: the directory an entry goes into has a smaller path and was
  made before, and the entry's own path is not among those done.
-/

namespace Pelorus.Migrate

open Lib Lib.Crash

/-! ## Entries of a manifest -/

section Manifest

variable {d : Disk} {root : Path} {M : List Entry}
variable {e e' : Entry} {done rest : List Entry}

/-- What a manifest entry stands for. -/
theorem Listed.node (htidy : Tidy d root) (h : Listed d root M) (he : e ∈ M) :
    ∃ p, p ≠ [] ∧ e.rel = joinRel p ∧ components e.rel = p ∧
      ((d.lstat (root ++ p) = some .dir ∧ e.kind = .dir) ∨
        ∃ content, d.lstat (root ++ p) = some (.file content) ∧ e.kind = fileKind content) := by
  obtain ⟨p, hp, hpresent, rfl⟩ := (h.mem e).mp he
  have hcarried := htidy.carried p hp hpresent
  refine ⟨p, hp, rfl, components_joinRel hp hcarried.names, ?_⟩
  rcases hcarried.kind with ⟨hdir, -⟩ | ⟨content, hfile⟩
  · exact Or.inl ⟨hdir, by rw [entryAt_dir hdir]⟩
  · exact Or.inr ⟨content, hfile, by rw [entryAt_file hfile]⟩

/-- Every node has its entry. -/
theorem Listed.entry (htidy : Tidy d root) (h : Listed d root M) {p : Path} (hp : p ≠ [])
    (hpresent : d.lstat (root ++ p) ≠ none) :
    ∃ e ∈ M, e.rel = joinRel p ∧ components e.rel = p :=
  ⟨entryAt d root p, (h.mem _).mpr ⟨p, hp, hpresent, rfl⟩, rfl,
    components_joinRel hp (htidy.carried p hp hpresent).names⟩

/-- In a sorted manifest an entry with a smaller path comes before. -/
theorem Listed.mem_done (h : Listed d root M) (hM : M = done ++ e :: rest) (he' : e' ∈ M)
    (hlt : e'.rel < e.rel) : e' ∈ done := by
  have hsorted := h.sorted
  rw [hM, List.pairwise_append, List.pairwise_cons] at hsorted
  rw [hM] at he'
  rcases List.mem_append.mp he' with hmem | hmem
  · exact hmem
  · rcases List.mem_cons.mp hmem with rfl | hmem
    · exact absurd hlt (lt_irrefl _)
    · exact absurd hlt (lt_asymm (hsorted.2.1.1 e' hmem))

/-- And one with a larger path comes after. -/
theorem Listed.mem_rest (h : Listed d root M) (hM : M = done ++ e :: rest) (he' : e' ∈ M)
    (hlt : e.rel < e'.rel) : e' ∈ rest := by
  have hsorted := h.sorted
  rw [hM, List.pairwise_append] at hsorted
  rw [hM] at he'
  rcases List.mem_append.mp he' with hmem | hmem
  · exact absurd hlt (lt_asymm (hsorted.2.2 e' hmem e (by simp)))
  · rcases List.mem_cons.mp hmem with rfl | hmem
    · exact absurd hlt (lt_irrefl _)
    · exact hmem

theorem Listed.rel_lt_of_done (h : Listed d root M) (hM : M = done ++ e :: rest) (he' : e' ∈ done) :
    e'.rel < e.rel := by
  have hsorted := h.sorted
  rw [hM, List.pairwise_append] at hsorted
  exact hsorted.2.2 e' he' e (by simp)

theorem kind_ne_dir {content : Bytes} : fileKind content ≠ .dir := nofun

end Manifest

/-! ## The loop -/

/-- The staging directory after the entries `done`. -/
structure CopyInv (d : Disk) (source staging : Text) (done : List Entry) (t : Disk) : Prop where
  outside : SameOutside [staging] d t
  top : t.lstat [staging] = some .dir
  copied : ∀ e ∈ done, t.lstat (staging :: components e.rel) = d.lstat (source :: components e.rel)
  fresh : ∀ q, q ≠ [] → (∀ e ∈ done, components e.rel ≠ q) → t.lstat (staging :: q) = none

section Copy

variable {d : Disk} {source staging : Text} {M : List Entry}
variable {done rest : List Entry} {t : Disk} {e : Entry} {C : Disk → Prop}

/-- An entry's node appeared in staging. -/
theorem CopyInv.extend {t' : Disk} {n : Node} (h : CopyInv d source staging done t)
    (hne : components e.rel ≠ []) (hdone : ∀ e' ∈ done, components e'.rel ≠ components e.rel)
    (hnode : d.lstat (source :: components e.rel) = some n)
    (ht' : ∀ r, t'.lstat r = if r = staging :: components e.rel then some n else t.lstat r) :
    CopyInv d source staging (done ++ [e]) t' where
  outside := h.outside.trans (.of_lstat (by simp) ht')
  top := by rw [ht', if_neg (by simpa using Ne.symm hne), h.top]
  copied := by
    intro e' he'
    rw [ht']
    rcases List.mem_append.mp he' with he' | he'
    · rw [if_neg fun heq => hdone e' he' (List.cons.inj heq).2, h.copied e' he']
    · rw [List.mem_singleton.mp he', if_pos rfl, hnode]
  fresh := by
    intro q hq hall
    have hqe : staging :: q ≠ staging :: components e.rel :=
      fun heq => hall e (by simp) (List.cons.inj heq).2.symm
    rw [ht', if_neg hqe]
    exact h.fresh q hq fun e' he' => hall e' (by simp [he'])

/-- Where an entry goes, there is its directory and nothing else. -/
theorem CopyInv.ready {p : Path} (htidy : Tidy d [source]) (hlisted : Listed d [source] M)
    (hM : M = done ++ e :: rest) (h : CopyInv d source staging done t) (hp : p ≠ [])
    (hrel : e.rel = joinRel p) (hcomp : components e.rel = p) (hpresent : d.lstat (source :: p) ≠ none) :
    t.lstat (staging :: p).dropLast = some .dir ∧ t.lstat (staging :: p) = none ∧
      ∀ e' ∈ done, components e'.rel ≠ p := by
  -- a done entry has a smaller path
  have hdone : ∀ e' ∈ done, components e'.rel ≠ p := by
    intro e' he' heq
    have hlt := hlisted.rel_lt_of_done hM he'
    obtain ⟨p', hp', hrel', hcomp', -⟩ := hlisted.node htidy (hM ▸ List.mem_append_left _ he')
    rw [hcomp'] at heq
    rw [hrel', hrel, heq] at hlt
    exact lt_irrefl _ hlt
  refine ⟨?_, h.fresh p hp hdone, hdone⟩
  -- its directory is the staging directory, or was made before
  cases p using List.reverseRecOn with
  | nil => exact absurd rfl hp
  | append_singleton p name =>
      rw [← List.cons_append, List.dropLast_concat]
      by_cases hp' : p = []
      · rw [hp', h.top]
      · obtain ⟨n, hn⟩ := Option.ne_none_iff_exists'.mp hpresent
        have hparent : d.lstat (source :: p) = some .dir :=
          Disk.lstat_parent (by rwa [← List.cons_append] at hn)
        obtain ⟨e', he', hrel', hcomp'⟩ := hlisted.entry htidy hp'
          (by rw [List.singleton_append, hparent]; nofun)
        have hlt : e'.rel < e.rel := by
          rw [hrel', hrel]
          exact joinRel_lt hp' name
        have hcopied := h.copied e' (hlisted.mem_done hM he' hlt)
        rw [hcomp'] at hcopied
        rw [hcopied, hparent]

/-- A directory of the source is made in staging; the two may be the same directory. -/
theorem safe_copyEntry_dir (hC : ∀ t, SameOutside [staging] d t → C t) (htidy : Tidy d [source])
    (hlisted : Listed d [source] M) (hM : M = done ++ e :: rest) (h : CopyInv d source staging done t)
    (hkind : e.kind = .dir) (counts : Counts) :
    Safe C t (copyEntry [source] [staging] counts e).run fun r t' =>
      ∃ counts', r = .ok counts' ∧ CopyInv d source staging (done ++ [e]) t' := by
  have he : e ∈ M := by simp [hM]
  obtain ⟨p, hp, hrel, hcomp, hnode⟩ := hlisted.node htidy he
  have hdir : d.lstat (source :: p) = some .dir := by
    rcases hnode with ⟨hdir, -⟩ | ⟨content, -, hk⟩
    · exact hdir
    · rw [hk] at hkind
      exact absurd hkind kind_ne_dir
  obtain ⟨hparent, hnone, hdone⟩ := h.ready htidy hlisted hM hp hrel hcomp (by rw [hdir]; nofun)
  have hC' : ∀ u, SameOutside [staging] t u → C u := fun u hu => hC u (h.outside.trans hu)
  simp only [copyEntry, hcomp, List.singleton_append, hkind]
  refine Safe.ok_bind (P := fun _ u => CopyInv d source staging (done ++ [e]) u) ?_
    fun _ u hu => Safe.ok ⟨_, rfl, hu⟩
  refine (safe_makeDir hC' (by simp) hparent hnone ?_).mono (fun _ hc => hc) fun r u hu => ?_
  · rintro s ⟨⟩ hne
    have hss : staging ≠ source := fun heq => hne (by rw [heq])
    rw [h.outside _ (not_isPrefix_cons hss p), hdir]
    nofun
  · rw [← hcomp] at hdir hp hdone
    refine ⟨(), hu.1, h.extend hp hdone hdir ?_⟩
    rw [hcomp]
    exact hu.2

theorem safe_copyEntry_file (hC : ∀ t, SameOutside [staging] d t → C t) (hne : source ≠ staging)
    (htidy : Tidy d [source]) (hlisted : Listed d [source] M) (hM : M = done ++ e :: rest)
    (h : CopyInv d source staging done t) (hkind : e.kind ≠ .dir) (counts : Counts) :
    Safe C t (copyEntry [source] [staging] counts e).run fun r t' =>
      ∃ counts', r = .ok counts' ∧ CopyInv d source staging (done ++ [e]) t' := by
  have he : e ∈ M := by simp [hM]
  obtain ⟨p, hp, hrel, hcomp, hnode⟩ := hlisted.node htidy he
  obtain ⟨content, hfile, hk⟩ : ∃ content, d.lstat (source :: p) = some (.file content) ∧
      e.kind = fileKind content := by
    rcases hnode with ⟨-, hk⟩ | hfile
    · exact absurd hk hkind
    · exact hfile
  obtain ⟨hparent, hnone, hdone⟩ := h.ready htidy hlisted hM hp hrel hcomp (by rw [hfile]; nofun)
  have hC' : ∀ u, SameOutside [staging] t u → C u := fun u hu => hC u (h.outside.trans hu)
  have hread : t.lstat (source :: p) = some (.file content) := by
    rw [h.outside _ (not_isPrefix_cons (Ne.symm hne) p), hfile]
  have hsq : source :: p ≠ staging :: p := fun heq => hne (List.cons.inj heq).1
  simp only [copyEntry, hcomp, List.singleton_append, hk]
  refine Safe.ok_bind (P := fun _ u => CopyInv d source staging (done ++ [e]) u) ?_
    fun _ u hu => Safe.ok ⟨_, rfl, hu⟩
  refine (safe_copyFile hC' (by simp) hread hsq hparent hnone).mono (fun _ hc => hc) fun r u hu => ?_
  rw [← hcomp] at hfile hp hdone
  refine ⟨(), hu.1, h.extend hp hdone hfile ?_⟩
  rw [hcomp]
  exact hu.2

/-- After all entries the staging directory is a copy of the source. -/
theorem CopyInv.complete (hsource : d.lstat [source] = some .dir) (htidy : Tidy d [source])
    (hlisted : Listed d [source] M) (h : CopyInv d source staging M t) (q : Path) :
    t.lstat (staging :: q) = d.lstat (source :: q) := by
  by_cases hq : q = []
  · rw [hq, h.top, hsource]
  · cases hn : d.lstat (source :: q) with
    | some n =>
        obtain ⟨e, he, -, hcomp⟩ := hlisted.entry htidy hq (by rw [List.singleton_append, hn]; nofun)
        have hcopied := h.copied e he
        rwa [hcomp, hn] at hcopied
    | none =>
        refine h.fresh q hq fun e he hcomp => ?_
        obtain ⟨p, -, -, hcomp', hkind⟩ := hlisted.node htidy he
        rw [hcomp] at hcomp'
        subst hcomp'
        rw [List.singleton_append, hn] at hkind
        rcases hkind with ⟨h, -⟩ | ⟨_, h, -⟩ <;> cases h

/-- The whole loop makes the staging directory a copy of the source. -/
theorem safe_copy (hC : ∀ t, SameOutside [staging] d t → C t) (hne : source ≠ staging)
    (htidy : Tidy d [source]) (hlisted : Listed d [source] M) (hstart : CopyInv d source staging [] t) :
    Safe C t (M.foldlM (copyEntry [source] [staging]) ⟨0, 0, 0⟩).run fun r u =>
      ∃ counts, r = .ok counts ∧ CopyInv d source staging M u := by
  refine Safe.foldlM M (fun done e rest counts u hM h => ?_) _ hstart
  by_cases hk : e.kind = .dir
  · exact safe_copyEntry_dir hC htidy hlisted hM h hk counts
  · exact safe_copyEntry_file hC hne htidy hlisted hM h hk counts

/-- A staging directory that an earlier attempt left is removed, and an empty one made. -/
theorem safe_fresh (source : Text) (hC : ∀ t, SameOutside [staging] d t → C t) {β : Type}
    {k : Unit → Migration β} {R : Except MigrateError β → Disk → Prop}
    (hk : ∀ t, CopyInv d source staging [] t → Safe C t (k ()).run R) :
    Safe C d (removeTree [staging] >>= fun _ => makeDir none [staging] >>= k).run R := by
  refine Safe.ok_bind (P := fun _ t => SameOutside [staging] d t ∧
    ∀ q, t.lstat (staging :: q) = none) ?_ ?_
  · exact (safe_removeTree (by simp) hC).mono (fun _ hc => hc) fun r t ht => ⟨(), ht.1, ht.2⟩
  rintro _ t ⟨hout, hnone⟩
  refine Safe.ok_bind (P := fun _ u => ∀ r, u.lstat r =
    if r = [staging] then some .dir else t.lstat r) ?_ ?_
  · refine (safe_makeDir (fun u hu => hC u (hout.trans hu)) (List.prefix_refl _) rfl (hnone []) ?_).mono
      (fun _ hc => hc) fun r u hu => ⟨(), hu.1, hu.2⟩
    intro s hs
    cases hs
  intro _ u hu
  refine hk u ⟨hout.trans (.of_lstat (List.prefix_refl _) hu), ?_, nofun, fun q hq _ => ?_⟩
  · rw [hu, if_pos rfl]
  · rw [hu, if_neg (by simpa using hq), hnone]

end Copy

end Pelorus.Migrate

namespace Pelorus.Migrate

open Lib Lib.Crash

/-- What is left of the tree `source` of `d`, nothing in it changed. -/
def Leftover (d : Disk) (source : Text) (t : Disk) : Prop :=
  ∀ q, t.lstat (source :: q) = none ∨ t.lstat (source :: q) = d.lstat (source :: q)

section Links

variable {d : Disk}

theorem pathHasNoSymlink_iff : ∀ {comps : List Text} {cur : Path}, comps ≠ [] →
    (pathHasNoSymlink d cur comps = true ↔
      ∃ n, d.lstat (cur ++ comps) = some n ∧ ∀ reads, n ≠ .symlink reads)
  | [], _, h => absurd rfl h
  | [comp], cur, _ => by
      unfold pathHasNoSymlink
      split
      · rename_i hn
        simp [hn]
      · rename_i n hnot hn
        simp only [pathHasNoSymlink, true_iff]
        exact ⟨n, hn, fun reads heq => hnot reads heq⟩
      · rename_i hn
        simp [hn]
  | comp :: comp' :: rest, cur, _ => by
      have ih := @pathHasNoSymlink_iff (comp' :: rest) (cur ++ [comp]) (by simp)
      rw [List.append_assoc, List.singleton_append] at ih
      have habove : ∀ n, d.lstat (cur ++ comp :: comp' :: rest) = some n →
          d.lstat (cur ++ [comp]) = some .dir := by
        intro n hn
        refine Disk.lstat_ancestor (q := comp' :: rest) (n := n) (by simp) ?_
        rw [List.append_assoc, List.singleton_append, hn]
      unfold pathHasNoSymlink
      split
      · rename_i hn
        simp only [Bool.false_eq_true, false_iff]
        rintro ⟨n, hpath, -⟩
        rw [habove n hpath] at hn
        cases hn
      · exact ih
      · rename_i hn
        simp only [Bool.false_eq_true, false_iff]
        rintro ⟨n, hpath, -⟩
        rw [habove n hpath] at hn
        cases hn

end Links

/-- A directory's path sorts before every path below it. -/
theorem joinRel_lt_append {p : Path} (hp : p ≠ []) : ∀ {q : Path}, q ≠ [] →
    joinRel p < joinRel (p ++ q) := by
  intro q hq
  induction q using List.reverseRecOn with
  | nil => exact absurd rfl hq
  | append_singleton q name ih =>
      rw [← List.append_assoc]
      by_cases hq' : q = []
      · rw [hq', List.append_nil]
        exact joinRel_lt hp name
      · exact lt_trans (ih hq') (joinRel_lt (by simp [hp]) name)

section Cleanup

variable {d : Disk} {source : Text} {M : List Entry} {C : Disk → Prop}
variable {t : Disk}

/-- Removing a path of the tree leaves less of it. -/
theorem Leftover.remove {t' : Disk} (h : Leftover d source t) {q : Path}
    (ht' : ∀ r, t'.lstat r = if r = q then none else t.lstat r) : Leftover d source t' := by
  intro r
  rw [ht']
  split
  · exact Or.inl rfl
  · exact h r

/-- The state of the cleanup: outside the tree nothing changed, of the tree a part is
left, and of the entries `gone` nothing is. -/
structure CleanInv (d : Disk) (source : Text) (t₀ : Disk) (gone : Entry → Prop) (t : Disk) : Prop where
  outside : SameOutside [source] t₀ t
  leftover : Leftover d source t
  gone : ∀ e, gone e → t.lstat (source :: components e.rel) = none

theorem CleanInv.remove {t₀ t' : Disk} {gone gone' : Entry → Prop} {p : Path}
    (h : CleanInv d source t₀ gone t)
    (ht' : ∀ r, t'.lstat r = if r = source :: p then none else t.lstat r)
    (hgone : ∀ e, gone' e → gone e ∨ components e.rel = p) : CleanInv d source t₀ gone' t' where
  outside := h.outside.trans (.of_lstat (by simp) ht')
  leftover := h.leftover.remove ht'
  gone := by
    intro e he
    rw [ht']
    split
    · rfl
    · rename_i hne
      rcases hgone e he with he | he
      · exact h.gone e he
      · exact absurd (by rw [he]) hne

/-- Nothing to remove. -/
theorem CleanInv.skip {t₀ : Disk} {gone gone' : Entry → Prop} (h : CleanInv d source t₀ gone t)
    (hgone : ∀ e, gone' e → gone e ∨ t.lstat (source :: components e.rel) = none) :
    CleanInv d source t₀ gone' t :=
  ⟨h.outside, h.leftover, fun e he => (hgone e he).elim (h.gone e) id⟩

variable {t₀ : Disk} (hC : ∀ t, SameOutside [source] t₀ t → Leftover d source t → C t)

include hC

theorem safe_cleanupFile (htidy : Tidy d [source]) (hlisted : Listed d [source] M) {done : List Entry}
    {e : Entry} (he : e ∈ M) (h : CleanInv d source t₀ (fun e' => e' ∈ done ∧ e'.kind ≠ .dir) t) :
    Safe C t (cleanupFile [source] e).run fun r t' =>
      r = .ok ⟨⟩ ∧ CleanInv d source t₀ (fun e' => e' ∈ done ++ [e] ∧ e'.kind ≠ .dir) t' := by
  obtain ⟨p, hp, -, hcomp, hkind⟩ := hlisted.node htidy he
  rcases hkind with ⟨-, hk⟩ | ⟨content, hfile, hk⟩
  · simp only [cleanupFile, hk]
    refine Safe.ok ⟨rfl, h.skip fun e' he' => Or.inl ⟨?_, he'.2⟩⟩
    rcases List.mem_append.mp he'.1 with hmem | hmem
    · exact hmem
    · exact absurd (List.mem_singleton.mp hmem ▸ hk) he'.2
  · have hsplit : ∀ e', e' ∈ done ++ [e] ∧ e'.kind ≠ .dir →
        (e' ∈ done ∧ e'.kind ≠ .dir) ∨ components e'.rel = p := by
      rintro e' ⟨hmem, hne⟩
      rcases List.mem_append.mp hmem with hmem | hmem
      · exact Or.inl ⟨hmem, hne⟩
      · exact Or.inr (List.mem_singleton.mp hmem ▸ hcomp)
    simp only [cleanupFile, hk, fileKind, hcomp, List.singleton_append]
    refine safe_look ?_
    rw [List.singleton_append] at hfile
    rcases h.leftover p with hnone | hsame
    · -- it went in an earlier attempt
      have hno : ¬ pathHasNoSymlink t [source] p = true := by
        rw [pathHasNoSymlink_iff hp, List.singleton_append, hnone]
        rintro ⟨n, hn, -⟩
        cases hn
      rw [if_neg fun hand => hno hand.1]
      refine Safe.ok ⟨rfl, h.skip fun e' he' => ?_⟩
      rcases hsplit e' he' with hold | hnew
      · exact Or.inl hold
      · exact Or.inr (by rw [hnew, hnone])
    · -- it is what it was, and is removed
      have htfile : t.lstat (source :: p) = some (.file content) := hsame.trans hfile
      have hyes : pathHasNoSymlink t [source] p = true := by
        rw [pathHasNoSymlink_iff hp, List.singleton_append, htfile]
        exact ⟨_, rfl, nofun⟩
      have hsum : unchanged t (source :: p) (hashFile content).1 (hashFile content).2.1
          (hashFile content).2.2 = true := by
        simp [unchanged, Disk.readFile, htfile]
      rw [if_pos ⟨hyes, hsum⟩]
      have hremove := Disk.removeFile_eq htfile
      have hinv := h.remove (Disk.lstat_removeFile hremove) hsplit
      exact safe_attempt hremove (hC _ hinv.outside hinv.leftover) ⟨rfl, hinv⟩

theorem safe_cleanupDir (htidy : Tidy d [source]) (hlisted : Listed d [source] M)
    {done rest : List Entry} {e : Entry} (hM : M.reverse = done ++ e :: rest)
    (h : CleanInv d source t₀ (fun e' => (e' ∈ M ∧ e'.kind ≠ .dir) ∨ e' ∈ done) t) :
    Safe C t (cleanupDir [source] e).run fun r t' => r = .ok ⟨⟩ ∧
      CleanInv d source t₀ (fun e' => (e' ∈ M ∧ e'.kind ≠ .dir) ∨ e' ∈ done ++ [e]) t' := by
  have hM' : M = rest.reverse ++ e :: done.reverse := by
    rw [← List.reverse_reverse M, hM]
    simp
  have he : e ∈ M := by simp [hM']
  obtain ⟨p, hp, hrel, hcomp, hkind⟩ := hlisted.node htidy he
  have hsplit : ∀ e', ((e' ∈ M ∧ e'.kind ≠ .dir) ∨ e' ∈ done ++ [e]) →
      ((e' ∈ M ∧ e'.kind ≠ .dir) ∨ e' ∈ done) ∨ components e'.rel = p := by
    rintro e' (hfile | hmem)
    · exact Or.inl (Or.inl hfile)
    · rcases List.mem_append.mp hmem with hmem | hmem
      · exact Or.inl (Or.inr hmem)
      · exact Or.inr (List.mem_singleton.mp hmem ▸ hcomp)
  refine safe_look ?_
  rw [hcomp, List.singleton_append]
  rcases hkind with ⟨hdir, hk⟩ | ⟨content, -, hk⟩
  · rw [List.singleton_append] at hdir
    rcases h.leftover p with hnone | hsame
    · have hno : ¬ pathHasNoSymlink t [source] p = true := by
        rw [pathHasNoSymlink_iff hp, List.singleton_append, hnone]
        rintro ⟨n, hn, -⟩
        cases hn
      rw [if_neg fun hand => hno hand.2]
      refine Safe.ok ⟨rfl, h.skip fun e' he' => ?_⟩
      rcases hsplit e' he' with hold | hnew
      · exact Or.inl hold
      · exact Or.inr (by rw [hnew, hnone])
    · have htdir : t.lstat (source :: p) = some .dir := hsame.trans hdir
      have hyes : pathHasNoSymlink t [source] p = true := by
        rw [pathHasNoSymlink_iff hp, List.singleton_append, htdir]
        exact ⟨_, rfl, nofun⟩
      rw [if_pos ⟨hk, hyes⟩]
      -- what was in it has a larger path and is gone
      have hempty : ∀ q, q ≠ [] → t.lstat (source :: p ++ q) = none := by
        intro q hq
        rw [List.cons_append]
        rcases h.leftover (p ++ q) with hnone | hsame'
        · exact hnone
        · cases hn : t.lstat (source :: (p ++ q)) with
          | none => rfl
          | some n =>
              rw [hn] at hsame'
              obtain ⟨e', he', hrel', hcomp'⟩ := hlisted.entry htidy (p := p ++ q) (by simp [hp])
                (by rw [List.singleton_append, ← hsame']; nofun)
              have hlt : e.rel < e'.rel := by
                rw [hrel, hrel']
                exact joinRel_lt_append hp hq
              have hdone := hlisted.mem_rest hM' he' hlt
              have hgone := h.gone e' (Or.inr (List.mem_reverse.mp hdone))
              rw [hcomp', hn] at hgone
              cases hgone
      have hremove := Disk.removeDir_eq (by simp) htdir hempty
      have hinv := h.remove (Disk.lstat_removeDir hremove) hsplit
      refine safe_attemptQuietly (fun d' hd' => ?_) fun err herr => ?_
      · rw [hremove] at hd'
        cases hd'
        exact ⟨hC _ hinv.outside hinv.leftover, rfl, hinv⟩
      · rw [hremove] at herr
        cases herr
  · rw [hk, if_neg fun hand => kind_ne_dir hand.1]
    refine Safe.ok ⟨rfl, h.skip fun e' he' => ?_⟩
    rcases he' with hfile | hmem
    · exact Or.inl (Or.inl hfile)
    · rcases List.mem_append.mp hmem with hmem | hmem
      · exact Or.inl (Or.inr hmem)
      · rw [List.mem_singleton.mp hmem]
        exact Or.inl (Or.inl ⟨he, by rw [hk]; exact kind_ne_dir⟩)

/-- The cleanup removes all that is left of the tree. -/
theorem safe_cleanup (hdir : d.lstat [source] = some .dir) (htidy : Tidy d [source])
    (hlisted : Listed d [source] M) (hleft : Leftover d source t₀) :
    Safe C t₀ (cleanup [source] M).run fun r t => r = .ok true ∧ SameOutside [source] t₀ t ∧
      ∀ q, t.lstat (source :: q) = none := by
  refine Safe.ok_bind (P := fun _ t => CleanInv d source t₀ (fun e => e ∈ M ∧ e.kind ≠ .dir) t) ?_ ?_
  · refine Safe.mono ?_ (fun _ h => h) fun r t (h : r = .ok ⟨⟩ ∧ _) => ⟨⟨⟩, h⟩
    refine Safe.forM (I := fun done t => CleanInv d source t₀ (fun e => e ∈ done ∧ e.kind ≠ .dir) t) M
      ?_ ⟨.refl _ _, hleft, nofun⟩
    intro done e rest t hM h
    exact safe_cleanupFile hC htidy hlisted (by simp [hM]) h
  intro _ t hfiles
  refine Safe.ok_bind (P := fun _ t => CleanInv d source t₀ (fun e => e ∈ M) t) ?_ ?_
  · refine Safe.mono (Q := fun r t => r = .ok ⟨⟩ ∧ CleanInv d source t₀
      (fun e => (e ∈ M ∧ e.kind ≠ .dir) ∨ e ∈ M.reverse) t) ?_ (fun _ h => h) fun r t h => ⟨⟨⟩, h.1, ?_⟩
    · refine Safe.forM (I := fun done t => CleanInv d source t₀
        (fun e => (e ∈ M ∧ e.kind ≠ .dir) ∨ e ∈ done) t) M.reverse ?_ (hfiles.skip ?_)
      · intro done e rest t hM h
        exact safe_cleanupDir hC htidy hlisted hM h
      · rintro e (he | he)
        · exact Or.inl he
        · cases he
    · exact h.2.skip fun e he => Or.inl (Or.inr (List.mem_reverse.mpr he))
  intro _ t hdirs
  -- only the directory itself is left
  have hempty : ∀ q, q ≠ [] → t.lstat ([source] ++ q) = none := by
    intro q hq
    rw [List.singleton_append]
    rcases hdirs.leftover q with hnone | hsame
    · exact hnone
    · cases hn : t.lstat (source :: q) with
      | none => rfl
      | some n =>
          rw [hn] at hsame
          obtain ⟨e, he, -, hcomp⟩ := hlisted.entry htidy hq
            (by rw [List.singleton_append, ← hsame]; nofun)
          have hgone := hdirs.gone e he
          rw [hcomp, hn] at hgone
          cases hgone
  refine Safe.ok_bind (P := fun _ t => SameOutside [source] t₀ t ∧ ∀ q, t.lstat (source :: q) = none)
    ?_ ?_
  · refine safe_attemptQuietly (fun t' ht' => ?_) fun err herr => ⟨(), rfl, hdirs.outside, fun q => ?_⟩
    · have hlstat := Disk.lstat_removeDir ht'
      have hinv : CleanInv d source t₀ (fun _ => False) t' := hdirs.remove (p := []) hlstat nofun
      refine ⟨hC _ hinv.outside hinv.leftover, (), rfl, hinv.outside, fun q => ?_⟩
      rw [hlstat]
      split
      · rfl
      · rename_i hne
        exact hempty q fun hq => hne (by rw [hq])
    · by_cases hq : q = []
      · -- a directory left there would have been removed
        rcases hdirs.leftover [] with hnone | hsame
        · rw [hq, hnone]
        · have hdir' : t.lstat [source] = some .dir := hsame.trans hdir
          rw [Disk.removeDir_eq (by simp) hdir' hempty] at herr
          cases herr
      · exact hempty q hq
  rintro _ t' ⟨houtside, hnone⟩
  refine safe_look (Safe.ok ⟨?_, houtside, hnone⟩)
  simp [hnone []]

end Cleanup

end Pelorus.Migrate

/-! # From a complete copy to the new profile

The staging directory holds a copy of the source.  The copy is verified, gets its
marker, and is renamed to the new profile in one step; then the source goes.  All
this is also right when the staging directory IS the source: the rename has then
taken it away, and the cleanup finds nothing. -/

namespace Pelorus.Migrate

open Lib Lib.Crash

theorem stagingOf_ne (configDir : Text) : stagingOf configDir ≠ configDir := by
  intro h
  have hnil : STAGING_SUFFIX = [] := List.append_right_eq_self.mp h
  exact absurd hnil (by decide)

/-- The new profile is the tree that `t` has at `source`, with the marker; of that tree a
part is left. -/
structure Committed (t : Disk) (configDir source : Text) (M : List Entry) (u : Disk) : Prop where
  profile : ∀ q, u.lstat (configDir :: q) =
    if q = [MARKER_NAME] then some (.file (markerBytes source M)) else t.lstat (source :: q)
  staging : source ≠ stagingOf configDir → ∀ q, u.lstat (stagingOf configDir :: q) = none
  leftover : Leftover t source u

section Commit

variable {t : Disk} {configDir source : Text} {M : List Entry} {C : Disk → Prop}

/-- Removing from the source leaves a committed profile. -/
theorem Committed.sameOutside (hne : source ≠ configDir) {u v : Disk}
    (h : Committed t configDir source M u) (hv : SameOutside [source] u v)
    (hleft : Leftover t source v) : Committed t configDir source M v where
  profile q := (hv _ (not_isPrefix_cons hne q)).trans (h.profile q)
  staging hns q := (hv _ (not_isPrefix_cons hns q)).trans (h.staging hns q)
  leftover := hleft

theorem safe_activate (hne : source ≠ configDir) (hdir : t.lstat [source] = some .dir)
    (hfree : t.lstat [configDir] = none)
    (hcopy : ∀ q, t.lstat (stagingOf configDir :: q) = t.lstat (source :: q))
    (htidy : Tidy t [source]) (hstaging : ∀ u, SameOutside [stagingOf configDir] t u → C u)
    (hcommitted : ∀ u, Committed t configDir source M u → C u) {β : Type}
    {k : Unit → Migration β} {R : Except MigrateError β → Disk → Prop}
    (hk : ∀ u, Committed t configDir source M u → Safe C u (k ()).run R) :
    Safe C t (writeFile ([stagingOf configDir] ++ [MARKER_NAME]) (markerBytes source M) >>= fun _ =>
      attempt "rename" [stagingOf configDir] (fun d => d.rename [stagingOf configDir] [configDir])
        >>= k).run R := by
  have hcs := stagingOf_ne configDir
  have hroom : t.lstat [stagingOf configDir, MARKER_NAME] = none := by
    rw [hcopy]
    by_contra hpresent
    exact (htidy.carried [MARKER_NAME] (by simp) hpresent).marker rfl
  refine Safe.ok_bind (P := fun _ u => ∀ r, u.lstat r =
    if r = [stagingOf configDir, MARKER_NAME] then some (.file (markerBytes source M)) else t.lstat r)
    ?_ ?_
  · refine (safe_writeFile hstaging (by simp) ?_ hroom).mono (fun _ hc => hc)
      fun r u hu => ⟨(), hu.1, hu.2⟩
    exact (hcopy []).trans hdir
  intro _ t' ht'
  have hmovable : t'.Movable [stagingOf configDir] [configDir] := by
    refine ⟨?_, rfl, ?_, not_isPrefix_cons hcs [], by simp⟩
    · rw [ht', if_neg (by simp), hcopy, hdir]
      nofun
    · rw [ht', if_neg (by simp), hfree]
  obtain ⟨u, hrename, hmoved, hgone, hother⟩ := Disk.rename_eq hmovable
  have hu : Committed t configDir source M u := by
    refine ⟨fun q => ?_, fun _ => hgone, fun q => ?_⟩
    · have hq := hmoved q
      rw [List.singleton_append, List.singleton_append] at hq
      rw [hq, ht', hcopy]
      simp
    · -- the source went with the rename, or is where it was
      by_cases hns : source = stagingOf configDir
      · rw [hns]
        exact Or.inl (hgone q)
      · right
        rw [hother _ (not_isPrefix_cons (Ne.symm hns) q) (not_isPrefix_cons (Ne.symm hne) q), ht',
          if_neg]
        rintro heq
        exact hns (List.cons.inj heq).1
  refine Safe.ok_bind (P := fun _ v => v = u)
    (safe_attempt hrename (hcommitted u hu) ⟨(), rfl, rfl⟩) fun _ v hv => ?_
  rw [hv]
  exact hk u hu

/-- Steps 4 to 6 from a complete copy. -/
theorem safe_commit (hne : source ≠ configDir) (hdir : t.lstat [source] = some .dir)
    (hfree : t.lstat [configDir] = none)
    (hcopy : ∀ q, t.lstat (stagingOf configDir :: q) = t.lstat (source :: q))
    (hscan : scan t [source] true = .ok M) (hstaging : ∀ u, SameOutside [stagingOf configDir] t u → C u)
    (hcommitted : ∀ u, Committed t configDir source M u → C u) (counts : Counts) :
    Safe C t (commit configDir source M counts).run fun r u =>
      r = .ok (.migrated source counts.files counts.dirs counts.bytes true) ∧
        Committed t configDir source M u ∧ ∀ q, u.lstat (source :: q) = none := by
  obtain ⟨htidy, hlisted⟩ := (scan_eq_ok hdir).mp hscan
  have hscan' : scan t [stagingOf configDir] true = .ok M := (scan_congr hdir hcopy).mpr hscan
  refine Safe.ok_bind (P := fun _ u => u = t)
    ((safe_verify hscan').mono (fun _ hc => hc) fun r u hu => ⟨(), hu⟩) fun _ u hu => ?_
  rw [hu]
  refine Safe.ok_bind (P := fun _ u => u = t)
    ((safe_verify hscan).mono (fun _ hc => hc) fun r u hu => ⟨(), hu⟩) fun _ u hu => ?_
  rw [hu]
  refine safe_activate hne hdir hfree hcopy htidy hstaging hcommitted fun u hu => ?_
  refine Safe.ok_bind (P := fun removed v => removed = true ∧ Committed t configDir source M v ∧
    ∀ q, v.lstat (source :: q) = none) ?_ ?_
  · refine (safe_cleanup (fun v hv hleft => hcommitted v (hu.sameOutside hne hv hleft)) hdir htidy
      hlisted hu.leftover).mono (fun _ hc => hc) fun r v ⟨hr, hv, hnone⟩ => ?_
    exact ⟨true, hr, rfl, hu.sameOutside hne hv fun q => Or.inl (hnone q), hnone⟩
  · rintro removed v ⟨hremoved, hv⟩
    rw [hremoved]
    exact Safe.ok ⟨rfl, hv⟩

end Commit

end Pelorus.Migrate
