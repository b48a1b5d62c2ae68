import Mathlib.Data.List.Sort
import Pelorus.Lib.EarlyExit
import Pelorus.Lib.FileSystem
import Pelorus.Migrate.Marker

/-
  Migrate/Scan.lean --- the manifest of a tree (`scan` and `scan_into` of
  `px-store/src/migrate.rs`).

  A scan walks the tree depth first, refuses what it does not carry over, and sorts
  what it found by path.

  WHAT IT RETURNS.  `scan_eq_ok`: a scan that succeeds returns the one list that is
  sorted by path and holds exactly the entries of the tree (`Listed`), and it
  succeeds exactly on a tree that is `Tidy`.  Both notions are about `lstat` below the
  root only, so that a copy of a tree scans as the tree does (`scan_congr`).
-/
set_option autoImplicit false

namespace Pelorus.Migrate

open Lib

/-- Why a migration did not happen. -/
inductive MigrateError where
  | io (op : String) (path : Path) (source : IoError)
  | symlinkRefused (path : Path)
  | unsupportedEntry (path : Path)
  | badName (path : Path)
  | tooLarge (path : Path)
  | verificationFailed (why : String)
  | invalidConfigName (name : Text)
  deriving DecidableEq

/-- `io_err`: what was being attempted, and where. -/
def ioErr {α : Type} (op : String) (path : Path) : Except IoError α → Except MigrateError α :=
  Except.mapError (.io op path)

/-- The kind of a file's entry. -/
def fileKind (content : Bytes) : Kind :=
  let (size, crc, fnv) := hashFile content
  .file size crc fnv

/-- One turn of the loop of `scan_into`, in the directory `dir` whose relative path is `pre`.
The directory is at depth `MAX_DEPTH - left`, and `recurse` scans one that is a level
deeper. -/
def scanEntry (d : Disk) (topLevel : Bool) (left : Nat)
    (recurse : Path → Text → List Entry → Except MigrateError (List Entry))
    (dir : Path) (pre : Text) (out : List Entry) (name : Text) :
    Except MigrateError (List Entry) :=
  let path := dir ++ [name]
  let rel := if pre.isEmpty then name else pre ++ '/' :: name
  if !relIsSafe name || name.contains '/' then .error (.badName path)
  else if topLevel && left == MAX_DEPTH && name == MARKER_NAME then .error (.unsupportedEntry path)
  else if MAX_ENTRIES ≤ out.length then .error (.tooLarge path)
  else
    match d.lstat path with
    | some (.symlink _) => .error (.symlinkRefused path)
    | some .dir => recurse path rel (out ++ [⟨rel, .dir⟩])
    | some (.file content) => .ok (out ++ [⟨rel, fileKind content⟩])
    | some .special => .error (.unsupportedEntry path)
    | none => .error (.io "stat" path .notFound)

/-- `scan_into`, with `MAX_DEPTH + 1 - depth` for the depth. -/
def scanInto (d : Disk) (topLevel : Bool) :
    Nat → Path → Text → List Entry → Except MigrateError (List Entry)
  | 0, dir, _, _ => .error (.tooLarge dir)
  | left + 1, dir, pre, out => do
      let names ← ioErr "read directory" dir (d.readDir dir)
      names.foldlM (scanEntry d topLevel left (scanInto d topLevel left) dir pre) out

/-- `scan`.  Texts compare by code point, which is the order of their bytes. -/
def scan (d : Disk) (root : Path) (topLevel : Bool) : Except MigrateError (List Entry) := do
  let out ← scanInto d topLevel (MAX_DEPTH + 1) root [] []
  return out.insertionSort fun a b => a.rel ≤ b.rel

/-! ## Relative paths -/

/-- A name the scan accepts as a path component. -/
def NameOk (name : Text) : Prop := componentIsSafe name = true ∧ '/' ∉ name

/-- The relative path of a manifest entry. -/
def joinRel (p : Path) : Text := ['/'].intercalate p

/-- Its components. -/
def components (rel : Text) : Path := rel.splitOn '/'

theorem relIsSafe_iff {name : Text} (h : '/' ∉ name) :
    relIsSafe name = true ↔ componentIsSafe name = true := by
  rw [relIsSafe, List.splitOn_eq_singleton h]
  simp only [List.all_cons, List.all_nil, Bool.and_true, Bool.and_eq_true, Bool.not_eq_true',
    componentIsSafe]
  tauto

theorem NameOk.ne_nil {name : Text} (h : NameOk name) : name ≠ [] := by
  rintro rfl
  exact absurd h.1 (by decide)

variable {p : Path}

theorem components_joinRel (hp : p ≠ []) (h : ∀ c ∈ p, NameOk c) : components (joinRel p) = p :=
  List.splitOn_intercalate '/' (fun c hc => (h c hc).2) hp

theorem joinRel_concat (hp : p ≠ []) (name : Text) : joinRel (p ++ [name]) = joinRel p ++ '/' :: name := by
  induction p with
  | nil => exact absurd rfl hp
  | cons c p ih =>
      cases p with
      | nil => simp [joinRel, List.intercalate]
      | cons c' p =>
          have h := ih (by simp)
          simp only [joinRel, List.intercalate, List.cons_append, List.intersperse_cons_cons,
            List.flatten_cons] at h ⊢
          rw [h]
          simp

theorem joinRel_eq_nil (h : ∀ c ∈ p, NameOk c) : joinRel p = [] ↔ p = [] := by
  constructor
  · intro hnil
    by_contra hp
    have hp' : [[]] = p := by
      have hsplit := components_joinRel hp h
      rwa [hnil] at hsplit
    exact (h [] (hp' ▸ List.mem_singleton.mpr rfl)).ne_nil rfl
  · rintro rfl
    rfl

/-- The path the scan builds for an entry of the directory `p`. -/
theorem rel_eq_joinRel (h : ∀ c ∈ p, NameOk c) (name : Text) :
    (if (joinRel p).isEmpty then name else joinRel p ++ '/' :: name) = joinRel (p ++ [name]) := by
  by_cases hp : p = []
  · have hnil : joinRel p = [] := (joinRel_eq_nil h).mpr hp
    rw [hnil, hp]
    simp [joinRel]
  · have hne : joinRel p ≠ [] := fun hnil => hp ((joinRel_eq_nil h).mp hnil)
    rw [joinRel_concat hp, if_neg (by simpa using hne)]

theorem relIsSafe_joinRel (hp : p ≠ []) (h : ∀ c ∈ p, NameOk c) : relIsSafe (joinRel p) = true := by
  have hsplit := components_joinRel hp h
  rw [components] at hsplit
  have hne : joinRel p ≠ [] := fun hnil => hp ((joinRel_eq_nil h).mp hnil)
  rw [relIsSafe, hsplit]
  simp only [Bool.and_eq_true, Bool.not_eq_true', List.isEmpty_eq_false_iff, List.all_eq_true]
  exact ⟨hne, fun c hc => (h c hc).1⟩

theorem joinRel_injective {q : Path} (hp : p ≠ []) (hq : q ≠ []) (hpok : ∀ c ∈ p, NameOk c)
    (hqok : ∀ c ∈ q, NameOk c) (h : joinRel p = joinRel q) : p = q := by
  rw [← components_joinRel hp hpok, ← components_joinRel hq hqok, h]

/-- A directory's path sorts before the paths in it. -/
theorem joinRel_lt (hp : p ≠ []) (name : Text) : joinRel p < joinRel (p ++ [name]) := by
  have hnil : List.Lex (· < ·) [] ('/' :: name) := List.Lex.nil
  have happend := List.Lex.append_left (· < ·) hnil (joinRel p)
  rwa [List.append_nil, ← joinRel_concat hp] at happend

/-! ## What a scan accepts and returns -/

/-- A node the scan carries over. -/
structure Carried (d : Disk) (root p : Path) : Prop where
  names : ∀ c ∈ p, NameOk c
  kind : (d.lstat (root ++ p) = some .dir ∧ p.length ≤ MAX_DEPTH) ∨
    ∃ content, d.lstat (root ++ p) = some (.file content)
  marker : p ≠ [MARKER_NAME]

/-- A tree the scan accepts: plain files and directories with usable names, no deeper and
no more than the bounds, and nothing in the place of the marker. -/
structure Tidy (d : Disk) (root : Path) : Prop where
  carried : ∀ p, p ≠ [] → d.lstat (root ++ p) ≠ none → Carried d root p
  count : ∀ L : List Path, L.Nodup → (∀ p ∈ L, p ≠ [] ∧ d.lstat (root ++ p) ≠ none) →
    L.length ≤ MAX_ENTRIES

/-- The manifest entry of the node at a relative path. -/
def entryAt (d : Disk) (root p : Path) : Entry where
  rel := joinRel p
  kind :=
    match d.lstat (root ++ p) with
    | some (.file content) => fileKind content
    | _ => .dir

/-- `M` is sorted by path and holds exactly the entries of the tree. -/
structure Listed (d : Disk) (root : Path) (M : List Entry) : Prop where
  sorted : M.Pairwise fun a b => a.rel < b.rel
  mem : ∀ e, e ∈ M ↔ ∃ p, p ≠ [] ∧ d.lstat (root ++ p) ≠ none ∧ e = entryAt d root p

/-! ## Listing the nodes of a tree -/

/-- `L` lists the paths with `S`, each once. -/
structure Lists (L : List Path) (S : Path → Prop) : Prop where
  nodup : L.Nodup
  mem : ∀ p, p ∈ L ↔ S p

/-- A node below the directory at `q`, in one of its entries `names`. -/
def BelowIn (d : Disk) (root q : Path) (names : List Text) (p : Path) : Prop :=
  ∃ name ∈ names, ∃ r, p = q ++ name :: r ∧ d.lstat (root ++ p) ≠ none

section Walk

variable {d : Disk} {root q : Path} {name : Text}

theorem belowIn_names : BelowIn d root q (d.names (root ++ q)) p ↔
    ∃ r, r ≠ [] ∧ p = q ++ r ∧ d.lstat (root ++ p) ≠ none := by
  constructor
  · rintro ⟨name, -, r, rfl, hp⟩
    exact ⟨name :: r, by simp, rfl, hp⟩
  · rintro ⟨r, hr, rfl, hp⟩
    obtain ⟨name, r, rfl⟩ := List.exists_cons_of_ne_nil hr
    refine ⟨name, Disk.mem_names.mpr ?_, r, rfl, hp⟩
    obtain ⟨n, hn⟩ := Option.ne_none_iff_exists'.mp hp
    by_cases hr' : r = []
    · exact ⟨n, by rw [← hn, hr', List.append_assoc]⟩
    · refine ⟨_, Disk.lstat_ancestor (q := r) hr' (n := n) ?_⟩
      rw [← hn]
      simp

theorem Lists.nil : Lists [] (BelowIn d root q []) :=
  ⟨List.nodup_nil, fun p => by simp [BelowIn]⟩

theorem Lists.append {names : List Text} {L L' : List Path} (hname : name ∉ names)
    (h : Lists L (BelowIn d root q [name])) (h' : Lists L' (BelowIn d root q names)) :
    Lists (L ++ L') (BelowIn d root q (name :: names)) := by
  refine ⟨List.nodup_append.mpr ⟨h.nodup, h'.nodup, ?_⟩, ?_⟩
  · -- the two lists are below different entries
    rintro p hp p' hp' rfl
    obtain ⟨a, ha, r, hr, -⟩ := (h.mem p).mp hp
    obtain ⟨b, hb, r', hr', -⟩ := (h'.mem p).mp hp'
    rw [hr] at hr'
    obtain ⟨rfl, -⟩ := List.cons.inj (List.append_cancel_left hr')
    rw [List.mem_singleton.mp ha] at hb
    exact hname hb
  · intro p
    rw [List.mem_append, h.mem, h'.mem]
    simp [BelowIn]

theorem Lists.dir {L : List Path} (hdir : d.lstat (root ++ (q ++ [name])) = some .dir)
    (h : Lists L (BelowIn d root (q ++ [name]) (d.names (root ++ (q ++ [name]))))) :
    Lists ((q ++ [name]) :: L) (BelowIn d root q [name]) := by
  have hbelow : ∀ p, p ∈ L ↔ ∃ r, r ≠ [] ∧ p = q ++ [name] ++ r ∧ d.lstat (root ++ p) ≠ none :=
    fun p => (h.mem p).trans belowIn_names
  refine ⟨List.nodup_cons.mpr ⟨?_, h.nodup⟩, fun p => ?_⟩
  · intro hmem
    obtain ⟨r, hr, heq, -⟩ := (hbelow _).mp hmem
    exact hr (List.append_right_eq_self.mp heq.symm)
  · rw [List.mem_cons, hbelow]
    constructor
    · rintro (rfl | ⟨r, -, rfl, hp⟩)
      · exact ⟨name, by simp, [], rfl, by simp [hdir]⟩
      · exact ⟨name, by simp, r, by simp, hp⟩
    · rintro ⟨name', hname', r, rfl, hp⟩
      obtain rfl := List.mem_singleton.mp hname'
      by_cases hr : r = []
      · exact Or.inl (by rw [hr])
      · exact Or.inr ⟨r, hr, by simp, hp⟩

theorem Lists.file {content : Bytes} (hfile : d.lstat (root ++ (q ++ [name])) = some (.file content)) :
    Lists [q ++ [name]] (BelowIn d root q [name]) := by
  refine ⟨List.nodup_singleton _, fun p => ?_⟩
  rw [List.mem_singleton]
  constructor
  · rintro rfl
    exact ⟨name, by simp, [], rfl, by simp [hfile]⟩
  · rintro ⟨name', hname', r, rfl, hp⟩
    obtain rfl := List.mem_singleton.mp hname'
    by_cases hr : r = []
    · rw [hr]
    · have hnone := Disk.lstat_below (d := d) (p := root ++ (q ++ [name'])) (q := r)
        (by rw [hfile]; nofun) hr
      exact absurd (by simpa using hnone) hp

/-! ## One turn of the loop -/

theorem entryAt_dir (h : d.lstat (root ++ p) = some .dir) : entryAt d root p = ⟨joinRel p, .dir⟩ := by
  simp [entryAt, h]

theorem entryAt_file {content : Bytes} (h : d.lstat (root ++ p) = some (.file content)) :
    entryAt d root p = ⟨joinRel p, fileKind content⟩ := by
  simp [entryAt, h]

theorem nameOk_iff : NameOk name ↔ ¬ (!relIsSafe name || name.contains '/') = true := by
  simp only [NameOk, Bool.or_eq_true, Bool.not_eq_true', List.contains_iff_mem, not_or,
    Bool.not_eq_false]
  constructor
  · rintro ⟨hsafe, hslash⟩
    exact ⟨(relIsSafe_iff hslash).mpr hsafe, hslash⟩
  · rintro ⟨hsafe, hslash⟩
    exact ⟨(relIsSafe_iff hslash).mp hsafe, hslash⟩

/-- The marker's name is refused in the root of the tree only. -/
theorem marker_iff {left : Nat} (hdepth : left + q.length = MAX_DEPTH) :
    (true && left == MAX_DEPTH && name == MARKER_NAME) = true ↔ q ++ [name] = [MARKER_NAME] := by
  simp only [Bool.true_and, Bool.and_eq_true, beq_iff_eq]
  constructor
  · rintro ⟨hleft, rfl⟩
    have hq : q = [] := List.length_eq_zero_iff.mp (by omega)
    rw [hq, List.nil_append]
  · intro h
    have hlen := congrArg List.length h
    simp only [List.length_append, List.length_singleton] at hlen
    have hq : q = [] := List.length_eq_zero_iff.mp (by omega)
    rw [hq] at h hdepth
    exact ⟨by simpa using hdepth, by simpa using h⟩

/-- When one entry is accepted, and what is added for it. -/
theorem scanEntry_eq_ok {left : Nat} {out out' : List Entry}
    {recurse : Path → Text → List Entry → Except MigrateError (List Entry)}
    (hq : ∀ c ∈ q, NameOk c) (hdepth : left + q.length = MAX_DEPTH) :
    scanEntry d true left recurse (root ++ q) (joinRel q) out name = .ok out' ↔
      NameOk name ∧ q ++ [name] ≠ [MARKER_NAME] ∧ out.length < MAX_ENTRIES ∧
        ((d.lstat (root ++ (q ++ [name])) = some .dir ∧
            recurse (root ++ (q ++ [name])) (joinRel (q ++ [name]))
              (out ++ [entryAt d root (q ++ [name])]) = .ok out') ∨
          ((∃ content, d.lstat (root ++ (q ++ [name])) = some (.file content)) ∧
            out' = out ++ [entryAt d root (q ++ [name])])) := by
  unfold scanEntry
  simp only [rel_eq_joinRel hq, List.append_assoc]
  by_cases hname : NameOk name
  · rw [if_neg (nameOk_iff.mp hname)]
    by_cases hmarker : q ++ [name] = [MARKER_NAME]
    · rw [if_pos ((marker_iff hdepth).mpr hmarker)]
      simp [hmarker]
    · rw [if_neg fun h => hmarker ((marker_iff hdepth).mp h)]
      by_cases hroom : out.length < MAX_ENTRIES
      · rw [if_neg (Nat.not_le.mpr hroom)]
        cases hn : d.lstat (root ++ (q ++ [name])) with
        | none => simp
        | some n =>
            cases n with
            | file content => simp [hname, hmarker, hroom, entryAt_file hn, eq_comm]
            | dir => simp [hname, hmarker, hroom, entryAt_dir hn]
            | symlink reads => simp
            | special => simp
      · rw [if_pos (Nat.not_lt.mp hroom)]
        simp [hroom]
  · rw [if_pos (by
      by_contra h
      exact hname (nameOk_iff.mpr h))]
    simp [hname]

/-! ## The loop and the recursion -/

/-- What a walk over the paths with `S` did to the list of entries. -/
structure Walked (d : Disk) (root : Path) (S : Path → Prop) (out out' : List Entry)
    (L : List Path) : Prop where
  lists : Lists L S
  carried : ∀ p ∈ L, Carried d root p
  room : out.length + L.length ≤ MAX_ENTRIES
  result : out' = out ++ L.map (entryAt d root)

theorem foldlM_scanEntry_sound {left : Nat}
    {recurse : Path → Text → List Entry → Except MigrateError (List Entry)}
    (hq : ∀ c ∈ q, NameOk c) (hdepth : left + q.length = MAX_DEPTH)
    (hrec : ∀ name out out', NameOk name → out.length ≤ MAX_ENTRIES →
      d.lstat (root ++ (q ++ [name])) = some .dir →
      recurse (root ++ (q ++ [name])) (joinRel (q ++ [name])) out = .ok out' →
      (q ++ [name]).length ≤ MAX_DEPTH ∧ ∃ L, Walked d root
        (BelowIn d root (q ++ [name]) (d.names (root ++ (q ++ [name])))) out out' L) :
    ∀ (names : List Text) (out out' : List Entry), names.Nodup → out.length ≤ MAX_ENTRIES →
    names.foldlM (scanEntry d true left recurse (root ++ q) (joinRel q)) out = .ok out' →
    ∃ L, Walked d root (BelowIn d root q names) out out' L
  | [], out, out', _, hout, h => by
      cases h
      exact ⟨[], Lists.nil, nofun, by simpa using hout, by simp⟩
  | name :: names, out, out', hnodup, hout, h => by
      obtain ⟨hname, hnodup⟩ := List.nodup_cons.mp hnodup
      rw [List.foldlM_cons] at h
      obtain ⟨mid, hmid, hrest⟩ := bind_eq_ok.mp h
      obtain ⟨hok, hmarker, hroom, hkind⟩ := (scanEntry_eq_ok hq hdepth).mp hmid
      have hnames : ∀ c ∈ q ++ [name], NameOk c := by
        intro c hc
        rcases List.mem_append.mp hc with hc | hc
        · exact hq c hc
        · rw [List.mem_singleton.mp hc]
          exact hok
      -- the entry itself and what is below it
      have hfirst : ∃ L, Walked d root (BelowIn d root q [name]) out mid L := by
        rcases hkind with ⟨hdir, hbelow⟩ | ⟨⟨content, hfile⟩, rfl⟩
        · obtain ⟨hdepth', L, hL⟩ := hrec name _ _ hok (by simpa using Nat.succ_le_of_lt hroom) hdir hbelow
          refine ⟨(q ++ [name]) :: L, hL.lists.dir hdir, ?_, ?_, ?_⟩
          · intro p hp
            rcases List.mem_cons.mp hp with rfl | hp
            · exact ⟨hnames, Or.inl ⟨hdir, hdepth'⟩, hmarker⟩
            · exact hL.carried p hp
          · have := hL.room
            simp only [List.length_append, List.length_cons, List.length_nil] at this ⊢
            omega
          · rw [hL.result]
            simp
        · refine ⟨[q ++ [name]], Lists.file hfile, ?_, by simpa using Nat.succ_le_of_lt hroom, by simp⟩
          intro p hp
          rw [List.mem_singleton.mp hp]
          exact ⟨hnames, Or.inr ⟨content, hfile⟩, hmarker⟩
      obtain ⟨L, hL⟩ := hfirst
      have hmidlen : mid.length ≤ MAX_ENTRIES := by
        rw [hL.result]
        simpa using hL.room
      obtain ⟨L', hL'⟩ := foldlM_scanEntry_sound hq hdepth hrec names mid out' hnodup hmidlen hrest
      refine ⟨L ++ L', hL.lists.append hname hL'.lists, ?_, ?_, ?_⟩
      · intro p hp
        rcases List.mem_append.mp hp with hp | hp
        · exact hL.carried p hp
        · exact hL'.carried p hp
      · have := hL'.room
        rw [hL.result] at this
        simp only [List.length_append, List.length_map] at this ⊢
        omega
      · rw [hL'.result, hL.result]
        simp

theorem scanInto_sound : ∀ (left : Nat) (q : Path) (out out' : List Entry),
    left + q.length = MAX_DEPTH + 1 → (∀ c ∈ q, NameOk c) → out.length ≤ MAX_ENTRIES →
    d.lstat (root ++ q) = some .dir → scanInto d true left (root ++ q) (joinRel q) out = .ok out' →
    q.length ≤ MAX_DEPTH ∧
      ∃ L, Walked d root (BelowIn d root q (d.names (root ++ q))) out out' L
  | 0, q, out, out', _, _, _, _, h => by cases h
  | left + 1, q, out, out', hdepth, hq, hout, hdir, h => by
      refine ⟨by omega, ?_⟩
      rw [scanInto, Disk.readDir, hdir] at h
      refine foldlM_scanEntry_sound hq (by omega) ?_ _ out out' (d.nodup_names _) hout h
      intro name mid mid' hok hmid hchild hrec
      refine scanInto_sound left (q ++ [name]) mid mid' ?_ ?_ hmid hchild hrec
      · simp only [List.length_append, List.length_singleton]
        omega
      · intro c hc
        rcases List.mem_append.mp hc with hc | hc
        · exact hq c hc
        · rw [List.mem_singleton.mp hc]
          exact hok

/-- The loop succeeds if all that is below the entries is carried over and there is room. -/
theorem foldlM_scanEntry_complete {left : Nat}
    {recurse : Path → Text → List Entry → Except MigrateError (List Entry)}
    (hq : ∀ c ∈ q, NameOk c) (hdepth : left + q.length = MAX_DEPTH)
    (hrec : ∀ name, Carried d root (q ++ [name]) → d.lstat (root ++ (q ++ [name])) = some .dir →
      (∀ p, BelowIn d root q [name] p → Carried d root p) →
      ∃ L, Lists L (BelowIn d root (q ++ [name]) (d.names (root ++ (q ++ [name])))) ∧
        ∀ out, out.length + L.length ≤ MAX_ENTRIES →
          recurse (root ++ (q ++ [name])) (joinRel (q ++ [name])) out =
            .ok (out ++ L.map (entryAt d root))) :
    ∀ names : List Text, names.Nodup → (∀ name ∈ names, d.lstat (root ++ (q ++ [name])) ≠ none) →
    (∀ p, BelowIn d root q names p → Carried d root p) →
    ∃ L, Lists L (BelowIn d root q names) ∧ ∀ out, out.length + L.length ≤ MAX_ENTRIES →
      names.foldlM (scanEntry d true left recurse (root ++ q) (joinRel q)) out =
        .ok (out ++ L.map (entryAt d root))
  | [], _, _, _ => ⟨[], Lists.nil, fun out _ => by simp [pure, Except.pure]⟩
  | name :: names, hnodup, hpresent, hall => by
      obtain ⟨hname, hnodup⟩ := List.nodup_cons.mp hnodup
      have hsub : ∀ p, BelowIn d root q [name] p → Carried d root p := by
        rintro p ⟨name', hname', r, hp⟩
        rw [List.mem_singleton.mp hname'] at hp
        exact hall p ⟨name, by simp, r, hp⟩
      have hhere : Carried d root (q ++ [name]) :=
        hsub _ ⟨name, by simp, [], rfl, hpresent name (by simp)⟩
      have hok : NameOk name := hhere.names name (by simp)
      -- the entry itself and what is below it
      have hfirst : ∃ L, Lists L (BelowIn d root q [name]) ∧ ∀ out, out.length + L.length ≤ MAX_ENTRIES →
          scanEntry d true left recurse (root ++ q) (joinRel q) out name =
            .ok (out ++ L.map (entryAt d root)) := by
        rcases hhere.kind with ⟨hdir, -⟩ | ⟨content, hfile⟩
        · obtain ⟨L, hL, hrun⟩ := hrec name hhere hdir hsub
          refine ⟨(q ++ [name]) :: L, hL.dir hdir, fun out hroom => ?_⟩
          rw [List.length_cons] at hroom
          refine (scanEntry_eq_ok hq hdepth).mpr ⟨hok, hhere.marker, by omega, Or.inl ⟨hdir, ?_⟩⟩
          rw [hrun _ (by simp only [List.length_append, List.length_singleton]; omega)]
          simp
        · refine ⟨[q ++ [name]], Lists.file hfile, fun out hroom => ?_⟩
          exact (scanEntry_eq_ok hq hdepth).mpr ⟨hok, hhere.marker, Nat.lt_of_succ_le hroom,
            Or.inr ⟨⟨content, hfile⟩, by simp⟩⟩
      obtain ⟨L, hL, hrun⟩ := hfirst
      obtain ⟨L', hL', hrun'⟩ := foldlM_scanEntry_complete hq hdepth hrec names hnodup
        (fun n hn => hpresent n (by simp [hn])) fun p ⟨n, hn, r, hp⟩ => hall p ⟨n, by simp [hn], r, hp⟩
      refine ⟨L ++ L', hL.append hname hL', fun out hroom => ?_⟩
      rw [List.length_append] at hroom
      rw [List.foldlM_cons, hrun out (by omega)]
      refine (hrun' _ ?_).trans ?_
      · simp only [List.length_append, List.length_map]
        omega
      · simp

/-- A scan of a directory succeeds if all that is below it is carried over and there is
room. -/
theorem scanInto_complete : ∀ (left : Nat) (q : Path), left + q.length = MAX_DEPTH + 1 →
    q.length ≤ MAX_DEPTH → (∀ c ∈ q, NameOk c) → d.lstat (root ++ q) = some .dir →
    (∀ p, BelowIn d root q (d.names (root ++ q)) p → Carried d root p) →
    ∃ L, Lists L (BelowIn d root q (d.names (root ++ q))) ∧
      ∀ out, out.length + L.length ≤ MAX_ENTRIES →
        scanInto d true left (root ++ q) (joinRel q) out = .ok (out ++ L.map (entryAt d root))
  | 0, q, hdepth, hlen, _, _, _ => by omega
  | left + 1, q, hdepth, hlen, hq, hdir, hall => by
      have hpresent : ∀ name ∈ d.names (root ++ q), d.lstat (root ++ (q ++ [name])) ≠ none := by
        intro name hname
        obtain ⟨n, hn⟩ := Disk.mem_names.mp hname
        rw [← List.append_assoc, hn]
        nofun
      simp only [scanInto, Disk.readDir, hdir]
      refine foldlM_scanEntry_complete hq (by omega) ?_ _ (d.nodup_names _) hpresent hall
      intro name hcarried hchild hbelow
      have hlen' : (q ++ [name]).length ≤ MAX_DEPTH := by
        rcases hcarried.kind with ⟨-, hlen'⟩ | ⟨content, hfile⟩
        · exact hlen'
        · rw [hchild] at hfile
          cases hfile
      refine scanInto_complete left (q ++ [name]) ?_ hlen' hcarried.names hchild ?_
      · simp only [List.length_append, List.length_singleton]
        omega
      · rintro p ⟨name', -, r, rfl, hp⟩
        exact hbelow _ ⟨name, by simp, name' :: r, by simp, hp⟩

end Walk

/-! ## The scan -/

section Scan

variable {d : Disk} {root : Path}

theorem belowIn_root :
    BelowIn d root [] (d.names (root ++ [])) p ↔ p ≠ [] ∧ d.lstat (root ++ p) ≠ none := by
  rw [belowIn_names]
  constructor
  · rintro ⟨r, hr, rfl, hp⟩
    exact ⟨hr, hp⟩
  · rintro ⟨hne, hp⟩
    exact ⟨p, hne, rfl, hp⟩

theorem mem_insertionSort_rel {out : List Entry} {e : Entry} :
    e ∈ out.insertionSort (fun a b => a.rel ≤ b.rel) ↔ e ∈ out :=
  (List.perm_insertionSort _ out).mem_iff

/-- Entries with different paths are sorted strictly. -/
theorem pairwise_insertionSort_rel {out : List Entry} (h : (out.map Entry.rel).Nodup) :
    (out.insertionSort fun a b => a.rel ≤ b.rel).Pairwise fun a b => a.rel < b.rel := by
  have htotal : Std.Total fun a b : Entry => a.rel ≤ b.rel := ⟨fun a b => le_total a.rel b.rel⟩
  have htrans : IsTrans Entry fun a b => a.rel ≤ b.rel := ⟨fun _ _ _ => le_trans⟩
  have hsorted := List.pairwise_insertionSort (fun a b : Entry => a.rel ≤ b.rel) out
  have hne : (out.insertionSort fun a b => a.rel ≤ b.rel).Pairwise fun a b => a.rel ≠ b.rel := by
    have hperm := (List.perm_insertionSort (fun a b : Entry => a.rel ≤ b.rel) out).map Entry.rel
    exact List.pairwise_map.mp (hperm.nodup_iff.mpr h)
  exact (hsorted.and hne).imp fun h => lt_of_le_of_ne h.1 h.2

/-- What a walk over the whole tree collected, sorted, is the manifest. -/
theorem listed_of_lists {L : List Path}
    (hL : Lists L fun p => p ≠ [] ∧ d.lstat (root ++ p) ≠ none)
    (hnames : ∀ p ∈ L, ∀ c ∈ p, NameOk c) :
    Listed d root ((L.map (entryAt d root)).insertionSort fun a b => a.rel ≤ b.rel) := by
  refine ⟨pairwise_insertionSort_rel ?_, fun e => ?_⟩
  · rw [List.map_map]
    refine List.Nodup.map_on ?_ hL.nodup
    intro p hp q hq heq
    exact joinRel_injective ((hL.mem p).mp hp).1 ((hL.mem q).mp hq).1 (hnames p hp) (hnames q hq) heq
  · rw [mem_insertionSort_rel, List.mem_map]
    constructor
    · rintro ⟨p, hp, rfl⟩
      obtain ⟨hne, hpresent⟩ := (hL.mem p).mp hp
      exact ⟨p, hne, hpresent, rfl⟩
    · rintro ⟨p, hne, hpresent, rfl⟩
      exact ⟨p, (hL.mem p).mpr ⟨hne, hpresent⟩, rfl⟩

variable {M : List Entry}

theorem scan_sound (hdir : d.lstat root = some .dir) (h : scan d root true = .ok M) :
    Tidy d root ∧ Listed d root M := by
  obtain ⟨out, hout, hM⟩ := bind_eq_ok.mp h
  obtain ⟨-, L, hL⟩ := @scanInto_sound d root (MAX_DEPTH + 1) [] [] out rfl nofun
    (Nat.zero_le _) (by rwa [List.append_nil]) (by rwa [List.append_nil])
  have hlists : Lists L fun p => p ≠ [] ∧ d.lstat (root ++ p) ≠ none :=
    ⟨hL.lists.nodup, fun p => (hL.lists.mem p).trans belowIn_root⟩
  refine ⟨⟨fun p hne hp => hL.carried p ((hlists.mem p).mpr ⟨hne, hp⟩), ?_⟩, ?_⟩
  · intro L' hnodup hall
    have hsub : L' ⊆ L := fun p hp => (hlists.mem p).mpr (hall p hp)
    have hle := (List.subperm_of_subset hnodup hsub).length_le
    have hroom := hL.room
    rw [List.length_nil, Nat.zero_add] at hroom
    exact Nat.le_trans hle hroom
  · have hresult := hL.result
    rw [List.nil_append] at hresult
    cases hM
    rw [hresult]
    exact listed_of_lists hlists fun p hp => (hL.carried p hp).names

theorem scan_complete (hdir : d.lstat root = some .dir) (htidy : Tidy d root) :
    ∃ M, scan d root true = .ok M := by
  obtain ⟨L, hL, hrun⟩ := @scanInto_complete d root (MAX_DEPTH + 1) [] rfl
    (Nat.zero_le _) nofun (by rwa [List.append_nil]) fun p hp =>
      htidy.carried p (belowIn_root.mp hp).1 (belowIn_root.mp hp).2
  have hroom : L.length ≤ MAX_ENTRIES :=
    htidy.count L hL.nodup fun p hp => belowIn_root.mp ((hL.mem p).mp hp)
  have hout := hrun [] (by simpa using hroom)
  rw [List.append_nil] at hout
  exact ⟨_, bind_eq_ok.mpr ⟨_, hout, rfl⟩⟩

/-- There is one manifest. -/
theorem Listed.unique {M' : List Entry} (h : Listed d root M) (h' : Listed d root M') : M = M' := by
  have hnodup : ∀ {l : List Entry}, l.Pairwise (fun a b => a.rel < b.rel) → l.Nodup := by
    intro l hl
    refine List.Pairwise.imp ?_ hl
    rintro a b hlt rfl
    exact lt_irrefl _ hlt
  have hperm : M.Perm M' := (List.perm_ext_iff_of_nodup (hnodup h.sorted) (hnodup h'.sorted)).mpr
    fun e => (h.mem e).trans (h'.mem e).symm
  refine @List.Perm.eq_of_pairwise _ (fun a b => a.rel < b.rel) _ _ ?_ h.sorted h'.sorted hperm
  intro a b _ _ hab hba
  exact absurd hab (lt_asymm hba)

/-- A scan succeeds exactly on a tidy tree, with its manifest. -/
theorem scan_eq_ok (hdir : d.lstat root = some .dir) :
    scan d root true = .ok M ↔ Tidy d root ∧ Listed d root M := by
  constructor
  · exact scan_sound hdir
  · rintro ⟨htidy, hlisted⟩
    obtain ⟨M', hM'⟩ := scan_complete hdir htidy
    rw [hM', (scan_sound hdir hM').2.unique hlisted]

/-- Trees that look the same scan the same. -/
theorem scan_congr {d' : Disk} {root' : Path} (hdir : d.lstat root = some .dir)
    (h : ∀ p, d'.lstat (root' ++ p) = d.lstat (root ++ p)) :
    scan d' root' true = .ok M ↔ scan d root true = .ok M := by
  have hdir' : d'.lstat root' = some .dir := by
    have := h []
    rwa [List.append_nil, List.append_nil, hdir] at this
  rw [scan_eq_ok hdir, scan_eq_ok hdir']
  have hentry : ∀ p, entryAt d' root' p = entryAt d root p := fun p => by simp only [entryAt, h]
  have hcarried : ∀ p, Carried d' root' p ↔ Carried d root p := by
    intro p
    constructor
    · rintro ⟨hnames, hkind, hmarker⟩
      exact ⟨hnames, by rwa [h] at hkind, hmarker⟩
    · rintro ⟨hnames, hkind, hmarker⟩
      exact ⟨hnames, by rwa [h], hmarker⟩
  have htidy : Tidy d' root' ↔ Tidy d root := by
    constructor
    · rintro ⟨hall, hcount⟩
      simp only [h, hcarried] at hall hcount
      exact ⟨hall, hcount⟩
    · rintro ⟨hall, hcount⟩
      refine ⟨?_, ?_⟩
      · simpa only [h, hcarried] using hall
      · simpa only [h] using hcount
  have hlisted : Listed d' root' M ↔ Listed d root M := by
    constructor
    · rintro ⟨hsorted, hmem⟩
      simp only [h, hentry] at hmem
      exact ⟨hsorted, hmem⟩
    · rintro ⟨hsorted, hmem⟩
      exact ⟨hsorted, by simpa only [h, hentry] using hmem⟩
  rw [htidy, hlisted]

end Scan

end Pelorus.Migrate
