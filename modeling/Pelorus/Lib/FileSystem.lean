import Mathlib.Data.Char
import Mathlib.Data.List.Lex
import Pelorus.Lib.SortedMap
import Pelorus.Lib.Text

/-
  Lib/FileSystem.lean --- programs whose every intermediate state can be the last.

  A `Crash σ α` is a program over a durable state `σ`.  Run from a state it returns
  the states it passes through, the state it ends in, and its result; a crash leaves
  the starting state or one of the states passed through, and everything else the
  program knew is lost.

  RULES.  `Safe C s x Q` is a triple with a crash condition: from `s`, every state
  that `x` passes through satisfies `C`, and where it ends `Q` holds of the result
  and the state.  Programs are proved by composing `Safe.step`, `Safe.bind` and
  their like, with no look at the trace.
-/
set_option autoImplicit false

namespace Pelorus.Lib

/-- A program over a durable state. -/
def Crash (σ α : Type) : Type := σ → List σ × σ × α

namespace Crash

variable {σ α β : Type}

/-- The states the program passes through. -/
def trace (x : Crash σ α) (s : σ) : List σ := (x s).1

/-- The state it ends in. -/
def final (x : Crash σ α) (s : σ) : σ := (x s).2.1

/-- Its result. -/
def value (x : Crash σ α) (s : σ) : α := (x s).2.2

instance : Monad (Crash σ) where
  pure a := fun s => ([], s, a)
  bind x f := fun s =>
    let r := x s
    let r' := f r.2.2 r.2.1
    (r.1 ++ r'.1, r'.2.1, r'.2.2)

instance : LawfulMonad (Crash σ) :=
  LawfulMonad.mk' (Crash σ)
    (fun x => by
      funext s
      exact Prod.ext (List.append_nil (x s).1) rfl)
    (fun a f => rfl)
    (fun x f g => by
      funext s
      exact Prod.ext (List.append_assoc ..) rfl)

/-- Read the state. -/
def get : Crash σ σ := fun s => ([], s, s)

/-- One atomic change of the state. -/
def step (f : σ → σ) : Crash σ Unit := fun s => ([f s], f s, ())

/-- A change that takes effect bit by bit: a crash leaves it after any number of its
`n` parts. -/
def progress (n : Nat) (f : Nat → σ → σ) : Crash σ Unit :=
  fun s => ((List.range (n + 1)).map fun i => f i s, f n s, ())

/-- Where a crash during the program can leave the state. -/
def Leaves (x : Crash σ α) (s t : σ) : Prop := t = s ∨ t ∈ x.trace s

/-! ## Triples with a crash condition -/

/-- From `s`, the program passes through states with `C` and ends with `Q`. -/
structure Safe (C : σ → Prop) (s : σ) (x : Crash σ α) (Q : α → σ → Prop) : Prop where
  crash : ∀ t ∈ x.trace s, C t
  post : Q (x.value s) (x.final s)

variable {C : σ → Prop} {s : σ} {Q : α → σ → Prop}

theorem Safe.pure {a : α} (h : Q a s) : Safe C s (Pure.pure a) Q :=
  ⟨nofun, h⟩

/-- Every program meets the triple that asks for nothing. -/
theorem Safe.trivial (s : σ) (x : Crash σ α) : Safe (fun _ => True) s x fun _ _ => True :=
  ⟨fun _ _ => True.intro, True.intro⟩

theorem Safe.get {Q : σ → σ → Prop} (h : Q s s) : Safe C s get Q :=
  ⟨nofun, h⟩

theorem Safe.step {f : σ → σ} {Q : Unit → σ → Prop} (hc : C (f s)) (h : Q () (f s)) :
    Safe C s (step f) Q := by
  refine ⟨?_, h⟩
  intro t ht
  rw [List.mem_singleton.mp ht]
  exact hc

theorem Safe.progress {n : Nat} {f : Nat → σ → σ} {Q : Unit → σ → Prop}
    (hc : ∀ i ≤ n, C (f i s)) (h : Q () (f n s)) : Safe C s (progress n f) Q := by
  refine ⟨?_, h⟩
  intro t ht
  obtain ⟨i, hi, rfl⟩ := List.mem_map.mp ht
  exact hc i (Nat.lt_succ_iff.mp (List.mem_range.mp hi))

variable {x : Crash σ α}

theorem Safe.bind {f : α → Crash σ β} {R : β → σ → Prop} (hx : Safe C s x Q)
    (hf : ∀ a t, Q a t → Safe C t (f a) R) : Safe C s (x >>= f) R := by
  have hrest := hf _ _ hx.post
  refine ⟨?_, hrest.post⟩
  intro t ht
  rcases List.mem_append.mp ht with ht | ht
  · exact hx.crash t ht
  · exact hrest.crash t ht

theorem Safe.get_bind {f : σ → Crash σ β} {R : β → σ → Prop} (hf : Safe C s (f s) R) :
    Safe C s (Crash.get >>= f) R :=
  Safe.bind (Q := fun a t => a = s ∧ t = s) (Safe.get ⟨rfl, rfl⟩) fun a t h => by
    rw [h.1, h.2]
    exact hf

theorem Safe.step_bind {g : σ → σ} {f : Unit → Crash σ β} {R : β → σ → Prop} (hc : C (g s))
    (hf : Safe C (g s) (f ()) R) : Safe C s (Crash.step g >>= f) R :=
  Safe.bind (Q := fun _ t => t = g s) (Safe.step hc rfl) fun _ t h => by
    rw [h]
    exact hf

theorem Safe.map {f : α → β} {R : β → σ → Prop}
    (hx : Safe C s x fun a t => R (f a) t) : Safe C s (f <$> x) R :=
  hx.bind fun _ _ h => Safe.pure h

theorem Safe.mono {C' : σ → Prop} {Q' : α → σ → Prop} (hx : Safe C s x Q)
    (hc : ∀ t, C t → C' t) (hq : ∀ a t, Q a t → Q' a t) : Safe C' s x Q' :=
  ⟨fun t ht => hc t (hx.crash t ht), hq _ _ hx.post⟩

/-! ## Programs that can fail

A failing program is an `ExceptT ε (Crash σ) α`, and the rules are about its `run`:
the postcondition sees whether it failed.  A failure ends the program where it is. -/

section Failing

variable {ε : Type} {Q : Except ε α → σ → Prop} {R : Except ε β → σ → Prop}

theorem Safe.ok {a : α} (h : Q (.ok a) s) : Safe C s (Pure.pure a : ExceptT ε (Crash σ) α).run Q :=
  ⟨nofun, h⟩

theorem Safe.throw {e : ε} (h : Q (.error e) s) :
    Safe C s (MonadExcept.throw e : ExceptT ε (Crash σ) α).run Q :=
  ⟨nofun, h⟩

theorem Safe.lift (h : Safe C s x fun a t => Q (.ok a) t) :
    Safe C s (ExceptT.lift x : ExceptT ε (Crash σ) α).run Q :=
  h.map

/-- A program that does not fail, and the rest. -/
theorem Safe.ok_bind {P : α → σ → Prop} {x : ExceptT ε (Crash σ) α}
    {f : α → ExceptT ε (Crash σ) β} (hx : Safe C s x.run fun r t => ∃ a, r = .ok a ∧ P a t)
    (hf : ∀ a t, P a t → Safe C t (f a).run R) : Safe C s (x >>= f).run R := by
  refine hx.bind fun r t h => ?_
  obtain ⟨a, rfl, ha⟩ := h
  exact hf a t ha

/-- A program that fails ends the whole. -/
theorem Safe.error_bind {x : ExceptT ε (Crash σ) α} {f : α → ExceptT ε (Crash σ) β}
    (hx : Safe C s x.run fun r t => ∃ e, r = .error e ∧ R (.error e) t) : Safe C s (x >>= f).run R := by
  refine hx.bind fun r t h => ?_
  obtain ⟨e, rfl, hr⟩ := h
  exact Safe.pure hr

/-- A loop that does not fail: `I` relates what was done to the state. -/
theorem Safe.forM {f : α → ExceptT ε (Crash σ) PUnit} {I : List α → σ → Prop} (l : List α)
    (hstep : ∀ done a rest t, l = done ++ a :: rest → I done t →
      Safe C t (f a).run fun r t' => r = .ok ⟨⟩ ∧ I (done ++ [a]) t') (hs : I [] s) :
    Safe C s (l.forM f).run fun r t => r = .ok ⟨⟩ ∧ I l t := by
  suffices h : ∀ (rest done : List α) (t : σ), l = done ++ rest → I done t →
      Safe C t (rest.forM f).run fun r t' => r = .ok ⟨⟩ ∧ I l t' from h l [] s rfl hs
  intro rest
  induction rest with
  | nil =>
      intro done t hl ht
      rw [List.append_nil] at hl
      exact Safe.ok ⟨rfl, hl ▸ ht⟩
  | cons a rest ih =>
      intro done t hl ht
      refine Safe.ok_bind (P := fun _ t' => I (done ++ [a]) t') ?_ fun _ t' ht' => ?_
      · exact (hstep done a rest t hl ht).mono (fun _ h => h) fun r t' h => ⟨⟨⟩, h.1, h.2⟩
      · exact ih (done ++ [a]) t' (by rw [hl, List.append_assoc, List.singleton_append]) ht'

/-- A loop with an accumulator that does not fail. -/
theorem Safe.foldlM {f : β → α → ExceptT ε (Crash σ) β} {I : List α → σ → Prop} (l : List α)
    (hstep : ∀ done a rest b t, l = done ++ a :: rest → I done t →
      Safe C t (f b a).run fun r t' => ∃ b', r = .ok b' ∧ I (done ++ [a]) t') (b : β) (hs : I [] s) :
    Safe C s (l.foldlM f b).run fun r t => ∃ b', r = .ok b' ∧ I l t := by
  suffices h : ∀ (rest done : List α) (b : β) (t : σ), l = done ++ rest → I done t →
      Safe C t (rest.foldlM f b).run fun r t' => ∃ b', r = .ok b' ∧ I l t' from h l [] b s rfl hs
  intro rest
  induction rest with
  | nil =>
      intro done b t hl ht
      rw [List.append_nil] at hl
      exact Safe.ok ⟨b, rfl, hl ▸ ht⟩
  | cons a rest ih =>
      intro done b t hl ht
      rw [List.foldlM_cons]
      refine Safe.ok_bind (hstep done a rest b t hl ht) fun b' t' ht' => ?_
      exact ih (done ++ [a]) b' t' (by rw [hl, List.append_assoc, List.singleton_append]) ht'

end Failing

/-- A crash leaves a state with the crash condition, if the start has it. -/
theorem Safe.leaves (hx : Safe C s x Q) (hs : C s) {t : σ} (ht : x.Leaves s t) : C t := by
  rcases ht with rfl | ht
  · exact hs
  · exact hx.crash t ht

end Crash

end Pelorus.Lib

/-! # Directories and files below one root, and the operations a program changes them with

THE STATE.  A disk maps paths to nodes and carries the proof that what is above a
node is a directory.  The root is the empty path and always a directory.  Nothing
is looked up THROUGH a symbolic link: a link is a leaf, of which the model knows
what opening it for reading gives.

THE OPERATIONS.  Each is one function that returns the new disk or the reason why
not, except removing a whole directory, which is a program with a state after
every node removed.  An operation has one lemma, which gives `lstat` afterwards
for every path: later proofs compare disks by `lstat` and never look inside one. -/

namespace Pelorus.Lib

/-- A path below the root: its components. -/
abbrev Path : Type := List Text

/-- What is at a path. -/
inductive Node where
  | file (content : Bytes)
  | dir
  /-- A symbolic link, with what opening it for reading gives. -/
  | symlink (reads : Option Bytes)
  /-- Anything else: a device, a pipe, a socket. -/
  | special
  deriving DecidableEq

/-- Why an operation was refused. -/
inductive IoError where
  | notFound
  | alreadyExists
  | notADirectory
  | isADirectory
  | directoryNotEmpty
  | unsupported
  deriving DecidableEq

/-- The nodes below the root, each in a directory. -/
structure Disk where
  nodes : SortedMap Path Node
  closed : ∀ {p : Path} {name : Text} {n : Node}, nodes.get? (p ++ [name]) = some n →
    p = [] ∨ nodes.get? p = some .dir

namespace Disk

/-- Nothing below the root. -/
def empty : Disk := ⟨.empty, nofun⟩

/-! ## Looking -/

/-- `symlink_metadata`, with nothing for an absent path. -/
def lstat (d : Disk) (p : Path) : Option Node := if p = [] then some .dir else d.nodes.get? p

/-- The names in a directory. -/
def names (d : Disk) (p : Path) : List Text :=
  d.nodes.entries.filterMap fun e => if e.1.dropLast = p then e.1.getLast? else none

def readDir (d : Disk) (p : Path) : Except IoError (List Text) :=
  match d.lstat p with
  | some .dir => .ok (d.names p)
  | some _ => .error .notADirectory
  | none => .error .notFound

/-- `open` and read to the end. -/
def readFile (d : Disk) (p : Path) : Except IoError Bytes :=
  match d.lstat p with
  | some (.file content) => .ok content
  | some (.symlink (some content)) => .ok content
  | some (.symlink none) => .error .notFound
  | some .dir => .error .isADirectory
  | some .special => .error .unsupported
  | none => .error .notFound

@[simp] theorem lstat_root (d : Disk) : d.lstat [] = some .dir := rfl

variable {p : Path}

theorem lstat_of_ne {d : Disk} (h : p ≠ []) : d.lstat p = d.nodes.get? p := if_neg h

/-- Above every node is a directory. -/
theorem lstat_parent {d : Disk} {p : Path} {name : Text} {n : Node}
    (h : d.lstat (p ++ [name]) = some n) : d.lstat p = some .dir := by
  rw [lstat_of_ne (by simp)] at h
  rcases d.closed h with rfl | h
  · rfl
  · by_cases hp : p = []
    · rw [hp, lstat_root]
    · rw [lstat_of_ne hp, h]

variable {q : Path}

/-- Every proper ancestor of a node is a directory. -/
theorem lstat_ancestor {d : Disk} {n : Node} (hq : q ≠ [])
    (h : d.lstat (p ++ q) = some n) : d.lstat p = some .dir := by
  induction q using List.reverseRecOn generalizing n with
  | nil => exact absurd rfl hq
  | append_singleton q name ih =>
      rw [← List.append_assoc] at h
      have hparent := lstat_parent h
      by_cases hq' : q = []
      · rwa [hq', List.append_nil] at hparent
      · exact ih hq' hparent

/-- Nothing is below what is not a directory. -/
theorem lstat_below {d : Disk} (h : d.lstat p ≠ some .dir) (hq : q ≠ []) : d.lstat (p ++ q) = none := by
  cases hn : d.lstat (p ++ q) with
  | none => rfl
  | some n => exact absurd (lstat_ancestor hq hn) h

theorem mem_names {d : Disk} {name : Text} : name ∈ d.names p ↔ ∃ n, d.lstat (p ++ [name]) = some n := by
  simp only [names, List.mem_filterMap, lstat_of_ne (d := d) (p := p ++ [name]) (by simp)]
  constructor
  · rintro ⟨⟨q, n⟩, hmem, hname⟩
    split at hname
    · rename_i hparent
      have hq : q = p ++ [name] := by
        rw [← hparent]
        exact (List.dropLast_append_getLast? name hname).symm
      subst hq
      exact ⟨n, SortedMap.mem_entries.mp hmem⟩
    · cases hname
  · rintro ⟨n, hn⟩
    exact ⟨(p ++ [name], n), SortedMap.mem_entries.mpr hn, by simp⟩

theorem nodup_names (d : Disk) (p : Path) : (d.names p).Nodup := by
  have hkeys : d.nodes.entries.Pairwise fun a b => a.1 ≠ b.1 :=
    d.nodes.sorted.imp fun h => ne_of_lt h
  refine List.Pairwise.filterMap _ ?_ hkeys
  rintro ⟨q, n⟩ ⟨q', n'⟩ hne name hname name' hname' rfl
  simp only at hne hname hname'
  split at hname
  · rename_i hp
    split at hname'
    · rename_i hp'
      apply hne
      rw [← List.dropLast_append_getLast? name hname, ← List.dropLast_append_getLast? name hname',
        hp, hp']
    · cases hname'
  · cases hname

theorem names_eq_nil {d : Disk} : d.names p = [] ↔ ∀ q, q ≠ [] → d.lstat (p ++ q) = none := by
  constructor
  · intro h q hq
    cases hn : d.lstat (p ++ q) with
    | none => rfl
    | some n =>
        obtain ⟨name, rest, rfl⟩ := List.exists_cons_of_ne_nil hq
        have hchild : ∃ n, d.lstat (p ++ [name]) = some n := by
          by_cases hrest : rest = []
          · exact ⟨n, by rw [← hn, hrest]⟩
          · rw [List.append_cons] at hn
            exact ⟨_, lstat_ancestor hrest hn⟩
        rw [← mem_names, h] at hchild
        cases hchild
  · intro h
    refine List.eq_nil_iff_forall_not_mem.mpr fun name hname => ?_
    obtain ⟨n, hn⟩ := mem_names.mp hname
    rw [h [name] (by simp)] at hn
    cases hn

/-! ## Adding -/

/-- Put a node at a path that is no directory, in a directory. -/
def put (d : Disk) (p : Path) (n : Node) : Disk :=
  if h : d.lstat p.dropLast = some .dir ∧ d.lstat p ≠ some .dir then
    { nodes := d.nodes.insert p n
      closed := by
        intro q name m hm
        have hpne : p ≠ [] := fun hp => h.2 (by rw [hp, lstat_root])
        -- what is above a node after the change was a directory before it
        have habove : d.lstat q = some .dir := by
          rw [SortedMap.get?_insert] at hm
          split at hm
          · rename_i heq
            rw [← heq, List.dropLast_concat] at h
            exact h.1
          · exact @lstat_parent d q name m (by rw [lstat_of_ne (by simp), hm])
        by_cases hq : q = []
        · exact Or.inl hq
        · have hqp : q ≠ p := fun heq => h.2 (heq ▸ habove)
          rw [lstat_of_ne hq] at habove
          exact Or.inr (by rw [SortedMap.get?_insert, if_neg hqp, habove]) }
  else d

theorem lstat_put {d : Disk} (hparent : d.lstat p.dropLast = some .dir)
    (hp : d.lstat p ≠ some .dir) (n : Node) (q : Path) :
    (d.put p n).lstat q = if q = p then some n else d.lstat q := by
  have hpne : p ≠ [] := fun h => hp (by rw [h, lstat_root])
  rw [put, dif_pos ⟨hparent, hp⟩]
  by_cases hq : q = []
  · rw [hq, lstat_root, lstat_root, if_neg (Ne.symm hpne)]
  · rw [lstat_of_ne hq, lstat_of_ne hq]
    by_cases hqp : q = p
    · simp [hqp]
    · simp [SortedMap.get?_insert, hqp]

def createDir (d : Disk) (p : Path) : Except IoError Disk :=
  match d.lstat p, d.lstat p.dropLast with
  | some _, _ => .error .alreadyExists
  | none, some .dir => .ok (d.put p .dir)
  | none, some _ => .error .notADirectory
  | none, none => .error .notFound

/-- `File::create`: an empty file, whatever the file held before. -/
def createFile (d : Disk) (p : Path) : Except IoError Disk :=
  match d.lstat p, d.lstat p.dropLast with
  | some .dir, _ => .error .isADirectory
  | some (.file _), _ => .ok (d.put p (.file []))
  | some _, _ => .error .unsupported
  | none, some .dir => .ok (d.put p (.file []))
  | none, some _ => .error .notADirectory
  | none, none => .error .notFound

theorem createDir_eq {d : Disk} (hparent : d.lstat p.dropLast = some .dir)
    (hp : d.lstat p = none) : d.createDir p = .ok (d.put p .dir) := by
  simp [createDir, hp, hparent]

theorem createFile_eq {d : Disk} (hparent : d.lstat p.dropLast = some .dir)
    (hp : d.lstat p = none) : d.createFile p = .ok (d.put p (.file [])) := by
  simp [createFile, hp, hparent]

/-! ## Removing -/

/-- Remove what is at or below the paths with `P`. -/
def prune (d : Disk) (P : Path → Bool) : Disk where
  nodes := d.nodes.filter fun e => !e.1.inits.any P
  closed := by
    intro p name n hn
    rw [SortedMap.get?_filter, Option.filter_eq_some_iff] at hn
    obtain ⟨hn, hkeep⟩ := hn
    rcases d.closed hn with hp | hp
    · exact Or.inl hp
    · refine Or.inr ?_
      rw [SortedMap.get?_filter, hp, Option.filter_eq_some_iff]
      refine ⟨rfl, ?_⟩
      simp only [Bool.not_eq_true', List.any_eq_false, List.mem_inits] at hkeep ⊢
      exact fun r hr => hkeep r (hr.trans (List.prefix_append p [name]))

theorem lstat_prune_of_any {d : Disk} {P : Path → Bool} (hq : q ≠ []) (hpq : p <+: q)
    (hp : P p = true) : (d.prune P).lstat q = none := by
  have hany : q.inits.any P = true := List.any_eq_true.mpr ⟨p, (List.mem_inits p q).mpr hpq, hp⟩
  rw [lstat_of_ne hq, prune, SortedMap.get?_filter]
  cases d.nodes.get? q <;> simp [hany, Option.filter]

theorem lstat_prune_of_none {d : Disk} {P : Path → Bool}
    (h : ∀ p, p <+: q → P p = false) : (d.prune P).lstat q = d.lstat q := by
  by_cases hq : q = []
  · rw [hq, lstat_root, lstat_root]
  · have hany : q.inits.any P = false := by
      simpa only [List.any_eq_false, List.mem_inits, Bool.not_eq_true] using h
    rw [lstat_of_ne hq, lstat_of_ne hq, prune, SortedMap.get?_filter]
    cases d.nodes.get? q <;> simp [hany, Option.filter]

/-- Remove one path. -/
def remove (d : Disk) (p : Path) : Disk := d.prune fun q => q = p

/-- Removing a path with nothing below it changes nothing else. -/
theorem lstat_remove {d : Disk} (hp : p ≠ [])
    (hleaf : ∀ q, q ≠ [] → d.lstat (p ++ q) = none) (q : Path) :
    (d.remove p).lstat q = if q = p then none else d.lstat q := by
  by_cases hpq : p <+: q
  · obtain ⟨r, rfl⟩ := hpq
    rw [remove, lstat_prune_of_any (p := p) (by simp [hp]) (List.prefix_append p r) (by simp)]
    by_cases hr : r = []
    · simp [hr]
    · rw [if_neg (by simpa using hr), hleaf r hr]
  · have hne : q ≠ p := fun h => hpq (by rw [h])
    rw [if_neg hne, remove]
    refine lstat_prune_of_none fun r hr => ?_
    simp only [decide_eq_false_iff_not]
    rintro rfl
    exact hpq hr

def removeFile (d : Disk) (p : Path) : Except IoError Disk :=
  match d.lstat p with
  | some .dir => .error .isADirectory
  | some _ => .ok (d.remove p)
  | none => .error .notFound

/-- `remove_dir`: an empty directory, and not the root. -/
def removeDir (d : Disk) (p : Path) : Except IoError Disk :=
  match d.lstat p with
  | some .dir =>
      if p = [] then .error .unsupported
      else if (d.names p).isEmpty then .ok (d.remove p) else .error .directoryNotEmpty
  | some _ => .error .notADirectory
  | none => .error .notFound

/-- A path and what is below it, in path order: a directory before what it holds. -/
def subtree (d : Disk) (p : Path) : List Path :=
  (d.nodes.entries.map Prod.fst).filter fun q => p.isPrefixOf q

/-- `remove_dir_all`: one node after the other, from the last of the subtree to the first. -/
def removeDirAll (p : Path) : Crash Disk Unit := do
  let doomed := (← Crash.get).subtree p
  Crash.progress doomed.length fun i d =>
    d.prune fun q => q ∈ doomed.drop (doomed.length - i)

theorem lstat_removeFile {d d' : Disk} (h : d.removeFile p = .ok d') (q : Path) :
    d'.lstat q = if q = p then none else d.lstat q := by
  unfold removeFile at h
  split at h
  · cases h
  · rename_i n hnot hn
    cases h
    have hndir : d.lstat p ≠ some .dir := by
      rw [hn]
      rintro ⟨⟩
      exact hnot rfl
    refine lstat_remove (fun hp => hndir (by rw [hp, lstat_root])) ?_ q
    exact fun r hr => lstat_below hndir hr
  · cases h

theorem lstat_removeDir {d d' : Disk} (h : d.removeDir p = .ok d') (q : Path) :
    d'.lstat q = if q = p then none else d.lstat q := by
  unfold removeDir at h
  split at h
  · split at h
    · cases h
    · rename_i hp
      split at h
      · rename_i hnames
        cases h
        exact lstat_remove hp (names_eq_nil.mp (List.isEmpty_iff.mp hnames)) q
      · cases h
  · cases h
  · cases h

theorem removeFile_eq {d : Disk} {content : Bytes}
    (h : d.lstat p = some (.file content)) : d.removeFile p = .ok (d.remove p) := by
  simp [removeFile, h]

theorem removeDir_eq {d : Disk} (hp : p ≠ []) (h : d.lstat p = some .dir)
    (hleaf : ∀ q, q ≠ [] → d.lstat (p ++ q) = none) : d.removeDir p = .ok (d.remove p) := by
  simp [removeDir, h, hp, names_eq_nil.mpr hleaf]

theorem mem_subtree {d : Disk} : q ∈ d.subtree p ↔ p <+: q ∧ ∃ n, d.nodes.get? q = some n := by
  simp only [subtree, List.mem_filter, List.mem_map, Prod.exists, exists_and_right, exists_eq_right,
    List.isPrefixOf_iff_prefix, SortedMap.mem_entries]
  exact and_comm

/-- While a directory is removed nothing outside it changes, and then it is gone. -/
theorem removeDirAll_safe {C : Disk → Prop} {d : Disk} (hp : p ≠ [])
    (hC : ∀ t : Disk, (∀ q, ¬ p <+: q → t.lstat q = d.lstat q) → C t) :
    Crash.Safe C d (removeDirAll p) fun _ t =>
      (∀ q, ¬ p <+: q → t.lstat q = d.lstat q) ∧ ∀ q, t.lstat (p ++ q) = none := by
  -- a path outside has no ancestor among the removed ones
  have houtside : ∀ i q, ¬ p <+: q → (d.prune fun r =>
      r ∈ (d.subtree p).drop ((d.subtree p).length - i)).lstat q = d.lstat q := by
    intro i q hq
    refine lstat_prune_of_none fun r hr => ?_
    simp only [decide_eq_false_iff_not]
    intro hmem
    exact hq ((mem_subtree.mp (List.mem_of_mem_drop hmem)).1.trans hr)
  refine Crash.Safe.get_bind (Crash.Safe.progress (fun i _ => hC _ (houtside i)) ?_)
  refine ⟨houtside _, fun q => ?_⟩
  simp only [Nat.sub_self, List.drop_zero]
  have hne : p ++ q ≠ [] := by simp [hp]
  cases hn : d.nodes.get? (p ++ q) with
  | some n =>
      refine lstat_prune_of_any hne (List.prefix_refl _) ?_
      simpa using mem_subtree.mpr ⟨List.prefix_append p q, n, hn⟩
  | none =>
      rw [lstat_of_ne hne, prune, SortedMap.get?_filter, hn]
      rfl

/-! ## Moving -/

/-- Where a path is after the directory or file `a` was renamed to `b`. -/
def moved (a b p : Path) : Path := if a.isPrefixOf p then b ++ p.drop a.length else p

/-- `b` is a free name outside `a`, in a directory. -/
structure Movable (d : Disk) (a b : Path) : Prop where
  present : d.lstat a ≠ none
  parent : d.lstat b.dropLast = some .dir
  free : d.lstat b = none
  outside : ¬ a <+: b
  source : a ≠ []

instance (d : Disk) (a b : Path) : Decidable (d.Movable a b) :=
  decidable_of_iff
    (d.lstat a ≠ none ∧ d.lstat b.dropLast = some .dir ∧ d.lstat b = none ∧ ¬ a <+: b ∧ a ≠ [])
    ⟨fun h => ⟨h.1, h.2.1, h.2.2.1, h.2.2.2.1, h.2.2.2.2⟩,
      fun h => ⟨h.present, h.parent, h.free, h.outside, h.source⟩⟩

theorem moved_of_isPrefix {a b : Path} : moved a b (a ++ q) = b ++ q := by
  simp [moved]

theorem moved_of_not_isPrefix {a b : Path} (h : ¬ a <+: p) : moved a b p = p := by
  rw [moved, if_neg]
  simpa using h

namespace Movable

variable {d : Disk} {a b : Path}

theorem target_ne (h : d.Movable a b) : b ≠ [] := by
  rintro rfl
  have := h.free
  rw [lstat_root] at this
  cases this

theorem target_not_dir (h : d.Movable a b) : d.lstat b ≠ some .dir := by
  rw [h.free]
  nofun

/-- Nothing is at the target or below it. -/
theorem below_free (h : d.Movable a b) (q : Path) : d.lstat (b ++ q) = none := by
  by_cases hq : q = []
  · rw [hq, List.append_nil, h.free]
  · exact lstat_below h.target_not_dir hq

theorem moved_injective (h : d.Movable a b) {n m : Node} (hp : d.nodes.get? p = some n)
    (hq : d.nodes.get? q = some m) (heq : moved a b p = moved a b q) :
    p = q := by
  -- a path that stays is not under the target, where nothing was
  have hclash : ∀ {r s : Path} {k : Node}, d.nodes.get? r = some k → r ≠ b ++ s := by
    rintro r s k hr rfl
    have hnone := h.below_free s
    rw [lstat_of_ne (by simp [h.target_ne]), hr] at hnone
    cases hnone
  by_cases hap : a <+: p
  · obtain ⟨r, rfl⟩ := hap
    rw [moved_of_isPrefix] at heq
    by_cases haq : a <+: q
    · obtain ⟨s, rfl⟩ := haq
      rw [moved_of_isPrefix] at heq
      rw [List.append_cancel_left heq]
    · rw [moved_of_not_isPrefix haq] at heq
      exact absurd heq.symm (hclash hq)
  · rw [moved_of_not_isPrefix hap] at heq
    by_cases haq : a <+: q
    · obtain ⟨s, rfl⟩ := haq
      rw [moved_of_isPrefix] at heq
      exact absurd heq (hclash hp)
    · rwa [moved_of_not_isPrefix haq] at heq

theorem get?_mapKeys_moved (h : d.Movable a b) {n : Node} :
    (d.nodes.mapKeys (moved a b)).get? p = some n ↔
      ∃ q, moved a b q = p ∧ d.nodes.get? q = some n :=
  SortedMap.get?_mapKeys fun _ _ _ _ hp hq heq => h.moved_injective hp hq heq

theorem dir_stays (h : d.Movable a b) (hap : ¬ a <+: p) (hp : d.lstat p = some .dir) :
    p = [] ∨ (d.nodes.mapKeys (moved a b)).get? p = some .dir := by
  by_cases hne : p = []
  · exact Or.inl hne
  · rw [lstat_of_ne hne] at hp
    exact Or.inr (h.get?_mapKeys_moved.mpr ⟨p, moved_of_not_isPrefix hap, hp⟩)

end Movable

/-- `rename` to a free name. -/
def rename (d : Disk) (a b : Path) : Except IoError Disk :=
  if h : d.Movable a b then
    .ok
      { nodes := d.nodes.mapKeys (moved a b)
        closed := by
          intro p name n hn
          obtain ⟨q, hq, hqn⟩ := h.get?_mapKeys_moved.mp hn
          by_cases haq : a <+: q
          · obtain ⟨r, rfl⟩ := haq
            rw [moved_of_isPrefix] at hq
            cases r using List.reverseRecOn with
            | nil =>
                -- the node itself: its new parent was a directory, and is not inside it
                rw [List.append_nil] at hq
                have hparent := h.parent
                have hout := h.outside
                rw [hq, List.dropLast_concat] at hparent
                rw [hq] at hout
                exact h.dir_stays (fun hap => hout (hap.trans (List.prefix_append p [name]))) hparent
            | append_singleton r last =>
                -- below it: the parent moved too
                rw [← List.append_assoc] at hq hqn
                obtain ⟨rfl, rfl⟩ := List.append_singleton_inj.mp hq
                have hne : a ++ r ≠ [] := by simp [h.source]
                rcases d.closed hqn with hroot | hdir
                · exact absurd hroot hne
                · exact Or.inr (h.get?_mapKeys_moved.mpr ⟨a ++ r, moved_of_isPrefix, hdir⟩)
          · rw [moved_of_not_isPrefix haq] at hq
            subst hq
            have hap : ¬ a <+: p := fun hap => haq (hap.trans (List.prefix_append p [name]))
            exact h.dir_stays hap (@lstat_parent d p name n (by rw [lstat_of_ne (by simp), hqn])) }
  else if d.lstat a = none then .error .notFound
  else if d.lstat b ≠ none then .error .alreadyExists
  else .error .unsupported

theorem rename_eq {d : Disk} {a b : Path} (h : d.Movable a b) :
    ∃ d', d.rename a b = .ok d' ∧ (∀ q, d'.lstat (b ++ q) = d.lstat (a ++ q)) ∧
      (∀ q, d'.lstat (a ++ q) = none) ∧
      ∀ p, ¬ a <+: p → ¬ b <+: p → d'.lstat p = d.lstat p := by
  refine ⟨_, dif_pos h, ?_, ?_, ?_⟩
  · intro q
    rw [lstat_of_ne (by simp [h.target_ne]), lstat_of_ne (by simp [h.source])]
    refine Option.ext fun n => ?_
    rw [h.get?_mapKeys_moved]
    constructor
    · rintro ⟨r, hr, hrn⟩
      by_cases har : a <+: r
      · obtain ⟨s, rfl⟩ := har
        rw [moved_of_isPrefix] at hr
        rw [← List.append_cancel_left hr]
        exact hrn
      · rw [moved_of_not_isPrefix har] at hr
        subst hr
        have hnone := h.below_free q
        rw [lstat_of_ne (by simp [h.target_ne]), hrn] at hnone
        cases hnone
    · exact fun hn => ⟨a ++ q, moved_of_isPrefix, hn⟩
  · intro q
    rw [lstat_of_ne (by simp [h.source])]
    refine Option.eq_none_iff_forall_ne_some.mpr fun n hn => ?_
    obtain ⟨r, hr, hrn⟩ := h.get?_mapKeys_moved.mp hn
    by_cases har : a <+: r
    · obtain ⟨s, rfl⟩ := har
      rw [moved_of_isPrefix] at hr
      -- the two names are not nested either way
      have hnest : a <+: b ∨ b <+: a :=
        List.prefix_or_prefix_of_prefix (List.prefix_append a q) (hr ▸ List.prefix_append b s)
      rcases hnest with hab | ⟨t, rfl⟩
      · exact h.outside hab
      · exact h.present (h.below_free t)
    · rw [moved_of_not_isPrefix har] at hr
      exact har (hr ▸ List.prefix_append a q)
  · intro p hap hbp
    by_cases hp : p = []
    · rw [hp, lstat_root, lstat_root]
    · rw [lstat_of_ne hp, lstat_of_ne hp]
      refine Option.ext fun n => ?_
      rw [h.get?_mapKeys_moved]
      constructor
      · rintro ⟨r, rfl, hrn⟩
        by_cases har : a <+: r
        · obtain ⟨s, rfl⟩ := har
          rw [moved_of_isPrefix] at hbp
          exact absurd (List.prefix_append b s) hbp
        · rw [moved_of_not_isPrefix har]
          exact hrn
      · exact fun hn => ⟨p, moved_of_not_isPrefix hap, hn⟩

end Disk

end Pelorus.Lib
