import Mathlib.Data.List.Induction
import Mathlib.Data.List.Nodup
import Mathlib.Logic.Function.Basic

/-
  Lib/Forest.lean --- ordered forests given by their child lists.

  A forest over `α` is nothing but a function `kids : α → List α`.  A node is
  addressed from another by the CHILD INDICES on the way down (`follow`).  When
  no node is a child twice (`Branching`), two addresses of one node agree from
  the end backwards, so a node below a root has exactly one address, and there
  is no way down from a node to itself.

  Two edits are studied: cutting the child `x` out of `p`'s list and grafting a
  root `x` into it.  Both are `Function.update kids p`, and every way down that
  does not leave `p` survives an update at `p` unchanged (`follow_update`).
-/
set_option autoImplicit false

namespace Pelorus.Lib.Forest

variable {α : Type}

/-- The node reached from `a` by taking these child indices. -/
def follow (kids : α → List α) : α → List Nat → Option α
  | a, [] => some a
  | a, i :: path => ((kids a)[i]?).bind fun c => follow kids c path

/-- No node is a child of two nodes, or of one node twice. -/
structure Branching (kids : α → List α) : Prop where
  nodup : ∀ p, (kids p).Nodup
  parent_unique : ∀ p q c, c ∈ kids p → c ∈ kids q → p = q

/-- A node that is nobody's child. -/
def IsRoot (kids : α → List α) (r : α) : Prop := ∀ p, r ∉ kids p

/-- `c` is at `path` below the root `r`. -/
structure Addr (kids : α → List α) (r : α) (path : List Nat) (c : α) : Prop where
  root : IsRoot kids r
  leads : follow kids r path = some c

variable {kids : α → List α}

@[simp] theorem follow_nil (a : α) : follow kids a [] = some a := rfl

@[simp] theorem follow_cons (a : α) (i : Nat) (path : List Nat) :
    follow kids a (i :: path) = ((kids a)[i]?).bind fun c => follow kids c path := rfl

theorem follow_append (a : α) (path more : List Nat) :
    follow kids a (path ++ more) = (follow kids a path).bind fun c => follow kids c more := by
  induction path generalizing a with
  | nil => rfl
  | cons i path ih =>
      simp only [List.cons_append, follow_cons]
      cases (kids a)[i]? with
      | none => rfl
      | some c => exact ih c

variable {a : α} {path : List Nat}

theorem follow_append_of {b : α} (h : follow kids a path = some b) (more : List Nat) :
    follow kids a (path ++ more) = follow kids b more := by
  rw [follow_append, h]
  rfl

/-- The last step of a way down. -/
theorem follow_snoc {c : α} {i : Nat} :
    follow kids a (path ++ [i]) = some c ↔
      ∃ p, follow kids a path = some p ∧ (kids p)[i]? = some c := by
  rw [follow_append]
  cases follow kids a path with
  | none => simp
  | some p =>
      cases h : (kids p)[i]? <;> simp [h]

/-- Nothing leads down to a root but standing on it. -/
theorem IsRoot.eq_nil {r : α} (root : IsRoot kids r) (h : follow kids a path = some r) : path = [] := by
  cases path using List.reverseRecOn with
  | nil => rfl
  | append_singleton path i =>
      obtain ⟨p, -, hpc⟩ := follow_snoc.mp h
      exact absurd (List.mem_of_getElem? hpc) (root p)

theorem Addr.below {r c : α} {more : List Nat} (h : Addr kids r path a)
    (hc : follow kids a more = some c) : Addr kids r (path ++ more) c :=
  ⟨h.root, by rw [follow_append_of h.leads, hc]⟩

theorem Addr.child {r p c : α} {path : List Nat} {i : Nat} (h : Addr kids r path p)
    (hc : (kids p)[i]? = some c) : Addr kids r (path ++ [i]) c :=
  h.below (by simp [hc])

theorem Addr.ofRoot {r : α} (root : IsRoot kids r) : Addr kids r [] r := ⟨root, rfl⟩

/-! ## Addresses are unique -/

namespace Branching

variable (tree : Branching kids)

include tree

variable {c : α}

theorem index_unique {p : α} {i j : Nat} (hi : (kids p)[i]? = some c) (hj : (kids p)[j]? = some c) :
    i = j := by
  obtain ⟨hlt, hci⟩ := List.getElem?_eq_some_iff.mp hi
  obtain ⟨hlt', hcj⟩ := List.getElem?_eq_some_iff.mp hj
  exact (tree.nodup p).getElem_inj_iff.mp (hci.trans hcj.symm)

/-- Two ways down to one node: the shorter is the end of the longer. -/
theorem follow_suffix {a b : α} {short long : List Nat} (hs : follow kids a short = some c)
    (hl : follow kids b long = some c) (hle : short.length ≤ long.length) :
    ∃ lead, long = lead ++ short ∧ follow kids b lead = some a := by
  induction short using List.reverseRecOn generalizing c long with
  | nil =>
      cases hs
      exact ⟨long, by simp, hl⟩
  | append_singleton short i ih =>
      cases long using List.reverseRecOn with
      | nil => simp at hle
      | append_singleton long j =>
          obtain ⟨p, hp, hpc⟩ := follow_snoc.mp hs
          obtain ⟨q, hq, hqc⟩ := follow_snoc.mp hl
          have hpq : q = p :=
            tree.parent_unique q p c (List.mem_of_getElem? hqc) (List.mem_of_getElem? hpc)
          subst hpq
          have hij : j = i := tree.index_unique hqc hpc
          subst hij
          obtain ⟨lead, rfl, hlead⟩ := ih hp hq (by simpa using hle)
          exact ⟨lead, by simp, hlead⟩

/-- A node below roots has one address. -/
theorem addr_unique {r r' : α} {path path' : List Nat} (h : Addr kids r path c)
    (h' : Addr kids r' path' c) : r = r' ∧ path = path' := by
  rcases Nat.le_total path.length path'.length with hle | hle
  · obtain ⟨lead, rfl, hlead⟩ := tree.follow_suffix h.leads h'.leads hle
    obtain rfl := h.root.eq_nil hlead
    cases hlead
    exact ⟨rfl, rfl⟩
  · obtain ⟨lead, rfl, hlead⟩ := tree.follow_suffix h'.leads h.leads hle
    obtain rfl := h'.root.eq_nil hlead
    cases hlead
    exact ⟨rfl, rfl⟩

/-- No way down leads from a node back to it. -/
theorem no_loop {r : α} {path loop : List Nat} (h : Addr kids r path c)
    (hloop : follow kids c loop = some c) : loop = [] := by
  have h' : Addr kids r (path ++ loop) c := h.below hloop
  have heq := (tree.addr_unique h h').2
  simpa using heq

/-- Dropping children keeps a forest branching. -/
theorem of_sublist {kids' : α → List α} (h : ∀ q, (kids' q).Sublist (kids q)) :
    Branching kids' where
  nodup q := (tree.nodup q).sublist (h q)
  parent_unique q q' c hq hq' := tree.parent_unique q q' c ((h q).subset hq) ((h q').subset hq')

end Branching

/-! ## Ways down that do not leave `p` -/

/-- The way down from `a` never takes a child of `p`. -/
def Avoids (kids : α → List α) (p a : α) (path : List Nat) : Prop :=
  ∀ lead i rest, path = lead ++ i :: rest → follow kids a lead ≠ some p

section Avoids

variable (tree : Branching kids) {r p : α} {at_p : List Nat} (addr : Addr kids r at_p p)

include tree addr

theorem avoids_of_child {i : Nat} {c : α} (hc : (kids p)[i]? = some c) (path : List Nat) :
    Avoids kids p c path := by
  intro lead j rest _ hlead
  have hloop : follow kids p (i :: lead) = some p := by simp [hc, hlead]
  have := tree.no_loop addr hloop
  simp at this

theorem avoids_of_root {r' : α} (root : IsRoot kids r') (hne : r' ≠ r) (path : List Nat) :
    Avoids kids p r' path := by
  intro lead j rest _ hlead
  exact hne (tree.addr_unique ⟨root, hlead⟩ addr).1

theorem avoids_of_apart {path : List Nat} (h : ∀ i rest, path ≠ at_p ++ i :: rest) :
    Avoids kids p r path := by
  intro lead i rest hpath hlead
  have heq := (tree.addr_unique ⟨addr.root, hlead⟩ addr).2
  exact h i rest (heq ▸ hpath)

end Avoids

variable [DecidableEq α]

/-- A way down that does not leave `p` does not see `p`'s child list. -/
theorem follow_update {p : α} (l : List α) (h : Avoids kids p a path) :
    follow (Function.update kids p l) a path = follow kids a path := by
  induction path generalizing a with
  | nil => rfl
  | cons i path ih =>
      have hne : a ≠ p := by
        intro heq
        exact h [] i path rfl (by rw [heq]; rfl)
      rw [follow_cons, follow_cons, Function.update_of_ne hne]
      cases hc : (kids a)[i]? with
      | none => rfl
      | some c =>
          refine ih ?_
          intro lead j rest hpath hlead
          refine h (i :: lead) j rest (by rw [hpath]; rfl) ?_
          simp [hc, hlead]

/-! ## Editing addresses -/

/-- Rewrite what follows the prefix `lead`; a list without it is left alone. -/
def onPrefix : List Nat → (List Nat → List Nat) → List Nat → List Nat
  | [], f, path => f path
  | _ :: _, _, [] => []
  | a :: lead, f, b :: path => if a = b then b :: onPrefix lead f path else b :: path

@[simp] theorem onPrefix_append (lead : List Nat) (f : List Nat → List Nat) (path : List Nat) :
    onPrefix lead f (lead ++ path) = lead ++ f path := by
  induction lead with
  | nil => rfl
  | cons a lead ih => simp [onPrefix, ih]

theorem onPrefix_of_not {lead : List Nat} (f : List Nat → List Nat) (h : ∀ rest, path ≠ lead ++ rest) :
    onPrefix lead f path = path := by
  induction lead generalizing path with
  | nil => exact absurd rfl (h path)
  | cons a lead ih =>
      cases path with
      | nil => rfl
      | cons b path =>
          by_cases hab : a = b
          · subst hab
            have hih := @ih path fun rest hpath => h rest (by rw [hpath]; rfl)
            simp [onPrefix, hih]
          · simp [onPrefix, hab]

/-- Child indices after the `j`-th child is gone. -/
def indexDown (j : Nat) : List Nat → List Nat
  | [] => []
  | i :: path => (if j < i then i - 1 else i) :: path

/-- Child indices after a new `j`-th child came in. -/
def indexUp (j : Nat) : List Nat → List Nat
  | [] => []
  | i :: path => (if i < j then i else i + 1) :: path

theorem length_onPrefix {f : List Nat → List Nat} (hf : ∀ path, (f path).length = path.length) :
    ∀ lead path : List Nat, (onPrefix lead f path).length = path.length
  | [], path => hf path
  | _ :: _, [] => rfl
  | a :: lead, b :: path => by
      by_cases hab : a = b <;> simp [onPrefix, hab, length_onPrefix hf lead path]

@[simp] theorem length_indexDown (j : Nat) (path : List Nat) : (indexDown j path).length = path.length := by
  cases path <;> simp [indexDown]

@[simp] theorem length_indexUp (j : Nat) (path : List Nat) : (indexUp j path).length = path.length := by
  cases path <;> simp [indexUp]

/-! ## Cutting a child out -/

section Cut

variable (tree : Branching kids) {p x : α} {pre post : List α} (split : kids p = pre ++ x :: post)

include tree split

theorem Branching.cut : Branching (Function.update kids p (pre ++ post)) := by
  refine tree.of_sublist fun q => ?_
  by_cases hq : q = p
  · subst hq
    rw [Function.update_self, split]
    exact List.Sublist.append_left (List.sublist_cons_self x post) pre
  · rw [Function.update_of_ne hq]

theorem isRoot_cut_self : IsRoot (Function.update kids p (pre ++ post)) x := by
  intro q hmem
  by_cases hq : q = p
  · subst hq
    rw [Function.update_self] at hmem
    have hnodup := tree.nodup q
    rw [split] at hnodup
    exact List.nodup_middle.mp hnodup |>.notMem hmem
  · rw [Function.update_of_ne hq] at hmem
    exact hq (tree.parent_unique q p x hmem (by simp [split]))

omit tree in
theorem IsRoot.cut {r : α} (root : IsRoot kids r) : IsRoot (Function.update kids p (pre ++ post)) r := by
  intro q hmem
  by_cases hq : q = p
  · subst hq
    rw [Function.update_self] at hmem
    have hsub : r ∈ kids q := by
      rw [split]
      rcases List.mem_append.mp hmem with h | h <;> simp [h]
    exact root q hsub
  · rw [Function.update_of_ne hq] at hmem
    exact root q hmem

variable {r : α} {at_p : List Nat} (addr : Addr kids r at_p p)

include addr

variable {c : α}

/-- What is not under the cut node keeps its root; its address moves down by one
where it passed `p` to the right of the cut. -/
theorem Addr.cut {path : List Nat} (h : Addr kids r path c)
    (hout : ∀ rest, path ≠ at_p ++ pre.length :: rest) :
    Addr (Function.update kids p (pre ++ post)) r (onPrefix at_p (indexDown pre.length) path) c := by
  refine ⟨h.root.cut split, ?_⟩
  by_cases hpre : ∃ rest, path = at_p ++ rest
  · obtain ⟨rest, rfl⟩ := hpre
    have hp : follow (Function.update kids p (pre ++ post)) r at_p = some p := by
      rw [follow_update _ (avoids_of_apart tree addr fun i rest h => by simp at h)]
      exact addr.leads
    have hc := h.leads
    rw [follow_append_of addr.leads] at hc
    rw [onPrefix_append, follow_append_of hp]
    cases rest with
    | nil => exact hc
    | cons i rest =>
        have hne : i ≠ pre.length := fun heq => hout rest (by rw [heq])
        obtain ⟨d, hd, hdc⟩ := Option.bind_eq_some_iff.mp hc
        have hkeep : (pre ++ post)[if pre.length < i then i - 1 else i]? = some d := by
          rw [split] at hd
          by_cases hi : i < pre.length
          · rw [List.getElem?_append_left hi] at hd
            rw [if_neg (by omega), List.getElem?_append_left hi, hd]
          · have hlt : pre.length < i := by omega
            rw [List.getElem?_append_right (by omega)] at hd
            rw [if_pos hlt, List.getElem?_append_right (by omega)]
            have hsub : i - pre.length = (i - 1 - pre.length) + 1 := by omega
            rw [hsub, List.getElem?_cons_succ] at hd
            exact hd
        rw [indexDown, follow_cons, Function.update_self, hkeep, Option.bind_some,
          follow_update _ (avoids_of_child tree addr hd rest)]
        exact hdc
  · rw [onPrefix_of_not _ fun rest heq => hpre ⟨rest, heq⟩,
      follow_update _ (avoids_of_apart tree addr fun i rest heq => hpre ⟨_, heq⟩)]
    exact h.leads

theorem Addr.cut_under {rest : List Nat} (h : Addr kids r (at_p ++ pre.length :: rest) c) :
    Addr (Function.update kids p (pre ++ post)) x rest c := by
  refine ⟨isRoot_cut_self tree split, ?_⟩
  have hx : (kids p)[pre.length]? = some x := by simp [split]
  have hc := h.leads
  rw [follow_append_of addr.leads, follow_cons, hx] at hc
  rw [follow_update _ (avoids_of_child tree addr hx rest)]
  exact hc

/-- The other trees are untouched. -/
theorem Addr.cut_other {r' : α} {path : List Nat} (h : Addr kids r' path c) (hne : r' ≠ r) :
    Addr (Function.update kids p (pre ++ post)) r' path c := by
  refine ⟨h.root.cut split, ?_⟩
  rw [follow_update _ (avoids_of_root tree addr h.root hne path)]
  exact h.leads

end Cut

/-! ## Grafting a root in -/

section Graft

variable (tree : Branching kids) {p x : α} {pre post : List α} (split : kids p = pre ++ post)
  (root : IsRoot kids x)

include tree split root

theorem Branching.graft : Branching (Function.update kids p (pre ++ x :: post)) where
  nodup q := by
    by_cases hq : q = p
    · subst hq
      rw [Function.update_self, List.nodup_middle, List.nodup_cons, ← split]
      exact ⟨root q, tree.nodup q⟩
    · rw [Function.update_of_ne hq]
      exact tree.nodup q
  parent_unique := by
    have hmem : ∀ q c, c ∈ Function.update kids p (pre ++ x :: post) q →
        c ∈ kids q ∨ (q = p ∧ c = x) := by
      intro q c hc
      by_cases hq : q = p
      · subst hq
        rw [Function.update_self] at hc
        rw [split]
        simp only [List.mem_append, List.mem_cons] at hc ⊢
        tauto
      · rw [Function.update_of_ne hq] at hc
        exact Or.inl hc
    intro q q' c hq hq'
    rcases hmem q c hq with h | ⟨rfl, rfl⟩ <;> rcases hmem q' c hq' with h' | ⟨rfl, h'⟩
    · exact tree.parent_unique q q' c h h'
    · exact absurd (h' ▸ h) (root q)
    · exact absurd h' (root q')
    · rfl

omit tree root in
theorem IsRoot.graft {r : α} (hr : IsRoot kids r) (hne : r ≠ x) :
    IsRoot (Function.update kids p (pre ++ x :: post)) r := by
  intro q hmem
  by_cases hq : q = p
  · subst hq
    rw [Function.update_self] at hmem
    have hr' := hr q
    rw [split] at hr'
    simp only [List.mem_append, List.mem_cons] at hmem hr'
    tauto
  · rw [Function.update_of_ne hq] at hmem
    exact hr q hmem

variable {r : α} {at_p : List Nat} (addr : Addr kids r at_p p) (hrx : r ≠ x)

include addr hrx

omit split root hrx in
theorem follow_graft_self : follow (Function.update kids p (pre ++ x :: post)) r at_p = some p := by
  rw [follow_update _ (avoids_of_apart tree addr fun i rest h => by simp at h)]
  exact addr.leads

variable {c : α}

/-- The grafted node's tree hangs below its new place. -/
theorem Addr.graft_under {path : List Nat} (h : Addr kids x path c) :
    Addr (Function.update kids p (pre ++ x :: post)) r (at_p ++ pre.length :: path) c := by
  refine ⟨addr.root.graft split hrx, ?_⟩
  have hx : (pre ++ x :: post)[pre.length]? = some x := by simp
  rw [follow_append_of (follow_graft_self tree addr), follow_cons,
    Function.update_self, hx, Option.bind_some,
    follow_update _ (avoids_of_root tree addr root (Ne.symm hrx) path)]
  exact h.leads

omit root in
/-- What was in the receiving tree stays in it; its address moves up by one where
it passes `p` to the right of the graft. -/
theorem Addr.graft {path : List Nat} (h : Addr kids r path c) :
    Addr (Function.update kids p (pre ++ x :: post)) r
      (onPrefix at_p (indexUp pre.length) path) c := by
  refine ⟨addr.root.graft split hrx, ?_⟩
  by_cases hpre : ∃ rest, path = at_p ++ rest
  · obtain ⟨rest, rfl⟩ := hpre
    have hc := h.leads
    rw [follow_append_of addr.leads] at hc
    rw [onPrefix_append, follow_append_of (follow_graft_self tree addr)]
    cases rest with
    | nil => exact hc
    | cons i rest =>
        obtain ⟨d, hd, hdc⟩ := Option.bind_eq_some_iff.mp hc
        have hkeep : (pre ++ x :: post)[if i < pre.length then i else i + 1]? = some d := by
          rw [split] at hd
          by_cases hi : i < pre.length
          · rw [List.getElem?_append_left hi] at hd
            rw [if_pos hi, List.getElem?_append_left hi, hd]
          · rw [List.getElem?_append_right (by omega)] at hd
            rw [if_neg hi, List.getElem?_append_right (by omega)]
            have hsub : i + 1 - pre.length = (i - pre.length) + 1 := by omega
            rw [hsub, List.getElem?_cons_succ]
            exact hd
        rw [indexUp, follow_cons, Function.update_self, hkeep, Option.bind_some,
          follow_update _ (avoids_of_child tree addr hd rest)]
        exact hdc
  · rw [onPrefix_of_not _ fun rest heq => hpre ⟨rest, heq⟩,
      follow_update _ (avoids_of_apart tree addr fun i rest heq => hpre ⟨_, heq⟩)]
    exact h.leads

omit root hrx in
/-- The other trees are untouched. -/
theorem Addr.graft_other {r' : α} {path : List Nat} (h : Addr kids r' path c) (hne : r' ≠ r)
    (hnx : r' ≠ x) : Addr (Function.update kids p (pre ++ x :: post)) r' path c := by
  refine ⟨h.root.graft split hnx, ?_⟩
  rw [follow_update _ (avoids_of_root tree addr h.root hne path)]
  exact h.leads

end Graft

end Pelorus.Lib.Forest
