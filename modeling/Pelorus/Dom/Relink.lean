import Pelorus.Dom.Slots
import Pelorus.Dom.Tree

/-
  Dom/Relink.lean --- the relinking code is splicing.

  `detach`, `append_child` and `insert_before` rewrite up to five links through
  handles they resolve one after another, and could fail at any of them.  On a
  linked arena they do not: once the checks have passed, every handle they read
  resolves, and the arena they leave shows `spliceOutNode` and `spliceInNode` of
  the one they started from.
-/
set_option autoImplicit false

namespace Pelorus.Dom

open Lib.StateRun Lib.Forest

namespace Arena

/-! ## Views -/

/-- Writing a resolved node changes the view there and nowhere else. -/
theorem get_setNode {s : Arena} {id : NodeId} {n : Node} (h : s.get id = some n) (m : Node) :
    (s.setNode id m).get = Function.update s.get id (some m) := by
  have hslot := get_eq_some.mp h
  have hlt := (List.getElem?_eq_some_iff.mp hslot).1
  funext q
  by_cases hq : q = id
  · subst hq
    rw [Function.update_self, get_eq_some]
    simp [setNode, hlt]
  · rw [Function.update_of_ne hq]
    by_cases hi : q.index = id.index
    · -- another generation of the same slot
      have hg : q.generation ≠ id.generation := by
        intro hg
        apply hq
        cases q
        cases id
        simp_all
      unfold Arena.get
      rw [hi, hslot]
      simp [setNode, hlt, Ne.symm hg]
    · unfold Arena.get
      simp [setNode, List.getElem?_set_ne (Ne.symm hi)]

/-- `t` is `s` with other occupants in the same slots. -/
structure SameFrame (s t : Arena) : Prop where
  eq : t = { s with slots := t.slots }
  length : t.slots.length = s.slots.length

theorem SameFrame.trans {s t u : Arena} (h : SameFrame s t) (h' : SameFrame t u) : SameFrame s u := by
  refine ⟨?_, h'.length.trans h.length⟩
  have heq := h'.eq
  rw [h.eq] at heq
  exact heq

theorem sameFrame_setNode (s : Arena) (id : NodeId) (m : Node) : SameFrame s (s.setNode id m) :=
  ⟨rfl, by simp [setNode]⟩

/-- A write through a handle that resolves changes one node of the view. -/
theorem update_view {s : Arena} {id : NodeId} (f : Node → Node) (h : s.contains id = true) :
    ∃ t, update id f s = .ok ⟨⟩ t ∧ SameFrame s t ∧
      t.get = fun q => (s.get q).map fun m => if q = id then f m else m := by
  obtain ⟨n, hn⟩ := Option.isSome_iff_exists.mp h
  refine ⟨s.setNode id (f n), update_eq_ok f hn, sameFrame_setNode s id (f n), ?_⟩
  rw [get_setNode hn]
  funext q
  by_cases hq : q = id
  · subst hq
    simp [hn]
  · simp [hq]

/-- The link changes of `setForward`. -/
def forwardNode (parent : NodeId) (previous target : Option NodeId) (q : NodeId) (m : Node) :
    Node :=
  { m with
    firstChild := if q = parent ∧ previous = none then target else m.firstChild
    nextSibling := if previous = some q then target else m.nextSibling }

/-- The link changes of `setBackward`. -/
def backwardNode (parent : NodeId) (next target : Option NodeId) (q : NodeId) (m : Node) :
    Node :=
  { m with
    lastChild := if q = parent ∧ next = none then target else m.lastChild
    prevSibling := if next = some q then target else m.prevSibling }

theorem setForward_view {s : Arena} {parent : NodeId} {previous : Option NodeId}
    (target : Option NodeId) (h : s.contains (previous.getD parent) = true) :
    ∃ t, setForward parent previous target s = .ok ⟨⟩ t ∧ SameFrame s t ∧
      t.get = fun q => (s.get q).map (forwardNode parent previous target q) := by
  cases previous with
  | none =>
      obtain ⟨t, hrun, hframe, hget⟩ := update_view (fun m => { m with firstChild := target }) h
      refine ⟨t, hrun, hframe, ?_⟩
      rw [hget]
      funext q
      congr 1
      funext m
      by_cases hq : q = parent <;> simp [forwardNode, hq]
  | some previous =>
      obtain ⟨t, hrun, hframe, hget⟩ := update_view (fun m => { m with nextSibling := target }) h
      refine ⟨t, hrun, hframe, ?_⟩
      rw [hget]
      funext q
      congr 1
      funext m
      by_cases hq : q = previous <;> simp [forwardNode, hq, Ne.symm]

theorem setBackward_view {s : Arena} {parent : NodeId} {next : Option NodeId}
    (target : Option NodeId) (h : s.contains (next.getD parent) = true) :
    ∃ t, setBackward parent next target s = .ok ⟨⟩ t ∧ SameFrame s t ∧
      t.get = fun q => (s.get q).map (backwardNode parent next target q) := by
  cases next with
  | none =>
      obtain ⟨t, hrun, hframe, hget⟩ := update_view (fun m => { m with lastChild := target }) h
      refine ⟨t, hrun, hframe, ?_⟩
      rw [hget]
      funext q
      congr 1
      funext m
      by_cases hq : q = parent <;> simp [backwardNode, hq]
  | some next =>
      obtain ⟨t, hrun, hframe, hget⟩ := update_view (fun m => { m with prevSibling := target }) h
      refine ⟨t, hrun, hframe, ?_⟩
      rw [hget]
      funext q
      congr 1
      funext m
      by_cases hq : q = next <;> simp [backwardNode, hq, Ne.symm]

/-- A view that only maps nodes has the same live handles. -/
theorem contains_of_map {s t : Arena} {f : NodeId → Node → Node}
    (h : t.get = fun q => (s.get q).map (f q)) (id : NodeId) : t.contains id = s.contains id := by
  simp [contains, h]

@[simp] theorem get_rangesBeforeRemove (s : Arena) (id : NodeId) :
    (s.rangesBeforeRemove id).get = s.get := by
  unfold rangesBeforeRemove
  split <;> rfl

/-! ## Detaching -/

theorem detach_of_stale {s : Arena} {id : NodeId} (h : s.get id = none) :
    detach id s = .error .noSuchNode s := by
  simp [detach, run_bind, resolve_eq_error h]

theorem detach_of_orphan {s : Arena} {id : NodeId} {n : Node} (h : s.get id = some n)
    (hp : n.parent = none) : detach id s = .ok ⟨⟩ s := by
  simp [detach, run_bind, resolve_eq_ok h, hp]

section Detach

variable {s : Arena} {kids : NodeId → List NodeId} (lk : Linked s.get kids) {id p : NodeId}
  {n : Node} (hid : s.get id = some n) (hp : n.parent = some p)
  {pre post : List NodeId} (hsplit : kids p = pre ++ id :: post)

include lk hid hp hsplit

/-- A node with a parent is spliced out of its parent's list, after the ranges
were notified. -/
theorem detach_view :
    ∃ t, detach id s = .ok ⟨⟩ t ∧ SameFrame (s.rangesBeforeRemove id) t ∧
      t.get = fun q => (s.get q).map (spliceOutNode p id pre.getLast? post.head? q) := by
  obtain ⟨n', hn', -, hprev, hnext⟩ := lk.link p pre id post hsplit
  rw [hid] at hn'
  cases hn'
  have hmem : id ∈ kids p := by simp [hsplit]
  obtain ⟨np, hnp⟩ := lk.live_of_kids hmem
  have hlive : ∀ {c}, c ∈ kids p → s.contains c = true := by
    intro c hc
    obtain ⟨m, hm, -⟩ := lk.parent_of_mem hc
    simp [contains, hm]
  have hbefore : s.contains (pre.getLast?.getD p) = true := by
    cases h : pre.getLast? with
    | none => simp [contains, hnp]
    | some a => exact hlive (neighbour_out lk hsplit (Or.inl h)).1
  have hafter : s.contains (post.head?.getD p) = true := by
    cases h : post.head? with
    | none => simp [contains, hnp]
    | some b => exact hlive (neighbour_out lk hsplit (Or.inr h)).1
  -- three writes, each through a handle that is live in `s` and so still is
  have hnotified : ∀ q, (s.rangesBeforeRemove id).contains q = s.contains q := by
    intro q
    simp [contains]
  obtain ⟨t₁, hrun₁, hframe₁, hget₁⟩ := setForward_view post.head? ((hnotified _).trans hbefore)
  obtain ⟨t₂, hrun₂, hframe₂, hget₂⟩ :=
    setBackward_view pre.getLast? ((contains_of_map hget₁ _).trans ((hnotified _).trans hafter))
  obtain ⟨t₃, hrun₃, hframe₃, hget₃⟩ :=
    update_view Node.detachLinks ((contains_of_map hget₂ _).trans
      ((contains_of_map hget₁ _).trans ((hnotified _).trans (hlive hmem))))
  refine ⟨t₃, ?_, (hframe₁.trans hframe₂).trans hframe₃, ?_⟩
  · simp [detach, run_bind, resolve_eq_ok hid, hp, hprev, hnext, hrun₁, hrun₂, hrun₃]
  · rw [hget₃, hget₂, hget₁, get_rangesBeforeRemove]
    funext q
    simp only [Option.map_map]
    congr 1
    funext m
    by_cases hq : q = id <;>
      simp [spliceOutNode, forwardNode, backwardNode, Node.detachLinks, hq]

end Detach

/-- What `detach` makes of a live node: nothing when it is parentless, else it is
spliced out of its parent's list. -/
inductive Detached (s : Arena) (kids : NodeId → List NodeId) (id : NodeId) :
    Arena → (NodeId → List NodeId) → Prop
  | orphan {n : Node} (hid : s.get id = some n) (hp : n.parent = none) :
      Detached s kids id s kids
  | spliced {n : Node} {p : NodeId} {pre post : List NodeId} {t : Arena}
      (hid : s.get id = some n) (hp : n.parent = some p) (hsplit : kids p = pre ++ id :: post)
      (frame : SameFrame (s.rangesBeforeRemove id) t)
      (view : t.get = fun q => (s.get q).map (spliceOutNode p id pre.getLast? post.head? q)) :
      Detached s kids id t (Function.update kids p (pre ++ post))

theorem detach_spec {s : Arena} {kids : NodeId → List NodeId} (lk : Linked s.get kids)
    {id : NodeId} {n : Node} (hid : s.get id = some n) :
    ∃ t kids', detach id s = .ok ⟨⟩ t ∧ Detached s kids id t kids' := by
  cases hp : n.parent with
  | none => exact ⟨s, kids, detach_of_orphan hid hp, .orphan hid hp⟩
  | some p =>
      obtain ⟨pre, post, np, hsplit, -, -, -⟩ := lk.split hid hp
      obtain ⟨t, hrun, hframe, hview⟩ := detach_view lk hid hp hsplit
      exact ⟨t, _, hrun, .spliced hid hp hsplit hframe hview⟩

namespace Detached

variable {s t : Arena} {kids kids' : NodeId → List NodeId} {id : NodeId}
  (det : Detached s kids id t kids')

include det

theorem linked (lk : Linked s.get kids) : Linked t.get kids' := by
  cases det with
  | orphan => exact lk
  | spliced hid hp hsplit frame view =>
      rw [view]
      exact lk.spliceOut hsplit

/-- The payloads, and which handles are live, do not change. -/
theorem data (q : NodeId) : (t.get q).map Node.data = (s.get q).map Node.data := by
  cases det with
  | orphan => rfl
  | spliced hid hp hsplit frame view =>
      simp only [view]
      cases s.get q <;> rfl

theorem contains_eq (q : NodeId) : t.contains q = s.contains q := by
  have h := congrArg Option.isSome (det.data q)
  simpa [contains] using h

/-- The node itself is parentless afterwards. -/
theorem orphaned : ∃ m, t.get id = some m ∧ m.parent = none := by
  cases det with
  | orphan hid hp => exact ⟨_, hid, hp⟩
  | spliced hid hp hsplit frame view =>
      exact ⟨_, by simp only [view, hid]; rfl, by simp [spliceOutNode]⟩

theorem document_eq : t.document = s.document := by
  cases det with
  | orphan => rfl
  | spliced hid hp hsplit frame view =>
      rw [frame.eq]
      unfold rangesBeforeRemove
      split <;> rfl

theorem parent_none {q : NodeId} {m : Node} (hq : s.get q = some m) (hnone : m.parent = none) :
    ∃ m', t.get q = some m' ∧ m'.parent = none := by
  cases det with
  | orphan => exact ⟨m, hq, hnone⟩
  | spliced hid hp hsplit frame view =>
      refine ⟨_, by simp only [view, hq]; rfl, ?_⟩
      by_cases h : q = id <;> simp [spliceOutNode, h, hnone]

theorem parent_eq {q : NodeId} (hq : q ≠ id) : (t.get q).map Node.parent = (s.get q).map Node.parent := by
  cases det with
  | orphan => rfl
  | spliced hid hp hsplit frame view =>
      simp only [view]
      cases s.get q with
      | none => rfl
      | some m => simp [spliceOutNode, hq]

/-- The lists of the other nodes lose nothing but the detached node. -/
theorem kids_eq_filter (lk : Linked s.get kids) (q : NodeId) : kids' q = (kids q).filter (· ≠ id) := by
  cases det with
  | orphan hid hp =>
      have hroot := (lk.isRoot_iff hid).mpr hp
      refine (List.filter_eq_self.mpr ?_).symm
      intro c hc
      simp only [ne_eq, decide_eq_true_eq]
      rintro rfl
      exact hroot q hc
  | @spliced n p pre post t hid hp hsplit frame view =>
      by_cases hq : q = p
      · subst hq
        have hnodup := lk.nodup q
        rw [hsplit] at hnodup
        have hout := (List.nodup_cons.mp (List.nodup_middle.mp hnodup)).1
        rw [Function.update_self, hsplit, List.filter_append, List.filter_cons]
        simp only [ne_eq, not_true_eq_false, decide_false, Bool.false_eq_true, if_false]
        rw [← List.filter_append]
        refine (List.filter_eq_self.mpr ?_).symm
        intro c hc
        simp only [decide_eq_true_eq]
        rintro rfl
        exact hout hc
      · rw [Function.update_of_ne hq]
        refine (List.filter_eq_self.mpr ?_).symm
        intro c hc
        simp only [ne_eq, decide_eq_true_eq]
        rintro rfl
        exact hq (lk.owner_unique (by simp [hsplit]) hc)

/-- A node that is not under the detached one keeps its depth, and the detached
node keeps what is under it. -/
theorem addr_outside (lk : Linked s.get kids) {c : NodeId} {r : NodeId} {path : List Nat}
    (haddr : Addr kids r path c) (hout : ∀ rest, follow kids id rest ≠ some c) :
    ∃ path', Addr kids' r path' c ∧ path'.length = path.length ∧ r ≠ id := by
  have hr : r ≠ id := by
    rintro rfl
    exact hout path haddr.leads
  cases det with
  | orphan hid hp => exact ⟨path, haddr, rfl, hr⟩
  | @spliced n p pre post t hid hp hsplit frame view =>
      have hx : (kids p)[pre.length]? = some id := by simp [hsplit]
      obtain ⟨np, hnp⟩ := lk.live_of_kids (List.mem_of_getElem? hx)
      obtain ⟨rp, at_p, hpaddr, -⟩ := lk.rooted p np hnp
      by_cases hrp : r = rp
      · subst hrp
        refine ⟨_, Addr.cut lk.branching hsplit hpaddr haddr ?_, ?_, hr⟩
        · rintro rest rfl
          have hleads := haddr.leads
          rw [follow_append_of hpaddr.leads, follow_cons, hx] at hleads
          exact hout rest hleads
        · exact length_onPrefix (length_indexDown _) _ _
      · exact ⟨path, Addr.cut_other lk.branching hsplit hpaddr haddr hrp, rfl, hr⟩

theorem follow_self (lk : Linked s.get kids) (path : List Nat) :
    follow kids' id path = follow kids id path := by
  cases det with
  | orphan => rfl
  | @spliced n p pre post t hid hp hsplit frame view =>
      have hx : (kids p)[pre.length]? = some id := by simp [hsplit]
      obtain ⟨np, hnp⟩ := lk.live_of_kids (List.mem_of_getElem? hx)
      obtain ⟨rp, at_p, hpaddr, -⟩ := lk.rooted p np hnp
      exact follow_update _ (avoids_of_child lk.branching hpaddr hx path)

end Detached

/-! ## The checks before an insertion -/

theorem check_eq_ok {α : Type} (f : Arena → Except TreeError α) {a : α} {t : Arena}
    (h : f t = .ok a) : check f t = .ok a t := by
  simp [check, run_bind, h]

theorem check_eq_error {α : Type} (f : Arena → Except TreeError α) {e : TreeError} {t : Arena}
    (h : f t = .error e) : check f t = .error e t := by
  simp [check, run_bind, h]

section Checks

variable {s : Arena} {kids : NodeId → List NodeId} (lk : Linked s.get kids)

include lk

/-- The upward walk counts the nodes above the insertion point, and passes only
when `child` is not one of them. -/
theorem resultingDepth_sound {child : NodeId} : ∀ (fuel depth : Nat) (current r : NodeId)
    (path : List Nat) (d : Nat), Addr kids r path current →
    resultingDepth s child fuel depth (some current) = .ok d →
    d = depth + path.length + 1 ∧ ∀ rest, follow kids child rest ≠ some current := by
  intro fuel
  induction fuel with
  | zero =>
      intro depth current r path d haddr h
      unfold resultingDepth at h
      split at h <;> cases h
  | succ fuel ih =>
      intro depth current r path d haddr h
      unfold resultingDepth at h
      split at h
      · cases h
      · rename_i hne
        cases hget : s.get current with
        | none => simp [hget] at h
        | some n =>
            simp only [hget] at h
            cases hp : n.parent with
            | none =>
                have hroot := (lk.isRoot_iff hget).mpr hp
                obtain rfl := hroot.eq_nil haddr.leads
                rw [hp, resultingDepth] at h
                cases h
                refine ⟨rfl, fun rest hrest => ?_⟩
                obtain rfl := hroot.eq_nil hrest
                cases hrest
                exact hne rfl
            | some p =>
                rw [hp] at h
                have hmem := lk.member current n p hget hp
                obtain ⟨np, hnp⟩ := lk.live_of_kids hmem
                obtain ⟨i, hi⟩ := List.mem_iff_getElem?.mp hmem
                obtain ⟨r', path', haddr', -⟩ := lk.rooted p np hnp
                obtain ⟨rfl, rfl⟩ := lk.branching.addr_unique haddr (haddr'.child hi)
                obtain ⟨rfl, hout⟩ := ih (depth + 1) p r path' d haddr' h
                refine ⟨by simp; omega, fun rest hrest => ?_⟩
                cases rest using List.reverseRecOn with
                | nil =>
                    cases hrest
                    exact hne rfl
                | append_singleton rest j =>
                    obtain ⟨q, hq, hqc⟩ := follow_snoc.mp hrest
                    have := lk.owner_unique hmem (List.mem_of_getElem? hqc)
                    exact hout rest (this ▸ hq)

theorem pushChildren_sound {q : NodeId} (relative : Nat) : ∀ (fuel : Nat) (pre l : List NodeId)
    (stack out : List (NodeId × Nat)), kids q = pre ++ l →
    pushChildren s relative fuel l.head? stack = .ok out →
    out = (l.map (·, relative)).reverse ++ stack := by
  intro fuel
  induction fuel with
  | zero =>
      intro pre l stack out hsplit h
      cases l with
      | nil =>
          simp only [List.head?_nil, pushChildren] at h
          cases h
          rfl
      | cons c l => simp [pushChildren] at h
  | succ fuel ih =>
      intro pre l stack out hsplit h
      cases l with
      | nil =>
          simp only [List.head?_nil, pushChildren] at h
          cases h
          rfl
      | cons c l =>
          obtain ⟨m, hm, -, -, hnext⟩ := lk.link q pre c l hsplit
          simp only [List.head?_cons, pushChildren, hm] at h
          split at h
          · cases h
          · rw [hnext] at h
            rw [ih (pre ++ [c]) l _ out (by simp [hsplit]) h]
            simp

/-- What the height walk returns bounds every way down from its stack. -/
theorem heightFrom_sound : ∀ (budget : Nat) (stack : List (NodeId × Nat)) (height H : Nat),
    heightFrom s budget stack height = .ok H →
    height ≤ H ∧ ∀ a relative, (a, relative) ∈ stack →
      ∀ path c, follow kids a path = some c → relative + path.length ≤ H := by
  intro budget
  induction budget with
  | zero =>
      intro stack height H h
      cases stack with
      | nil =>
          simp only [heightFrom] at h
          cases h
          exact ⟨Nat.le_refl _, fun _ _ hmem => by simp at hmem⟩
      | cons e stack => simp [heightFrom] at h
  | succ budget ih =>
      intro stack height H h
      cases stack with
      | nil =>
          simp only [heightFrom] at h
          cases h
          exact ⟨Nat.le_refl _, fun _ _ hmem => by simp at hmem⟩
      | cons e stack =>
          obtain ⟨current, rel⟩ := e
          simp only [heightFrom] at h
          split at h
          · cases h
          · cases hget : s.get current with
            | none => simp [hget] at h
            | some n =>
                simp only [hget] at h
                rw [lk.first current n hget] at h
                cases hpush : pushChildren s (rel + 1) (s.slots.length + 2) (kids current).head?
                    stack with
                | error e => simp [hpush] at h
                | ok out =>
                    simp only [hpush] at h
                    have hout := pushChildren_sound lk (rel + 1) _ [] _ _ _ rfl hpush
                    obtain ⟨hle, hstack⟩ := ih out _ H h
                    refine ⟨Nat.le_trans (Nat.le_max_left _ _) hle, ?_⟩
                    intro a relative hmem path c hpath
                    rcases List.mem_cons.mp hmem with heq | hmem
                    · cases heq
                      cases path with
                      | nil =>
                          simp only [List.length_nil, Nat.add_zero]
                          exact Nat.le_trans (Nat.le_max_right _ _) hle
                      | cons i path =>
                          obtain ⟨d, hd, hdc⟩ := Option.bind_eq_some_iff.mp hpath
                          have hd' : (d, rel + 1) ∈ out := by
                            simp [hout, List.mem_of_getElem? hd]
                          have := hstack d (rel + 1) hd' path c hdc
                          simp only [List.length_cons]
                          omega
                    · exact hstack a relative (by simp [hout, hmem]) path c hpath

/-- What `check_insertable` promises when it passes. -/
theorem checkInsertable_sound {parent child : NodeId}
    (h : s.checkInsertable parent child = .ok ()) :
    child ≠ s.document ∧ s.contains child = true ∧
      (∃ n, s.get parent = some n ∧ n.data.canHaveChildren = true) ∧
      (∀ rest, follow kids child rest ≠ some parent) ∧
      ∀ r at_p, Addr kids r at_p parent → ∀ path c, follow kids child path = some c →
        at_p.length + 1 + path.length ≤ MAX_DEPTH := by
  unfold checkInsertable at h
  split at h
  · cases h
  · rename_i hlive
    split at h
    · cases h
    · rename_i hne
      split at h
      · cases h
      · rename_i hdoc
        split at h
        · cases h
        · rename_i hcont
          simp only [Bool.or_eq_true, Bool.not_eq_true', not_or, Bool.not_eq_false] at hlive hcont
          obtain ⟨hparent, hchild⟩ := hlive
          obtain ⟨n, hn⟩ := Option.isSome_iff_exists.mp hparent
          simp only [hn, Option.any_some] at hcont
          obtain ⟨r₀, at₀, haddr₀, -⟩ := lk.rooted parent n hn
          cases hdepth : resultingDepth s child MAX_DEPTH 0 (some parent) with
          | error e => simp [hdepth, bind, Except.bind] at h
          | ok d =>
              cases hheight : s.subtreeHeight child with
              | error e => simp [hdepth, hheight, bind, Except.bind] at h
              | ok H =>
                  simp only [hdepth, hheight, bind, Except.bind] at h
                  split at h
                  · cases h
                  · rename_i hsum
                    obtain ⟨rfl, hout⟩ := resultingDepth_sound lk _ _ _ _ _ _ haddr₀ hdepth
                    refine ⟨hdoc, hchild, ⟨n, hn, hcont⟩, hout, ?_⟩
                    intro r at_p haddr path c hpath
                    obtain ⟨-, rfl⟩ := lk.branching.addr_unique haddr₀ haddr
                    have hH := (heightFrom_sound lk _ _ _ _ hheight).2 child 0 (by simp) path c hpath
                    omega

end Checks

/-! ## Attaching -/

/-- `x`, parentless and insertable under `p`, was spliced into `p`'s list between
`pre` and `post`. -/
structure Attached (s : Arena) (kids : NodeId → List NodeId) (p x : NodeId)
    (pre post : List NodeId) (t : Arena) : Prop where
  split : kids p = pre ++ post
  orphan : ∃ m, s.get x = some m ∧ m.parent = none
  container : ∃ n, s.get p = some n ∧ n.data.canHaveChildren = true
  depth : ∀ r at_p, Addr kids r at_p p → r ≠ x ∧
    ∀ path c, follow kids x path = some c → at_p.length + 1 + path.length ≤ MAX_DEPTH
  frame : SameFrame s t
  view : t.get = fun q => (s.get q).map (spliceInNode p x pre.getLast? post.head? q)

namespace Attached

variable {s t : Arena} {kids : NodeId → List NodeId} {p x : NodeId} {pre post : List NodeId}
  (att : Attached s kids p x pre post t)

include att

theorem linked (lk : Linked s.get kids) : Linked t.get (Function.update kids p (pre ++ x :: post)) := by
  obtain ⟨mx, hx, horphan⟩ := att.orphan
  obtain ⟨np, hnp, hcont⟩ := att.container
  rw [att.view]
  exact lk.spliceIn att.split hx horphan hnp hcont att.depth

theorem data (q : NodeId) : (t.get q).map Node.data = (s.get q).map Node.data := by
  simp only [att.view]
  cases s.get q <;> rfl

theorem parent_eq {q : NodeId} (hq : q ≠ x) : (t.get q).map Node.parent = (s.get q).map Node.parent := by
  simp only [att.view]
  cases s.get q with
  | none => rfl
  | some m => simp [spliceInNode, hq]

theorem document_eq : t.document = s.document := by
  rw [att.frame.eq]

end Attached

section Attach

variable {s : Arena} {kids : NodeId → List NodeId} (lk : Linked s.get kids)

include lk

variable {parent child : NodeId}

/-- Once `child` is detached, `parent` is still as deep as the checks saw it. -/
theorem depth_after_detach {t : Arena} {kids' : NodeId → List NodeId}
    (hcheck : s.checkInsertable parent child = .ok ()) (det : Detached s kids child t kids') :
    ∀ r at_p, Addr kids' r at_p parent → r ≠ child ∧
      ∀ path c, follow kids' child path = some c → at_p.length + 1 + path.length ≤ MAX_DEPTH := by
  obtain ⟨-, -, ⟨n, hn, -⟩, hout, hdepth⟩ := checkInsertable_sound lk hcheck
  intro r at_p haddr
  obtain ⟨r₀, at₀, haddr₀, -⟩ := lk.rooted parent n hn
  obtain ⟨path', haddr', hlen, hne⟩ := det.addr_outside lk haddr₀ hout
  obtain ⟨rfl, rfl⟩ := (det.linked lk).branching.addr_unique haddr haddr'
  refine ⟨hne, fun path c hpath => ?_⟩
  rw [det.follow_self lk] at hpath
  rw [hlen]
  exact hdepth r at₀ haddr₀ path c hpath

theorem container_after_detach {t : Arena} {kids' : NodeId → List NodeId}
    (hcheck : s.checkInsertable parent child = .ok ()) (det : Detached s kids child t kids') :
    ∃ n, t.get parent = some n ∧ n.data.canHaveChildren = true := by
  obtain ⟨-, -, ⟨n, hn, hcont⟩, -, -⟩ := checkInsertable_sound lk hcheck
  have hdata := det.data parent
  rw [hn] at hdata
  obtain ⟨m, hm, hmn⟩ := Option.map_eq_some_iff.mp hdata
  exact ⟨m, hm, by rw [hmn]; exact hcont⟩

omit lk in
theorem appendChild_refused {e : TreeError} (hcheck : s.checkInsertable parent child = .error e) :
    appendChild parent child s = .error e s := by
  simp [appendChild, run_bind, check_eq_error (fun s => s.checkInsertable parent child) hcheck]

theorem appendChild_accepted (hcheck : s.checkInsertable parent child = .ok ()) :
    ∃ s' kids' t, Detached s kids child s' kids' ∧ Attached s' kids' parent child (kids' parent) [] t ∧
      appendChild parent child s = .ok ⟨⟩ t ∧ child ≠ s.document := by
  obtain ⟨hdoc, hchild, -, hout, -⟩ := checkInsertable_sound lk hcheck
  obtain ⟨n, hn⟩ := Option.isSome_iff_exists.mp hchild
  obtain ⟨s', kids', hdet, det⟩ := detach_spec lk hn
  have lk' := det.linked lk
  obtain ⟨np, hnp, hcont⟩ := container_after_detach lk hcheck det
  have hne : parent ≠ child := by
    rintro rfl
    exact hout [] rfl
  obtain ⟨mx, hmx, hmxp⟩ := det.orphaned
  have hnotmem : child ∉ kids' parent := (lk'.isRoot_iff hmx).mpr hmxp parent
  have hlivex : s'.contains child = true := by simp [contains, hmx]
  have hlivep : s'.contains parent = true := by simp [contains, hnp]
  have hlast : np.lastChild = (kids' parent).getLast? := lk'.last parent np hnp
  have hlive : s'.contains ((kids' parent).getLast?.getD parent) = true := by
    cases h : (kids' parent).getLast? with
    | none => exact hlivep
    | some a =>
        obtain ⟨m, hm, -⟩ := lk'.parent_of_mem (List.mem_of_getLast? h)
        simp [contains, hm]
  obtain ⟨t₁, hrun₁, hframe₁, hget₁⟩ :=
    update_view (fun m => { m with parent := some parent, prevSibling := np.lastChild,
                                   nextSibling := none }) hlivex
  obtain ⟨t₂, hrun₂, hframe₂, hget₂⟩ :=
    setForward_view (some child) ((contains_of_map hget₁ _).trans hlive)
  obtain ⟨t₃, hrun₃, hframe₃, hget₃⟩ :=
    update_view (fun m => { m with lastChild := some child })
      ((contains_of_map hget₂ _).trans ((contains_of_map hget₁ _).trans hlivep))
  refine ⟨s', kids', t₃, det, ⟨by simp, ⟨mx, hmx, hmxp⟩, ⟨np, hnp, hcont⟩,
    depth_after_detach lk hcheck det, (hframe₁.trans hframe₂).trans hframe₃, ?_⟩, ?_, hdoc⟩
  · rw [hget₃, hget₂, hget₁]
    funext q
    simp only [Option.map_map]
    congr 1
    funext m
    have hlastne : (kids' parent).getLast? ≠ some child :=
      fun h => hnotmem (List.mem_of_getLast? h)
    by_cases hq : q = child
    · subst hq
      simp [spliceInNode, forwardNode, hlast, hlastne, Ne.symm hne]
    · by_cases hqp : q = parent <;> simp [spliceInNode, forwardNode, hq, hqp, hne]
  · rw [← hlast] at hrun₂
    simp [appendChild, run_bind, check_eq_ok (fun s => s.checkInsertable parent child) hcheck,
      hdet, resolve_eq_ok hnp, hrun₁, hrun₂, hrun₃]

/-- `append_child` is refused and changes nothing, or it detaches the child and
splices it in at the end. -/
theorem appendChild_spec (parent child : NodeId) :
    (∃ e, appendChild parent child s = .error e s) ∨
    ∃ s' kids' t, Detached s kids child s' kids' ∧ Attached s' kids' parent child (kids' parent) [] t ∧
      appendChild parent child s = .ok ⟨⟩ t ∧ child ≠ s.document := by
  cases hcheck : s.checkInsertable parent child with
  | error e => exact .inl ⟨e, appendChild_refused hcheck⟩
  | ok u => exact .inr (appendChild_accepted lk hcheck)

/-- `insert_before` with a sibling other than the node itself is refused and
changes nothing, or it detaches the node, splices it in before the sibling, and
notifies the ranges. -/
theorem insertBefore_spec {sibling newNode : NodeId} (hne : sibling ≠ newNode) :
    (∃ e, insertBefore sibling newNode s = .error e s) ∨
    ∃ p s' kids' pre post t, Detached s kids newNode s' kids' ∧
      Attached s' kids' p newNode pre (sibling :: post) t ∧
      insertBefore sibling newNode s = .ok ⟨⟩ (t.notifyInsert p newNode) ∧
      newNode ≠ s.document := by
  cases hsib : s.get sibling with
  | none =>
      left
      exact ⟨.noSuchNode, by simp [insertBefore, run_bind, resolve_eq_error hsib]⟩
  | some nsib =>
      cases hparent : nsib.parent with
      | none =>
          left
          exact ⟨.noSuchNode, by simp [insertBefore, run_bind, resolve_eq_ok hsib, hparent]⟩
      | some p =>
          cases hcheck : s.checkInsertable p newNode with
          | error e =>
              left
              refine ⟨e, ?_⟩
              simp [insertBefore, run_bind, resolve_eq_ok hsib, hparent,
                check_eq_error (fun s => s.checkInsertable p newNode) hcheck]
          | ok u =>
              right
              obtain ⟨hdoc, hnew, -, hout, -⟩ := checkInsertable_sound lk hcheck
              obtain ⟨n, hn⟩ := Option.isSome_iff_exists.mp hnew
              obtain ⟨s', kids', hdet, det⟩ := detach_spec lk hn
              have lk' := det.linked lk
              obtain ⟨np, hnp, hcont⟩ := container_after_detach lk hcheck det
              have hpnew : p ≠ newNode := by
                rintro rfl
                exact hout [] rfl
              obtain ⟨mx, hmx, hmxp⟩ := det.orphaned
              have hnotmem : newNode ∉ kids' p := (lk'.isRoot_iff hmx).mpr hmxp p
              -- the sibling is still in the parent's list
              have hmem : sibling ∈ kids' p := by
                rw [det.kids_eq_filter lk]
                simpa [hne] using lk.member sibling nsib p hsib hparent
              obtain ⟨pre, post, hsplit⟩ := List.append_of_mem hmem
              obtain ⟨m', hm', -, hprev, -⟩ := lk'.link p pre sibling post hsplit
              have hlivex : s'.contains newNode = true := by simp [contains, hmx]
              have hlives : s'.contains sibling = true := by simp [contains, hm']
              have hpsib : p ≠ sibling := fun h => lk'.not_mem_self p (h ▸ hmem)
              have hprene : pre.getLast? ≠ some newNode := by
                intro h
                exact hnotmem (by simp [hsplit, List.mem_of_getLast? h])
              have hlive : s'.contains (pre.getLast?.getD p) = true := by
                cases h : pre.getLast? with
                | none => simp [contains, hnp]
                | some a =>
                    obtain ⟨m, hm, -⟩ :=
                      lk'.parent_of_mem (p := p) (c := a) (by simp [hsplit, List.mem_of_getLast? h])
                    simp [contains, hm]
              obtain ⟨t₁, hrun₁, hframe₁, hget₁⟩ :=
                update_view (fun m => { m with parent := some p, prevSibling := m'.prevSibling,
                                               nextSibling := some sibling }) hlivex
              obtain ⟨t₂, hrun₂, hframe₂, hget₂⟩ :=
                update_view (fun m => { m with prevSibling := some newNode })
                  ((contains_of_map hget₁ _).trans hlives)
              obtain ⟨t₃, hrun₃, hframe₃, hget₃⟩ :=
                setForward_view (some newNode)
                  ((contains_of_map hget₂ _).trans ((contains_of_map hget₁ _).trans hlive))
              refine ⟨p, s', kids', pre, post, t₃, det, ⟨hsplit, ⟨mx, hmx, hmxp⟩, ⟨np, hnp, hcont⟩,
                depth_after_detach lk hcheck det, (hframe₁.trans hframe₂).trans hframe₃, ?_⟩, ?_, hdoc⟩
              · rw [hget₃, hget₂, hget₁]
                funext q
                simp only [Option.map_map]
                congr 1
                funext m
                by_cases hq : q = newNode
                · subst hq
                  simp [spliceInNode, forwardNode, hprev, hprene, hne.symm, hpnew.symm]
                · by_cases hqs : q = sibling
                  · subst hqs
                    simp [spliceInNode, forwardNode, hne, hpsib.symm]
                  · simp [spliceInNode, forwardNode, hq, hqs, Ne.symm hqs]
              · rw [← hprev] at hrun₃
                simp [insertBefore, run_bind, resolve_eq_ok hsib, hparent,
                  check_eq_ok (fun s => s.checkInsertable p newNode) hcheck, hdet,
                  resolve_eq_ok hm', hrun₁, hrun₂, hrun₃]

end Attach

end Arena

end Pelorus.Dom
