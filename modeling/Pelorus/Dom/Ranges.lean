import Pelorus.Dom.Order
import Pelorus.Dom.TreeRun

/-
  Dom/Ranges.lean --- live ranges over whole runs.

  A boundary point is PLACED when its node has an address and its offset is no
  more than the node's length; its key is then a list of numbers
  (`Lib/DocumentOrder.lean`), and a range is well formed when both its points are
  placed in one tree and the first key is no more than the second.

  Each structural operation moves the points of one tree by a map that is
  monotone on keys: `cutKey` for a removal, `growKey` for an insertion, a longer
  prefix for the tree that was inserted.  `append_child` notifies no range, and
  needs not: past the last child there is no offset to move.

  WHERE IT BREAKS.  `remove_subtree` frees a template's contents without
  unlinking them.  When those are somebody's child, the parent keeps a stale
  link and its child list ends early, so an offset into it may be too large.
-/
set_option autoImplicit false

namespace Pelorus.Dom

open Lib.StateRun Lib.Forest Lib.DocumentOrder

/-- The length of a node with these children. -/
def lengthIn (n : Node) (children : List NodeId) : Nat :=
  match n.data.characterLength with
  | some bytes => bytes
  | none => children.length

theorem lengthIn_of_container {n : Node} (h : n.data.canHaveChildren = true)
    (children : List NodeId) : lengthIn n children = children.length := by
  simp [lengthIn, NodeData.characterLength_eq_none h]

/-- The point is at `path` in the tree of `r`, within its node. -/
structure Placed (s : Arena) (kids : NodeId → List NodeId) (r : NodeId) (path : List Nat)
    (point : BoundaryPoint) : Prop where
  addr : Addr kids r path point.node
  within : ∃ n, s.get point.node = some n ∧ point.offset ≤ lengthIn n (kids point.node)

/-- Both ends in one tree, in order. -/
def RangeOk (s : Arena) (kids : NodeId → List NodeId) (range : Range) : Prop :=
  ∃ r path path', Placed s kids r path range.start ∧ Placed s kids r path' range.stop ∧
    key path range.start.offset ≤ key path' range.stop.offset

/-- Every range held is well formed. -/
def RangesOk (s : Arena) (kids : NodeId → List NodeId) : Prop :=
  ∀ (i g : Nat) (range : Range), s.ranges[i]? = some ⟨g, some range⟩ → RangeOk s kids range

/-! ## Moving the points of every range -/

/-- How an operation moves boundary points: those of one tree go to one tree, by
a map monotone on keys. -/
def Carries (s : Arena) (kids : NodeId → List NodeId) (t : Arena) (kids' : NodeId → List NodeId)
    (move : BoundaryPoint → BoundaryPoint) : Prop :=
  ∀ r, ∃ r' f, Mono f ∧ ∀ path point, Placed s kids r path point →
    ∃ path', Placed t kids' r' path' (move point) ∧
      key path' (move point).offset = f (key path point.offset)

theorem Carries.range {s t : Arena} {kids kids' : NodeId → List NodeId}
    {move : BoundaryPoint → BoundaryPoint} (h : Carries s kids t kids' move) {range : Range}
    (hok : RangeOk s kids range) :
    RangeOk t kids' { range with start := move range.start, stop := move range.stop } := by
  obtain ⟨r, path, path', hstart, hstop, hle⟩ := hok
  obtain ⟨r', f, hf, hmove⟩ := h r
  obtain ⟨q, hq, hkey⟩ := hmove path range.start hstart
  obtain ⟨q', hq', hkey'⟩ := hmove path' range.stop hstop
  exact ⟨r', q, q', hq, hq', by rw [hkey, hkey']; exact hf _ _ hle⟩

/-- When the ranges are moved as the points are carried, they stay well formed. -/
theorem Carries.ranges {s t u : Arena} {kids kids' : NodeId → List NodeId}
    {move : BoundaryPoint → BoundaryPoint} (h : Carries s kids t kids' move) (hok : RangesOk s kids)
    (hranges : t.ranges = (u.mapRanges fun r =>
      { r with start := move r.start, stop := move r.stop }).ranges) (hu : u.ranges = s.ranges) :
    RangesOk t kids' := by
  intro i g range hslot
  rw [hranges, Arena.mapRanges, hu, List.getElem?_map] at hslot
  obtain ⟨slot, hold, heq⟩ := Option.map_eq_some_iff.mp hslot
  obtain ⟨g', old⟩ := slot
  cases old with
  | none => simp at heq
  | some old =>
      simp only [Option.map_some, RangeSlot.mk.injEq, Option.some.injEq] at heq
      obtain ⟨rfl, rfl⟩ := heq
      exact h.range (hok i g' old hold)

theorem mono_id : Mono fun a => a := fun _ _ h => h

namespace Arena

/-! ## Detaching -/

section Detach

variable {s t : Arena} {kids : NodeId → List NodeId} (lk : Linked s.get kids) {id p : NodeId}
  {pre post : List NodeId} (hsplit : kids p = pre ++ id :: post)
  (view : t.get = fun q => (s.get q).map (spliceOutNode p id pre.getLast? post.head? q))

include lk hsplit view

/-- A removal carries points as `ranges_before_remove` moves them. -/
theorem carries_detach :
    Carries s kids t (Function.update kids p (pre ++ post))
      (beforeRemovePoint s id p pre.length) := by
  have hmem : id ∈ kids p := by simp [hsplit]
  have hx : (kids p)[pre.length]? = some id := by simp [hsplit]
  obtain ⟨np, hnp⟩ := lk.live_of_kids hmem
  have hcont := lk.container p np hnp (by simp [hsplit])
  obtain ⟨rp, at_p, haddr_p, -⟩ := lk.rooted p np hnp
  have hp' : Addr (Function.update kids p (pre ++ post)) rp at_p p := by
    have h := Addr.cut lk.branching hsplit haddr_p haddr_p (fun rest h => by simp at h)
    rwa [show onPrefix at_p (indexDown pre.length) at_p = at_p by
      have := onPrefix_append at_p (indexDown pre.length) []
      simpa [indexDown] using this] at h
  have hlive : ∀ {q : NodeId} {n : Node}, s.get q = some n → ∃ n', t.get q = some n' ∧
      n'.data = n.data := by
    intro q n hq
    exact ⟨spliceOutNode p id pre.getLast? post.head? q n, by simp only [view, hq, Option.map_some],
      rfl⟩
  have hlength : ∀ {q : NodeId} {n n' : Node}, q ≠ p → n'.data = n.data →
      lengthIn n' (Function.update kids p (pre ++ post) q) = lengthIn n (kids q) := by
    intro q n n' hq hdata
    rw [Function.update_of_ne hq, lengthIn, lengthIn, hdata]
  intro r
  by_cases hr : r = rp
  · -- the tree the node is cut from
    subst hr
    refine ⟨r, onPrefix (pathKey at_p) (cutKey pre.length), mono_onPrefix (mono_cutKey _) _, ?_⟩
    rintro path ⟨q, k⟩ ⟨haddr, n, hq, hk⟩
    by_cases hanc : s.isInclusiveAncestor id q = true
    · obtain ⟨-, rest, hrest⟩ := (isInclusiveAncestor_iff lk).mp hanc
      have hunder : Addr kids r (at_p ++ pre.length :: rest) q :=
        haddr_p.below (by simp [hx, hrest])
      obtain ⟨-, rfl⟩ := lk.branching.addr_unique haddr hunder
      obtain ⟨np', hnp', hdata⟩ := hlive hnp
      have hmove : beforeRemovePoint s id p pre.length ⟨q, k⟩ = ⟨p, pre.length⟩ := by
        simp [beforeRemovePoint, hanc]
      rw [hmove]
      refine ⟨at_p, ⟨hp', np', hnp', ?_⟩, key_cut_under at_p rest pre.length k⟩
      rw [lengthIn_of_container (by rw [hdata]; exact hcont)]
      simp
    · by_cases hqp : q = p
      · subst hqp
        obtain ⟨-, rfl⟩ := lk.branching.addr_unique haddr haddr_p
        obtain ⟨np', hnp', hdata⟩ := hlive hnp
        have hmove : beforeRemovePoint s id q pre.length ⟨q, k⟩ =
            ⟨q, if k > pre.length then k - 1 else k⟩ := by
          by_cases hgt : k > pre.length <;> simp [beforeRemovePoint, hanc, hgt]
        rw [hmove]
        refine ⟨path, ⟨hp', np', hnp', ?_⟩, key_cut_self path pre.length k⟩
        rw [hnp] at hq
        cases hq
        rw [lengthIn_of_container hcont, hsplit] at hk
        rw [lengthIn_of_container (by rw [hdata]; exact hcont)]
        simp only [List.length_append, List.length_cons, Function.update_self] at hk ⊢
        split <;> omega
      · have hmove : beforeRemovePoint s id p pre.length ⟨q, k⟩ = ⟨q, k⟩ := by
          simp [beforeRemovePoint, hanc, hqp]
        have hself : path ≠ at_p := by
          rintro rfl
          exact hqp (Option.some_inj.mp (haddr.leads.symm.trans haddr_p.leads))
        have hout : ∀ rest, path ≠ at_p ++ pre.length :: rest := by
          rintro rest rfl
          refine hanc ((isInclusiveAncestor_iff lk).mpr ⟨by simp [contains, hq], rest, ?_⟩)
          have hleads := haddr.leads
          rwa [follow_append_of haddr_p.leads, follow_cons, hx, Option.bind_some] at hleads
        obtain ⟨n', hn', hdata⟩ := hlive hq
        rw [hmove]
        refine ⟨_, ⟨Addr.cut lk.branching hsplit haddr_p haddr hout, n', hn', ?_⟩,
          key_cut k hself hout⟩
        rw [hlength hqp hdata]
        exact hk
  · -- another tree
    refine ⟨r, fun a => a, mono_id, ?_⟩
    rintro path ⟨q, k⟩ ⟨haddr, n, hq, hk⟩
    have hanc : ¬ s.isInclusiveAncestor id q = true := by
      intro hanc
      obtain ⟨-, rest, hrest⟩ := (isInclusiveAncestor_iff lk).mp hanc
      have hunder : Addr kids rp (at_p ++ pre.length :: rest) q :=
        haddr_p.below (by simp [hx, hrest])
      exact hr (lk.branching.addr_unique haddr hunder).1
    have hqp : q ≠ p := by
      rintro rfl
      exact hr (lk.branching.addr_unique haddr haddr_p).1
    have hmove : beforeRemovePoint s id p pre.length ⟨q, k⟩ = ⟨q, k⟩ := by
      simp [beforeRemovePoint, hanc, hqp]
    obtain ⟨n', hn', hdata⟩ := hlive hq
    rw [hmove]
    refine ⟨path, ⟨Addr.cut_other lk.branching hsplit haddr_p haddr hr, n', hn', ?_⟩, rfl⟩
    rw [hlength hqp hdata]
    exact hk

end Detach

theorem Detached.ranges {s t : Arena} {kids kids' : NodeId → List NodeId} {id : NodeId}
    (det : Detached s kids id t kids') (lk : Linked s.get kids) (hok : RangesOk s kids) :
    RangesOk t kids' := by
  cases det with
  | orphan => exact hok
  | @spliced n p pre post t hid hp hsplit frame view =>
      refine (carries_detach lk hsplit view).ranges (u := s) hok ?_ rfl
      have hx : (kids p)[pre.length]? = some id := by simp [hsplit]
      rw [frame.eq]
      simp only [rangesBeforeRemove, hid, Option.bind_some, hp, indexOf_eq lk hx]

/-! ## Attaching -/

section Attach

variable {s t : Arena} {kids : NodeId → List NodeId} {p x : NodeId} {pre post : List NodeId}
  (lk : Linked s.get kids) (att : Attached s kids p x pre post t)

include lk att

/-- An insertion carries points as `ranges_after_insert` moves them. -/
theorem carries_attach (move : BoundaryPoint → BoundaryPoint)
    (hmove : ∀ r path point, Placed s kids r path point →
      move point = afterInsertPoint p pre.length point) :
    Carries s kids t (Function.update kids p (pre ++ x :: post)) move := by
  obtain ⟨np, hnp, hcont⟩ := att.container
  obtain ⟨mx, hx, horphan⟩ := att.orphan
  have hroot : IsRoot kids x := (lk.isRoot_iff hx).mpr horphan
  obtain ⟨rp, at_p, haddr_p, -⟩ := lk.rooted p np hnp
  have hrx := (att.depth rp at_p haddr_p).1
  have hlive : ∀ {q : NodeId} {n : Node}, s.get q = some n → ∃ n', t.get q = some n' ∧
      n'.data = n.data := by
    intro q n hq
    exact ⟨spliceInNode p x pre.getLast? post.head? q n,
      by simp only [att.view, hq, Option.map_some], rfl⟩
  have hlength : ∀ {q : NodeId} {n n' : Node}, q ≠ p → n'.data = n.data →
      lengthIn n' (Function.update kids p (pre ++ x :: post) q) = lengthIn n (kids q) := by
    intro q n n' hq hdata
    rw [Function.update_of_ne hq, lengthIn, lengthIn, hdata]
  have hkeep : ∀ {q : NodeId} (k : Nat), q ≠ p → afterInsertPoint p pre.length ⟨q, k⟩ = ⟨q, k⟩ := by
    intro q k hq
    simp [afterInsertPoint, hq]
  intro r
  by_cases hr : r = rp
  · -- the tree that receives the node
    subst hr
    refine ⟨r, onPrefix (pathKey at_p) (growKey pre.length), mono_onPrefix (mono_growKey _) _, ?_⟩
    rintro path ⟨q, k⟩ ⟨haddr, n, hq, hk⟩
    have haddr' := Addr.graft (x := x) lk.branching att.split haddr_p hrx haddr
    obtain ⟨n', hn', hdata⟩ := hlive hq
    rw [hmove r path ⟨q, k⟩ ⟨haddr, n, hq, hk⟩]
    by_cases hqp : q = p
    · subst hqp
      obtain ⟨-, rfl⟩ := lk.branching.addr_unique haddr haddr_p
      have hself : onPrefix path (indexUp pre.length) path = path := by
        have := onPrefix_append path (indexUp pre.length) []
        simpa [indexUp] using this
      rw [hself] at haddr'
      have hmove' : afterInsertPoint q pre.length ⟨q, k⟩ =
          ⟨q, if k > pre.length then k + 1 else k⟩ := by
        by_cases hgt : k > pre.length <;> simp [afterInsertPoint, hgt]
      rw [hmove']
      refine ⟨path, ⟨haddr', n', hn', ?_⟩, key_graft_self path pre.length k⟩
      rw [hnp] at hq
      cases hq
      rw [lengthIn_of_container hcont, att.split] at hk
      rw [lengthIn_of_container (by rw [hdata]; exact hcont)]
      simp only [List.length_append, List.length_cons, Function.update_self] at hk ⊢
      split <;> omega
    · have hself : path ≠ at_p := by
        rintro rfl
        exact hqp (Option.some_inj.mp (haddr.leads.symm.trans haddr_p.leads))
      rw [hkeep k hqp]
      refine ⟨_, ⟨haddr', n', hn', ?_⟩, key_graft k hself⟩
      rw [hlength hqp hdata]
      exact hk
  · have hother : ∀ {path : List Nat} {q : NodeId}, Addr kids r path q → q ≠ p := by
      rintro path q haddr rfl
      exact hr (lk.branching.addr_unique haddr haddr_p).1
    by_cases hrx' : r = x
    · -- the tree that is inserted
      subst hrx'
      refine ⟨rp, fun a => pathKey at_p ++ (2 * pre.length + 1) :: a, ?_, ?_⟩
      · have h := mono_append (pathKey at_p ++ [2 * pre.length + 1])
        simpa [Mono] using h
      · rintro path ⟨q, k⟩ ⟨haddr, n, hq, hk⟩
        have hqp := hother haddr
        obtain ⟨n', hn', hdata⟩ := hlive hq
        rw [hmove r path ⟨q, k⟩ ⟨haddr, n, hq, hk⟩, hkeep k hqp]
        refine ⟨_, ⟨Addr.graft_under lk.branching att.split hroot haddr_p hrx haddr, n', hn', ?_⟩, ?_⟩
        · rw [hlength hqp hdata]
          exact hk
        · rw [key_append, key_cons]
    · -- another tree
      refine ⟨r, fun a => a, mono_id, ?_⟩
      rintro path ⟨q, k⟩ ⟨haddr, n, hq, hk⟩
      have hqp := hother haddr
      obtain ⟨n', hn', hdata⟩ := hlive hq
      rw [hmove r path ⟨q, k⟩ ⟨haddr, n, hq, hk⟩, hkeep k hqp]
      refine ⟨path, ⟨Addr.graft_other lk.branching att.split haddr_p haddr hr hrx', n', hn', ?_⟩, rfl⟩
      rw [hlength hqp hdata]
      exact hk

/-- Appending needs no notification: no offset is past the last child. -/
theorem Attached.ranges_append (hpost : post = []) (hok : RangesOk s kids) :
    RangesOk t (Function.update kids p (pre ++ x :: post)) := by
  obtain ⟨np, hnp, hcont⟩ := att.container
  have hcarry := carries_attach lk att (fun q => q) (by
    rintro r path ⟨q, k⟩ ⟨haddr, n, hq, hk⟩
    by_cases hqp : q = p
    · subst hqp
      rw [hnp] at hq
      cases hq
      rw [lengthIn_of_container hcont, att.split, hpost, List.append_nil] at hk
      have hle : ¬ k > pre.length := Nat.not_lt.mpr hk
      simp [afterInsertPoint, hle]
    · simp [afterInsertPoint, hqp])
  intro i g range hslot
  rw [att.frame.eq] at hslot
  exact hcarry.range (hok i g range hslot)

/-- Inserting moves the offsets past the new child along. -/
theorem Attached.ranges_insert (hok : RangesOk s kids) :
    RangesOk (t.notifyInsert p x) (Function.update kids p (pre ++ x :: post)) := by
  have hcarry := carries_attach lk att (afterInsertPoint p pre.length)
    (fun _ _ _ _ => rfl)
  have hx : (Function.update kids p (pre ++ x :: post) p)[pre.length]? = some x := by simp
  have hindex := indexOf_eq (att.linked lk) hx
  have hmoved : Carries s kids (t.notifyInsert p x) (Function.update kids p (pre ++ x :: post))
      (afterInsertPoint p pre.length) := by
    intro r
    obtain ⟨r', f, hf, h⟩ := hcarry r
    refine ⟨r', f, hf, fun path point hpoint => ?_⟩
    obtain ⟨path', ⟨haddr, hin⟩, hkey⟩ := h path point hpoint
    exact ⟨path', ⟨haddr, by rw [TreeInv.get_notifyInsert]; exact hin⟩, hkey⟩
  refine hmoved.ranges (u := t) hok ?_ (by rw [att.frame.eq])
  simp only [notifyInsert, hindex, rangesAfterInsert]

end Attach

/-! ## Freeing -/

theorem Freeing.placed {s₀ t : Arena} {kids : NodeId → List NodeId} {visits : NodeId → Prop}
    (walk : Freeing s₀ kids visits [] t) {r : NodeId} {path : List Nat} {point : BoundaryPoint}
    (h : Placed s₀ kids r path point) (hlive : t.contains point.node = true) :
    Placed t (keptKids t.get kids) r path point := by
  obtain ⟨n, hn⟩ := Option.isSome_iff_exists.mp hlive
  have hdown : ∀ p c, c ∈ kids p → t.get p = none → t.get c = none := by
    intro p c hc hp
    rcases walk.down p c hc hp with h | h
    · exact h
    · simp at h
  have hview : s₀.get point.node = some n := by
    rcases walk.keep point.node with h' | h'
    · rw [h'] at hn; cases hn
    · rw [← h', hn]
  obtain ⟨haddr, m, hm, hk⟩ := h
  rw [hview] at hm
  cases hm
  refine ⟨addr_keptKids hdown haddr (by simp [hn]), n, hn, ?_⟩
  rw [keptKids_of_live (by simp [hn])]
  exact hk

theorem ranges_dropRange {s : Arena} {id : RangeId} {i g : Nat} {range : Range}
    (h : (s.dropRange id).2.ranges[i]? = some ⟨g, some range⟩) :
    s.ranges[i]? = some ⟨g, some range⟩ ∧ id ≠ ⟨i, g⟩ := by
  unfold dropRange at h
  split at h
  · rename_i hnone
    refine ⟨h, ?_⟩
    rintro rfl
    simp only at h hnone
    rw [hnone] at h
    cases h
  · rename_i slot hslot
    have hlt := (List.getElem?_eq_some_iff.mp hslot).1
    split at h
    · rename_i hstale
      refine ⟨h, ?_⟩
      rintro rfl
      simp only at h hslot hstale
      rw [hslot] at h
      cases h
      simp at hstale
    · have hold : ∀ new : RangeSlot, new.range = none →
          (s.ranges.set id.index new)[i]? = some ⟨g, some range⟩ →
          s.ranges[i]? = some ⟨g, some range⟩ ∧ id ≠ ⟨i, g⟩ := by
        intro new hnew hset
        by_cases hi : id.index = i
        · subst hi
          rw [List.getElem?_set_self hlt] at hset
          cases hset
          cases hnew
        · rw [List.getElem?_set_ne hi] at hset
          refine ⟨hset, ?_⟩
          rintro rfl
          exact hi rfl
      split at h
      · exact hold _ rfl h
      · exact hold _ rfl h

theorem ranges_foldl_dropRange : ∀ (ids : List RangeId) (s : Arena) {i g : Nat} {range : Range},
    (ids.foldl (fun s id => (s.dropRange id).2) s).ranges[i]? = some ⟨g, some range⟩ →
    s.ranges[i]? = some ⟨g, some range⟩ ∧ ⟨i, g⟩ ∉ ids
  | [], _, _, _, _, h => ⟨h, by simp⟩
  | id :: ids, s, i, g, range, h => by
      obtain ⟨h', hnotin⟩ := ranges_foldl_dropRange ids _ h
      obtain ⟨h'', hne⟩ := ranges_dropRange h'
      refine ⟨h'', ?_⟩
      simp [hnotin, Ne.symm hne]

/-- The ranges left after the last step of `remove_subtree` were there before, and
both their nodes are live. -/
theorem ranges_dropDangling {s : Arena} {i g : Nat} {range : Range}
    (h : s.dropDangling.ranges[i]? = some ⟨g, some range⟩) :
    s.ranges[i]? = some ⟨g, some range⟩ ∧ s.contains range.start.node = true ∧
      s.contains range.stop.node = true := by
  obtain ⟨hslot, hnotin⟩ := ranges_foldl_dropRange _ s h
  refine ⟨hslot, ?_⟩
  by_contra hdead
  refine hnotin ?_
  unfold danglingRanges
  rw [List.mem_filterMap]
  refine ⟨(⟨g, some range⟩, i), List.mk_mem_zipIdx_iff_getElem?.mpr hslot, ?_⟩
  have hdead' : (!s.contains range.start.node || !s.contains range.stop.node) = true := by
    simp only [Bool.or_eq_true, Bool.not_eq_true']
    by_contra hnot
    simp only [not_or, Bool.not_eq_false] at hnot
    exact hdead hnot
  simp [hdead']

theorem Freeing.rangesOk {s₀ t : Arena} {kids : NodeId → List NodeId} {visits : NodeId → Prop}
    (walk : Freeing s₀ kids visits [] t) (hok : RangesOk s₀ kids) :
    RangesOk t.dropDangling (keptKids t.get kids) := by
  intro i g range hslot
  obtain ⟨hslot, hstart, hstop⟩ := ranges_dropDangling hslot
  rw [walk.ranges.1] at hslot
  obtain ⟨r, path, path', hplaced, hplaced', hle⟩ := hok i g range hslot
  have hget := get_of_slots (slots_dropDangling t)
  obtain ⟨haddr, hin⟩ := walk.placed hplaced hstart
  obtain ⟨haddr', hin'⟩ := walk.placed hplaced' hstop
  exact ⟨r, path, path', ⟨haddr, by rw [hget]; exact hin⟩, ⟨haddr', by rw [hget]; exact hin'⟩, hle⟩

/-! ## Creating -/

theorem rangesOk_of_placed {s t : Arena} {kids : NodeId → List NodeId} (hok : RangesOk s kids)
    (hranges : t.ranges = s.ranges)
    (hplaced : ∀ {r path point}, Placed s kids r path point → Placed t kids r path point) : RangesOk t kids := by
  intro i g range hslot
  rw [hranges] at hslot
  obtain ⟨r, path, path', h, h', hle⟩ := hok i g range hslot
  exact ⟨r, path, path', hplaced h, hplaced h', hle⟩

theorem rangesOk_create {s t : Arena} {kids : NodeId → List NodeId} {id : NodeId} {n : Node}
    (hfresh : s.get id = none) (hget : t.get = Function.update s.get id (some n))
    (hranges : t.ranges = s.ranges) (hok : RangesOk s kids) : RangesOk t kids := by
  refine rangesOk_of_placed hok hranges ?_
  rintro r path point ⟨haddr, m, hm, hk⟩
  refine ⟨haddr, m, ?_, hk⟩
  have hne : point.node ≠ id := by
    rintro heq
    rw [heq, hfresh] at hm
    cases hm
  rw [hget, Function.update_of_ne hne, hm]

theorem rangesOk_repainted {s t : Arena} {kids : NodeId → List NodeId} (h : Repainted s t)
    (hok : RangesOk s kids) : RangesOk t kids := by
  obtain ⟨⟨f, -, -, hchar, hview⟩, -, hranges, -⟩ := h
  refine rangesOk_of_placed hok hranges ?_
  rintro r path point ⟨haddr, m, hm, hk⟩
  refine ⟨haddr, { m with data := f point.node m.data }, ?_, ?_⟩
  · simp only [hview, hm, Option.map_some]
  · simpa only [lengthIn, hchar] using hk

/-! ## What a placed point is to the code -/

section Meaning

variable {s : Arena} {kids : NodeId → List NodeId} (lk : Linked s.get kids)

include lk

theorem nodeLength_eq {q : NodeId} {n : Node} (h : s.get q = some n) :
    s.nodeLength q = some (lengthIn n (kids q)) := by
  simp only [nodeLength, lengthIn, h, childIds_eq lk]
  cases n.data.characterLength <;> rfl

theorem isValidBoundary_iff {point : BoundaryPoint} :
    s.isValidBoundary point = true ↔
      ∃ n, s.get point.node = some n ∧ point.offset ≤ lengthIn n (kids point.node) := by
  unfold isValidBoundary
  cases h : s.get point.node with
  | none => simp [nodeLength, h]
  | some n => simp [nodeLength_eq lk h]

/-- `new_range` accepts exactly well-formed ranges. -/
theorem rangeOk_of_accepts {start stop : BoundaryPoint} (h : s.acceptsRange start stop)
    (serial : Nat) : RangeOk s kids ⟨start, stop, serial⟩ := by
  obtain ⟨hstart, hstop, hcmp⟩ := h
  have hanswer : ∃ position, s.compareBoundaryPoints start stop = some position ∧
      position ≠ .after := by
    rcases hcmp with h | h
    · exact ⟨.before, h, by simp⟩
    · exact ⟨.equal, h, by simp⟩
  obtain ⟨position, hcmp, hpos⟩ := hanswer
  obtain ⟨r, path, path', na, nb, ha, hb, haddr, haddr'⟩ := addr_of_compare lk hcmp
  have heq := compareBoundaryPoints_eq lk ha hb haddr haddr' start.offset stop.offset
  rw [hcmp] at heq
  cases heq
  exact ⟨r, path, path', ⟨haddr, (isValidBoundary_iff lk).mp hstart⟩,
    ⟨haddr', (isValidBoundary_iff lk).mp hstop⟩, order_ne_after.mp hpos⟩

end Meaning

end Arena

/-! ## The invariant -/

/-- The arena is linked and every range it holds is well formed. -/
structure RangeInv (s : Arena) : Prop where
  slots : s.SlotWf
  linked : ∃ kids, Linked s.get kids ∧ RangesOk s kids

namespace RangeInv

open Arena

theorem new : RangeInv Arena.new := by
  obtain ⟨kids, lk⟩ := TreeInv.new.linked
  refine ⟨slotWf_new, kids, lk, ?_⟩
  intro i g range hslot
  simp [Arena.new, Arena.create, run_bind, Arena.empty, u32Max] at hslot

variable {s : Arena} (inv : RangeInv s)

include inv

theorem create (data : NodeData) : RangeInv (final (Arena.create data s)) := by
  have hslots := inv.slots.evolves (follows_create .grow data s inv.slots)
  rcases create_view inv.slots data with ⟨e, hrun⟩ | ⟨id, t, hrun, hfresh, hget, -, hranges, -⟩
  · rw [hrun]
    exact inv
  · rw [hrun] at hslots ⊢
    obtain ⟨kids, lk, hok⟩ := inv.linked
    refine ⟨hslots, kids, ?_, rangesOk_create hfresh hget hranges hok⟩
    rw [final_ok, hget]
    exact lk.create hfresh _ data

theorem detach (id : NodeId) : RangeInv (final (Arena.detach id s)) := by
  have hslots := inv.slots.evolves (follows_detach .grow .grow id s inv.slots)
  cases hid : s.get id with
  | none =>
      rw [detach_of_stale hid]
      exact inv
  | some n =>
      obtain ⟨kids, lk, hok⟩ := inv.linked
      obtain ⟨t, kids', hrun, det⟩ := detach_spec lk hid
      rw [hrun] at hslots ⊢
      exact ⟨hslots, kids', det.linked lk, det.ranges lk hok⟩

theorem appendChild (parent child : NodeId) : RangeInv (final (Arena.appendChild parent child s)) := by
  have hslots := inv.slots.evolves (follows_appendChild .grow .grow parent child s inv.slots)
  obtain ⟨kids, lk, hok⟩ := inv.linked
  rcases appendChild_spec lk parent child with ⟨e, hrun⟩ | ⟨s', kids', t, det, att, hrun, -⟩
  · rw [hrun]
    exact inv
  · rw [hrun] at hslots ⊢
    have lk' := det.linked lk
    exact ⟨hslots, _, att.linked lk', att.ranges_append lk' rfl (det.ranges lk hok)⟩

theorem insertBefore {sibling newNode : NodeId} (hne : sibling ≠ newNode) :
    RangeInv (final (Arena.insertBefore sibling newNode s)) := by
  have hslots := inv.slots.evolves (follows_insertBefore .grow .grow sibling newNode s inv.slots)
  obtain ⟨kids, lk, hok⟩ := inv.linked
  rcases insertBefore_spec lk hne with
    ⟨e, hrun⟩ | ⟨p, s', kids', pre, post, t, det, att, hrun, -⟩
  · rw [hrun]
    exact inv
  · rw [hrun] at hslots ⊢
    have lk' := det.linked lk
    refine ⟨hslots, _, ?_, att.ranges_insert lk' (det.ranges lk hok)⟩
    rw [final_ok, TreeInv.get_notifyInsert]
    exact att.linked lk'

theorem removeSubtree {id : NodeId} (hcontents : s.DetachedContents id) :
    RangeInv (final (Arena.removeSubtree id s)) := by
  have hslots := inv.slots.evolves (follows_removeSubtree id s inv.slots)
  obtain ⟨kids, lk, hok⟩ := inv.linked
  rcases removeSubtree_spec lk hcontents with
    ⟨e, hrun⟩ | ⟨s₀, kids₀, count, t, det, walk, hrun, -⟩
  · rw [hrun]
    exact inv
  · rw [hrun] at hslots ⊢
    refine ⟨hslots, keptKids t.get kids₀, ?_, walk.rangesOk (det.ranges lk hok)⟩
    rw [final_ok, get_of_slots (slots_dropDangling t)]
    exact walk.linked (det.linked lk)

theorem newRange (start stop : BoundaryPoint) : RangeInv (final (Arena.newRange start stop s)) := by
  have hslots := inv.slots.evolves (follows_newRange .grow start stop s inv.slots)
  obtain ⟨kids, lk, hok⟩ := inv.linked
  have hget := get_of_slots (slots_newRange inv.slots start stop)
  refine ⟨hslots, kids, by rw [hget]; exact lk, ?_⟩
  have hsame : ∀ {range}, RangeOk s kids range →
      RangeOk (final (Arena.newRange start stop s)) kids range := by
    rintro range ⟨r, path, path', ⟨ha, hin⟩, ⟨ha', hin'⟩, hle⟩
    exact ⟨r, path, path', ⟨ha, by rw [hget]; exact hin⟩, ⟨ha', by rw [hget]; exact hin'⟩, hle⟩
  intro i g range hslot
  refine hsame ?_
  rcases newRange_cases inv.slots start stop with
    ⟨hacc, ⟨index, rest, g', -, hvacant, hrun⟩ | ⟨-, hrun⟩⟩ | ⟨e, hrun⟩
  · rw [hrun, final_ok] at hslot
    by_cases hi : index = i
    · subst hi
      rw [List.getElem?_set_self (List.getElem?_eq_some_iff.mp hvacant).1] at hslot
      cases hslot
      exact rangeOk_of_accepts lk hacc _
    · rw [List.getElem?_set_ne hi] at hslot
      exact hok i g range hslot
  · rw [hrun, final_ok] at hslot
    rcases Nat.lt_or_ge i s.ranges.length with hlt | hge
    · rw [List.getElem?_append_left hlt] at hslot
      exact hok i g range hslot
    · rw [List.getElem?_append_right hge] at hslot
      cases hi : i - s.ranges.length with
      | zero =>
          rw [hi] at hslot
          simp only [List.getElem?_cons_zero, Option.some.injEq, RangeSlot.mk.injEq] at hslot
          rw [← hslot.2]
          exact rangeOk_of_accepts lk hacc _
      | succ j => simp [hi] at hslot
  · rw [hrun, final_error] at hslot
    exact hok i g range hslot

theorem dropRange (id : RangeId) : RangeInv (s.dropRange id).2 := by
  have hslots := inv.slots.evolves (evolves_dropRange .grow s id)
  obtain ⟨kids, lk, hok⟩ := inv.linked
  have hget := get_of_slots (slots_dropRange s id)
  refine ⟨hslots, kids, by rw [hget]; exact lk, ?_⟩
  intro i g range hslot
  obtain ⟨r, path, path', ⟨ha, hin⟩, ⟨ha', hin'⟩, hle⟩ := hok i g range (ranges_dropRange hslot).1
  exact ⟨r, path, path', ⟨ha, by rw [hget]; exact hin⟩, ⟨ha', by rw [hget]; exact hin'⟩, hle⟩

theorem repainted {t : Arena} (hslots : t.SlotWf) (h : Repainted s t) : RangeInv t := by
  obtain ⟨kids, lk, hok⟩ := inv.linked
  exact ⟨hslots, kids, h.linked lk, rangesOk_repainted h hok⟩

end RangeInv

/-! ## Runs -/

/-- What a range held in the arena promises its holder. -/
structure RangeSound (s : Arena) (range : Range) : Prop where
  /-- both points resolve, with an offset no more than the node's length -/
  start_within : ∃ length, s.nodeLength range.start.node = some length ∧ range.start.offset ≤ length
  stop_within : ∃ length, s.nodeLength range.stop.node = some length ∧ range.stop.offset ≤ length
  /-- both nodes are in the tree of one root -/
  same_tree : ∃ root, Relation.ReflTransGen (ParentOf s) root range.start.node ∧
    Relation.ReflTransGen (ParentOf s) root range.stop.node
  ordered : s.compareBoundaryPoints range.start range.stop = some .before ∨
    s.compareBoundaryPoints range.start range.stop = some .equal

/-- Every range still held is sound. -/
def RangesSound (s : Arena) : Prop := ∀ id range, s.range id = some range → RangeSound s range

theorem parents_of_follow {s : Arena} {kids : NodeId → List NodeId} (lk : Linked s.get kids) :
    ∀ (path : List Nat) (a c : NodeId), follow kids a path = some c →
      Relation.ReflTransGen (ParentOf s) a c
  | [], a, c, h => by
      cases h
      exact .refl
  | i :: path, a, c, h => by
      obtain ⟨d, hd, hdc⟩ := Option.bind_eq_some_iff.mp h
      exact .head (lk.parent_of_mem (List.mem_of_getElem? hd)) (parents_of_follow lk path d c hdc)

theorem RangeInv.sound {s : Arena} (inv : RangeInv s) : RangesSound s := by
  obtain ⟨kids, lk, hok⟩ := inv.linked
  intro id range hrange
  obtain ⟨r, path, path', ⟨haddr, n, hn, hk⟩, ⟨haddr', n', hn', hk'⟩, hle⟩ :=
    hok _ _ range (Arena.range_eq_some.mp hrange)
  refine ⟨⟨_, Arena.nodeLength_eq lk hn, hk⟩, ⟨_, Arena.nodeLength_eq lk hn', hk'⟩,
    ⟨r, parents_of_follow lk path r _ haddr.leads, parents_of_follow lk path' r _ haddr'.leads⟩, ?_⟩
  have hcmp := Arena.compareBoundaryPoints_eq lk hn hn' haddr haddr' range.start.offset
    range.stop.offset
  have hpos := order_ne_after.mpr hle
  rw [show range.start = ⟨range.start.node, range.start.offset⟩ from rfl,
    show range.stop = ⟨range.stop.node, range.stop.offset⟩ from rfl, hcmp]
  revert hpos
  cases order (key path range.start.offset) (key path' range.stop.offset) <;> simp

namespace Op

/-- The calls that keep ranges sound: no node inserted before itself, no payload
written through `get_mut`, and no subtree removed whose template contents are
somebody's child. -/
def KeepsRanges : Op → Arena → Prop
  | insertBefore sibling newNode, _ => sibling ≠ newNode
  | removeSubtree id, s => s.DetachedContents id
  | getMut _ _, _ => False
  | _, _ => True

theorem keeps_rangeInv {op : Op} {s : Arena} (hop : op.KeepsRanges s) (inv : RangeInv s) :
    RangeInv (op.apply s) := by
  have hslots := inv.slots.evolves (op.evolves inv.slots)
  cases op with
  | create data => exact inv.create data
  | appendChild parent child => exact inv.appendChild parent child
  | insertBefore sibling newNode => exact inv.insertBefore hop
  | detach id => exact inv.detach id
  | reparentChildren source target =>
      exact @Arena.keeps_reparentChildren RangeInv (fun p c s h => h.appendChild p c)
        source target s inv
  | removeSubtree id => exact inv.removeSubtree hop
  | cloneSubtree id =>
      exact @Arena.keeps_cloneSubtree RangeInv (fun p c s h => h.appendChild p c)
        (fun q n s h _ => h.create n.data) id s inv
  | setAttribute id name value =>
      exact inv.repainted hslots (Arena.repainted_setAttribute id name value s trivial)
  | removeAttribute id name =>
      exact inv.repainted hslots (Arena.repainted_removeAttribute id name s trivial)
  | addAttributesIfMissing id incoming =>
      exact inv.repainted hslots (Arena.repainted_addAttributesIfMissing id incoming s trivial)
  | getMut id change => exact hop.elim
  | newRange start stop => exact inv.newRange start stop
  | dropRange id => exact inv.dropRange id
  | recordSnapshots on => exact inv.repainted hslots (.of_slots rfl rfl rfl)
  | takeSnapshots => exact inv.repainted hslots (.of_slots rfl rfl rfl)

end Op

/-- After every run in which each call meets its condition in the state it is made
in, every range still held is sound. -/
theorem ranges_sound (ops : List Op) (hops : Each Op.KeepsRanges ops Arena.new) :
    RangesSound (after ops) := by
  have hstep : ∀ (op : Op) (s : Arena), RangeInv s → op.KeepsRanges s → RangeInv (op.apply s) :=
    fun _ _ inv hop => Op.keeps_rangeInv hop inv
  have hrun : RangeInv (after ops) := run_induction hstep ops Arena.new RangeInv.new hops
  exact hrun.sound

/-- The condition on a removal can be read off the slots. -/
theorem detachedContents_of_slots {s : Arena} (id : NodeId)
    (h : ∀ slot ∈ s.slots, ∀ n ∈ slot.node, ∀ c ∈ n.data.templateContents, ∀ m ∈ s.get c,
      m.parent = none) : s.DetachedContents id := by
  intro t n c m _ ht hc hm
  have hslot := List.mem_of_getElem? (Arena.get_eq_some.mp ht)
  exact Or.inl (h _ hslot n rfl c hc m hm)

/-- A paragraph with two texts, a template whose contents are a fragment of its
own, a range over the texts; the template goes, then the first text. -/
theorem ranges_sound_template : RangesSound (after
    [.create (.element ⟨none, "", "p"⟩ [] none false), .create (.text "a"), .create (.text "b"),
      .appendChild ⟨1, 1⟩ ⟨2, 1⟩, .appendChild ⟨1, 1⟩ ⟨3, 1⟩, .create .fragment,
      .create (.element ⟨none, "", "template"⟩ [] (some ⟨4, 1⟩) false),
      .newRange ⟨⟨2, 1⟩, 1⟩ ⟨⟨1, 1⟩, 2⟩, .removeSubtree ⟨5, 1⟩, .removeSubtree ⟨2, 1⟩]) :=
  ranges_sound _ ⟨trivial, trivial, trivial, trivial, trivial, trivial, trivial, trivial,
    detachedContents_of_slots _ (by decide), detachedContents_of_slots _ (by decide), trivial⟩

/-- The same, but the template names the first text as its contents: removing the
template frees the text in place, and the end of the range is past the children
that are left. -/
theorem ranges_unsound_attached_contents : ¬ RangesSound (after
    [.create (.element ⟨none, "", "p"⟩ [] none false), .create (.text "a"), .create (.text "b"),
      .appendChild ⟨1, 1⟩ ⟨2, 1⟩, .appendChild ⟨1, 1⟩ ⟨3, 1⟩,
      .create (.element ⟨none, "", "template"⟩ [] (some ⟨2, 1⟩) false),
      .newRange ⟨⟨1, 1⟩, 2⟩ ⟨⟨1, 1⟩, 2⟩, .removeSubtree ⟨4, 1⟩]) := by
  intro h
  obtain ⟨length, hlength, hle⟩ := (h ⟨0, 1⟩ ⟨⟨⟨1, 1⟩, 2⟩, ⟨⟨1, 1⟩, 2⟩, 0⟩ (by decide)).start_within
  have hone : (after
    [.create (.element ⟨none, "", "p"⟩ [] none false), .create (.text "a"), .create (.text "b"),
      .appendChild ⟨1, 1⟩ ⟨2, 1⟩, .appendChild ⟨1, 1⟩ ⟨3, 1⟩,
      .create (.element ⟨none, "", "template"⟩ [] (some ⟨2, 1⟩) false),
      .newRange ⟨⟨1, 1⟩, 2⟩ ⟨⟨1, 1⟩, 2⟩, .removeSubtree ⟨4, 1⟩]).nodeLength ⟨1, 1⟩ = some 1 := by
    decide
  rw [hone] at hlength
  cases hlength
  simp at hle

end Pelorus.Dom
