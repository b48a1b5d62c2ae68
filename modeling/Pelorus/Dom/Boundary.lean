import Pelorus.Dom.Order
import Pelorus.Dom.TreeRun

/-
  Dom/Boundary.lean --- where `insert_before` puts a node.

  THE PARENT is read before the node is detached and the previous sibling after it, which is right
  for every sibling but one: a node that is to be inserted before itself has no sibling left by
  then, and is linked to itself.
-/
set_option autoImplicit false

namespace Pelorus.Dom

open Lib.StateRun Lib.Forest

/-! ## Lists -/

/-- A list with `x` taken out and put in again right before `sibling`. -/
def placedBefore (sibling x : NodeId) (l : List NodeId) : List NodeId :=
  if sibling = x then l
  else
    let rest := l.filter fun c => c ≠ x
    rest.takeWhile (fun c => c ≠ sibling) ++ x :: rest.dropWhile fun c => c ≠ sibling

/-- The child lists after an insertion under `p`: every other list is what it was without `x`. -/
def placedLists (kids : NodeId → List NodeId) (p sibling x q : NodeId) : List NodeId :=
  if q = p then placedBefore sibling x (kids q)
  else if sibling = x then kids q
  else (kids q).filter fun c => c ≠ x

theorem placedBefore_of_split {sibling x : NodeId} {l pre post : List NodeId} (hne : sibling ≠ x)
    (hsplit : l.filter (fun c => c ≠ x) = pre ++ sibling :: post) (hpre : sibling ∉ pre) :
    placedBefore sibling x l = pre ++ x :: sibling :: post := by
  have hall : ∀ c ∈ pre, (decide (c ≠ sibling)) = true := by
    intro c hc
    refine decide_eq_true fun heq => hpre ?_
    rwa [← heq]
  rw [placedBefore, if_neg hne]
  dsimp only
  rw [hsplit, List.takeWhile_append_of_pos hall, List.dropWhile_append_of_pos hall,
    List.takeWhile_cons_of_neg (by simp), List.dropWhile_cons_of_neg (by simp), List.append_nil]

namespace Arena

/-- The child lists of an arena are these, its links are theirs, and its document is a root. -/
structure Lists (s : Arena) (kids : NodeId → List NodeId) : Prop where
  linked : Linked s.get kids
  listed : ∀ q n, s.get q = some n → s.children q = some (kids q)
  document : ∃ n, s.get s.document = some n ∧ n.parent = none

theorem Lists.of_linked {s : Arena} {kids : NodeId → List NodeId} (lk : Linked s.get kids)
    (hdoc : ∃ n, s.get s.document = some n ∧ n.parent = none) : Lists s kids :=
  ⟨lk, fun _ _ hq => children_eq lk hq, hdoc⟩

theorem notifyInsert_document (t : Arena) (p x : NodeId) : (t.notifyInsert p x).document = t.document := by
  unfold notifyInsert
  split <;> rfl

section

variable {s : Arena} {kids : NodeId → List NodeId} (lists : Lists s kids) {sibling x p : NodeId} {n : Node} {t : Arena}
  (hsib : s.get sibling = some n) (hparent : n.parent = some p)

include lists hsib hparent

/-- Before another node, a node is put where it is asked for. -/
theorem lists_insertBefore (hne : sibling ≠ x) (hrun : insertBefore sibling x s = .ok ⟨⟩ t) :
    Lists t (placedLists kids p sibling x) := by
  rcases insertBefore_spec lists.linked hne with
    ⟨e, hrefused⟩ | ⟨p', s', kids', pre, post, u, det, att, hplaced, hdoc⟩
  · rw [hrefused] at hrun
    cases hrun
  · have hp : p' = p := by
      have hmem : sibling ∈ kids p' := by
        have hmem' : sibling ∈ kids' p' := by
          rw [att.split]
          exact List.mem_append_right _ List.mem_cons_self
        rw [det.kids_eq_filter lists.linked] at hmem'
        exact List.mem_of_mem_filter hmem'
      exact lists.linked.owner_unique (lists.linked.member sibling n p hsib hparent) hmem
    subst hp
    have hfilter := det.kids_eq_filter lists.linked
    have hpre : sibling ∉ pre := by
      have hnodup := (det.linked lists.linked).nodup p'
      rw [att.split] at hnodup
      exact fun hmem => (List.nodup_cons.mp (List.nodup_middle.mp hnodup)).1 (List.mem_append_left _ hmem)
    have hlists : placedLists kids p' sibling x = Function.update kids' p' (pre ++ x :: sibling :: post) := by
      funext q
      by_cases hq : q = p'
      · have hsplit : (kids q).filter (fun c => c ≠ x) = pre ++ sibling :: post := by
          rw [← hfilter, hq, att.split]
        rw [placedLists, if_pos hq, placedBefore_of_split hne hsplit hpre, hq, Function.update_self]
      · rw [placedLists, if_neg hq, if_neg hne, Function.update_of_ne hq, hfilter]
    have hdocument := TreeInv.document_of_moved lists.document det att hdoc
    rw [hplaced] at hrun
    cases hrun
    rw [hlists]
    refine Lists.of_linked ?_ ?_
    · rw [TreeInv.get_notifyInsert]
      exact att.linked (det.linked lists.linked)
    · rw [TreeInv.get_notifyInsert, notifyInsert_document, att.document_eq, det.document_eq]
      exact hdocument

/-- Before itself, a node becomes its own sibling, and no lists are those of the links. -/
theorem not_linked_insertBefore_self (hrun : insertBefore sibling sibling s = .ok ⟨⟩ t)
    (kids' : NodeId → List NodeId) : ¬ Linked t.get kids' := by
  intro lk'
  have lk := lists.linked
  cases hcheck : s.checkInsertable p sibling with
  | error e =>
      simp [insertBefore, run_bind, resolve_eq_ok hsib, hparent,
        check_eq_error (fun s => s.checkInsertable p sibling) hcheck] at hrun
  | ok u =>
      obtain ⟨-, -, -, hout, -⟩ := checkInsertable_sound lk hcheck
      obtain ⟨s', kids', hdet, det⟩ := detach_spec lk hsib
      obtain ⟨np, hnp, -⟩ := container_after_detach lk hcheck det
      obtain ⟨m, hm, hmp⟩ := det.orphaned
      have hne : p ≠ sibling := fun heq => hout [] (congrArg some heq.symm)
      have hprev := ((det.linked lk).orphan sibling m hm hmp).1
      have hlive : s'.contains sibling = true := by rw [contains, hm]; rfl
      have hlivep : s'.contains p = true := by rw [contains, hnp]; rfl
      obtain ⟨t₁, hrun₁, -, hget₁⟩ :=
        update_view (fun m' => { m' with parent := some p, prevSibling := m.prevSibling,
                                         nextSibling := some sibling }) hlive
      obtain ⟨t₂, hrun₂, -, hget₂⟩ :=
        update_view (fun m' => { m' with prevSibling := some sibling })
          ((contains_of_map hget₁ _).trans hlive)
      obtain ⟨t₃, hrun₃, -, hget₃⟩ :=
        @setForward_view t₂ p none (some sibling)
          ((contains_of_map hget₂ _).trans ((contains_of_map hget₁ _).trans hlivep))
      rw [← hprev] at hrun₃
      have hend : t = t₃.notifyInsert p sibling := by
        simp [insertBefore, run_bind, resolve_eq_ok hsib, hparent,
          check_eq_ok (fun s => s.checkInsertable p sibling) hcheck, hdet,
          resolve_eq_ok hm, hrun₁, hrun₂, hrun₃] at hrun
        exact hrun.symm
      rw [hend, TreeInv.get_notifyInsert, hget₃, hget₂, hget₁] at lk'
      -- the parent's first child is the node, and so is the node's next sibling
      have hfirst := lk'.first p _ (by simp only [hnp, Option.map_some]; rfl)
      simp only [forwardNode, and_self, if_true] at hfirst
      obtain ⟨rest, hrest⟩ := List.head?_eq_some_iff.mp hfirst.symm
      obtain ⟨m', hm', -, -, hnext⟩ := lk'.link p [] sibling rest hrest
      simp only [hm, Option.map_some, Option.some.injEq, if_true] at hm'
      rw [← hm'] at hnext
      simp only [forwardNode, reduceCtorEq, if_false] at hnext
      have hmem : sibling ∈ rest := List.mem_of_mem_head? hnext.symm
      have hnodup := lk'.nodup p
      rw [hrest] at hnodup
      exact (List.nodup_cons.mp hnodup).1 hmem

end

/-- An arena of a run of plain calls has the lists of its links. -/
theorem lists_after {ops : List Op} (hplain : ∀ op ∈ ops, op.Plain) : Lists (after ops) (after ops).childIds := by
  have inv : TreeInv (after ops) :=
    run_induction (fun _ _ inv hop => Op.keeps_treeInv hop inv) ops Arena.new TreeInv.new
      (each_of_forall ops _ fun op hop _ => hplain op hop)
  obtain ⟨kids, lk⟩ := inv.linked
  have heq : (after ops).childIds = kids := funext fun q => childIds_eq lk q
  rw [heq]
  exact .of_linked lk inv.document

/-- A fragment with two texts. -/
def twoTexts : Arena := after
  [.create .fragment, .create (.text "a"), .create (.text "b"), .appendChild ⟨1, 1⟩ ⟨2, 1⟩, .appendChild ⟨1, 1⟩ ⟨3, 1⟩]

/-- A node that has been inserted before a sibling is where it was asked for exactly when the sibling is another node. -/
theorem insert_before_places_iff {s : Arena} {kids : NodeId → List NodeId} (lists : Lists s kids) {sibling x p : NodeId}
    {n : Node} {t : Arena} (hsib : s.get sibling = some n) (hparent : n.parent = some p)
    (hrun : insertBefore sibling x s = .ok ⟨⟩ t) : Lists t (placedLists kids p sibling x) ↔ sibling ≠ x := by
  constructor
  · rintro hlists rfl
    exact not_linked_insertBefore_self lists hsib hparent hrun _ hlists.linked
  · exact fun hne => lists_insertBefore lists hsib hparent hne hrun

/-- A fragment with two texts: the second is put before the first. -/
theorem insert_before_places_second :
    Lists (final (insertBefore ⟨2, 1⟩ ⟨3, 1⟩ twoTexts)) (placedLists twoTexts.childIds ⟨1, 1⟩ ⟨2, 1⟩ ⟨3, 1⟩) := by
  refine (insert_before_places_iff (lists_after ?_) rfl rfl rfl).mpr ?_
  · simp [Op.Plain, NodeData.templateContents]
  · decide

/-- A text that is inserted before itself: its parent has no list of children any more. -/
theorem insert_before_self : ∃ t, insertBefore ⟨2, 1⟩ ⟨2, 1⟩ twoTexts = .ok ⟨⟩ t ∧
    twoTexts.children ⟨1, 1⟩ = some [⟨2, 1⟩, ⟨3, 1⟩] ∧ t.children ⟨1, 1⟩ = none :=
  ⟨_, rfl, by decide, by decide⟩

end Arena

end Pelorus.Dom

/-! # Boundary points are in document order

A POINT HAS A KEY: for every step down to its node one more than twice the child's index, and
then twice its offset.  The comparison is that of keys, and so it orders the points of a tree;
points of different trees have no order. -/

namespace Pelorus.Dom

open Lib.Forest Lib.DocumentOrder

/-- A live node with its address. -/
structure NodeAt (s : Arena) (kids : NodeId → List NodeId) (r : NodeId) (path : List Nat) (a : NodeId) : Prop where
  live : s.contains a = true
  addr : Addr kids r path a

namespace Arena

section

variable {s : Arena} {kids : NodeId → List NodeId} (lk : Linked s.get kids)

include lk

variable {a r : NodeId} {b : BoundaryPoint} {path path' : List Nat}

theorem placed_of_live (h : s.contains a = true) : ∃ r path, NodeAt s kids r path a := by
  obtain ⟨n, hn⟩ := Option.isSome_iff_exists.mp h
  obtain ⟨r, path, haddr, -⟩ := lk.rooted a n hn
  exact ⟨r, path, h, haddr⟩

theorem compare_of_placed {a : BoundaryPoint} (ha : NodeAt s kids r path a.node)
    (hb : NodeAt s kids r path' b.node) :
    s.compareBoundaryPoints a b = some (order (key path a.offset) (key path' b.offset)) := by
  obtain ⟨na, hna⟩ := Option.isSome_iff_exists.mp ha.live
  obtain ⟨nb, hnb⟩ := Option.isSome_iff_exists.mp hb.live
  exact compareBoundaryPoints_eq lk hna hnb ha.addr hb.addr a.offset b.offset

/-- Points are compared when their nodes are live and in one tree. -/
theorem compare_ne_none_iff {a : BoundaryPoint} :
    s.compareBoundaryPoints a b ≠ none ↔
      ∃ r path path', NodeAt s kids r path a.node ∧ NodeAt s kids r path' b.node := by
  constructor
  · intro h
    obtain ⟨position, hposition⟩ := Option.ne_none_iff_exists'.mp h
    obtain ⟨r, path, path', na, nb, ha, hb, haddr, haddr'⟩ := addr_of_compare lk hposition
    refine ⟨r, path, path', ⟨?_, haddr⟩, ⟨?_, haddr'⟩⟩
    · rw [contains, ha]; rfl
    · rw [contains, hb]; rfl
  · rintro ⟨r, path, path', ha, hb⟩
    rw [compare_of_placed lk ha hb]
    exact Option.some_ne_none _

theorem live_of_compare {a : BoundaryPoint} {x : Position} (h : s.compareBoundaryPoints a b = some x) :
    ∃ r path path', NodeAt s kids r path a.node ∧ NodeAt s kids r path' b.node :=
  (compare_ne_none_iff lk).mp (by rw [h]; exact Option.some_ne_none x)

theorem placed_unique {r' : NodeId} (h : NodeAt s kids r path a) (h' : NodeAt s kids r' path' a) :
    r = r' ∧ path = path' :=
  lk.branching.addr_unique h.addr h'.addr

theorem compare_orders :
    (∀ a, s.contains a.node = true → s.compareBoundaryPoints a a = some .equal) ∧
      (∀ a b, s.compareBoundaryPoints b a = (s.compareBoundaryPoints a b).map Position.mirror) ∧
      ∀ a b c x y, s.compareBoundaryPoints a b = some x → s.compareBoundaryPoints b c = some y → x ≠ .after → y ≠ .after →
        ∃ z, s.compareBoundaryPoints a c = some z ∧ z ≠ .after := by
  refine ⟨fun a ha => ?_, fun a b => ?_, fun a b c x y hab hbc hx hy => ?_⟩
  · obtain ⟨r, path, hplaced⟩ := placed_of_live lk ha
    rw [compare_of_placed lk hplaced hplaced, order, if_neg (lt_irrefl _), if_pos rfl]
  · cases hab : s.compareBoundaryPoints a b with
    | none =>
        by_contra hba
        obtain ⟨r, path, path', hb, ha⟩ := (compare_ne_none_iff lk).mp hba
        rw [compare_of_placed lk ha hb] at hab
        cases hab
    | some x =>
        obtain ⟨r, path, path', ha, hb⟩ := live_of_compare lk hab
        rw [compare_of_placed lk ha hb] at hab
        rw [compare_of_placed lk hb ha, Option.map_some, ← Option.some.inj hab, order_mirror]
  · obtain ⟨r, path, path', ha, hb⟩ := live_of_compare lk hab
    obtain ⟨r', path₁, path'', hb', hc⟩ := live_of_compare lk hbc
    obtain ⟨rfl, rfl⟩ := placed_unique lk hb hb'
    rw [compare_of_placed lk ha hb, Option.some.injEq] at hab
    rw [compare_of_placed lk hb hc, Option.some.injEq] at hbc
    rw [← hab, order_ne_after] at hx
    rw [← hbc, order_ne_after] at hy
    exact ⟨_, compare_of_placed lk ha hc, order_ne_after.mpr (le_trans hx hy)⟩

/-- The iterator lists what is below a node, each once and in the order of addresses, with any budget
that has room for every slot. -/
theorem descendants_preorder (ha : s.contains a = true) :
    (s.descendants a).Nodup ∧ (∀ c, c ∈ s.descendants a ↔ ∃ path, follow kids a path = some c) ∧
      (∀ c d path path', follow kids a path = some c → follow kids a path' = some d → path < path' →
        ∃ pre post, s.descendants a = pre ++ c :: post ∧ d ∈ post) ∧
      ∀ budget, s.slots.length ≤ budget → descendantsFrom s budget [a] = s.descendants a := by
  obtain ⟨n, hn⟩ := Option.isSome_iff_exists.mp ha
  obtain ⟨r, lead, haddr, -⟩ := lk.rooted a n hn
  rw [descendants_eq lk hn]
  refine ⟨preorder_nodup lk.branching MAX_DEPTH haddr, fun c => ?_, fun c d path path' hc hd hlt => ?_, fun budget hbudget => ?_⟩
  · rw [mem_preorder]
    constructor
    · rintro ⟨path, -, hpath⟩
      exact ⟨path, hpath⟩
    · rintro ⟨path, hpath⟩
      exact ⟨path, length_le_depth lk hn hpath, hpath⟩
  · exact preorder_sorted hc hd (length_le_depth lk hn hc) (length_le_depth lk hn hd) hlt
  · exact descendantsFrom_of_live lk hn hbudget

omit lk in
theorem idxOf_lt_of_split {l pre post : List NodeId} {c d : NodeId} (hnodup : l.Nodup) (hsplit : l = pre ++ c :: post)
    (hd : d ∈ post) : l.idxOf c < l.idxOf d := by
  rw [hsplit] at hnodup ⊢
  have hc := (List.nodup_cons.mp (List.nodup_middle.mp hnodup)).1
  have hdisj := List.disjoint_of_nodup_append hnodup
  have hne : c ≠ d := fun heq => hc (List.mem_append_right _ (heq ▸ hd))
  have hpre : d ∉ pre := fun h => hdisj h (List.mem_cons_of_mem _ hd)
  rw [idxOf_split hnodup, List.idxOf_append_of_notMem hpre, List.idxOf_cons_ne _ hne]
  omega

/-- One node precedes another when it stands before it in the listing of their tree. -/
theorem precedes_of_placed {b : NodeId} (ha : NodeAt s kids r path a)
    (hb : NodeAt s kids r path' b) (hne : a ≠ b) :
    s.precedes a b = some (decide ((s.descendants r).idxOf a < (s.descendants r).idxOf b)) := by
  obtain ⟨na, hna⟩ := Option.isSome_iff_exists.mp ha.live
  obtain ⟨nb, hnb⟩ := Option.isSome_iff_exists.mp hb.live
  have hroot : s.contains r = true := lk.live_of_follow ha.addr.leads ha.live
  obtain ⟨hnodup, -, hsorted, -⟩ := descendants_preorder lk hroot
  rcases lt_trichotomy path path' with hlt | heq | hgt
  · obtain ⟨pre, post, hsplit, hmem⟩ := hsorted a b path path' ha.addr.leads hb.addr.leads hlt
    rw [(precedes_of_lt lk hna hnb ha.addr hb.addr hlt).1, decide_eq_true (idxOf_lt_of_split hnodup hsplit hmem)]
  · have hleads := ha.addr.leads
    rw [heq, hb.addr.leads] at hleads
    exact absurd (Option.some.inj hleads).symm hne
  · obtain ⟨pre, post, hsplit, hmem⟩ := hsorted b a path' path hb.addr.leads ha.addr.leads hgt
    have hle := Nat.le_of_lt (idxOf_lt_of_split hnodup hsplit hmem)
    rw [(precedes_of_lt lk hnb hna hb.addr ha.addr hgt).2, decide_eq_false (Nat.not_lt.mpr hle)]

theorem precedes_of_apart {b : NodeId}
    (h : a = b ∨ ¬∃ r path path', NodeAt s kids r path a ∧ NodeAt s kids r path' b) : s.precedes a b = none := by
  rcases h with rfl | h
  · rw [precedes, beq_self_eq_true, Bool.or_true, if_pos rfl]
  · by_cases ha : s.contains a = true
    · by_cases hb : s.contains b = true
      · obtain ⟨r, path, hra⟩ := placed_of_live lk ha
        obtain ⟨r', path', hrb⟩ := placed_of_live lk hb
        obtain ⟨na, hna⟩ := Option.isSome_iff_exists.mp ha
        obtain ⟨nb, hnb⟩ := Option.isSome_iff_exists.mp hb
        refine precedes_eq_none lk hna hnb hra.addr hrb.addr ?_
        rintro rfl
        exact h ⟨r, path, path', hra, hrb⟩
      · rw [precedes, Bool.eq_false_iff.mpr hb, Bool.not_false, Bool.or_true, Bool.true_or, if_pos rfl]
    · rw [precedes, Bool.eq_false_iff.mpr ha, Bool.not_false, Bool.true_or, Bool.true_or, if_pos rfl]

/-- The comparison of boundary points is the order of their keys, `precedes` is the order of positions in the listing
of a tree, and that listing has every node below its root once, parents and earlier siblings first. -/
theorem boundary_order :
    (∀ a b, s.compareBoundaryPoints a b = none ↔
        ¬∃ r path path', NodeAt s kids r path a.node ∧ NodeAt s kids r path' b.node) ∧
      (∀ a b r path path', NodeAt s kids r path a.node → NodeAt s kids r path' b.node →
        s.compareBoundaryPoints a b = some (order (key path a.offset) (key path' b.offset))) ∧
      ((∀ a, s.contains a.node = true → s.compareBoundaryPoints a a = some .equal) ∧
        (∀ a b, s.compareBoundaryPoints b a = (s.compareBoundaryPoints a b).map Position.mirror) ∧
        ∀ a b c x y, s.compareBoundaryPoints a b = some x → s.compareBoundaryPoints b c = some y → x ≠ .after → y ≠ .after →
          ∃ z, s.compareBoundaryPoints a c = some z ∧ z ≠ .after) ∧
      (∀ a b r path path', NodeAt s kids r path a → NodeAt s kids r path' b → a ≠ b →
        s.precedes a b = some (decide ((s.descendants r).idxOf a < (s.descendants r).idxOf b))) ∧
      (∀ a b, a = b ∨ (¬∃ r path path', NodeAt s kids r path a ∧ NodeAt s kids r path' b) → s.precedes a b = none) ∧
      ∀ a, s.contains a = true →
        (s.descendants a).Nodup ∧ (∀ c, c ∈ s.descendants a ↔ ∃ path, follow kids a path = some c) ∧
          (∀ c d path path', follow kids a path = some c → follow kids a path' = some d → path < path' →
            ∃ pre post, s.descendants a = pre ++ c :: post ∧ d ∈ post) ∧
          ∀ budget, s.slots.length ≤ budget → descendantsFrom s budget [a] = s.descendants a := by
  refine ⟨fun a b => ?_, fun a b r path path' ha hb => compare_of_placed lk ha hb, compare_orders lk,
    fun a b r path path' ha hb hne => precedes_of_placed lk ha hb hne, fun a b h => precedes_of_apart lk h,
    fun a ha => descendants_preorder lk ha⟩
  rw [← compare_ne_none_iff lk, not_not]

end

/-- Of two texts side by side, the comparison one way mirrors the one the other way. -/
theorem boundary_order_texts :
    twoTexts.compareBoundaryPoints ⟨⟨3, 1⟩, 0⟩ ⟨⟨2, 1⟩, 4⟩ =
      (twoTexts.compareBoundaryPoints ⟨⟨2, 1⟩, 4⟩ ⟨⟨3, 1⟩, 0⟩).map Position.mirror := by
  have lists := @lists_after [.create .fragment, .create (.text "a"), .create (.text "b"),
    .appendChild ⟨1, 1⟩ ⟨2, 1⟩, .appendChild ⟨1, 1⟩ ⟨3, 1⟩] (by simp [Op.Plain, NodeData.templateContents])
  exact (boundary_order lists.linked).2.2.1.2.1 ⟨⟨2, 1⟩, 4⟩ ⟨⟨3, 1⟩, 0⟩

end Arena

end Pelorus.Dom
