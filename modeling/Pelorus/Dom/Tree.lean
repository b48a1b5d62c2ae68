import Pelorus.Dom.Arena
import Pelorus.Lib.Forest

/-
  Dom/Tree.lean --- when the links of the nodes spell out a forest.

  `view` is what handles resolve to.  `Linked view kids` says that the five link
  fields of every live node are exactly those of the ordered forest `kids`: the
  first and last child, the parent, and the two siblings.  Every live node is
  below a root, at most `MAX_DEPTH` down.

  The two edits of the arena are stated here on views, away from the code: a
  node spliced out of its parent's list (`Linked.spliceOut`) and a parentless
  node spliced into one (`Linked.spliceIn`).  The code's relinking is shown to be
  these edits in `Dom/Relink.lean`.
-/
set_option autoImplicit false

namespace Pelorus.Dom

open Lib.Forest

/-- The links of the live nodes are those of the forest `kids`. -/
structure Linked (view : NodeId → Option Node) (kids : NodeId → List NodeId) : Prop where
  stale : ∀ p, view p = none → kids p = []
  nodup : ∀ p, (kids p).Nodup
  first : ∀ p n, view p = some n → n.firstChild = (kids p).head?
  last : ∀ p n, view p = some n → n.lastChild = (kids p).getLast?
  link : ∀ p pre c post, kids p = pre ++ c :: post →
    ∃ m, view c = some m ∧ m.parent = some p ∧ m.prevSibling = pre.getLast? ∧
      m.nextSibling = post.head?
  member : ∀ c m p, view c = some m → m.parent = some p → c ∈ kids p
  orphan : ∀ c m, view c = some m → m.parent = none → m.prevSibling = none ∧ m.nextSibling = none
  container : ∀ p n, view p = some n → kids p ≠ [] → n.data.canHaveChildren = true
  rooted : ∀ c m, view c = some m → ∃ r path, Addr kids r path c ∧ path.length ≤ MAX_DEPTH

namespace Linked

variable {view : NodeId → Option Node} {kids : NodeId → List NodeId} (lk : Linked view kids)

include lk

variable {c p : NodeId}

/-- A child is live and names its parent. -/
theorem parent_of_mem {p : NodeId} (h : c ∈ kids p) : ∃ m, view c = some m ∧ m.parent = some p := by
  obtain ⟨pre, post, hsplit⟩ := List.append_of_mem h
  obtain ⟨m, hm, hparent, -, -⟩ := lk.link p pre c post hsplit
  exact ⟨m, hm, hparent⟩

theorem branching : Branching kids where
  nodup := lk.nodup
  parent_unique p q c hp hq := by
    obtain ⟨m, hm, hparent⟩ := lk.parent_of_mem hp
    obtain ⟨m', hm', hparent'⟩ := lk.parent_of_mem hq
    rw [hm] at hm'
    cases hm'
    rw [hparent] at hparent'
    exact Option.some_inj.mp hparent'

theorem live_of_kids (h : c ∈ kids p) : ∃ n, view p = some n := by
  cases hp : view p with
  | none => simp [lk.stale p hp] at h
  | some n => exact ⟨n, rfl⟩

theorem isRoot_iff {m : Node} (hc : view c = some m) : IsRoot kids c ↔ m.parent = none := by
  constructor
  · intro root
    cases hp : m.parent with
    | none => rfl
    | some p => exact absurd (lk.member c m p hc hp) (root p)
  · intro hnone p hmem
    obtain ⟨m', hm', hparent⟩ := lk.parent_of_mem hmem
    rw [hc] at hm'
    cases hm'
    rw [hnone] at hparent
    cases hparent

theorem split {m : Node} (hc : view c = some m) (hp : m.parent = some p) :
    ∃ pre post n, kids p = pre ++ c :: post ∧ view p = some n ∧ m.prevSibling = pre.getLast? ∧
      m.nextSibling = post.head? := by
  have hmem := lk.member c m p hc hp
  obtain ⟨pre, post, hsplit⟩ := List.append_of_mem hmem
  obtain ⟨m', hm', -, hprev, hnext⟩ := lk.link p pre c post hsplit
  rw [hc] at hm'
  cases hm'
  obtain ⟨n, hn⟩ := lk.live_of_kids hmem
  exact ⟨pre, post, n, hsplit, hn, hprev, hnext⟩

/-- No node is its own child. -/
theorem not_mem_self (p : NodeId) : p ∉ kids p := by
  intro hmem
  obtain ⟨n, hn⟩ := lk.live_of_kids hmem
  obtain ⟨r, path, haddr, -⟩ := lk.rooted p n hn
  obtain ⟨i, hi⟩ := List.mem_iff_getElem?.mp hmem
  have hself : follow kids p [i] = some p := by simp [hi]
  have hloop := lk.branching.no_loop haddr hself
  simp at hloop

theorem live_of_follow {a : NodeId} {path : List Nat} (h : follow kids a path = some c)
    (hc : (view c).isSome = true) : (view a).isSome = true := by
  cases path with
  | nil =>
      cases h
      exact hc
  | cons i path =>
      obtain ⟨d, hd, -⟩ := Option.bind_eq_some_iff.mp h
      obtain ⟨n, hn⟩ := lk.live_of_kids (List.mem_of_getElem? hd)
      simp [hn]

/-- The parent of a listed child is the list's owner. -/
theorem owner_unique {q : NodeId} (hp : c ∈ kids p) (hq : c ∈ kids q) : q = p :=
  lk.branching.parent_unique q p c hq hp

end Linked

/-- The last of a list is not an element with others after it. -/
theorem getLast?_ne_of_nodup {l pre mid : List NodeId} {c d : NodeId}
    (h : l = pre ++ c :: d :: mid) (hnodup : l.Nodup) : l.getLast? ≠ some c := by
  intro hlast
  rw [h] at hnodup hlast
  have hmem : c ∈ d :: mid := by
    rw [List.getLast?_append, List.getLast?_cons_cons] at hlast
    cases hl : (d :: mid).getLast? with
    | none => simp at hl
    | some e =>
        rw [hl, Option.some_or] at hlast
        exact List.mem_of_getLast? (hl.trans hlast)
  exact (List.nodup_cons.mp (List.nodup_append.mp hnodup).2.1).1 hmem

/-- In a list without duplicates the index of an element is the length before it. -/
theorem idxOf_split {pre post : List NodeId} {c : NodeId} (hnodup : (pre ++ c :: post).Nodup) :
    (pre ++ c :: post).idxOf c = pre.length := by
  have hc := (List.nodup_cons.mp (List.nodup_middle.mp hnodup)).1
  rw [List.idxOf_append_of_notMem fun h => hc (List.mem_append_left _ h), List.idxOf_cons_self,
    Nat.add_zero]

/-- A list without duplicates splits at an element in one way. -/
theorem split_unique {pre post pre' post' : List NodeId} {c : NodeId}
    (hnodup : (pre ++ c :: post).Nodup) (h : pre ++ c :: post = pre' ++ c :: post') :
    pre = pre' ∧ post = post' := by
  have hlen : pre.length = pre'.length := by
    rw [← idxOf_split hnodup, h, idxOf_split (h ▸ hnodup)]
  obtain ⟨hpre, hpost⟩ := List.append_inj h hlen
  exact ⟨hpre, (List.cons.inj hpost).2⟩

/-! ## Splicing -/

section Splice

variable {view : NodeId → Option Node} {kids : NodeId → List NodeId} (lk : Linked view kids)
  {p x : NodeId} {pre old new post : List NodeId} (hsplit : kids p = pre ++ old ++ post)

include hsplit

theorem mem_of_neighbour {c : NodeId} (h : pre.getLast? = some c ∨ post.head? = some c) : c ∈ kids p := by
  rw [hsplit]
  rcases h with h | h
  · exact List.mem_append_left _ (List.mem_append_left _ (List.mem_of_getLast? h))
  · exact List.mem_append_right _ (List.mem_of_head? h)

include lk

/-- A child to the right of the cut. -/
theorem link_right (new : List NodeId) {mid post' : List NodeId} {c : NodeId} (h : post = mid ++ c :: post') :
    ∃ m, view c = some m ∧ m.parent = some p ∧
      (if post.head? = some c then (pre ++ new).getLast? else m.prevSibling) = (pre ++ new ++ mid).getLast? ∧
      (if pre.getLast? = some c then (new ++ post).head? else m.nextSibling) = post'.head? := by
  obtain ⟨m, hm, hparent, hprev, hnext⟩ := lk.link p (pre ++ old ++ mid) c post' (by rw [hsplit, h]; simp)
  have hnodup := lk.nodup p
  rw [hsplit, h] at hnodup
  refine ⟨m, hm, hparent, ?_, ?_⟩
  · cases mid with
    | nil => simp [h]
    | cons d mid =>
        have hd : d ≠ c := by
          rintro rfl
          simpa using (List.nodup_append.mp hnodup).2.1
        simp [h, hd, hprev, List.getLast?_append, List.getLast?_cons]
  · have hne : pre.getLast? ≠ some c := by
      intro hlast
      exact List.disjoint_of_nodup_append hnodup (List.mem_append_left old (List.mem_of_getLast? hlast)) (by simp)
    rw [if_neg hne, hnext]

/-- A child to the left of the cut. -/
theorem link_left (new : List NodeId) {pre' mid : List NodeId} {c : NodeId} (h : pre = pre' ++ c :: mid) :
    ∃ m, view c = some m ∧ m.parent = some p ∧
      (if post.head? = some c then (pre ++ new).getLast? else m.prevSibling) = pre'.getLast? ∧
      (if pre.getLast? = some c then (new ++ post).head? else m.nextSibling) = (mid ++ new ++ post).head? := by
  obtain ⟨m, hm, hparent, hprev, hnext⟩ := lk.link p pre' c (mid ++ old ++ post) (by rw [hsplit, h]; simp)
  have hnodup := lk.nodup p
  rw [hsplit, List.append_assoc] at hnodup
  refine ⟨m, hm, hparent, ?_, ?_⟩
  · have hne : post.head? ≠ some c := by
      intro hhead
      exact List.disjoint_of_nodup_append hnodup (by simp [h])
        (List.mem_append_right old (List.mem_of_head? hhead))
    rw [if_neg hne, hprev]
  · cases mid with
    | nil => simp [h]
    | cons d mid =>
        have hne : pre.getLast? ≠ some c := getLast?_ne_of_nodup h (List.nodup_append.mp hnodup).1
        rw [if_neg hne, hnext]
        rfl

/-- With `new` for `old` every other child of `p` is linked to its new neighbours. -/
theorem link_other {pre' post' : List NodeId} {c : NodeId} (h : pre ++ new ++ post = pre' ++ c :: post')
    (hc : c ∉ new) : ∃ m, view c = some m ∧ m.parent = some p ∧
      (if post.head? = some c then (pre ++ new).getLast? else m.prevSibling) = pre'.getLast? ∧
      (if pre.getLast? = some c then (new ++ post).head? else m.nextSibling) = post'.head? := by
  rcases List.append_eq_append_iff.mp h with ⟨mid, rfl, hpost⟩ | ⟨mid, hleft, hmid⟩
  · exact link_right lk hsplit new hpost
  · cases mid with
    | nil =>
        obtain rfl : pre ++ new = pre' := by simpa using hleft
        have hright := link_right lk hsplit new (by simpa using hmid.symm : post = [] ++ c :: post')
        rwa [List.append_nil] at hright
    | cons d mid =>
        obtain ⟨rfl, rfl⟩ := List.cons.inj hmid
        rcases List.append_eq_append_iff.mp hleft with ⟨rest, -, hnew⟩ | ⟨rest, hpre, hnew⟩
        · exact absurd (hnew ▸ List.mem_append_right _ List.mem_cons_self) hc
        · cases rest with
          | nil =>
              rw [List.nil_append] at hnew
              exact absurd (hnew ▸ List.mem_cons_self) hc
          | cons e rest =>
              obtain ⟨rfl, rfl⟩ := List.cons.inj hnew
              exact link_left lk hsplit new hpre

/-- What putting `new` for `old` makes of the links; those of `x`, which comes or goes, apart. -/
structure Relinks (p x : NodeId) (pre new post : List NodeId) (f : NodeId → Node → Node) : Prop where
  data : ∀ q m, (f q m).data = m.data
  first : ∀ q m, (f q m).firstChild =
    if q = p ∧ pre.getLast? = none then (new ++ post).head? else m.firstChild
  last : ∀ q m, (f q m).lastChild =
    if q = p ∧ post.head? = none then (pre ++ new).getLast? else m.lastChild
  parent : ∀ q m, q ≠ x → (f q m).parent = m.parent
  prev : ∀ q m, q ≠ x → (f q m).prevSibling =
    if post.head? = some q then (pre ++ new).getLast? else m.prevSibling
  next : ∀ q m, q ≠ x → (f q m).nextSibling =
    if pre.getLast? = some q then (new ++ post).head? else m.nextSibling

/-- The forest with `new` for `old` in `p`'s list, where one of the two is `x` and the other nothing. -/
theorem Linked.splice {f : NodeId → Node → Node} (hf : Relinks p x pre new post f)
    (hx : ∀ c, c ∈ old ∨ c ∈ new → c = x) (hown : ∀ q, x ∈ kids q → q = p) {np : Node}
    (hnp : view p = some np) (cont : np.data.canHaveChildren = true)
    (nodup : ∀ q, (Function.update kids p (pre ++ new ++ post) q).Nodup)
    (link : ∀ pre' post', pre ++ new ++ post = pre' ++ x :: post' → ∃ m, view x = some m ∧
      (f x m).parent = some p ∧ (f x m).prevSibling = pre'.getLast? ∧ (f x m).nextSibling = post'.head?)
    (member : ∀ m q, view x = some m → (f x m).parent = some q →
      x ∈ Function.update kids p (pre ++ new ++ post) q)
    (orphan : ∀ m, view x = some m → (f x m).parent = none →
      (f x m).prevSibling = none ∧ (f x m).nextSibling = none)
    (rooted : ∀ c m, view c = some m → ∃ r path,
      Addr (Function.update kids p (pre ++ new ++ post)) r path c ∧ path.length ≤ MAX_DEPTH) :
    Linked (fun q => (view q).map (f q)) (Function.update kids p (pre ++ new ++ post)) := by
  have hother : ∀ c, c ∉ kids p → post.head? ≠ some c ∧ pre.getLast? ≠ some c := fun c hc =>
    ⟨fun h => hc (mem_of_neighbour hsplit (Or.inr h)), fun h => hc (mem_of_neighbour hsplit (Or.inl h))⟩
  refine ⟨?_, nodup, ?_, ?_, ?_, ?_, ?_, ?_, ?_⟩
  · intro q hq
    have hq := Option.map_eq_none_iff.mp hq
    have hne : q ≠ p := by
      rintro rfl
      rw [hnp] at hq
      cases hq
    rw [Function.update_of_ne hne]
    exact lk.stale q hq
  · intro q n hq
    obtain ⟨m, hm, rfl⟩ := Option.map_eq_some_iff.mp hq
    have hfirst := lk.first q m hm
    rw [hf.first]
    by_cases hqp : q = p
    · subst hqp
      rw [Function.update_self]
      rw [hsplit] at hfirst
      cases pre <;> simp [hfirst]
    · rw [Function.update_of_ne hqp, if_neg fun h => hqp h.1, hfirst]
  · intro q n hq
    obtain ⟨m, hm, rfl⟩ := Option.map_eq_some_iff.mp hq
    have hlast := lk.last q m hm
    rw [hf.last]
    by_cases hqp : q = p
    · subst hqp
      rw [Function.update_self]
      rw [hsplit] at hlast
      cases post <;> simp [hlast, List.getLast?_append, List.getLast?_cons]
    · rw [Function.update_of_ne hqp, if_neg fun h => hqp h.1, hlast]
  · intro q pre' c post' hq
    by_cases hcx : c = x
    · subst hcx
      by_cases hqp : q = p
      · subst hqp
        rw [Function.update_self] at hq
        obtain ⟨m, hm, hlinks⟩ := link pre' post' hq
        exact ⟨_, Option.map_eq_some_iff.mpr ⟨m, hm, rfl⟩, hlinks⟩
      · rw [Function.update_of_ne hqp] at hq
        exact absurd (hown q (by simp [hq])) hqp
    · by_cases hqp : q = p
      · subst hqp
        rw [Function.update_self] at hq
        obtain ⟨m, hm, hparent, hprev, hnext⟩ := link_other lk hsplit hq fun h => hcx (hx c (Or.inr h))
        exact ⟨_, Option.map_eq_some_iff.mpr ⟨m, hm, rfl⟩, (hf.parent c m hcx).trans hparent,
          (hf.prev c m hcx).trans hprev, (hf.next c m hcx).trans hnext⟩
      · rw [Function.update_of_ne hqp] at hq
        obtain ⟨m, hm, hparent, hprev, hnext⟩ := lk.link q pre' c post' hq
        -- a child of another list is no neighbour of the cut
        obtain ⟨hafter, hbefore⟩ := hother c fun h => hqp (lk.owner_unique h (by simp [hq]))
        exact ⟨_, Option.map_eq_some_iff.mpr ⟨m, hm, rfl⟩, (hf.parent c m hcx).trans hparent,
          by rw [hf.prev c m hcx, if_neg hafter, hprev], by rw [hf.next c m hcx, if_neg hbefore, hnext]⟩
  · intro c n q hc hparent
    obtain ⟨m, hm, rfl⟩ := Option.map_eq_some_iff.mp hc
    by_cases hcx : c = x
    · subst hcx
      exact member m q hm hparent
    · rw [hf.parent c m hcx] at hparent
      have hmem := lk.member c m q hm hparent
      by_cases hqp : q = p
      · subst hqp
        rw [hsplit] at hmem
        rw [Function.update_self]
        have hold : c ∉ old := fun h => hcx (hx c (Or.inl h))
        simp only [List.mem_append, hold, or_false] at hmem ⊢
        exact hmem.imp_left Or.inl
      · rwa [Function.update_of_ne hqp]
  · intro c n hc hparent
    obtain ⟨m, hm, rfl⟩ := Option.map_eq_some_iff.mp hc
    by_cases hcx : c = x
    · subst hcx
      exact orphan m hm hparent
    · rw [hf.parent c m hcx] at hparent
      obtain ⟨hafter, hbefore⟩ := hother c ((lk.isRoot_iff hm).mpr hparent p)
      rw [hf.prev c m hcx, hf.next c m hcx, if_neg hafter, if_neg hbefore]
      exact lk.orphan c m hm hparent
  · intro q n hq hne
    obtain ⟨m, hm, rfl⟩ := Option.map_eq_some_iff.mp hq
    rw [hf.data]
    by_cases hqp : q = p
    · subst hqp
      rw [hnp] at hm
      cases hm
      exact cont
    · rw [Function.update_of_ne hqp] at hne
      exact lk.container q m hm hne
  · intro c n hc
    obtain ⟨m, hm, rfl⟩ := Option.map_eq_some_iff.mp hc
    exact rooted c m hm

end Splice

/-! ## Splicing a node out -/

/-- The links of `q` once `x` is out of `p`'s list, `before` and `next` being its
old neighbours. -/
def spliceOutNode (p x : NodeId) (before next : Option NodeId) (q : NodeId) (m : Node) : Node :=
  { m with
    parent := if q = x then none else m.parent
    firstChild := if q = p ∧ before = none then next else m.firstChild
    lastChild := if q = p ∧ next = none then before else m.lastChild
    prevSibling := if q = x then none else if next = some q then before else m.prevSibling
    nextSibling := if q = x then none else if before = some q then next else m.nextSibling }

section SpliceOut

variable {view : NodeId → Option Node} {kids : NodeId → List NodeId} (lk : Linked view kids)
  {p x : NodeId} {pre post : List NodeId} (hsplit : kids p = pre ++ x :: post)

include lk hsplit

variable {c : NodeId}

/-- The neighbours of a cut child are its siblings, and neither is the child. -/
theorem neighbour_out (h : pre.getLast? = some c ∨ post.head? = some c) : c ∈ kids p ∧ c ≠ x := by
  have hnodup := lk.nodup p
  rw [hsplit] at hnodup ⊢
  have hx := (List.nodup_cons.mp (List.nodup_middle.mp hnodup)).1
  have hmem : c ∈ pre ++ post := by
    rcases h with h | h
    · exact List.mem_append_left _ (List.mem_of_getLast? h)
    · exact List.mem_append_right _ (List.mem_of_head? h)
  refine ⟨by rcases List.mem_append.mp hmem with h | h <;> simp [h], ?_⟩
  rintro rfl
  exact hx hmem

theorem Linked.spliceOut :
    Linked (fun q => (view q).map (spliceOutNode p x pre.getLast? post.head? q))
      (Function.update kids p (pre ++ post)) := by
  have hbr := lk.branching
  have hx : x ∈ kids p := by simp [hsplit]
  obtain ⟨np, hnp⟩ := lk.live_of_kids hx
  have hroot := isRoot_cut_self hbr hsplit
  have hf : Relinks p x pre [] post (spliceOutNode p x pre.getLast? post.head?) := by
    constructor <;> intros <;> simp_all [spliceOutNode]
  have hnil : pre ++ [] ++ post = pre ++ post := by rw [List.append_nil]
  rw [← hnil] at hroot ⊢
  have hsplit' : kids p = pre ++ [x] ++ post := by simpa using hsplit
  refine lk.splice hsplit' hf (by simp) (fun q hq => lk.owner_unique hx hq) hnp
    (lk.container p np hnp (List.ne_nil_of_mem hx)) ?_ ?_ ?_ ?_ ?_
  · exact hnil ▸ (hbr.cut hsplit).nodup
  · intro pre' post' h
    exact absurd (by rw [Function.update_self, h]; simp) (hroot p)
  · intro m q _ hparent
    simp [spliceOutNode] at hparent
  · simp [spliceOutNode]
  · intro c m hc
    rw [hnil]
    obtain ⟨r, at_p, haddr, -⟩ := lk.rooted p np hnp
    obtain ⟨r', path, hcaddr, hlen⟩ := lk.rooted c m hc
    by_cases hr : r' = r
    · subst hr
      by_cases hunder : ∃ rest, path = at_p ++ pre.length :: rest
      · obtain ⟨rest, rfl⟩ := hunder
        refine ⟨x, rest, Addr.cut_under hbr hsplit haddr hcaddr, ?_⟩
        simp only [List.length_append, List.length_cons] at hlen
        omega
      · refine ⟨r', _, Addr.cut hbr hsplit haddr hcaddr fun rest h => hunder ⟨rest, h⟩, ?_⟩
        rw [length_onPrefix (length_indexDown _)]
        exact hlen
    · exact ⟨r', path, Addr.cut_other hbr hsplit haddr hcaddr hr, hlen⟩

end SpliceOut

/-! ## Splicing a node in -/

/-- The links of `q` once `x` is in `p`'s list between `before` and `next`. -/
def spliceInNode (p x : NodeId) (before next : Option NodeId) (q : NodeId) (m : Node) : Node :=
  { m with
    parent := if q = x then some p else m.parent
    firstChild := if q = p ∧ before = none then some x else m.firstChild
    lastChild := if q = p ∧ next = none then some x else m.lastChild
    prevSibling := if q = x then before else if next = some q then some x else m.prevSibling
    nextSibling := if q = x then next else if before = some q then some x else m.nextSibling }

section SpliceIn

variable {view : NodeId → Option Node} {kids : NodeId → List NodeId} (lk : Linked view kids)
  {p x : NodeId} {pre post : List NodeId} (hsplit : kids p = pre ++ post)

include lk hsplit

theorem Linked.spliceIn {mx np : Node} (hx : view x = some mx) (orphan : mx.parent = none)
    (hnp : view p = some np) (cont : np.data.canHaveChildren = true)
    (depth : ∀ r at_p, Addr kids r at_p p → r ≠ x ∧
      ∀ path c, follow kids x path = some c → at_p.length + 1 + path.length ≤ MAX_DEPTH) :
    Linked (fun q => (view q).map (spliceInNode p x pre.getLast? post.head? q))
      (Function.update kids p (pre ++ x :: post)) := by
  have hbr := lk.branching
  have root : IsRoot kids x := (lk.isRoot_iff hx).mpr orphan
  have hbr' : Branching (Function.update kids p (pre ++ x :: post)) := hbr.graft hsplit root
  obtain ⟨r, at_p, haddr, -⟩ := lk.rooted p np hnp
  obtain ⟨hrx, hdepth⟩ := depth r at_p haddr
  have hf : Relinks p x pre [x] post (spliceInNode p x pre.getLast? post.head?) := by
    constructor <;> intros <;> simp_all [spliceInNode]
  have hcons : pre ++ [x] ++ post = pre ++ x :: post := by rw [List.append_assoc, List.singleton_append]
  rw [← hcons] at hbr' ⊢
  have hsplit' : kids p = pre ++ [] ++ post := by simpa using hsplit
  refine lk.splice hsplit' hf (by simp) (fun q hq => absurd hq (root q)) hnp cont hbr'.nodup ?_ ?_ ?_ ?_
  · intro pre' post' h
    have hnodup := hbr'.nodup p
    rw [Function.update_self, hcons] at hnodup
    obtain ⟨rfl, rfl⟩ := split_unique hnodup (hcons.symm.trans h)
    exact ⟨mx, hx, by simp [spliceInNode], by simp [spliceInNode], by simp [spliceInNode]⟩
  · intro m q _ hparent
    simp only [spliceInNode, if_true, Option.some.injEq] at hparent
    subst hparent
    simp
  · intro m _ hparent
    simp [spliceInNode] at hparent
  · intro c m hc
    rw [hcons]
    obtain ⟨r', path, hcaddr, hlen⟩ := lk.rooted c m hc
    by_cases hr : r' = r
    · subst hr
      refine ⟨r', _, Addr.graft hbr hsplit haddr hrx hcaddr, ?_⟩
      rw [length_onPrefix (length_indexUp _)]
      exact hlen
    · by_cases hrx' : r' = x
      · subst hrx'
        refine ⟨r, _, Addr.graft_under hbr hsplit root haddr hrx hcaddr, ?_⟩
        have := hdepth path c hcaddr.leads
        simp only [List.length_append, List.length_cons]
        omega
      · exact ⟨r', path, Addr.graft_other hbr hsplit haddr hcaddr hr hrx', hlen⟩

end SpliceIn

end Pelorus.Dom
