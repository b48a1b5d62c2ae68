import Mathlib.Algebra.BigOperators.Group.List.Basic
import Pelorus.Dom.Traversal
import Pelorus.Lib.DocumentOrder

/-
  Dom/Order.lean --- `compare_boundary_points` is the order of keys.

  The source decides the order of two boundary points by walking: up to the root
  (`precedes`), through all descendants of the root, up again
  (`is_inclusive_ancestor`, the climb), and along a child list (`index_of`).  On a
  linked arena each walk is read off the address of the node, and the answer is
  the lexicographic comparison of the two keys (`compareBoundaryPoints_eq`), or
  nothing when the nodes are in different trees.
-/
set_option autoImplicit false

namespace Pelorus.Dom

open Lib.Forest Lib.DocumentOrder

/-- The comparison of two keys, as a position. -/
def order (a b : List Nat) : Position :=
  if a < b then .before else if a = b then .equal else .after

theorem order_before {a b : List Nat} (h : a < b) : order a b = .before := if_pos h

theorem order_mirror (a b : List Nat) : (order b a).mirror = order a b := by
  unfold order
  rcases lt_trichotomy a b with h | h | h
  · simp [h, not_lt_of_gt h, Ne.symm (ne_of_lt h), Position.mirror]
  · subst h
    simp [Position.mirror]
  · simp [h, not_lt_of_gt h, Ne.symm (ne_of_lt h), Position.mirror]

theorem order_ne_after {a b : List Nat} : order a b ≠ .after ↔ a ≤ b := by
  unfold order
  rcases lt_trichotomy a b with h | h | h
  · simp [h, le_of_lt h]
  · simp [h]
  · simp [not_lt_of_gt h, Ne.symm (ne_of_lt h), not_le_of_gt h]

namespace Arena

section Walks

variable {s : Arena} {kids : NodeId → List NodeId} (lk : Linked s.get kids)

include lk

theorem live_of_addr {r c : NodeId} {path : List Nat} (h : Addr kids r path c)
    (hne : path ≠ []) : ∃ m, s.get c = some m := by
  cases path using List.reverseRecOn with
  | nil => exact absurd rfl hne
  | append_singleton path i =>
      obtain ⟨p, -, hpc⟩ := follow_snoc.mp h.leads
      obtain ⟨m, hm, -⟩ := lk.parent_of_mem (List.mem_of_getElem? hpc)
      exact ⟨m, hm⟩

/-- No way down is longer than the depth bound. -/
theorem length_le_depth {a c : NodeId} {n : Node} (ha : s.get a = some n) {path : List Nat}
    (h : follow kids a path = some c) : path.length ≤ MAX_DEPTH := by
  by_cases hne : path = []
  · simp [hne]
  · obtain ⟨r, lead, haddr, -⟩ := lk.rooted a n ha
    have hbelow := haddr.below h
    obtain ⟨m, hm⟩ := live_of_addr lk hbelow (by simp [hne])
    obtain ⟨r', path', haddr', hlen⟩ := lk.rooted c m hm
    obtain ⟨-, rfl⟩ := lk.branching.addr_unique hbelow haddr'
    simp only [List.length_append] at hlen
    omega

theorem addr_length_le {r c : NodeId} {m : Node} (hc : s.get c = some m) {path : List Nat}
    (h : Addr kids r path c) : path.length ≤ MAX_DEPTH := by
  obtain ⟨r', path', haddr', hlen⟩ := lk.rooted c m hc
  obtain ⟨-, rfl⟩ := lk.branching.addr_unique h haddr'
  exact hlen

theorem rootFrom_eq {r : NodeId} : ∀ (path : List Nat) (budget : Nat) (c : NodeId) (m : Node),
    s.get c = some m → Addr kids r path c → path.length ≤ budget → rootFrom s budget c = r := by
  intro path
  induction path using List.reverseRecOn with
  | nil =>
      intro budget c m hc haddr _
      have hleads := haddr.leads
      cases hleads
      have hp := (lk.isRoot_iff hc).mp haddr.root
      cases budget <;> simp [rootFrom, hc, hp]
  | append_singleton path i ih =>
      intro budget c m hc haddr hlen
      obtain ⟨p, hp, hpc⟩ := follow_snoc.mp haddr.leads
      have hmem := List.mem_of_getElem? hpc
      obtain ⟨m', hm', hparent⟩ := lk.parent_of_mem hmem
      obtain ⟨n, hn⟩ := lk.live_of_kids hmem
      cases budget with
      | zero => simp at hlen
      | succ budget =>
          simp only [List.length_append, List.length_singleton] at hlen
          simp only [rootFrom, hm', Option.bind_some, hparent]
          exact ih budget p n hn ⟨haddr.root, hp⟩ (by omega)

/-- The upward iterator yields the nodes a child step or more above. -/
theorem mem_ancestorsFrom {r : NodeId} : ∀ (path : List Nat) (budget : Nat) (c : NodeId) (m : Node),
    s.get c = some m → Addr kids r path c → path.length ≤ budget → ∀ a,
    a ∈ ancestorsFrom s budget m.parent ↔ ∃ rest, rest ≠ [] ∧ follow kids a rest = some c := by
  intro path
  induction path using List.reverseRecOn with
  | nil =>
      intro budget c m hc haddr _ a
      have hleads := haddr.leads
      cases hleads
      rw [(lk.isRoot_iff hc).mp haddr.root]
      constructor
      · intro h
        cases budget <;> simp [ancestorsFrom] at h
      · rintro ⟨rest, hne, hrest⟩
        exact absurd (haddr.root.eq_nil hrest) hne
  | append_singleton path i ih =>
      intro budget c m hc haddr hlen a
      obtain ⟨p, hp, hpc⟩ := follow_snoc.mp haddr.leads
      have hmem := List.mem_of_getElem? hpc
      obtain ⟨m', hm', hparent⟩ := lk.parent_of_mem hmem
      rw [hc] at hm'
      cases hm'
      obtain ⟨n, hn⟩ := lk.live_of_kids hmem
      cases budget with
      | zero => simp at hlen
      | succ budget =>
          simp only [List.length_append, List.length_singleton] at hlen
          have ih' := ih budget p n hn ⟨haddr.root, hp⟩ (by omega) a
          simp only [hparent, ancestorsFrom, hn, Option.bind_some, List.mem_cons, ih']
          constructor
          · rintro (rfl | ⟨rest, -, hrest⟩)
            · exact ⟨[i], by simp, by simp [hpc]⟩
            · exact ⟨rest ++ [i], by simp, follow_snoc.mpr ⟨p, hrest, hpc⟩⟩
          · rintro ⟨rest, hne, hrest⟩
            cases rest using List.reverseRecOn with
            | nil => exact absurd rfl hne
            | append_singleton rest j =>
                obtain ⟨q, hq, hqc⟩ := follow_snoc.mp hrest
                obtain rfl := lk.owner_unique hmem (List.mem_of_getElem? hqc)
                by_cases hnil : rest = []
                · subst hnil
                  cases hq
                  exact Or.inl rfl
                · exact Or.inr ⟨rest, hnil, hq⟩

theorem isInclusiveAncestor_iff {a c : NodeId} :
    s.isInclusiveAncestor a c = true ↔
      s.contains c = true ∧ ∃ rest, follow kids a rest = some c := by
  unfold isInclusiveAncestor
  by_cases hac : a = c
  · subst hac
    simp only [if_true]
    exact ⟨fun h => ⟨h, [], rfl⟩, fun h => h.1⟩
  · rw [if_neg hac, List.any_eq_true]
    simp only [beq_iff_eq, exists_eq_right]
    cases hc : s.get c with
    | none => simp [ancestors, contains, hc, ancestorsFrom]
    | some m =>
        obtain ⟨r, path, haddr, hlen⟩ := lk.rooted c m hc
        have h := mem_ancestorsFrom lk path (MAX_DEPTH + 1) c m hc haddr (by omega) a
        simp only [ancestors, contains, hc, Option.bind_some, h, Option.isSome_some, true_and]
        constructor
        · rintro ⟨rest, -, hrest⟩
          exact ⟨rest, hrest⟩
        · rintro ⟨rest, hrest⟩
          refine ⟨rest, ?_, hrest⟩
          rintro rfl
          cases hrest
          exact hac rfl

/-- The climb from below `a` stops at `a`'s child. -/
theorem climbTo_eq {a c : NodeId} {i : Nat} (hc : (kids a)[i]? = some c) :
    ∀ (rest : List Nat) (budget : Nat) (y : NodeId), follow kids c rest = some y →
      rest.length < budget → climbTo s a budget y = some c := by
  obtain ⟨na, hna⟩ := lk.live_of_kids (List.mem_of_getElem? hc)
  obtain ⟨r, lead, haddr, -⟩ := lk.rooted a na hna
  intro rest
  induction rest using List.reverseRecOn with
  | nil =>
      intro budget y hy hlt
      cases hy
      obtain ⟨m, hm, hparent⟩ := lk.parent_of_mem (List.mem_of_getElem? hc)
      cases budget with
      | zero => simp at hlt
      | succ budget => simp [climbTo, hm, hparent]
  | append_singleton rest j ih =>
      intro budget y hy hlt
      obtain ⟨q, hq, hqy⟩ := follow_snoc.mp hy
      obtain ⟨m, hm, hparent⟩ := lk.parent_of_mem (List.mem_of_getElem? hqy)
      have hqa : q ≠ a := by
        rintro rfl
        have hloop : follow kids q (i :: rest) = some q := by simp [hc, hq]
        have := lk.branching.no_loop haddr hloop
        simp at this
      cases budget with
      | zero => simp at hlt
      | succ budget =>
          simp only [List.length_append, List.length_singleton] at hlt
          simp [climbTo, hm, hparent, hqa, ih budget q hq (by omega)]

theorem indexOf_eq {p c : NodeId} {i : Nat} (hc : (kids p)[i]? = some c) : s.indexOf c = some i := by
  obtain ⟨m, hm, hparent⟩ := lk.parent_of_mem (List.mem_of_getElem? hc)
  obtain ⟨hlt, hget⟩ := List.getElem?_eq_some_iff.mp hc
  simp only [indexOf, hm, hparent, Option.bind_eq_bind, Option.bind_some, childIds_eq lk]
  rw [List.findIdx?_eq_some_iff_getElem]
  refine ⟨hlt, by simp [hget], ?_⟩
  intro j hj hjc
  have hjlt : j < (kids p).length := by omega
  have heq : (kids p)[j]? = some c := by
    rw [List.getElem?_eq_getElem hjlt]
    simpa using hjc
  have := lk.branching.index_unique heq hc
  omega

/-- A node comes before what is below it; the listing has depth to spare. -/
theorem preorder_of_live {a : NodeId} {n : Node} (hn : s.get a = some n) :
    preorder kids MAX_DEPTH a = a :: (kids a).flatMap (preorder kids MAX_DEPTH) := by
  -- one level further down the listing of the children is the same
  have hstable : (kids a).flatMap (preorder kids (MAX_DEPTH - 1)) =
      (kids a).flatMap (preorder kids MAX_DEPTH) := by
    refine List.flatMap_congr ?_
    intro d hd
    obtain ⟨i, hi⟩ := List.mem_iff_getElem?.mp hd
    refine (preorder_stable ?_).symm
    intro path c hpath
    have := length_le_depth lk hn (show follow kids a (i :: path) = some c by simp [hi, hpath])
    simp only [List.length_cons] at this
    omega
  rw [← hstable]
  rfl

theorem descendantsFrom_eq : ∀ (budget : Nat) (stack : List NodeId),
    (∀ a ∈ stack, s.contains a = true) →
    (stack.flatMap (preorder kids MAX_DEPTH)).length ≤ budget →
    descendantsFrom s budget stack = stack.flatMap (preorder kids MAX_DEPTH)
  | 0, stack, _, hlen => by
      rw [Nat.le_zero, List.length_eq_zero_iff] at hlen
      rw [hlen]
      rfl
  | _ + 1, [], _, _ => rfl
  | budget + 1, a :: stack, hlive, hlen => by
      obtain ⟨n, hn⟩ := Option.isSome_iff_exists.mp (hlive a (by simp))
      have hlist := preorder_of_live lk hn
      rw [List.flatMap_cons, hlist] at hlen ⊢
      simp only [List.cons_append, List.length_cons, List.length_append] at hlen
      have hshort : (kids a).length ≤ ((kids a).flatMap (preorder kids MAX_DEPTH)).length := by
        rw [List.length_flatMap]
        have := List.length_le_sum_of_one_le ((kids a).map fun d => (preorder kids MAX_DEPTH d).length)
          (by
            intro k hk
            obtain ⟨d, -, rfl⟩ := List.mem_map.mp hk
            have hself : d ∈ preorder kids MAX_DEPTH d := mem_preorder.mpr ⟨[], by simp, rfl⟩
            exact List.length_pos_of_mem hself)
        simpa using this
      have hchildren : childIdsFrom s (budget + 1) n.firstChild = kids a := by
        rw [lk.first a n hn, childIdsFrom_of_links (forward_links lk a) _ [] _ rfl]
        exact List.take_of_length_le (by omega)
      have ih := descendantsFrom_eq budget (kids a ++ stack)
        (by
          intro d hd
          rcases List.mem_append.mp hd with h | h
          · exact live_of_mem lk h
          · exact hlive d (by simp [h]))
        (by rw [List.flatMap_append, List.length_append]; omega)
      simp only [descendantsFrom, hn, hchildren, ih, List.flatMap_append, List.cons_append]

/-- With a budget for every slot, or more, the iterator lists the whole subtree. -/
theorem descendantsFrom_of_live {a : NodeId} {n : Node} (ha : s.get a = some n) {budget : Nat}
    (hbudget : s.slots.length ≤ budget) : descendantsFrom s budget [a] = preorder kids MAX_DEPTH a := by
  obtain ⟨r, lead, haddr, -⟩ := lk.rooted a n ha
  have hlen : (preorder kids MAX_DEPTH a).length ≤ s.slots.length := by
    refine length_le_of_live (preorder_nodup lk.branching MAX_DEPTH haddr) ?_
    intro c hc
    obtain ⟨path, -, hpath⟩ := mem_preorder.mp hc
    by_cases hne : path = []
    · subst hne
      cases hpath
      simp [contains, ha]
    · obtain ⟨m, hm⟩ := live_of_addr lk (haddr.below hpath) (by simp [hne])
      simp [contains, hm]
  have h := descendantsFrom_eq lk budget [a] (by simp [contains, ha]) (by simpa using hlen.trans hbudget)
  simpa using h

theorem descendants_eq {a : NodeId} {n : Node} (ha : s.get a = some n) :
    s.descendants a = preorder kids MAX_DEPTH a := by
  have h := descendantsFrom_of_live lk ha (Nat.le_refl _)
  simpa [descendants, contains, ha] using h

/-! ## `precedes` -/

omit lk in
/-- The scan once the first of the two has been found: it answers for `a` having
been first as soon as it comes to `b`. -/
theorem scan_first_found {a b : NodeId} (hab : a ≠ b) : ∀ (l : List NodeId) (index first : Nat),
    a ∉ l → b ∈ l → first < index → precedes.scan a b l index (some first) none = some true
  | [], _, _, _, hb, _ => by simp at hb
  | c :: l, index, first, ha, hb, hlt => by
      have hca : c ≠ a := fun h => ha (by simp [h])
      by_cases hcb : c = b
      · subst hcb
        unfold precedes.scan
        rw [if_neg hca, if_pos rfl]
        cases l <;> simp [precedes.scan, hlt]
      · unfold precedes.scan
        rw [if_neg hca, if_neg hcb]
        refine scan_first_found hab l (index + 1) first (fun h => ha (by simp [h])) ?_ (by omega)
        simpa [Ne.symm hcb] using hb

omit lk in
theorem scan_second_found {a b : NodeId} (hab : a ≠ b) : ∀ (l : List NodeId) (index second : Nat),
    b ∉ l → a ∈ l → second < index → precedes.scan a b l index none (some second) = some false
  | [], _, _, _, ha, _ => by simp at ha
  | c :: l, index, second, hb, ha, hlt => by
      have hcb : c ≠ b := fun h => hb (by simp [h])
      by_cases hca : c = a
      · subst hca
        unfold precedes.scan
        rw [if_neg hcb, if_pos rfl]
        have hge : ¬ index < second := by omega
        cases l <;> simp [precedes.scan, hge]
      · unfold precedes.scan
        rw [if_neg hca, if_neg hcb]
        refine scan_second_found hab l (index + 1) second (fun h => hb (by simp [h])) ?_ (by omega)
        simpa [Ne.symm hca] using ha

omit lk in
theorem scan_cons {a b c : NodeId} {l : List NodeId} {index : Nat} :
    precedes.scan a b (c :: l) index none none = precedes.scan a b l (index + 1)
      (if c = a then some index else none) (if c = b then some index else none) := rfl

omit lk in
/-- The scan passes what is neither of the two. -/
theorem scan_skip {a b : NodeId} : ∀ (l l' : List NodeId) (index : Nat), a ∉ l → b ∉ l →
    precedes.scan a b (l ++ l') index none none =
      precedes.scan a b l' (index + l.length) none none
  | [], _, _, _, _ => rfl
  | c :: l, l', index, ha, hb => by
      have hca : c ≠ a := fun h => ha (by simp [h])
      have hcb : c ≠ b := fun h => hb (by simp [h])
      rw [List.cons_append, scan_cons, if_neg hca, if_neg hcb,
        scan_skip l l' (index + 1) (fun h => ha (by simp [h])) (fun h => hb (by simp [h]))]
      congr 1
      simp only [List.length_cons]
      omega

omit lk in
theorem scan_eq_true {a b : NodeId} {l pre post : List NodeId} (hnodup : l.Nodup)
    (hsplit : l = pre ++ a :: post) (hb : b ∈ post) : precedes.scan a b l 0 none none = some true := by
  rw [hsplit] at hnodup ⊢
  have ha := (List.nodup_cons.mp (List.nodup_middle.mp hnodup)).1
  have hdisj := List.disjoint_of_nodup_append hnodup
  have hab : a ≠ b := by
    rintro rfl
    exact ha (List.mem_append_right _ hb)
  rw [scan_skip pre (a :: post) 0 (fun h => ha (List.mem_append_left _ h))
    (fun h => hdisj h (by simp [hb])), scan_cons, if_pos rfl, if_neg hab]
  exact scan_first_found hab post _ _ (fun h => ha (List.mem_append_right _ h)) hb (by omega)

omit lk in
theorem scan_eq_false {a b : NodeId} {l pre post : List NodeId} (hnodup : l.Nodup)
    (hsplit : l = pre ++ b :: post) (ha : a ∈ post) : precedes.scan a b l 0 none none = some false := by
  rw [hsplit] at hnodup ⊢
  have hb := (List.nodup_cons.mp (List.nodup_middle.mp hnodup)).1
  have hdisj := List.disjoint_of_nodup_append hnodup
  have hab : b ≠ a := by
    rintro rfl
    exact hb (List.mem_append_right _ ha)
  rw [scan_skip pre (b :: post) 0 (fun h => hdisj h (by simp [ha]))
    (fun h => hb (List.mem_append_left _ h)), scan_cons, if_neg hab, if_pos rfl]
  exact scan_second_found hab.symm post _ _ (fun h => hb (List.mem_append_right _ h)) ha (by omega)

section SameTree

variable {r a b : NodeId} {path path' : List Nat} {na nb : Node} (ha : s.get a = some na)
  (hb : s.get b = some nb) (haddr : Addr kids r path a) (haddr' : Addr kids r path' b)

include ha hb haddr haddr'

theorem precedes_eq_scan (hne : a ≠ b) :
    s.precedes a b = precedes.scan a b (preorder kids MAX_DEPTH r) 0 none none := by
  have hra := rootFrom_eq lk path (MAX_DEPTH + 1) a na ha haddr
    (Nat.le_succ_of_le (addr_length_le lk ha haddr))
  have hrb := rootFrom_eq lk path' (MAX_DEPTH + 1) b nb hb haddr'
    (Nat.le_succ_of_le (addr_length_le lk hb haddr'))
  obtain ⟨n, hn⟩ := Option.isSome_iff_exists.mp (lk.live_of_follow haddr.leads (by simp [ha]))
  unfold precedes
  simp [contains, ha, hb, hne, hra, hrb, descendants_eq lk hn]

/-- In one tree, `precedes` compares addresses. -/
theorem precedes_of_lt (hlt : path < path') : s.precedes a b = some true ∧ s.precedes b a = some false := by
  have hne : a ≠ b := by
    rintro rfl
    obtain ⟨-, rfl⟩ := lk.branching.addr_unique haddr haddr'
    exact lt_irrefl _ hlt
  have hnodup := preorder_nodup lk.branching MAX_DEPTH (Addr.ofRoot haddr.root)
  obtain ⟨pre, post, hsplit, hmem⟩ :=
    preorder_sorted haddr.leads haddr'.leads (addr_length_le lk ha haddr)
      (addr_length_le lk hb haddr') hlt
  constructor
  · rw [precedes_eq_scan lk ha hb haddr haddr' hne]
    exact scan_eq_true hnodup hsplit hmem
  · rw [precedes_eq_scan lk hb ha haddr' haddr hne.symm]
    exact scan_eq_false hnodup hsplit hmem

/-- Steps 3 and 4 of the comparison, for a node that comes first. -/
theorem compareForward_eq (hlt : path < path') (k l : Nat) :
    s.compareForward ⟨a, k⟩ ⟨b, l⟩ = some (order (key path k) (key path' l)) := by
  have hprec := (precedes_of_lt lk ha hb haddr haddr' hlt).1
  unfold compareForward
  by_cases hanc : s.isInclusiveAncestor a b = true
  · obtain ⟨-, rest, hrest⟩ := (isInclusiveAncestor_iff lk).mp hanc
    obtain ⟨-, rfl⟩ := lk.branching.addr_unique haddr' (haddr.below hrest)
    cases rest with
    | nil => simp at hlt
    | cons i rest =>
        obtain ⟨c, hc, hcb⟩ := Option.bind_eq_some_iff.mp hrest
        have hdepth := length_le_depth lk ha hrest
        simp only [List.length_cons] at hdepth
        have hclimb := climbTo_eq lk hc rest (MAX_DEPTH + 1) b hcb (by omega)
        simp only [hanc, if_true, hclimb, indexOf_eq lk hc, Option.bind_eq_bind, Option.bind_some]
        by_cases hik : i < k
        · have hafter : order (key path k) (key (path ++ i :: rest) l) = .after := by
            have hnlt : ¬ key path k < key (path ++ i :: rest) l := by
              rw [key_lt_key_under]
              omega
            have hne : key path k ≠ key (path ++ i :: rest) l := by
              rw [key_append, key]
              intro h
              have := List.append_cancel_left h
              simp only [key_cons, List.cons.injEq] at this
              omega
            simp [order, hnlt, hne]
          simp [hik, hafter]
        · have hbefore := order_before ((key_lt_key_under path rest i k l).mpr (by omega))
          simp [hik, hprec, hbefore]
  · have hout : ∀ rest, path' ≠ path ++ rest := by
      rintro rest rfl
      refine hanc ((isInclusiveAncestor_iff lk).mpr ⟨by simp [contains, hb], rest, ?_⟩)
      have hleads := haddr'.leads
      rwa [follow_append_of haddr.leads] at hleads
    have hbefore := order_before (key_lt_key_of_lt hlt hout k l)
    simp [hanc, hprec, hbefore]

theorem compareBoundaryPoints_eq (k l : Nat) :
    s.compareBoundaryPoints ⟨a, k⟩ ⟨b, l⟩ = some (order (key path k) (key path' l)) := by
  unfold compareBoundaryPoints
  have hlive : (!s.contains a || !s.contains b) = false := by simp [contains, ha, hb]
  have hlive' : (!s.contains b || !s.contains a) = false := by simp [contains, ha, hb]
  rcases lt_trichotomy path path' with hlt | rfl | hgt
  · have hne : a ≠ b := by
      rintro rfl
      obtain ⟨-, rfl⟩ := lk.branching.addr_unique haddr haddr'
      exact lt_irrefl _ hlt
    have hprec := (precedes_of_lt lk ha hb haddr haddr' hlt).2
    simp only [compareFrom, hlive, hne, hprec, if_false, Bool.false_eq_true, Option.some.injEq]
    exact compareForward_eq lk ha hb haddr haddr' hlt k l
  · have heq : a = b := by
      have h := haddr.leads.symm.trans haddr'.leads
      exact Option.some_inj.mp h
    subst heq
    simp only [compareFrom, hlive, Bool.false_eq_true, if_false, if_true]
    congr 1
    unfold order
    by_cases hkl : k < l
    · simp [hkl, key_lt_key_self]
    · by_cases heq : k = l
      · simp [heq]
      · have hne : key path k ≠ key path l := by
          simp [key]
          omega
        simp [hkl, heq, key_lt_key_self, hne]
  · have hne : a ≠ b := by
      rintro rfl
      obtain ⟨-, rfl⟩ := lk.branching.addr_unique haddr haddr'
      exact lt_irrefl _ hgt
    obtain ⟨hprec, hprec'⟩ := precedes_of_lt lk hb ha haddr' haddr hgt
    have hmirror : compareFrom s 1 ⟨b, l⟩ ⟨a, k⟩ = some (order (key path' l) (key path k)) := by
      simp only [compareFrom, hlive', hne.symm, hprec', if_false, Bool.false_eq_true,
        Option.some.injEq]
      exact compareForward_eq lk hb ha haddr' haddr hgt l k
    rw [compareFrom]
    simp only [hlive, hne, hprec, if_false, if_true, Bool.false_eq_true, hmirror, Option.map_some,
      order_mirror]

end SameTree

/-- Nodes in different trees are not compared. -/
theorem precedes_eq_none {r r' a b : NodeId} {path path' : List Nat} {na nb : Node}
    (ha : s.get a = some na) (hb : s.get b = some nb) (haddr : Addr kids r path a)
    (haddr' : Addr kids r' path' b) (hne : r ≠ r') : s.precedes a b = none := by
  have hra := rootFrom_eq lk path (MAX_DEPTH + 1) a na ha haddr
    (Nat.le_succ_of_le (addr_length_le lk ha haddr))
  have hrb := rootFrom_eq lk path' (MAX_DEPTH + 1) b nb hb haddr'
    (Nat.le_succ_of_le (addr_length_le lk hb haddr'))
  unfold precedes
  by_cases hab : a = b
  · simp [hab]
  · simp [contains, ha, hb, hab, hra, hrb, hne]

/-- A comparison that has an answer is between live nodes of one tree. -/
theorem addr_of_compare {a b : BoundaryPoint} {position : Position}
    (h : s.compareBoundaryPoints a b = some position) :
    ∃ r path path' na nb, s.get a.node = some na ∧ s.get b.node = some nb ∧
      Addr kids r path a.node ∧ Addr kids r path' b.node := by
  cases ha : s.get a.node with
  | none => simp [compareBoundaryPoints, compareFrom, contains, ha] at h
  | some na =>
      cases hb : s.get b.node with
      | none => simp [compareBoundaryPoints, compareFrom, contains, hb] at h
      | some nb =>
          obtain ⟨r, path, haddr, -⟩ := lk.rooted _ _ ha
          obtain ⟨r', path', haddr', -⟩ := lk.rooted _ _ hb
          by_cases hr : r = r'
          · subst hr
            exact ⟨r, path, path', na, nb, rfl, rfl, haddr, haddr'⟩
          · exfalso
            have hne : a.node ≠ b.node := by
              intro heq
              rw [heq] at haddr
              exact hr (lk.branching.addr_unique haddr haddr').1
            have hanc : ¬ s.isInclusiveAncestor a.node b.node = true := by
              intro hanc
              obtain ⟨-, rest, hrest⟩ := (isInclusiveAncestor_iff lk).mp hanc
              exact hr (lk.branching.addr_unique (haddr.below hrest) haddr').1
            have h₁ := precedes_eq_none lk ha hb haddr haddr' hr
            have h₂ := precedes_eq_none lk hb ha haddr' haddr (Ne.symm hr)
            simp [compareBoundaryPoints, compareFrom, contains, ha, hb, hne, h₂, compareForward,
              hanc, h₁] at h

end Walks

end Arena

end Pelorus.Dom
