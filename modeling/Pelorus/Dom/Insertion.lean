import Mathlib.Order.Bounds.Basic
import Pelorus.Dom.Boundary
import Pelorus.Dom.Ranges

/-
  Dom/Insertion.lean --- which insertions are accepted, and what a refusal leaves.

  `check_insertable` counts the depth of the parent on its way up, and the height of the child on
  a walk down with a budget.  Where the links are those of a forest neither walk is cut short,
  and both find the numbers the rule is about (`checkInsertable_iff`); after the check nothing
  fails any more.
-/
set_option autoImplicit false

namespace Pelorus.Dom

open Lib.StateRun Lib.Forest Lib.DocumentOrder

/-! ## The rule -/

/-- `c` is `k` parent links below `a`. -/
inductive Below (s : Arena) (a : NodeId) : NodeId → Nat → Prop
  | self : Below s a a 0
  | under {p c : NodeId} {k : Nat} (above : Below s a p k) (parent : ParentOf s p c) : Below s a c (k + 1)

/-- How far the deepest node below `a` is below it. -/
def Height (s : Arena) (a : NodeId) (h : Nat) : Prop := IsGreatest {k | ∃ c, Below s a c k} h

/-- An insertion that the tree allows. -/
structure Legal (s : Arena) (parent child : NodeId) : Prop where
  parent_live : s.contains parent = true
  child_live : s.contains child = true
  movable : child ≠ s.document
  container : ∃ n, s.get parent = some n ∧ n.data.canHaveChildren = true
  acyclic : ∀ k, ¬ Below s child parent k
  shallow : ∃ d h, Depth s parent d ∧ Height s child h ∧ d + 1 + h ≤ MAX_DEPTH

namespace Arena

section

variable {s : Arena} {kids : NodeId → List NodeId} (lk : Linked s.get kids)

include lk

variable {a child parent : NodeId} {n : Node} {e : TreeError} {t : Arena}

theorem below_iff {c : NodeId} {k : Nat} : Below s a c k ↔ ∃ path, path.length = k ∧ follow kids a path = some c := by
  constructor
  · intro h
    induction h with
    | self => exact ⟨[], rfl, rfl⟩
    | @under p c k _ parent ih =>
        obtain ⟨path, rfl, hpath⟩ := ih
        obtain ⟨m, hm, hp⟩ := parent
        obtain ⟨i, hi⟩ := List.mem_iff_getElem?.mp (lk.member c m p hm hp)
        exact ⟨path ++ [i], by simp, follow_snoc.mpr ⟨p, hpath, hi⟩⟩
  · rintro ⟨path, rfl, hpath⟩
    induction path using List.reverseRecOn generalizing c with
    | nil =>
        cases hpath
        exact .self
    | append_singleton path i ih =>
        obtain ⟨p, hp, hpc⟩ := follow_snoc.mp hpath
        rw [List.length_append, List.length_singleton]
        exact .under (ih hp) (lk.parent_of_mem (List.mem_of_getElem? hpc))

theorem depth_iff {r c : NodeId} {path : List Nat} {m : Node} (hc : s.get c = some m) (haddr : Addr kids r path c)
    {d : Nat} : Depth s c d ↔ d = path.length := by
  constructor
  · intro h
    induction h generalizing path m with
    | @root c m' live parent =>
        have hroot := (lk.isRoot_iff live).mpr parent
        rw [hroot.eq_nil haddr.leads]
        rfl
    | @under c p m' d live parent above ih =>
        have hmem := lk.member c m' p live parent
        obtain ⟨np, hnp⟩ := lk.live_of_kids hmem
        obtain ⟨i, hi⟩ := List.mem_iff_getElem?.mp hmem
        obtain ⟨r', path', haddr', -⟩ := lk.rooted p np hnp
        obtain ⟨rfl, rfl⟩ := lk.branching.addr_unique haddr (haddr'.child hi)
        rw [ih hnp haddr', List.length_append]
        rfl
  · rintro rfl
    exact depth_of_addr lk path c m hc haddr

/-! ## The walks of the check -/

/-- The upward walk, in as many steps as there are ancestors. -/
theorem resultingDepth_complete {r : NodeId} (path : List Nat) :
    ∀ (fuel depth : Nat) {current : NodeId} {m : Node}, s.get current = some m → Addr kids r path current →
      (∀ rest, follow kids child rest ≠ some current) → path.length + 1 ≤ fuel →
      resultingDepth s child fuel depth (some current) = .ok (depth + path.length + 1) := by
  induction path using List.reverseRecOn with
  | nil =>
      intro fuel depth current m hm haddr hout hfuel
      have hleads := haddr.leads
      cases hleads
      obtain ⟨fuel, rfl⟩ := Nat.exists_eq_add_one_of_ne_zero (Nat.ne_of_gt hfuel)
      have hne : r ≠ child := fun h => hout [] (congrArg some h.symm)
      rw [resultingDepth, if_neg hne]
      simp only [hm, (lk.isRoot_iff hm).mp haddr.root, resultingDepth]
      rfl
  | append_singleton path i ih =>
      intro fuel depth current m hm haddr hout hfuel
      obtain ⟨fuel, rfl⟩ := Nat.exists_eq_add_one_of_ne_zero (Nat.ne_zero_of_lt hfuel)
      obtain ⟨p, hp, hpc⟩ := follow_snoc.mp haddr.leads
      obtain ⟨m', hm', hparent⟩ := lk.parent_of_mem (List.mem_of_getElem? hpc)
      obtain ⟨np, hnp⟩ := lk.live_of_kids (List.mem_of_getElem? hpc)
      rw [hm'] at hm
      cases hm
      have hne : current ≠ child := fun h => hout [] (congrArg some h.symm)
      have hout' : ∀ rest, follow kids child rest ≠ some p := fun rest h =>
        hout (rest ++ [i]) (follow_snoc.mpr ⟨p, h, hpc⟩)
      rw [List.length_append, List.length_singleton] at hfuel
      rw [resultingDepth, if_neg hne]
      simp only [hm', hparent]
      rw [ih _ _ hnp ⟨haddr.root, hp⟩ hout' (by omega), List.length_append, List.length_singleton]
      exact congrArg Except.ok (by omega)

theorem pushChildren_complete {q : NodeId} (relative : Nat) (l : List NodeId) :
    ∀ (fuel : Nat) (pre : List NodeId) (stack : List (NodeId × Nat)), kids q = pre ++ l → l.length ≤ fuel →
      l.length + stack.length ≤ s.slots.length + 1 →
      pushChildren s relative fuel l.head? stack = .ok ((l.map (·, relative)).reverse ++ stack) := by
  induction l with
  | nil => exact fun fuel pre stack _ _ _ => by cases fuel <;> rfl
  | cons c l ih =>
      intro fuel pre stack hsplit hfuel hroom
      obtain ⟨fuel, rfl⟩ := Nat.exists_eq_add_one_of_ne_zero (Nat.ne_zero_of_lt hfuel)
      obtain ⟨m, hm, -, -, hnext⟩ := lk.link q pre c l hsplit
      rw [List.length_cons] at hfuel hroom
      rw [List.head?_cons, pushChildren]
      simp only [hm, hnext]
      rw [if_neg (by omega), ih _ (pre ++ [c]) _ (by rw [hsplit, List.append_assoc]; rfl) (by omega)
        (by rw [List.length_cons]; omega)]
      simp

/-- Nodes on the stack, each with all that is below it. -/
def stacked (kids : NodeId → List NodeId) (stack : List (NodeId × Nat)) : List NodeId :=
  stack.flatMap fun e => preorder kids MAX_DEPTH e.1

omit lk in
theorem length_le_stacked (kids : NodeId → List NodeId) (stack : List (NodeId × Nat)) : stack.length ≤ (stacked kids stack).length := by
  induction stack with
  | nil => exact Nat.le_refl _
  | cons e stack ih =>
      have hself : e.1 ∈ preorder kids MAX_DEPTH e.1 := mem_preorder.mpr ⟨[], Nat.zero_le _, rfl⟩
      have hpos := List.length_pos_of_mem hself
      rw [stacked, List.flatMap_cons, List.length_append, List.length_cons]
      rw [stacked] at ih
      omega

theorem stacked_children (hn : s.get a = some n) (relative relative' : Nat)
    (stack : List (NodeId × Nat)) :
    (stacked kids ((a, relative) :: stack)).Perm
      (a :: stacked kids (((kids a).map (·, relative')).reverse ++ stack)) := by
  rw [stacked, List.flatMap_cons, preorder_of_live lk hn, List.cons_append, stacked, List.flatMap_append]
  refine List.Perm.cons a (List.Perm.append_right _ ?_)
  have hmap : (kids a).flatMap (preorder kids MAX_DEPTH) =
      ((kids a).map (·, relative')).flatMap fun e => preorder kids MAX_DEPTH e.1 := by
    rw [List.flatMap_map]
  rw [hmap]
  exact (List.Perm.flatMap_right _ (List.reverse_perm _)).symm

theorem live_of_stacked {stack : List (NodeId × Nat)} (hlive : ∀ e ∈ stack, s.contains e.1 = true) :
    ∀ c ∈ stacked kids stack, s.contains c = true := by
  intro c hc
  obtain ⟨e, he, hce⟩ := List.mem_flatMap.mp hc
  obtain ⟨path, -, hpath⟩ := mem_preorder.mp hce
  cases path using List.reverseRecOn with
  | nil =>
      cases hpath
      exact hlive e he
  | append_singleton path i =>
      obtain ⟨p, -, hpc⟩ := follow_snoc.mp hpath
      exact live_of_mem lk (List.mem_of_getElem? hpc)

/-- The downward walk, with a budget for all that is stacked: it finds a deepest node. -/
theorem heightFrom_complete : ∀ (budget : Nat) (stack : List (NodeId × Nat)) (height : Nat),
    (∀ e ∈ stack, s.contains e.1 = true) →
    (∀ e ∈ stack, ∀ path c, follow kids e.1 path = some c → e.2 + path.length ≤ MAX_DEPTH) →
    (stacked kids stack).Nodup → (stacked kids stack).length ≤ budget →
    ∃ H, heightFrom s budget stack height = .ok H ∧
      (H = height ∨ ∃ e ∈ stack, ∃ path c, follow kids e.1 path = some c ∧ H = e.2 + path.length) := by
  intro budget
  induction budget with
  | zero =>
      intro stack height _ _ _ hlen
      have hnil : stack = [] := List.length_eq_zero_iff.mp (Nat.le_zero.mp ((length_le_stacked kids stack).trans hlen))
      rw [hnil]
      exact ⟨height, rfl, .inl rfl⟩
  | succ budget ih =>
      intro stack height hlive hdeep hnodup hlen
      cases stack with
      | nil => exact ⟨height, rfl, .inl rfl⟩
      | cons e stack =>
          obtain ⟨a, relative⟩ := e
          obtain ⟨n, hn⟩ : ∃ n, s.get a = some n := Option.isSome_iff_exists.mp (hlive (a, relative) List.mem_cons_self)
          have hperm := stacked_children lk hn relative (relative + 1) stack
          have hroom : (kids a).length + stack.length ≤ s.slots.length + 1 := by
            have hall := length_le_of_live hnodup (live_of_stacked lk hlive)
            have hout := length_le_stacked kids (((kids a).map (·, relative + 1)).reverse ++ stack)
            rw [hperm.length_eq, List.length_cons] at hall
            rw [List.length_append, List.length_reverse, List.length_map] at hout
            omega
          have hpush := pushChildren_complete lk (relative + 1) (kids a) (s.slots.length + 2) [] stack rfl (by omega) hroom
          have hself := hdeep (a, relative) List.mem_cons_self [] a rfl
          generalize hout : ((kids a).map (·, relative + 1)).reverse ++ stack = out at hperm hpush
          have hmem : ∀ e ∈ out, (∃ i : Nat, (kids a)[i]? = some e.1 ∧ e.2 = relative + 1) ∨ e ∈ stack := by
            intro e he
            rw [← hout] at he
            rcases List.mem_append.mp he with he | he
            · obtain ⟨d, hd, rfl⟩ := List.mem_map.mp (List.mem_reverse.mp he)
              obtain ⟨i, hi⟩ := List.mem_iff_getElem?.mp hd
              exact .inl ⟨i, hi, rfl⟩
            · exact .inr he
          have hbelow : ∀ e ∈ out, ∀ path c, follow kids e.1 path = some c →
              ∃ e' ∈ (a, relative) :: stack, ∃ path', follow kids e'.1 path' = some c ∧
                e'.2 + path'.length = e.2 + path.length := by
            intro e he path c hpath
            rcases hmem e he with ⟨i, hi, hrel⟩ | he
            · refine ⟨(a, relative), List.mem_cons_self, i :: path, by rw [follow_cons, hi]; exact hpath, ?_⟩
              rw [hrel, List.length_cons]
              omega
            · exact ⟨e, List.mem_cons_of_mem _ he, path, hpath, rfl⟩
          obtain ⟨H, hrun, hH⟩ := ih out (max height relative)
            (fun e he => by
              rcases hmem e he with ⟨i, hi, -⟩ | he
              · exact live_of_mem lk (List.mem_of_getElem? hi)
              · exact hlive e (List.mem_cons_of_mem _ he))
            (fun e he path c hpath => by
              obtain ⟨e', he', path', hpath', hlen'⟩ := hbelow e he path c hpath
              rw [← hlen']
              exact hdeep e' he' path' c hpath')
            (List.nodup_cons.mp (hperm.nodup_iff.mp hnodup)).2
            (by rw [hperm.length_eq, List.length_cons] at hlen; omega)
          refine ⟨H, ?_, ?_⟩
          · rw [heightFrom, if_neg (by simp only [List.length_nil] at hself; omega)]
            simp only [hn, lk.first a n hn]
            rw [hpush]
            exact hrun
          · rcases hH with hH | ⟨e, he, path, c, hpath, hH⟩
            · rcases Nat.le_total height relative with hle | hle
              · exact .inr ⟨(a, relative), List.mem_cons_self, [], a, rfl, by rw [hH, Nat.max_eq_right hle]; rfl⟩
              · exact .inl (by rw [hH, Nat.max_eq_left hle])
            · obtain ⟨e', he', path', hpath', hlen'⟩ := hbelow e he path c hpath
              exact .inr ⟨e', he', path', c, hpath', by rw [hH, hlen']⟩

theorem subtreeHeight_complete (hn : s.get a = some n) : ∃ h, s.subtreeHeight a = .ok h ∧ Height s a h := by
  obtain ⟨r, lead, haddr, -⟩ := lk.rooted a n hn
  have hlist : stacked kids [(a, 0)] = preorder kids MAX_DEPTH a := List.append_nil _
  have hnodup : (stacked kids [(a, 0)]).Nodup := by
    rw [hlist]
    exact preorder_nodup lk.branching MAX_DEPTH haddr
  have hlive : ∀ e ∈ [(a, 0)], s.contains e.1 = true := fun e he => by
    rw [List.mem_singleton.mp he, contains, hn]
    rfl
  obtain ⟨h, hrun, hh⟩ := heightFrom_complete lk (s.slots.length + 1) [(a, 0)] 0 hlive
    (fun e he path c hpath => by
      rw [List.mem_singleton.mp he] at hpath ⊢
      rw [Nat.zero_add]
      exact length_le_depth lk hn hpath)
    hnodup ((length_le_of_live hnodup (live_of_stacked lk hlive)).trans (Nat.le_succ _))
  have hbound := (heightFrom_sound lk _ _ _ _ hrun).2 a 0 List.mem_cons_self
  refine ⟨h, hrun, ?_, ?_⟩
  · rcases hh with rfl | ⟨e, he, path, c, hpath, hh⟩
    · exact ⟨a, .self⟩
    · rw [List.mem_singleton.mp he] at hpath hh
      exact ⟨c, (below_iff lk).mpr ⟨path, by rw [hh, Nat.zero_add], hpath⟩⟩
  · rintro k ⟨c, hc⟩
    obtain ⟨path, rfl, hpath⟩ := (below_iff lk).mp hc
    have hle := hbound path c hpath
    rwa [Nat.zero_add] at hle

theorem checkInsertable_iff : s.checkInsertable parent child = .ok () ↔ Legal s parent child := by
  constructor
  · intro h
    obtain ⟨hdoc, hchild, ⟨n, hn, hcont⟩, hout, hdeep⟩ := checkInsertable_sound lk h
    obtain ⟨nc, hnc⟩ := Option.isSome_iff_exists.mp hchild
    obtain ⟨r, path, haddr, -⟩ := lk.rooted parent n hn
    obtain ⟨height, -, hheight⟩ := subtreeHeight_complete lk hnc
    obtain ⟨c, hc⟩ := hheight.1
    obtain ⟨below, rfl, hbelow⟩ := (below_iff lk).mp hc
    refine ⟨by rw [contains, hn]; rfl, hchild, hdoc, ⟨n, hn, hcont⟩, fun k hk => ?_,
      path.length, below.length, (depth_iff lk hn haddr).mpr rfl, hheight, hdeep r path haddr below c hbelow⟩
    obtain ⟨rest, -, hrest⟩ := (below_iff lk).mp hk
    exact hout rest hrest
  · rintro ⟨hparent, hchild, hdoc, ⟨n, hn, hcont⟩, hacyclic, d, height, hd, hheight, hle⟩
    obtain ⟨nc, hnc⟩ := Option.isSome_iff_exists.mp hchild
    obtain ⟨r, path, haddr, -⟩ := lk.rooted parent n hn
    obtain ⟨h, hrun, hh⟩ := subtreeHeight_complete lk hnc
    have hout : ∀ rest, follow kids child rest ≠ some parent := fun rest hrest =>
      hacyclic _ ((below_iff lk).mpr ⟨rest, rfl, hrest⟩)
    have hne : parent ≠ child := fun heq => hout [] (congrArg some heq.symm)
    rw [(depth_iff lk hn haddr).mp hd, IsGreatest.unique hheight hh] at hle
    have hdepth := resultingDepth_complete lk path MAX_DEPTH 0 hn haddr hout (by omega)
    rw [Nat.zero_add] at hdepth
    unfold checkInsertable
    simp only [hparent, hchild, Bool.not_true, Bool.or_self, Bool.false_eq_true, if_false, if_neg hne, if_neg hdoc, hn,
      Option.any_some, hcont]
    rw [hdepth, hrun]
    exact if_neg (Nat.not_lt.mpr hle)

/-! ## Refusals -/

theorem appendChild_ok_iff : (∃ t, appendChild parent child s = .ok ⟨⟩ t) ↔ Legal s parent child := by
  rw [← checkInsertable_iff lk]
  constructor
  · rintro ⟨t, hrun⟩
    cases hcheck : s.checkInsertable parent child with
    | ok u => rfl
    | error e =>
        rw [appendChild_refused hcheck] at hrun
        cases hrun
  · intro hcheck
    obtain ⟨_, _, t, -, -, hrun, -⟩ := appendChild_accepted lk hcheck
    exact ⟨t, hrun⟩

theorem unchanged_appendChild (hrun : appendChild parent child s = .error e t) : t = s := by
  rcases appendChild_spec lk parent child with ⟨e', hrefused⟩ | ⟨_, _, t', -, -, hok, -⟩
  · rw [hrefused] at hrun
    cases hrun
    rfl
  · rw [hok] at hrun
    cases hrun

theorem unchanged_detach {id : NodeId} (hrun : detach id s = .error e t) : t = s := by
  cases hid : s.get id with
  | none =>
      rw [detach_of_stale hid] at hrun
      cases hrun
      rfl
  | some n =>
      obtain ⟨t', kids', hok, -⟩ := detach_spec lk hid
      rw [hok] at hrun
      cases hrun

theorem unchanged_removeSubtree {id : NodeId} (hrun : removeSubtree id s = .error e t) : t = s := by
  unfold removeSubtree at hrun
  cases hid : s.get id with
  | none =>
      have hstale : s.contains id = false := by rw [contains, hid]; rfl
      simp only [run_bind, run_get, hstale, Bool.not_false, if_true, run_throw, EStateM.Result.error.injEq] at hrun
      exact hrun.2.symm
  | some n =>
      obtain ⟨t', kids', hok, -⟩ := detach_spec lk hid
      have hlive : s.contains id = true := by rw [contains, hid]; rfl
      simp only [run_bind, run_get, hlive, Bool.not_true, Bool.false_eq_true, if_false] at hrun
      by_cases hdoc : id = s.document
      · rw [if_pos hdoc] at hrun
        cases hrun
        rfl
      · rw [if_neg hdoc] at hrun
        simp only [run_bind, hok, run_modifyGet] at hrun
        cases hrun

/-- Before itself a node is put with a wrong result, but with one. -/
theorem insertBefore_self_ok {x p : NodeId} (hx : s.get x = some n) (hparent : n.parent = some p)
    (hcheck : s.checkInsertable p x = .ok ()) : ∃ t, insertBefore x x s = .ok ⟨⟩ t := by
  obtain ⟨s', kids', hdet, det⟩ := detach_spec lk hx
  obtain ⟨np, hnp, -⟩ := container_after_detach lk hcheck det
  obtain ⟨m, hm, hmp⟩ := det.orphaned
  have hprev := ((det.linked lk).orphan x m hm hmp).1
  have hlive : s'.contains x = true := by rw [contains, hm]; rfl
  have hlivep : s'.contains p = true := by rw [contains, hnp]; rfl
  obtain ⟨t₁, hrun₁, -, hget₁⟩ :=
    update_view (fun m' => { m' with parent := some p, prevSibling := m.prevSibling, nextSibling := some x }) hlive
  obtain ⟨t₂, hrun₂, -, hget₂⟩ :=
    update_view (fun m' => { m' with prevSibling := some x }) ((contains_of_map hget₁ _).trans hlive)
  obtain ⟨t₃, hrun₃, -, -⟩ :=
    @setForward_view t₂ p none (some x) ((contains_of_map hget₂ _).trans ((contains_of_map hget₁ _).trans hlivep))
  rw [← hprev] at hrun₃
  exact ⟨t₃.notifyInsert p x, by
    simp [insertBefore, run_bind, resolve_eq_ok hx, hparent, check_eq_ok (fun s => s.checkInsertable p x) hcheck, hdet,
      resolve_eq_ok hm, hrun₁, hrun₂, hrun₃]⟩

theorem unchanged_insertBefore {sibling x : NodeId}
    (hrun : insertBefore sibling x s = .error e t) : t = s := by
  by_cases hne : sibling = x
  case neg =>
    rcases insertBefore_spec lk hne with ⟨e', hrefused⟩ | ⟨_, _, _, _, _, t', -, -, hok, -⟩
    · rw [hrefused] at hrun
      cases hrun
      rfl
    · rw [hok] at hrun
      cases hrun
  case pos =>
    subst hne
    cases hsib : s.get sibling with
    | none =>
        simp [insertBefore, run_bind, resolve_eq_error hsib] at hrun
        exact hrun.2.symm
    | some n =>
        cases hparent : n.parent with
        | none =>
            simp [insertBefore, run_bind, resolve_eq_ok hsib, hparent] at hrun
            exact hrun.2.symm
        | some p =>
            cases hcheck : s.checkInsertable p sibling with
            | error e' =>
                simp [insertBefore, run_bind, resolve_eq_ok hsib, hparent,
                  check_eq_error (fun s => s.checkInsertable p sibling) hcheck] at hrun
                exact hrun.2.symm
            | ok u =>
                obtain ⟨t', hok⟩ := insertBefore_self_ok lk hsib hparent hcheck
                rw [hok] at hrun
                cases hrun

end

end Arena

/-! ## Runs -/

/-- The links of an arena are those of a forest; templates may be anywhere. -/
structure LinkInv (s : Arena) : Prop where
  slots : s.SlotWf
  linked : ∃ kids, Linked s.get kids

namespace LinkInv

open Arena

theorem new : LinkInv Arena.new := ⟨TreeInv.new.slots, TreeInv.new.linked⟩

variable {s : Arena} (inv : LinkInv s)

include inv

theorem create (data : NodeData) : LinkInv (final (Arena.create data s)) := by
  have hslots := inv.slots.evolves (follows_create .grow data s inv.slots)
  rcases create_view inv.slots data with ⟨e, hrun⟩ | ⟨id, t, hrun, hfresh, hget, -, -, -⟩
  · rw [hrun]
    exact inv
  · rw [hrun] at hslots ⊢
    obtain ⟨kids, lk⟩ := inv.linked
    refine ⟨hslots, kids, ?_⟩
    rw [final_ok, hget]
    exact lk.create hfresh _ data

theorem detach (id : NodeId) : LinkInv (final (Arena.detach id s)) := by
  have hslots := inv.slots.evolves (follows_detach .grow .grow id s inv.slots)
  cases hid : s.get id with
  | none =>
      rw [detach_of_stale hid]
      exact inv
  | some n =>
      obtain ⟨kids, lk⟩ := inv.linked
      obtain ⟨t, kids', hrun, det⟩ := detach_spec lk hid
      rw [hrun] at hslots ⊢
      exact ⟨hslots, kids', det.linked lk⟩

theorem appendChild (parent child : NodeId) : LinkInv (final (Arena.appendChild parent child s)) := by
  have hslots := inv.slots.evolves (follows_appendChild .grow .grow parent child s inv.slots)
  obtain ⟨kids, lk⟩ := inv.linked
  rcases appendChild_spec lk parent child with ⟨e, hrun⟩ | ⟨s', kids', t, det, att, hrun, -⟩
  · rw [hrun]
    exact inv
  · rw [hrun] at hslots ⊢
    exact ⟨hslots, _, att.linked (det.linked lk)⟩

theorem insertBefore {sibling newNode : NodeId} (hne : sibling ≠ newNode) :
    LinkInv (final (Arena.insertBefore sibling newNode s)) := by
  have hslots := inv.slots.evolves (follows_insertBefore .grow .grow sibling newNode s inv.slots)
  obtain ⟨kids, lk⟩ := inv.linked
  rcases insertBefore_spec lk hne with ⟨e, hrun⟩ | ⟨p, s', kids', pre, post, t, det, att, hrun, -⟩
  · rw [hrun]
    exact inv
  · rw [hrun] at hslots ⊢
    refine ⟨hslots, Function.update kids' p (pre ++ newNode :: sibling :: post), ?_⟩
    rw [final_ok, TreeInv.get_notifyInsert]
    exact att.linked (det.linked lk)

theorem removeSubtree {id : NodeId} (hcontents : s.DetachedContents id) :
    LinkInv (final (Arena.removeSubtree id s)) := by
  have hslots := inv.slots.evolves (follows_removeSubtree id s inv.slots)
  obtain ⟨kids, lk⟩ := inv.linked
  rcases removeSubtree_spec lk hcontents with ⟨e, hrun⟩ | ⟨s₀, kids₀, count, t, det, walk, hrun, -⟩
  · rw [hrun]
    exact inv
  · rw [hrun] at hslots ⊢
    refine ⟨hslots, keptKids t.get kids₀, ?_⟩
    rw [final_ok, get_of_slots (slots_dropDangling t)]
    exact walk.linked (det.linked lk)

theorem repainted {t : Arena} (hslots : t.SlotWf) (h : Repainted s t) : LinkInv t := by
  obtain ⟨kids, lk⟩ := inv.linked
  exact ⟨hslots, kids, h.linked lk⟩

/-- A payload that is written over: a node that has children must be able to have them. -/
theorem getMut {id : NodeId} {change : NodeData → NodeData}
    (hchange : ∀ n, s.get id = some n → n.data.canHaveChildren = true → (change n.data).canHaveChildren = true)
    (hslots : (final (update id (fun n => { n with data := change n.data }) s)).SlotWf) :
    LinkInv (final (update id (fun n => { n with data := change n.data }) s)) := by
  obtain ⟨kids, lk⟩ := inv.linked
  cases hid : s.get id with
  | none =>
      rw [update_eq_error _ hid]
      exact inv
  | some n =>
      have hlive : s.contains id = true := by rw [contains, hid]; rfl
      obtain ⟨t, hrun, -, hview⟩ := update_view (fun n => { n with data := change n.data }) hlive
      rw [hrun] at hslots ⊢
      refine ⟨hslots, kids, ?_⟩
      -- the change, where it is made, and nothing elsewhere
      let f : NodeId → NodeData → NodeData := fun q d =>
        if q = id ∧ (d.canHaveChildren = true → (change d).canHaveChildren = true) then change d else d
      have hf : ∀ q d, d.canHaveChildren = true → (f q d).canHaveChildren = true := by
        intro q d hd
        dsimp only [f]
        split
        · rename_i h
          exact h.2 hd
        · exact hd
      have hsame : t.get = fun q => (s.get q).map fun n => { n with data := f q n.data } := by
        rw [hview]
        funext q
        by_cases hq : q = id
        · subst hq
          simp only [hid, Option.map_some, f, true_and, if_true]
          rw [if_pos (hchange n hid)]
        · simp only [f, hq, false_and, if_false]
      rw [final_ok, hsame]
      exact lk.mapData hf

end LinkInv

namespace Op

/-- The calls that keep a forest: no node inserted before itself, no subtree removed whose template contents are
somebody's child, and no payload written that takes the children's place. -/
def KeepsLinks : Op → Arena → Prop
  | insertBefore sibling newNode, _ => sibling ≠ newNode
  | removeSubtree id, s => s.DetachedContents id
  | getMut id change, s =>
      ∀ n, s.get id = some n → n.data.canHaveChildren = true → (change n.data).canHaveChildren = true
  | _, _ => True

theorem keeps_linkInv {op : Op} {s : Arena} (hop : op.KeepsLinks s) (inv : LinkInv s) : LinkInv (op.apply s) := by
  have hslots := inv.slots.evolves (op.evolves inv.slots)
  cases op with
  | create data => exact inv.create data
  | appendChild parent child => exact inv.appendChild parent child
  | insertBefore sibling newNode => exact inv.insertBefore hop
  | detach id => exact inv.detach id
  | reparentChildren source target =>
      exact @Arena.keeps_reparentChildren LinkInv (fun p c s h => h.appendChild p c) source target s inv
  | removeSubtree id => exact inv.removeSubtree hop
  | cloneSubtree id =>
      exact @Arena.keeps_cloneSubtree LinkInv (fun p c s h => h.appendChild p c) (fun q n s h _ => h.create n.data) id s inv
  | setAttribute id name value => exact inv.repainted hslots (Arena.repainted_setAttribute id name value s trivial)
  | removeAttribute id name => exact inv.repainted hslots (Arena.repainted_removeAttribute id name s trivial)
  | addAttributesIfMissing id incoming =>
      exact inv.repainted hslots (Arena.repainted_addAttributesIfMissing id incoming s trivial)
  | getMut id change => exact inv.getMut hop hslots
  | newRange start stop =>
      have hget := Arena.get_of_slots (Arena.slots_newRange inv.slots start stop)
      exact ⟨hslots, by rw [Op.apply, hget]; exact inv.linked⟩
  | dropRange id =>
      have hget := Arena.get_of_slots (Arena.slots_dropRange s id)
      exact ⟨hslots, by rw [Op.apply, hget]; exact inv.linked⟩
  | recordSnapshots on => exact inv.repainted hslots (.of_slots rfl rfl rfl)
  | takeSnapshots => exact inv.repainted hslots (.of_slots rfl rfl rfl)

end Op

theorem linkInv_after {ops : List Op} (hops : Each Op.KeepsLinks ops Arena.new) : LinkInv (after ops) := by
  have hstep : ∀ (op : Op) (s : Arena), LinkInv s → op.KeepsLinks s → LinkInv (op.apply s) :=
    fun _ _ inv hop => Op.keeps_linkInv hop inv
  exact run_induction hstep ops Arena.new LinkInv.new hops

/-- Insertions are accepted exactly when they are legal, and what is refused leaves the arena as it was. -/
structure InsertionExact (s : Arena) : Prop where
  accepted : ∀ parent child, (∃ t, Arena.appendChild parent child s = .ok ⟨⟩ t) ↔ Legal s parent child
  append_refused : ∀ parent child e t, Arena.appendChild parent child s = .error e t → t = s
  insert_refused : ∀ sibling newNode e t, Arena.insertBefore sibling newNode s = .error e t → t = s
  detach_refused : ∀ id e t, Arena.detach id s = .error e t → t = s
  remove_refused : ∀ id e t, Arena.removeSubtree id s = .error e t → t = s

/-- After every run in which each call meets its condition in the state it is made in. -/
theorem insertion_exact (ops : List Op) (hops : Each Op.KeepsLinks ops Arena.new) : InsertionExact (after ops) := by
  obtain ⟨kids, lk⟩ := (linkInv_after hops).linked
  exact
    { accepted := fun _ _ => Arena.appendChild_ok_iff lk
      append_refused := fun _ _ _ _ => Arena.unchanged_appendChild lk
      insert_refused := fun _ _ _ _ => Arena.unchanged_insertBefore lk
      detach_refused := fun _ _ _ => Arena.unchanged_detach lk
      remove_refused := fun _ _ _ => Arena.unchanged_removeSubtree lk }

/-- A template whose contents are a fragment of its own goes, and a text is rewritten. -/
theorem insertion_exact_template : InsertionExact (after
    [.create (.element ⟨none, "", "p"⟩ [] none false), .create (.text "a"), .appendChild ⟨1, 1⟩ ⟨2, 1⟩, .create .fragment,
      .create (.element ⟨none, "", "template"⟩ [] (some ⟨3, 1⟩) false), .removeSubtree ⟨4, 1⟩,
      .getMut ⟨2, 1⟩ fun _ => .text "b"]) :=
  insertion_exact _ ⟨trivial, trivial, trivial, trivial, trivial, detachedContents_of_slots _ (by decide), fun n hn => by
    cases hn
    exact id, trivial⟩

/-- The template names the only child of the paragraph as its contents: once the template is removed the paragraph's last
child is stale, and an append is refused after it has written the new child's links. -/
theorem insertion_inexact_attached_contents : ¬ InsertionExact (after
    [.create (.element ⟨none, "", "p"⟩ [] none false), .create (.text "a"), .appendChild ⟨1, 1⟩ ⟨2, 1⟩,
      .create (.element ⟨none, "", "template"⟩ [] (some ⟨2, 1⟩) false), .removeSubtree ⟨3, 1⟩, .create (.text "b")]) := by
  intro h
  have hsame := h.append_refused ⟨1, 1⟩ ⟨2, 2⟩ .noSuchNode _ rfl
  exact absurd (congrArg (fun s => (s.get ⟨2, 2⟩).map Node.parent) hsame) (by decide)

end Pelorus.Dom
