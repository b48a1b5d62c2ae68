import Pelorus.Dom.Insertion

/-
  Dom/Reparent.lean --- moving all children of a node, one at a time.

  Whether a child may be moved does not depend on its siblings having been moved before
  (`legal_moved`), so the move stops at the first child that is refused in the state the call was
  made in, with those before it moved (`forM_appendChild`).  It is all or nothing when no child
  is refused, or the first one is (`reparent_atomic_iff`).
-/
set_option autoImplicit false

namespace Pelorus.Dom

open Lib.StateRun Lib.Forest

/-- The child lists once `moved` are the last children of `target`. -/
def movedLists (kids : NodeId → List NodeId) (target : NodeId) (moved : List NodeId) (q : NodeId) : List NodeId :=
  let rest := (kids q).filter fun c => c ∉ moved
  if q = target then rest ++ moved else rest

/-! ## Chains of parents -/

/-- Above a node that is not below `c`, nothing has changed when only `c` has another parent. -/
theorem Below.transfer {s t : Arena} {a c x : NodeId} {k : Nat}
    (hsame : ∀ p q, q ≠ c → ParentOf s p q → ParentOf t p q) (h : Below s a x k) (hout : ∀ j, ¬ Below s c x j) :
    Below t a x k := by
  induction h with
  | self => exact .self
  | @under p x k above parent ih =>
      have hne : x ≠ c := fun heq => hout 0 (heq ▸ .self)
      exact .under (ih fun j hj => hout (j + 1) (.under hj parent)) (hsame p x hne parent)

theorem Depth.transfer {s t : Arena} {c x : NodeId} {d : Nat}
    (hsame : ∀ q n, q ≠ c → s.get q = some n → ∃ m, t.get q = some m ∧ m.parent = n.parent)
    (h : Depth s x d) (hout : ∀ j, ¬ Below s c x j) : Depth t x d := by
  induction h with
  | @root x n live parent =>
      have hne : x ≠ c := fun heq => hout 0 (heq ▸ .self)
      obtain ⟨m, hm, hp⟩ := hsame x n hne live
      exact .root hm (hp.trans parent)
  | @under x p n d live parent above ih =>
      have hne : x ≠ c := fun heq => hout 0 (heq ▸ .self)
      obtain ⟨m, hm, hp⟩ := hsame x n hne live
      exact .under hm (hp.trans parent) (ih fun j hj => hout (j + 1) (.under hj ⟨n, live, parent⟩))

namespace Arena

section

variable {s t : Arena} {kids kids' : NodeId → List NodeId} (lk : Linked s.get kids)

include lk

/-- A chain of parents that comes back is empty. -/
theorem below_acyclic {a : NodeId} {k : Nat} (h : Below s a a k) : k = 0 := by
  obtain ⟨path, rfl, hpath⟩ := (below_iff lk).mp h
  cases path using List.reverseRecOn with
  | nil => rfl
  | append_singleton path i =>
      obtain ⟨p, -, hpc⟩ := follow_snoc.mp hpath
      obtain ⟨m, hm, -⟩ := lk.parent_of_mem (List.mem_of_getElem? hpc)
      obtain ⟨r, lead, haddr, -⟩ := lk.rooted a m hm
      rw [lk.branching.no_loop haddr hpath]
      rfl

/-- Of two nodes with a common descendant one is above the other. -/
theorem below_chain {a b x : NodeId} {j k : Nat} (ha : Below s a x j) (hb : Below s b x k) :
    (∃ i, Below s a b i) ∨ ∃ i, Below s b a i := by
  obtain ⟨short, rfl, hshort⟩ := (below_iff lk).mp ha
  obtain ⟨long, rfl, hlong⟩ := (below_iff lk).mp hb
  rcases Nat.le_total short.length long.length with hle | hle
  · obtain ⟨lead, -, hlead⟩ := lk.branching.follow_suffix hshort hlong hle
    exact .inr ⟨lead.length, (below_iff lk).mpr ⟨lead, rfl, hlead⟩⟩
  · obtain ⟨lead, -, hlead⟩ := lk.branching.follow_suffix hlong hshort hle
    exact .inl ⟨lead.length, (below_iff lk).mpr ⟨lead, rfl, hlead⟩⟩

end

/-! ## One child -/

/-- What an append leaves: the lists, and all parents but one. -/
structure Moved (s : Arena) (kids : NodeId → List NodeId) (target c : NodeId) (t : Arena) : Prop where
  linked : Linked t.get (movedLists kids target [c])
  document : t.document = s.document
  data : ∀ q, (t.get q).map Node.data = (s.get q).map Node.data
  parent : ∀ q, q ≠ c → (t.get q).map Node.parent = (s.get q).map Node.parent
  child : ParentOf t target c

theorem moved_of_legal {s : Arena} {kids : NodeId → List NodeId} (lk : Linked s.get kids) {target c : NodeId}
    (hlegal : Legal s target c) : ∃ t, appendChild target c s = .ok ⟨⟩ t ∧ Moved s kids target c t := by
  obtain ⟨s', kids', t, det, att, hrun, -⟩ := appendChild_accepted lk ((checkInsertable_iff lk).mpr hlegal)
  have lk' := att.linked (det.linked lk)
  have hlists : Function.update kids' target (kids' target ++ [c]) = movedLists kids target [c] := by
    funext q
    have hrest : (kids q).filter (fun d => d ∉ [c]) = kids' q := by
      rw [det.kids_eq_filter lk]
      exact List.filter_congr fun d _ => by simp
    rw [movedLists, hrest]
    by_cases hq : q = target
    · rw [if_pos hq, hq, Function.update_self]
    · rw [if_neg hq, Function.update_of_ne hq]
  have hmem : c ∈ Function.update kids' target (kids' target ++ [c]) target := by
    rw [Function.update_self]
    exact List.mem_append_right _ (List.mem_singleton_self c)
  exact ⟨t, hrun, hlists ▸ lk', att.document_eq.trans det.document_eq, fun q => (att.data q).trans (det.data q),
    fun q hq => (att.parent_eq hq).trans (det.parent_eq hq), lk'.parent_of_mem hmem⟩

end Arena

theorem Below.parent {s : Arena} {a p x : NodeId} {k : Nat} (h : Below s a x (k + 1)) (hp : ParentOf s p x) :
    Below s a p k := by
  cases h with
  | under above parent =>
      obtain ⟨m, hm, hpar⟩ := parent
      obtain ⟨n, hn, hpar'⟩ := hp
      rw [hm] at hn
      cases hn
      rw [hpar] at hpar'
      cases hpar'
      exact above

/-- Below the node that moved, nothing has changed. -/
theorem Below.transfer_self {s t : Arena} {c x : NodeId} {k : Nat}
    (hsame : ∀ p q, q ≠ c → ParentOf s p q → ParentOf t p q) (hacyclic : ∀ {k}, Below s c c k → k = 0)
    (h : Below s c x k) : Below t c x k := by
  induction h with
  | self => exact .self
  | @under p x k above parent ih =>
      have hne : x ≠ c := by
        rintro rfl
        exact absurd (hacyclic (.under above parent)) (Nat.succ_ne_zero k)
      exact .under ih (hsame p x hne parent)

namespace Arena

theorem not_below_sibling {s : Arena} {kids : NodeId → List NodeId} (lk : Linked s.get kids) {source c c' : NodeId}
    (hc : ParentOf s source c) (hc' : ParentOf s source c') (hne : c' ≠ c) (k : Nat) : ¬ Below s c c' k := by
  intro h
  cases k with
  | zero =>
      cases h
      exact hne rfl
  | succ k => exact absurd (below_acyclic lk (.under (h.parent hc') hc)) (Nat.succ_ne_zero k)

namespace Moved

variable {s t : Arena} {kids : NodeId → List NodeId} {target c : NodeId} (moved : Moved s kids target c t)

include moved

theorem contains_eq (q : NodeId) : t.contains q = s.contains q := by
  have hdata := congrArg Option.isSome (moved.data q)
  rwa [Option.isSome_map, Option.isSome_map] at hdata

/-- A node other than the one moved keeps its parent. -/
theorem parentOf_iff {p q : NodeId} (hq : q ≠ c) : ParentOf t p q ↔ ParentOf s p q := by
  have hsame := moved.parent q hq
  constructor
  · rintro ⟨m, hm, hp⟩
    rw [hm, Option.map_some] at hsame
    obtain ⟨n, hn, hpar⟩ := Option.map_eq_some_iff.mp hsame.symm
    exact ⟨n, hn, hpar.trans hp⟩
  · rintro ⟨m, hm, hp⟩
    rw [hm, Option.map_some] at hsame
    obtain ⟨n, hn, hpar⟩ := Option.map_eq_some_iff.mp hsame
    exact ⟨n, hn, hpar.trans hp⟩

variable (lk : Linked s.get kids) (hlegal : Legal s target c)

include lk

theorem below_iff_self {x : NodeId} {k : Nat} : Below t c x k ↔ Below s c x k :=
  ⟨.transfer_self (fun _ _ hq => (moved.parentOf_iff hq).mp) (below_acyclic moved.linked),
    .transfer_self (fun _ _ hq => (moved.parentOf_iff hq).mpr) (below_acyclic lk)⟩

/-- What is not below the moved node is where it was. -/
theorem below_iff_outside {a x : NodeId} {k : Nat} (hout : ∀ j, ¬ Below s c x j) : Below t a x k ↔ Below s a x k :=
  ⟨fun h => h.transfer (fun _ _ hq => (moved.parentOf_iff hq).mp) fun j hj => hout j ((moved.below_iff_self lk).mp hj),
    fun h => h.transfer (fun _ _ hq => (moved.parentOf_iff hq).mpr) hout⟩

theorem depth_iff_outside {x : NodeId} {d : Nat} (hout : ∀ j, ¬ Below s c x j) : Depth t x d ↔ Depth s x d := by
  have hparent : ∀ {u v : Arena}, (∀ q, q ≠ c → (v.get q).map Node.parent = (u.get q).map Node.parent) →
      ∀ q n, q ≠ c → u.get q = some n → ∃ m, v.get q = some m ∧ m.parent = n.parent := by
    intro u v hsame q n hq hn
    have hmap := hsame q hq
    rw [hn, Option.map_some] at hmap
    exact Option.map_eq_some_iff.mp hmap
  exact ⟨fun h => h.transfer (hparent fun q hq => (moved.parent q hq).symm)
      fun j hj => hout j ((moved.below_iff_self lk).mp hj),
    fun h => h.transfer (hparent moved.parent) hout⟩

include hlegal

/-- Whether a child may be moved does not depend on a sibling having been moved before. -/
theorem legal_iff {source c' : NodeId} (hc : ParentOf s source c) (hc' : ParentOf s source c') (hne : c' ≠ c) :
    Legal t target c' ↔ Legal s target c' := by
  have hcyclic : ∀ k, Below t c' target k ↔ Below s c' target k := fun k =>
    moved.below_iff_outside lk hlegal.acyclic
  have hdepth : ∀ d, Depth t target d ↔ Depth s target d := fun d => moved.depth_iff_outside lk hlegal.acyclic
  have hcontainer : ∀ q, (∃ n, t.get q = some n ∧ n.data.canHaveChildren = true) ↔
      ∃ n, s.get q = some n ∧ n.data.canHaveChildren = true := by
    intro q
    have hdata := moved.data q
    cases ht : t.get q <;> cases hs : s.get q <;> simp_all
  -- below the sibling: nothing came there, and nothing left
  have hbelow : (∀ k, ¬ Below s c' target k) → ∀ x k, Below t c' x k ↔ Below s c' x k := by
    intro hacyclic x k
    by_cases hout : ∀ j, ¬ Below s c x j
    · exact moved.below_iff_outside lk hout
    · obtain ⟨j, hj⟩ := not_forall_not.mp hout
      have hs : ¬ Below s c' x k := fun h => (below_chain lk hj h).elim
        (fun ⟨i, hi⟩ => not_below_sibling lk hc hc' hne i hi) fun ⟨i, hi⟩ => not_below_sibling lk hc' hc hne.symm i hi
      have ht : ¬ Below t c' x k := by
        intro h
        rcases below_chain moved.linked ((moved.below_iff_self lk).mpr hj) h with ⟨i, hi⟩ | ⟨i, hi⟩
        · exact not_below_sibling lk hc hc' hne i ((moved.below_iff_self lk).mp hi)
        · cases i with
          | zero =>
              cases hi
              exact hne rfl
          | succ i => exact hacyclic i ((hcyclic i).mp (hi.parent moved.child))
      exact iff_of_false ht hs
  have hheight : (∀ k, ¬ Below s c' target k) → ∀ h, Height t c' h ↔ Height s c' h := by
    intro hacyclic h
    have hset : {k | ∃ x, Below t c' x k} = {k | ∃ x, Below s c' x k} := by
      ext k
      exact exists_congr fun x => hbelow hacyclic x k
    rw [Height, Height, hset]
  constructor
  · rintro ⟨hp, hch, hdoc, hcont, hacyclic, d, h, hd, hh, hle⟩
    have hacyclic' : ∀ k, ¬ Below s c' target k := fun k hk => hacyclic k ((hcyclic k).mpr hk)
    exact ⟨moved.contains_eq target ▸ hp, moved.contains_eq c' ▸ hch, moved.document ▸ hdoc, (hcontainer target).mp hcont,
      hacyclic', d, h, (hdepth d).mp hd, (hheight hacyclic' h).mp hh, hle⟩
  · rintro ⟨hp, hch, hdoc, hcont, hacyclic, d, h, hd, hh, hle⟩
    exact ⟨(moved.contains_eq target).symm ▸ hp, (moved.contains_eq c').symm ▸ hch, moved.document.symm ▸ hdoc,
      (hcontainer target).mpr hcont, fun k hk => hacyclic k ((hcyclic k).mp hk), d, h, (hdepth d).mpr hd,
      (hheight hacyclic h).mpr hh, hle⟩

end Moved

/-! ## All children -/

theorem movedLists_nil {kids : NodeId → List NodeId} {target : NodeId} : movedLists kids target [] = kids := by
  funext q
  simp [movedLists]

theorem movedLists_cons {kids : NodeId → List NodeId} {target c : NodeId} {l : List NodeId} (hc : c ∉ l) :
    movedLists (movedLists kids target [c]) target l = movedLists kids target (c :: l) := by
  have hfilter : ∀ m : List NodeId, (m.filter fun d => d ∉ [c]).filter (fun d => d ∉ l) = m.filter fun d => d ∉ c :: l := by
    intro m
    rw [List.filter_filter]
    exact List.filter_congr fun d _ => by simp [Bool.and_comm]
  have hself : [c].filter (fun d => d ∉ l) = [c] := by simp [hc]
  funext q
  simp only [movedLists]
  by_cases hq : q = target
  · simp only [if_pos hq, List.filter_append, hfilter, hself, List.append_assoc, List.singleton_append]
  · simp only [if_neg hq, hfilter]

/-- The loop moves the children up to the first that is refused, all legal ones in the first state. -/
theorem forM_appendChild {target source : NodeId} (l : List NodeId) :
    ∀ {s : Arena} {kids : NodeId → List NodeId}, Linked s.get kids → l.Nodup → (∀ c ∈ l, ParentOf s source c) →
      ((∀ c ∈ l, Legal s target c) → ∃ t, (l.forM (appendChild target) : ArenaM PUnit) s = .ok ⟨⟩ t ∧
        Linked t.get (movedLists kids target l) ∧ ∀ q, t.contains q = s.contains q) ∧
      ∀ pre c post, l = pre ++ c :: post → (∀ d ∈ pre, Legal s target d) → ¬ Legal s target c →
        ∃ e t, (l.forM (appendChild target) : ArenaM PUnit) s = .error e t ∧ Linked t.get (movedLists kids target pre) ∧
          ∀ q, t.contains q = s.contains q := by
  induction l with
  | nil =>
      intro s kids lk _ _
      exact ⟨fun _ => ⟨s, rfl, by rwa [movedLists_nil], fun _ => rfl⟩, fun pre c post h => by cases pre <;> cases h⟩
  | cons c l ih =>
      intro s kids lk hnodup hmem
      obtain ⟨hnot, hnodup⟩ := List.nodup_cons.mp hnodup
      rw [List.forall_mem_cons] at hmem
      have hsplit : ((c :: l).forM (appendChild target) : ArenaM PUnit) =
          (do appendChild target c; l.forM (appendChild target)) := rfl
      -- once the first child has moved, the rest are as legal as they were
      have hstep : Legal s target c → ∃ t, appendChild target c s = .ok ⟨⟩ t ∧
          Linked t.get (movedLists kids target [c]) ∧ (∀ q, t.contains q = s.contains q) ∧
          (∀ d ∈ l, ParentOf t source d) ∧ ∀ d ∈ l, Legal t target d ↔ Legal s target d := by
        intro hlegal
        obtain ⟨t, hrun, moved⟩ := moved_of_legal lk hlegal
        have hne : ∀ d ∈ l, d ≠ c := fun d hd heq => hnot (heq ▸ hd)
        exact ⟨t, hrun, moved.linked, moved.contains_eq, fun d hd => (moved.parentOf_iff (hne d hd)).mpr (hmem.2 d hd),
          fun d hd => moved.legal_iff lk hlegal hmem.1 (hmem.2 d hd) (hne d hd)⟩
      constructor
      · intro hlegal
        rw [List.forall_mem_cons] at hlegal
        obtain ⟨t, hrun, lk', hlive, hmem', hiff⟩ := hstep hlegal.1
        obtain ⟨u, hrest, lk'', hlive'⟩ := (ih lk' hnodup hmem').1 fun d hd => (hiff d hd).mpr (hlegal.2 d hd)
        refine ⟨u, ?_, movedLists_cons hnot ▸ lk'', fun q => (hlive' q).trans (hlive q)⟩
        rw [hsplit, run_bind, hrun]
        exact hrest
      · intro pre b post heq hpre hbad
        cases pre with
        | nil =>
            cases heq
            rcases appendChild_spec lk target c with ⟨e, hrefused⟩ | ⟨_, _, t, -, -, hrun, -⟩
            · refine ⟨e, s, ?_, ?_, fun _ => rfl⟩
              · rw [hsplit, run_bind, hrefused]
              · rwa [movedLists_nil]
            · exact absurd ((appendChild_ok_iff lk).mp ⟨t, hrun⟩) hbad
        | cons d pre =>
            cases heq
            rw [List.forall_mem_cons] at hpre
            obtain ⟨t, hrun, lk', hlive, hmem', hiff⟩ := hstep hpre.1
            obtain ⟨e, u, hrest, lk'', hlive'⟩ := (ih lk' hnodup hmem').2 pre b post rfl
              (fun a ha => (hiff a (List.mem_append_left _ ha)).mpr (hpre.2 a ha))
              (fun h => hbad ((hiff b (List.mem_append_right _ List.mem_cons_self)).mp h))
            refine ⟨e, u, ?_, ?_, fun q => (hlive' q).trans (hlive q)⟩
            · rw [hsplit, run_bind, hrun]
              exact hrest
            · have hnotpre : c ∉ pre := fun h => hnot (List.mem_append_left _ h)
              exact movedLists_cons hnotpre ▸ lk''

theorem exists_first {α : Type} {P : α → Prop} (l : List α) (h : ¬ ∀ c ∈ l, P c) :
    ∃ pre c post, l = pre ++ c :: post ∧ (∀ d ∈ pre, P d) ∧ ¬ P c := by
  induction l with
  | nil => exact absurd (fun c hc => (List.not_mem_nil hc).elim) h
  | cons c l ih =>
      by_cases hc : P c
      · obtain ⟨pre, b, post, hsplit, hpre, hb⟩ := ih fun hl => h (List.forall_mem_cons.mpr ⟨hc, hl⟩)
        exact ⟨c :: pre, b, post, by rw [hsplit]; rfl, List.forall_mem_cons.mpr ⟨hc, hpre⟩, hb⟩
      · exact ⟨[], c, l, rfl, fun d hd => (List.not_mem_nil hd).elim, hc⟩

/-- Some children have moved: the list of their parent is another one. -/
theorem movedLists_ne {kids : NodeId → List NodeId} {source target c : NodeId} {pre post : List NodeId}
    (hnodup : (kids source).Nodup) (hsplit : kids source = pre ++ c :: post) (hne : pre ≠ []) :
    movedLists kids target pre source ≠ kids source := by
  obtain ⟨d, rest, rfl⟩ := List.exists_cons_of_ne_nil hne
  rw [hsplit] at hnodup
  have hapart := List.disjoint_of_nodup_append hnodup
  have hrest : (kids source).filter (fun b => b ∉ d :: rest) = c :: post := by
    rw [hsplit, List.filter_append, List.filter_eq_nil_iff.mpr fun b hb h => (of_decide_eq_true h : b ∉ d :: rest) hb,
      List.nil_append]
    exact List.filter_eq_self.mpr fun b hb => decide_eq_true fun hb' => hapart hb' hb
  have hcd : c ≠ d := fun heq => hapart List.mem_cons_self (heq ▸ List.mem_cons_self)
  intro heq
  simp only [movedLists, hrest] at heq
  rw [hsplit] at heq
  split at heq
  · exact hcd (List.cons.inj heq).1
  · exact hcd (List.cons.inj heq).1

end Arena

/-- Either all children of `source` are now the last ones of `target`, or every child list is as it was. -/
def ReparentAtomic (s : Arena) (source target : NodeId) : Prop :=
  (∃ t, Arena.reparentChildren source target s = .ok ⟨⟩ t ∧
    t.children target = some ((s.childIds target).filter (fun c => c ∉ s.childIds source) ++ s.childIds source) ∧
      (source ≠ target → t.children source = some [])) ∨
  ∃ e t, Arena.reparentChildren source target s = .error e t ∧ ∀ q, t.children q = s.children q

section

variable {s : Arena} {kids : NodeId → List NodeId} (lk : Linked s.get kids) {source target : NodeId}
  (hsource : s.contains source = true) (htarget : s.contains target = true)

include lk hsource

theorem reparentChildren_eq : Arena.reparentChildren source target s =
    ((kids source).forM (Arena.appendChild target) : ArenaM PUnit) s := by
  obtain ⟨n, hn⟩ := Option.isSome_iff_exists.mp hsource
  simp only [Arena.reparentChildren, run_bind, run_get, Arena.children_eq lk hn]

omit hsource in
theorem parentOf_of_mem_kids : ∀ c ∈ kids source, ParentOf s source c := fun _ hc => lk.parent_of_mem hc

include htarget

theorem reparent_of_legal (hall : ∀ c ∈ kids source, Legal s target c) : ReparentAtomic s source target := by
  obtain ⟨t, hrun, lk', hlive⟩ :=
    (Arena.forM_appendChild (kids source) lk (lk.nodup source) (parentOf_of_mem_kids lk)).1 hall
  obtain ⟨n, hn⟩ := Option.isSome_iff_exists.mp ((hlive source).trans hsource)
  obtain ⟨m, hm⟩ := Option.isSome_iff_exists.mp ((hlive target).trans htarget)
  refine .inl ⟨t, (reparentChildren_eq lk hsource).trans hrun, ?_, fun hne => ?_⟩
  · rw [Arena.children_eq lk' hm, Arena.childIds_eq lk, Arena.childIds_eq lk, movedLists, if_pos rfl]
  · rw [Arena.children_eq lk' hn, movedLists, if_neg hne]
    exact congrArg some (List.filter_eq_nil_iff.mpr fun c hc => by simpa using hc)

theorem reparent_of_refused (hfirst : ∀ c, (kids source).head? = some c → ¬ Legal s target c) :
    ReparentAtomic s source target := by
  cases hkids : kids source with
  | nil =>
      refine reparent_of_legal lk hsource htarget fun c hc => ?_
      rw [hkids] at hc
      exact (List.not_mem_nil hc).elim
  | cons c l =>
      have hbad := hfirst c (by rw [hkids]; rfl)
      obtain ⟨e, t, hrun, lk', hlive⟩ :=
        (Arena.forM_appendChild (kids source) lk (lk.nodup source) (parentOf_of_mem_kids lk)).2 [] c l hkids
          (fun d hd => (List.not_mem_nil hd).elim) hbad
      rw [Arena.movedLists_nil] at lk'
      refine .inr ⟨e, t, (reparentChildren_eq lk hsource).trans hrun, fun q => ?_⟩
      cases hq : s.get q with
      | none =>
          have hstale : t.get q = none := by
            have hcontains := hlive q
            rw [Arena.contains, Arena.contains, hq] at hcontains
            exact Option.not_isSome_iff_eq_none.mp (by rw [hcontains]; exact Bool.false_ne_true)
          simp only [Arena.children, hq, hstale]
          rfl
      | some n =>
          obtain ⟨m, hm⟩ := Option.isSome_iff_exists.mp ((hlive q).trans (by rw [Arena.contains, hq]; rfl))
          rw [Arena.children_eq lk hq, Arena.children_eq lk' hm]

omit htarget in
theorem not_reparent {c : NodeId} {pre post : List NodeId} (hsplit : kids source = pre ++ c :: post) (hne : pre ≠ [])
    (hpre : ∀ d ∈ pre, Legal s target d) (hbad : ¬ Legal s target c) : ¬ ReparentAtomic s source target := by
  obtain ⟨e, t, hrun, lk', hlive⟩ :=
    (Arena.forM_appendChild (kids source) lk (lk.nodup source) (parentOf_of_mem_kids lk)).2 pre c post hsplit
      hpre hbad
  obtain ⟨n, hn⟩ := Option.isSome_iff_exists.mp hsource
  obtain ⟨m, hm⟩ := Option.isSome_iff_exists.mp ((hlive source).trans hsource)
  have hfailed := (reparentChildren_eq lk hsource).trans hrun
  rintro (⟨u, hok, -⟩ | ⟨e', u, herror, hsame⟩)
  · rw [hfailed] at hok
    cases hok
  · rw [hfailed] at herror
    cases herror
    have hlist := hsame source
    rw [Arena.children_eq lk hn, Arena.children_eq lk' hm] at hlist
    exact Arena.movedLists_ne (lk.nodup source) hsplit hne (Option.some.inj hlist)

end

/-- The move of all children is all or nothing exactly if no child is refused, or the first one is. -/
theorem reparent_atomic_iff (ops : List Op) (hops : Each Op.KeepsLinks ops Arena.new) {source target : NodeId}
    (hsource : (after ops).contains source = true) (htarget : (after ops).contains target = true) :
    ReparentAtomic (after ops) source target ↔
      (∀ c ∈ (after ops).childIds source, Legal (after ops) target c) ∨
        ∀ c, ((after ops).childIds source).head? = some c → ¬ Legal (after ops) target c := by
  obtain ⟨kids, lk⟩ := (linkInv_after hops).linked
  rw [Arena.childIds_eq lk]
  constructor
  · intro hatomic
    by_contra hneither
    rw [not_or] at hneither
    obtain ⟨pre, c, post, hsplit, hpre, hbad⟩ := Arena.exists_first _ hneither.1
    refine not_reparent lk hsource hsplit ?_ hpre hbad hatomic
    rintro rfl
    refine hneither.2 fun d hd => ?_
    rw [hsplit] at hd
    cases hd
    exact hbad
  · rintro (hall | hfirst)
    · exact reparent_of_legal lk hsource htarget hall
    · exact reparent_of_refused lk hsource htarget hfirst

/-- Two texts of one fragment, and another fragment. -/
def twoFragments : List Op :=
  [.create .fragment, .create (.text "a"), .create (.text "b"), .appendChild ⟨1, 1⟩ ⟨2, 1⟩, .appendChild ⟨1, 1⟩ ⟨3, 1⟩,
    .create .fragment]

theorem reparent_atomic_texts : ReparentAtomic (after twoFragments) ⟨1, 1⟩ ⟨4, 1⟩ ↔
    (∀ c ∈ (after twoFragments).childIds ⟨1, 1⟩, Legal (after twoFragments) ⟨4, 1⟩ c) ∨
      ∀ c, ((after twoFragments).childIds ⟨1, 1⟩).head? = some c → ¬ Legal (after twoFragments) ⟨4, 1⟩ c :=
  reparent_atomic_iff twoFragments ⟨trivial, trivial, trivial, trivial, trivial, trivial, trivial⟩ (by decide) (by decide)

/-- A text and a fragment, all to go into that fragment: the text has moved when the fragment is refused. -/
theorem reparent_not_atomic : ¬ ReparentAtomic (after
    [.create .fragment, .create (.text "a"), .create .fragment, .appendChild ⟨1, 1⟩ ⟨2, 1⟩, .appendChild ⟨1, 1⟩ ⟨3, 1⟩])
    ⟨1, 1⟩ ⟨3, 1⟩ := by
  rintro (⟨t, hok, -⟩ | ⟨e, t, herror, hsame⟩)
  · cases hok
  · cases herror
    exact absurd (hsame ⟨1, 1⟩) (by decide)

end Pelorus.Dom
