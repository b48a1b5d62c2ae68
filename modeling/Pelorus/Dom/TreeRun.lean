import Pelorus.Dom.Handles
import Pelorus.Dom.Removal

/-
  Dom/TreeRun.lean --- the tree invariant over whole runs.

  `TreeInv` is kept by `create` and the structural operations, each by the
  specification of its code (`Dom/Relink.lean`, `Dom/Removal.lean`), and by the
  operations that only touch payloads or ranges.  The two operations that are
  loops over others, `reparent_children` and `clone_subtree`, keep any property
  their steps keep (`Keeps`).

  `TreeSound` is what the invariant means for a reader of the links: it names no
  forest, only the handles in the nodes.
-/
set_option autoImplicit false

namespace Pelorus.Dom

open Lib.StateRun Lib.Forest

/-! ## Views under the operations that move nothing -/

theorem Linked.create {view : NodeId → Option Node} {kids : NodeId → List NodeId}
    (lk : Linked view kids) {id : NodeId} (hfresh : view id = none) (serial : Nat)
    (data : NodeData) :
    Linked (Function.update view id (some (Node.new serial data))) kids := by
  have hroot : IsRoot kids id := by
    intro p hmem
    obtain ⟨m, hm, -⟩ := lk.parent_of_mem hmem
    rw [hfresh] at hm
    cases hm
  have hkids := lk.stale id hfresh
  have hold : ∀ {q n}, q ≠ id → Function.update view id (some (Node.new serial data)) q = some n →
      view q = some n := by
    intro q n hq h
    rwa [Function.update_of_ne hq] at h
  refine ⟨?_, lk.nodup, ?_, ?_, ?_, ?_, ?_, ?_, ?_⟩
  · intro p hp
    by_cases hpid : p = id
    · rw [hpid]; exact hkids
    · rw [Function.update_of_ne hpid] at hp
      exact lk.stale p hp
  · intro p n hp
    by_cases hpid : p = id
    · subst hpid
      rw [Function.update_self] at hp
      cases hp
      simp [Node.new, hkids]
    · exact lk.first p n (hold hpid hp)
  · intro p n hp
    by_cases hpid : p = id
    · subst hpid
      rw [Function.update_self] at hp
      cases hp
      simp [Node.new, hkids]
    · exact lk.last p n (hold hpid hp)
  · intro p pre c post hsplit
    obtain ⟨m, hm, hrest⟩ := lk.link p pre c post hsplit
    have hcid : c ≠ id := by
      rintro rfl
      exact hroot p (by simp [hsplit])
    exact ⟨m, by rw [Function.update_of_ne hcid, hm], hrest⟩
  · intro c m p hc hp
    by_cases hcid : c = id
    · subst hcid
      rw [Function.update_self] at hc
      cases hc
      simp [Node.new] at hp
    · exact lk.member c m p (hold hcid hc) hp
  · intro c m hc hp
    by_cases hcid : c = id
    · subst hcid
      rw [Function.update_self] at hc
      cases hc
      simp [Node.new]
    · exact lk.orphan c m (hold hcid hc) hp
  · intro p n hp hne
    by_cases hpid : p = id
    · exact absurd (hpid ▸ hkids) hne
    · exact lk.container p n (hold hpid hp) hne
  · intro c m hc
    by_cases hcid : c = id
    · subst hcid
      exact ⟨c, [], Addr.ofRoot hroot, Nat.zero_le _⟩
    · exact lk.rooted c m (hold hcid hc)

/-- Changing payloads, containers staying containers, moves nothing. -/
theorem Linked.mapData {view : NodeId → Option Node} {kids : NodeId → List NodeId}
    (lk : Linked view kids) {f : NodeId → NodeData → NodeData}
    (hf : ∀ q d, d.canHaveChildren = true → (f q d).canHaveChildren = true) :
    Linked (fun q => (view q).map fun n => { n with data := f q n.data }) kids := by
  refine ⟨?_, lk.nodup, ?_, ?_, ?_, ?_, ?_, ?_, ?_⟩
  · intro p hp
    exact lk.stale p (Option.map_eq_none_iff.mp hp)
  · intro p n hp
    obtain ⟨m, hm, rfl⟩ := Option.map_eq_some_iff.mp hp
    exact lk.first p m hm
  · intro p n hp
    obtain ⟨m, hm, rfl⟩ := Option.map_eq_some_iff.mp hp
    exact lk.last p m hm
  · intro p pre c post hsplit
    obtain ⟨m, hm, hrest⟩ := lk.link p pre c post hsplit
    exact ⟨_, Option.map_eq_some_iff.mpr ⟨m, hm, rfl⟩, hrest⟩
  · intro c n p hc hp
    obtain ⟨m, hm, rfl⟩ := Option.map_eq_some_iff.mp hc
    exact lk.member c m p hm hp
  · intro c n hc hp
    obtain ⟨m, hm, rfl⟩ := Option.map_eq_some_iff.mp hc
    exact lk.orphan c m hm hp
  · intro p n hp hne
    obtain ⟨m, hm, rfl⟩ := Option.map_eq_some_iff.mp hp
    exact hf p m.data (lk.container p m hm hne)
  · intro c n hc
    obtain ⟨m, hm, rfl⟩ := Option.map_eq_some_iff.mp hc
    exact lk.rooted c m hm

namespace Arena

variable {s t : Arena}

/-- `create` is refused and changes nothing, or it fills a handle that was stale. -/
theorem create_view (wf : s.SlotWf) (data : NodeData) :
    (∃ e, create data s = .error e s) ∨
    ∃ id t, create data s = .ok id t ∧ s.get id = none ∧
      t.get = Function.update s.get id (some (Node.new s.births data)) ∧
      t.document = s.document ∧ t.ranges = s.ranges ∧ s.slots.length ≤ t.slots.length := by
  rcases create_cases wf data with ⟨index, rest, g, -, hslot, hrun⟩ | ⟨-, hrun⟩ | hrun
  · right
    refine ⟨_, _, hrun, by simp [Arena.get, hslot], ?_, rfl, rfl, by simp⟩
    have hlt := (List.getElem?_eq_some_iff.mp hslot).1
    funext q
    by_cases hq : q = ⟨index, g⟩
    · subst hq
      simp [Arena.get, hlt]
    · rw [Function.update_of_ne hq]
      by_cases hi : q.index = index
      · have hg : g ≠ q.generation := by
          rintro rfl
          exact hq (by cases q; simp_all)
        have hold : s.get q = none := by simp [Arena.get, hi, hslot]
        rw [hold]
        simp [Arena.get, hi, hlt, hg]
      · simp [Arena.get, List.getElem?_set_ne (Ne.symm hi)]
  · right
    refine ⟨_, _, hrun, by simp [Arena.get], ?_, rfl, rfl, by simp⟩
    funext q
    by_cases hq : q = ⟨s.slots.length, 1⟩
    · subst hq
      simp [Arena.get]
    · rw [Function.update_of_ne hq]
      by_cases hi : q.index < s.slots.length
      · simp [Arena.get, List.getElem?_append_left hi]
      · by_cases heq : q.index = s.slots.length
        · have hg : 1 ≠ q.generation := by
            intro hg
            exact hq (by cases q; simp_all)
          simp [Arena.get, heq, hg]
        · have hgt : s.slots.length < q.index := by omega
          have hnone : (s.slots ++ [(⟨1, some (Node.new s.births data)⟩ : Slot)])[q.index]? = none := by
            rw [List.getElem?_eq_none_iff]
            simp
            omega
          simp [Arena.get, hnone, List.getElem?_eq_none_iff.mpr (Nat.le_of_lt hgt)]
  · left
    exact ⟨_, hrun⟩

/-! ## The operations that are loops -/

section Loops

variable {inv : Arena → Prop}

/-- What `append_child` keeps, moving a list of children keeps, wherever it stops. -/
theorem keeps_forM_appendChild
    (append : ∀ parent child s, inv s → inv (final (appendChild parent child s)))
    (target : NodeId) : ∀ (children : List NodeId) (s : Arena), inv s →
      inv (final ((children.forM (appendChild target) : ArenaM PUnit) s))
  | [], s, hs => hs
  | c :: children, s, hs => by
      have hc := append target c s hs
      change inv (final ((appendChild target c >>= fun _ => children.forM (appendChild target)) s))
      rw [run_bind]
      cases hrun : appendChild target c s with
      | ok a t =>
          rw [hrun] at hc
          exact keeps_forM_appendChild append target children t hc
      | error e t =>
          rw [hrun] at hc
          exact hc

theorem keeps_reparentChildren
    (append : ∀ parent child s, inv s → inv (final (appendChild parent child s)))
    (source target : NodeId) {s : Arena} (hs : inv s) :
    inv (final (reparentChildren source target s)) := by
  simp only [reparentChildren, run_bind, run_get]
  cases s.children source with
  | none => exact hs
  | some children => exact keeps_forM_appendChild append target children s hs

/-- What `append_child` and copying a payload keep, the copying walk keeps. -/
theorem keeps_cloneFrom
    (append : ∀ parent child s, inv s → inv (final (appendChild parent child s)))
    (copy : ∀ id n s, inv s → s.get id = some n → inv (final (create n.data s))) :
    ∀ (budget : Nat) (stack : List (NodeId × NodeId)) (s : Arena), inv s →
      inv (final (cloneFrom budget stack s))
  | 0, [], s, hs => hs
  | _ + 1, [], s, hs => hs
  | 0, _ :: _, s, hs => hs
  | budget + 1, (source, parent) :: stack, s, hs => by
      unfold cloneFrom
      cases hget : s.get source with
      | none =>
          rw [run_bind, resolve_eq_error hget]
          exact hs
      | some n =>
          rw [run_bind, resolve_eq_ok hget]
          have hcopy := copy source n s hs hget
          cases hrun : create n.data s with
          | error e t =>
              rw [hrun] at hcopy
              simpa [run_bind, hrun] using hcopy
          | ok c t =>
              rw [hrun] at hcopy
              have happend := append parent c t hcopy
              cases hrun' : appendChild parent c t with
              | error e u =>
                  rw [hrun'] at happend
                  simpa [run_bind, hrun, hrun'] using happend
              | ok a u =>
                  rw [hrun'] at happend
                  simp only [run_bind, hrun, hrun', run_get]
                  cases u.children source with
                  | none => exact happend
                  | some children => exact keeps_cloneFrom append copy budget _ u happend

theorem keeps_cloneSubtree
    (append : ∀ parent child s, inv s → inv (final (appendChild parent child s)))
    (copy : ∀ id n s, inv s → s.get id = some n → inv (final (create n.data s)))
    (id : NodeId) {s : Arena} (hs : inv s) : inv (final (cloneSubtree id s)) := by
  unfold cloneSubtree
  cases hget : s.get id with
  | none =>
      rw [run_bind, resolve_eq_error hget]
      exact hs
  | some n =>
      rw [run_bind, resolve_eq_ok hget]
      have hcopy := copy id n s hs hget
      cases hrun : create n.data s with
      | error e t =>
          rw [hrun] at hcopy
          simpa [run_bind, hrun] using hcopy
      | ok root t =>
          rw [hrun] at hcopy
          simp only [run_bind, hrun, run_get]
          cases t.children id with
          | none => exact hcopy
          | some children =>
              have hwalk := keeps_cloneFrom append copy (t.slots.length + 1)
                (children.map (·, root)) t hcopy
              simp only [run_bind]
              cases hloop : cloneFrom (t.slots.length + 1) (children.map (·, root)) t with
              | ok a u =>
                  rw [hloop] at hwalk
                  exact hwalk
              | error e u =>
                  rw [hloop] at hwalk
                  exact hwalk

end Loops

/-! ## Payload changes -/

/-- `t` has the payloads of `s` changed by `f` and is otherwise the same tree with
the same ranges. -/
structure Repainted (s t : Arena) : Prop where
  view : ∃ f : NodeId → NodeData → NodeData,
    (∀ q d, (f q d).canHaveChildren = d.canHaveChildren) ∧
    (∀ q d, (f q d).templateContents = d.templateContents) ∧
    (∀ q d, (f q d).characterLength = d.characterLength) ∧
    t.get = fun q => (s.get q).map fun n => { n with data := f q n.data }
  document : t.document = s.document
  ranges : t.ranges = s.ranges
  length : t.slots.length = s.slots.length

theorem Repainted.of_slots (hslots : t.slots = s.slots)
    (hdoc : t.document = s.document) (hranges : t.ranges = s.ranges) : Repainted s t := by
  refine ⟨⟨fun _ d => d, by simp, by simp, by simp, ?_⟩, hdoc, hranges, by rw [hslots]⟩
  rw [get_of_slots hslots]
  funext q
  cases s.get q <;> rfl

theorem Repainted.refl (s : Arena) : Repainted s s := .of_slots rfl rfl rfl

theorem Repainted.trans {u : Arena} (h : Repainted s t) (h' : Repainted t u) : Repainted s u := by
  obtain ⟨⟨f, hcont, htempl, hchar, hview⟩, hdoc, hranges, hlen⟩ := h
  obtain ⟨⟨g, hcont', htempl', hchar', hview'⟩, hdoc', hranges', hlen'⟩ := h'
  refine ⟨⟨fun q d => g q (f q d), ?_, ?_, ?_, ?_⟩, hdoc'.trans hdoc, hranges'.trans hranges,
    hlen'.trans hlen⟩
  · intro q d; rw [hcont', hcont]
  · intro q d; rw [htempl', htempl]
  · intro q d; rw [hchar', hchar]
  · funext q
    simp only [hview', hview]
    cases s.get q <;> rfl

theorem repainted_snapshotAttributeChange (s : Arena) (id : NodeId) (name : QualName) :
    Repainted s (s.snapshotAttributeChange id name) := by
  unfold snapshotAttributeChange
  repeat' split
  all_goals exact .of_slots rfl rfl rfl

/-- Writing other attributes through a handle. -/
theorem repainted_update_attrs (s : Arena) (id : NodeId) (attrs : List Attribute) :
    Repainted s (final (update id (fun m => { m with data := m.data.withAttrs attrs }) s)) := by
  by_cases hlive : s.contains id = true
  · obtain ⟨t, hrun, hframe, hview⟩ :=
      update_view (fun m => { m with data := m.data.withAttrs attrs }) hlive
    rw [hrun]
    refine ⟨⟨fun q d => if q = id then d.withAttrs attrs else d, ?_, ?_, ?_, ?_⟩, ?_, ?_,
      hframe.length⟩
    · intro q d
      by_cases hq : q = id <;> simp [hq]
    · intro q d
      by_cases hq : q = id <;> simp [hq]
    · intro q d
      by_cases hq : q = id <;> cases d <;> simp [hq, NodeData.withAttrs, NodeData.characterLength]
    · rw [final_ok, hview]
      funext q
      by_cases hq : q = id <;> simp [hq]
    · rw [final_ok, hframe.eq]
    · rw [final_ok, hframe.eq]
  · have hnone : s.get id = none := by simpa [contains] using hlive
    rw [update_eq_error _ hnone]
    exact .refl s

theorem composes_repainted : Composes (fun _ : Arena => True) Repainted where
  refl := Repainted.refl
  trans := Repainted.trans
  keeps := fun _ _ => trivial

theorem repainted_resolve (id : NodeId) : Follows (fun _ => True) Repainted (resolve id) := by
  intro s _
  cases h : s.get id with
  | none => rw [resolve_eq_error h]; exact .refl s
  | some n => rw [resolve_eq_ok h]; exact .refl s

theorem repainted_setAttribute (id : NodeId) (name : QualName) (value : String) :
    Follows (fun _ => True) Repainted (setAttribute id name value) := by
  refine Follows.bind composes_repainted
    (fun s _ => repainted_snapshotAttributeChange s id name) fun _ => ?_
  refine Follows.bind composes_repainted (repainted_resolve id) fun n => ?_
  cases n.data.attrs with
  | none => exact follows_throw composes_repainted _
  | some attrs => exact fun s _ => repainted_update_attrs s id _

theorem repainted_removeAttribute (id : NodeId) (name : QualName) :
    Follows (fun _ => True) Repainted (removeAttribute id name) := by
  refine Follows.bind composes_repainted
    (fun s _ => repainted_snapshotAttributeChange s id name) fun _ => ?_
  refine Follows.bind composes_repainted (repainted_resolve id) fun n => ?_
  cases n.data.attrs with
  | none => exact follows_throw composes_repainted _
  | some attrs =>
      exact Follows.bind composes_repainted (fun s _ => repainted_update_attrs s id _)
        fun _ => follows_pure composes_repainted _

theorem repainted_addAttributesIfMissing (id : NodeId) (incoming : List Attribute) :
    Follows (fun _ => True) Repainted (addAttributesIfMissing id incoming) := by
  refine Follows.bind composes_repainted (follows_get composes_repainted) fun s =>
    follows_forM composes_repainted (fun attr => ?_) incoming
  split
  · exact follows_pure composes_repainted _
  · exact repainted_setAttribute id _ _

theorem slots_newRange (wf : s.SlotWf) (start stop : BoundaryPoint) :
    (final (newRange start stop s)).slots = s.slots := by
  rcases newRange_cases wf start stop with ⟨-, ⟨_, _, _, -, -, h⟩ | ⟨-, h⟩⟩ | ⟨e, h⟩ <;> rw [h] <;> rfl

theorem Repainted.linked (h : Repainted s t) {kids : NodeId → List NodeId}
    (lk : Linked s.get kids) : Linked t.get kids := by
  obtain ⟨⟨f, hcont, -, -, hview⟩, -, -, -⟩ := h
  rw [hview]
  exact lk.mapData fun q d hd => by rw [hcont]; exact hd

end Arena

/-! ## The invariant -/

/-- A run without template contents keeps this. -/
structure TreeInv (s : Arena) : Prop where
  slots : s.SlotWf
  linked : ∃ kids, Linked s.get kids
  document : ∃ n, s.get s.document = some n ∧ n.parent = none
  plain : ∀ q n, s.get q = some n → n.data.templateContents = none

namespace TreeInv

open Arena

variable {t : Arena}

theorem plain_of_data {s : Arena} (h : ∀ q n, s.get q = some n → n.data.templateContents = none)
    (hdata : ∀ q, (t.get q).map Node.data = (s.get q).map Node.data) :
    ∀ q n, t.get q = some n → n.data.templateContents = none := by
  intro q n hn
  have hq := hdata q
  rw [hn] at hq
  obtain ⟨m, hm, hmn⟩ := Option.map_eq_some_iff.mp hq.symm
  rw [← hmn]
  exact h q m hm

theorem new : TreeInv Arena.new where
  slots := slotWf_new
  linked := by
    refine ⟨fun _ => [], ?_⟩
    have hlk : Linked (fun _ => none) fun _ => [] := by
      refine ⟨?_, ?_, ?_, ?_, ?_, ?_, ?_, ?_, ?_⟩ <;> intros <;> simp_all
    have hget : Arena.new.get = Function.update (fun _ => none) ⟨0, 1⟩
        (some (Node.new 0 .document)) := by
      funext q
      by_cases hq : q = ⟨0, 1⟩
      · subst hq
        rfl
      · rw [Function.update_of_ne hq]
        obtain ⟨i, g⟩ := q
        cases i with
        | zero =>
            have hg : 1 ≠ g := by
              rintro rfl
              exact hq rfl
            simp [Arena.new, Arena.create, run_bind, Arena.empty, u32Max, Arena.get, hg]
        | succ i => simp [Arena.new, Arena.create, run_bind, Arena.empty, u32Max, Arena.get]
    rw [hget]
    exact hlk.create rfl 0 .document
  document := ⟨Node.new 0 .document, rfl, rfl⟩
  plain := by
    intro q n hq
    have hslot := get_eq_some.mp hq
    obtain ⟨i, g⟩ := q
    cases i with
    | zero =>
        simp [Arena.new, Arena.create, run_bind, Arena.empty, u32Max] at hslot
        rw [← hslot.2]
        rfl
    | succ i => simp [Arena.new, Arena.create, run_bind, Arena.empty, u32Max] at hslot

variable {s : Arena} (inv : TreeInv s)

include inv

theorem create {data : NodeData} (hplain : data.templateContents = none) :
    TreeInv (final (Arena.create data s)) := by
  have hslots := inv.slots.evolves (follows_create .grow data s inv.slots)
  rcases create_view inv.slots data with ⟨e, hrun⟩ | ⟨id, t, hrun, hfresh, hget, hdoc, -, -⟩
  · rw [hrun]
    exact inv
  · rw [hrun] at hslots ⊢
    obtain ⟨kids, lk⟩ := inv.linked
    obtain ⟨n, hn, hp⟩ := inv.document
    refine ⟨hslots, ⟨kids, ?_⟩, ⟨n, ?_, hp⟩, ?_⟩
    · rw [final_ok, hget]
      exact lk.create hfresh _ data
    · have hne : s.document ≠ id := by
        rintro heq
        rw [heq, hfresh] at hn
        cases hn
      rw [final_ok, hdoc, hget, Function.update_of_ne hne, hn]
    · intro q m hm
      rw [final_ok, hget] at hm
      by_cases hq : q = id
      · subst hq
        rw [Function.update_self] at hm
        cases hm
        exact hplain
      · rw [Function.update_of_ne hq] at hm
        exact inv.plain q m hm

theorem detach (id : NodeId) : TreeInv (final (Arena.detach id s)) := by
  have hslots := inv.slots.evolves (follows_detach .grow .grow id s inv.slots)
  cases hid : s.get id with
  | none =>
      rw [detach_of_stale hid]
      exact inv
  | some n =>
      obtain ⟨kids, lk⟩ := inv.linked
      obtain ⟨t, kids', hrun, det⟩ := detach_spec lk hid
      rw [hrun] at hslots ⊢
      obtain ⟨m, hm, hp⟩ := inv.document
      refine ⟨hslots, ⟨kids', det.linked lk⟩, ?_, plain_of_data inv.plain det.data⟩
      rw [final_ok, det.document_eq]
      exact det.parent_none hm hp

omit inv in
/-- The document stays parentless when another node is detached and attached. -/
theorem document_of_moved {s' : Arena} {kids kids' : NodeId → List NodeId} {x p : NodeId}
    {pre post : List NodeId} (hdoc : ∃ n, s.get s.document = some n ∧ n.parent = none)
    (det : Detached s kids x s' kids') (att : Attached s' kids' p x pre post t)
    (hx : x ≠ s.document) : ∃ n, t.get s.document = some n ∧ n.parent = none := by
  obtain ⟨m, hm, hp⟩ := hdoc
  obtain ⟨m', hm', hp'⟩ := det.parent_none hm hp
  have hpar := att.parent_eq (Ne.symm hx)
  rw [hm'] at hpar
  obtain ⟨n, hn, hnp⟩ := Option.map_eq_some_iff.mp hpar
  exact ⟨n, hn, hnp.trans hp'⟩

theorem appendChild (parent child : NodeId) : TreeInv (final (Arena.appendChild parent child s)) := by
  have hslots := inv.slots.evolves (follows_appendChild .grow .grow parent child s inv.slots)
  obtain ⟨kids, lk⟩ := inv.linked
  rcases appendChild_spec lk parent child with ⟨e, hrun⟩ | ⟨s', kids', t, det, att, hrun, hdoc⟩
  · rw [hrun]
    exact inv
  · rw [hrun] at hslots ⊢
    refine ⟨hslots, ⟨_, att.linked (det.linked lk)⟩, ?_,
      plain_of_data inv.plain fun q => (att.data q).trans (det.data q)⟩
    rw [final_ok, att.document_eq, det.document_eq]
    exact document_of_moved inv.document det att hdoc

omit inv in
theorem get_notifyInsert (t : Arena) (p x : NodeId) : (t.notifyInsert p x).get = t.get := by
  unfold notifyInsert
  split <;> rfl

theorem insertBefore {sibling newNode : NodeId} (hne : sibling ≠ newNode) :
    TreeInv (final (Arena.insertBefore sibling newNode s)) := by
  have hslots := inv.slots.evolves (follows_insertBefore .grow .grow sibling newNode s inv.slots)
  obtain ⟨kids, lk⟩ := inv.linked
  rcases insertBefore_spec lk hne with
    ⟨e, hrun⟩ | ⟨p, s', kids', pre, post, t, det, att, hrun, hdoc⟩
  · rw [hrun]
    exact inv
  · rw [hrun] at hslots ⊢
    have hdoc' : (t.notifyInsert p newNode).document = s.document := by
      rw [← det.document_eq, ← att.document_eq]
      unfold notifyInsert
      split <;> rfl
    refine ⟨hslots, ⟨Function.update kids' p (pre ++ newNode :: sibling :: post), ?_⟩, ?_, ?_⟩
    · rw [final_ok, get_notifyInsert]
      exact att.linked (det.linked lk)
    · rw [final_ok, hdoc', get_notifyInsert]
      exact document_of_moved inv.document det att hdoc
    · rw [final_ok, get_notifyInsert]
      exact plain_of_data inv.plain fun q => (att.data q).trans (det.data q)

/-- Without template contents the walk only goes down. -/
theorem not_visits_document {id : NodeId} (hne : id ≠ s.document) {q : NodeId}
    (h : Visits s id q) : q ≠ s.document := by
  obtain ⟨kids, lk⟩ := inv.linked
  obtain ⟨n, hn, hp⟩ := inv.document
  cases h with
  | self => exact hne
  | child _ hc =>
      rw [childIds_eq lk] at hc
      rintro rfl
      exact (lk.isRoot_iff hn).mpr hp _ hc
  | contents _ ht hc =>
      rw [inv.plain _ _ ht] at hc
      cases hc

theorem removeSubtree (id : NodeId) : TreeInv (final (Arena.removeSubtree id s)) := by
  have hslots := inv.slots.evolves (follows_removeSubtree id s inv.slots)
  obtain ⟨kids, lk⟩ := inv.linked
  have hcontents : s.DetachedContents id := by
    intro t n c m _ ht hc
    rw [inv.plain t n ht] at hc
    cases hc
  rcases removeSubtree_spec lk hcontents with
    ⟨e, hrun⟩ | ⟨s₀, kids₀, count, t, det, walk, hrun, hdoc⟩
  · rw [hrun]
    exact inv
  · rw [hrun] at hslots ⊢
    have hget := get_of_slots (slots_dropDangling t)
    have hdocEq : t.dropDangling.document = s.document := by
      rw [(evolves_dropDangling .grow t).document, walk.document, det.document_eq]
    obtain ⟨m, hm, hp⟩ := inv.document
    obtain ⟨m', hm', hp'⟩ := det.parent_none hm hp
    refine ⟨hslots, ⟨keptKids t.get kids₀, ?_⟩, ?_, ?_⟩
    · rw [final_ok, hget]
      exact walk.linked (det.linked lk)
    · refine ⟨m', ?_, hp'⟩
      rw [final_ok, hdocEq, hget]
      rcases walk.keep s.document with h | h
      · have hvisit := walk.freed s.document (by rw [hm']; simp) h
        exact absurd rfl (inv.not_visits_document hdoc hvisit)
      · rw [h, hm']
    · intro q n hq
      rw [final_ok, hget] at hq
      rcases walk.keep q with h | h
      · rw [h] at hq; cases hq
      · rw [h] at hq
        exact plain_of_data inv.plain det.data q n hq

theorem repainted (hslots : t.SlotWf) (h : Repainted s t) : TreeInv t := by
  obtain ⟨kids, lk⟩ := inv.linked
  obtain ⟨n, hn, hp⟩ := inv.document
  refine ⟨hslots, ⟨kids, h.linked lk⟩, ?_, ?_⟩
  · obtain ⟨⟨f, -, -, -, hview⟩, hdoc, -, -⟩ := h
    refine ⟨{ n with data := f s.document n.data }, ?_, hp⟩
    simp only [hdoc, hview, hn, Option.map_some]
  · obtain ⟨⟨f, -, htempl, -, hview⟩, -, -, -⟩ := h
    intro q m hm
    rw [hview] at hm
    obtain ⟨m', hm', rfl⟩ := Option.map_eq_some_iff.mp hm
    simp only [htempl]
    exact inv.plain q m' hm'

theorem of_slots (hwf : t.SlotWf) (hslots : t.slots = s.slots)
    (hdoc : t.document = s.document) : TreeInv t := by
  have hget := get_of_slots hslots
  refine ⟨hwf, ?_, ?_, ?_⟩
  · rw [hget]; exact inv.linked
  · rw [hget, hdoc]; exact inv.document
  · rw [hget]; exact inv.plain

end TreeInv

/-! ## What the invariant means in the links -/

/-- The list read off the links from a cursor on by `next_sibling`, every member
live, a child of `p`, and pointing back to the one before it. -/
inductive Siblings (s : Arena) (p : NodeId) : Option NodeId → Option NodeId → List NodeId → Prop
  | nil {prev : Option NodeId} : Siblings s p prev none []
  | cons {prev : Option NodeId} {c : NodeId} {m : Node} {l : List NodeId}
      (live : s.get c = some m) (parent : m.parent = some p) (back : m.prevSibling = prev)
      (rest : Siblings s p (some c) m.nextSibling l) : Siblings s p prev (some c) (c :: l)

/-- How far a node is below its root, by parent links. -/
inductive Depth (s : Arena) : NodeId → Nat → Prop
  | root {c : NodeId} {m : Node} (live : s.get c = some m) (parent : m.parent = none) : Depth s c 0
  | under {c p : NodeId} {m : Node} {d : Nat} (live : s.get c = some m)
      (parent : m.parent = some p) (above : Depth s p d) : Depth s c (d + 1)

/-- `p` is the parent of `c`. -/
def ParentOf (s : Arena) (p c : NodeId) : Prop := ∃ m, s.get c = some m ∧ m.parent = some p

/-- The links of an arena are those of a forest of bounded depth. -/
structure TreeSound (s : Arena) : Prop where
  /-- every child list is finite, without duplicates, mirrored, ends at `last_child` -/
  lists : ∀ p n, s.get p = some n → ∃ l, Siblings s p none n.firstChild l ∧ l.Nodup ∧
    n.lastChild = l.getLast?
  /-- a node with a parent is in the parent's list -/
  listed : ∀ c m p, s.get c = some m → m.parent = some p →
    ∃ n l, s.get p = some n ∧ Siblings s p none n.firstChild l ∧ c ∈ l
  orphans : ∀ c m, s.get c = some m → m.parent = none → m.prevSibling = none ∧ m.nextSibling = none
  acyclic : ∀ c, ¬ Relation.TransGen (ParentOf s) c c
  depth : ∀ c m, s.get c = some m → ∃ d, Depth s c d ∧ d ≤ MAX_DEPTH
  containers : ∀ p n, s.get p = some n → n.firstChild ≠ none → n.data.canHaveChildren = true
  document : ∃ n, s.get s.document = some n ∧ n.parent = none

section Meaning

variable {s : Arena} {kids : NodeId → List NodeId} (lk : Linked s.get kids)

include lk

theorem siblings_of_split {p : NodeId} : ∀ (l pre : List NodeId), kids p = pre ++ l →
    Siblings s p pre.getLast? l.head? l
  | [], _, _ => .nil
  | c :: l, pre, hsplit => by
      obtain ⟨m, hm, hparent, hprev, hnext⟩ := lk.link p pre c l hsplit
      have ih := siblings_of_split (p := p) l (pre ++ [c]) (by simp [hsplit])
      rw [List.getLast?_concat, ← hnext] at ih
      exact .cons hm hparent hprev ih

theorem siblings_of_live {p : NodeId} {n : Node} (hp : s.get p = some n) :
    Siblings s p none n.firstChild (kids p) := by
  have h := siblings_of_split lk (kids p) [] rfl
  rwa [← lk.first p n hp] at h

theorem depth_of_addr {r : NodeId} : ∀ (path : List Nat) (c : NodeId) (m : Node),
    s.get c = some m → Addr kids r path c → Depth s c path.length := by
  intro path
  induction path using List.reverseRecOn with
  | nil =>
      intro c m hc haddr
      have hleads := haddr.leads
      cases hleads
      exact .root hc ((lk.isRoot_iff hc).mp haddr.root)
  | append_singleton path i ih =>
      intro c m hc haddr
      obtain ⟨p, hp, hpc⟩ := follow_snoc.mp haddr.leads
      have hmem := List.mem_of_getElem? hpc
      obtain ⟨m', hm', hparent⟩ := lk.parent_of_mem hmem
      obtain ⟨n, hn⟩ := lk.live_of_kids hmem
      rw [List.length_append, List.length_singleton]
      exact .under hm' hparent (ih p n hn ⟨haddr.root, hp⟩)

/-- Parent steps down are ways down. -/
theorem follow_of_parents {a c : NodeId} (h : Relation.TransGen (ParentOf s) a c) :
    ∃ path, path ≠ [] ∧ follow kids a path = some c := by
  have hstep : ∀ {p c : NodeId}, ParentOf s p c → ∃ i : Nat, (kids p)[i]? = some c := by
    rintro p c ⟨m, hm, hp⟩
    exact List.mem_iff_getElem?.mp (lk.member c m p hm hp)
  induction h with
  | single h =>
      obtain ⟨i, hi⟩ := hstep h
      exact ⟨[i], by simp, by simp [hi]⟩
  | tail _ h ih =>
      obtain ⟨path, -, hpath⟩ := ih
      obtain ⟨i, hi⟩ := hstep h
      exact ⟨path ++ [i], by simp, follow_snoc.mpr ⟨_, hpath, hi⟩⟩

end Meaning

theorem TreeInv.sound {s : Arena} (inv : TreeInv s) : TreeSound s := by
  obtain ⟨kids, lk⟩ := inv.linked
  refine ⟨?_, ?_, lk.orphan, ?_, ?_, ?_, inv.document⟩
  · intro p n hp
    exact ⟨kids p, siblings_of_live lk hp, lk.nodup p, lk.last p n hp⟩
  · intro c m p hc hp
    have hmem := lk.member c m p hc hp
    obtain ⟨n, hn⟩ := lk.live_of_kids hmem
    exact ⟨n, kids p, hn, siblings_of_live lk hn, hmem⟩
  · intro c hloop
    obtain ⟨path, hne, hpath⟩ := follow_of_parents lk hloop
    have hlive : ∃ m, s.get c = some m := by
      cases path using List.reverseRecOn with
      | nil => exact absurd rfl hne
      | append_singleton path i =>
          obtain ⟨p, -, hpc⟩ := follow_snoc.mp hpath
          obtain ⟨m, hm, -⟩ := lk.parent_of_mem (List.mem_of_getElem? hpc)
          exact ⟨m, hm⟩
    obtain ⟨m, hm⟩ := hlive
    obtain ⟨r, addr, haddr, -⟩ := lk.rooted c m hm
    exact hne (lk.branching.no_loop haddr hpath)
  · intro c m hc
    obtain ⟨r, path, haddr, hlen⟩ := lk.rooted c m hc
    exact ⟨path.length, depth_of_addr lk path c m hc haddr, hlen⟩
  · intro p n hp hne
    refine lk.container p n hp ?_
    intro hnil
    exact hne (by rw [lk.first p n hp, hnil]; rfl)

/-! ## Runs -/

namespace Op

/-- The calls of a run that builds no template and never inserts a node before
itself.  Payloads are not written through `get_mut`. -/
def Plain : Op → Prop
  | create data => data.templateContents = none
  | insertBefore sibling newNode => sibling ≠ newNode
  | getMut _ _ => False
  | _ => True

theorem keeps_treeInv {op : Op} (hplain : op.Plain) {s : Arena} (inv : TreeInv s) :
    TreeInv (op.apply s) := by
  have hslots := inv.slots.evolves (op.evolves inv.slots)
  cases op with
  | create data => exact inv.create hplain
  | appendChild parent child => exact inv.appendChild parent child
  | insertBefore sibling newNode => exact inv.insertBefore hplain
  | detach id => exact inv.detach id
  | reparentChildren source target =>
      exact @Arena.keeps_reparentChildren TreeInv (fun p c s h => h.appendChild p c)
        source target s inv
  | removeSubtree id => exact inv.removeSubtree id
  | cloneSubtree id =>
      exact @Arena.keeps_cloneSubtree TreeInv (fun p c s h => h.appendChild p c)
        (fun q n s h hq => h.create (h.plain q n hq)) id s inv
  | setAttribute id name value =>
      exact inv.repainted hslots (Arena.repainted_setAttribute id name value s trivial)
  | removeAttribute id name =>
      exact inv.repainted hslots (Arena.repainted_removeAttribute id name s trivial)
  | addAttributesIfMissing id incoming =>
      exact inv.repainted hslots (Arena.repainted_addAttributesIfMissing id incoming s trivial)
  | getMut id change => exact hplain.elim
  | newRange start stop =>
      exact inv.of_slots hslots (Arena.slots_newRange inv.slots start stop)
        ((newRange start stop).evolves inv.slots).document
  | dropRange id =>
      exact inv.of_slots hslots (Arena.slots_dropRange s id) ((dropRange id).evolves inv.slots).document
  | recordSnapshots on => exact inv.of_slots hslots rfl rfl
  | takeSnapshots => exact inv.of_slots hslots rfl rfl

end Op

/-- After every run of such calls, with any handles and whether each call succeeds
or is refused, the links are those of a forest no deeper than `MAX_DEPTH`. -/
theorem tree_sound (ops : List Op) (hplain : ∀ op ∈ ops, op.Plain) : TreeSound (after ops) := by
  have hstep : ∀ (op : Op) (s : Arena), TreeInv s → op.Plain → TreeInv (op.apply s) :=
    fun _ _ inv hop => Op.keeps_treeInv hop inv
  have hrun : TreeInv (after ops) :=
    run_induction hstep ops Arena.new TreeInv.new (each_of_forall ops _ fun op hop _ => hplain op hop)
  exact hrun.sound

/-- A fragment with two texts, the second moved before the first, the first
removed, and two calls that are refused. -/
theorem tree_sound_moved_text : TreeSound (after
    [.create .fragment, .create (.text "a"), .create (.text "b"), .appendChild ⟨1, 1⟩ ⟨2, 1⟩,
      .appendChild ⟨1, 1⟩ ⟨3, 1⟩, .insertBefore ⟨2, 1⟩ ⟨3, 1⟩, .removeSubtree ⟨2, 1⟩,
      .appendChild ⟨3, 1⟩ ⟨1, 1⟩, .detach ⟨2, 1⟩, .cloneSubtree ⟨1, 1⟩]) :=
  tree_sound _ (by simp [Op.Plain, NodeData.templateContents])

end Pelorus.Dom
