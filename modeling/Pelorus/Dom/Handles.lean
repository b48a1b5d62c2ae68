import Pelorus.Dom.Slots

/-
  Dom/Handles.lean --- generational handle safety over whole runs.

  Every operation, on any arena whatsoever, does to each of the two pools either
  allocations or frees (`Op.evolves`).  A run is therefore a history in the sense
  of `Lib/Generational.lean`, once for the nodes and once for the ranges, and a
  handle's fate over the run is the one proved there.

  The runs quantified over here are unrestricted: every mutator, every argument,
  template contents that name any node, links in any state.
-/
set_option autoImplicit false

namespace Pelorus.Dom

open Lib.StateRun Lib.Generational

namespace Op

/-- Only `remove_subtree` frees nodes. -/
def nodeKind : Op → Kind
  | removeSubtree _ => .shrink
  | _ => .grow

/-- Only `drop_range` and `remove_subtree` drop ranges. -/
def rangeKind : Op → Kind
  | removeSubtree _ | dropRange _ => .shrink
  | _ => .grow

/-- What one call does to the slots, whether it succeeds or is refused. -/
theorem evolves (op : Op) {s : Arena} (wf : s.SlotWf) :
    Arena.Evolves op.nodeKind op.rangeKind s (op.apply s) := by
  cases op with
  | create data => exact Arena.follows_create _ data s wf
  | appendChild parent child => exact Arena.follows_appendChild _ _ parent child s wf
  | insertBefore sibling newNode => exact Arena.follows_insertBefore _ _ sibling newNode s wf
  | detach id => exact Arena.follows_detach _ _ id s wf
  | reparentChildren source target =>
      exact Arena.follows_reparentChildren _ _ source target s wf
  | removeSubtree id => exact Arena.follows_removeSubtree id s wf
  | cloneSubtree id => exact Arena.follows_cloneSubtree _ id s wf
  | setAttribute id name value => exact Arena.follows_setAttribute _ _ id name value s wf
  | removeAttribute id name => exact Arena.follows_removeAttribute _ _ id name s wf
  | addAttributesIfMissing id incoming =>
      exact Arena.follows_addAttributesIfMissing _ _ id incoming s wf
  | getMut id change =>
      exact Arena.follows_update .grow .grow id (f := fun n => { n with data := change n.data })
        (fun _ => rfl) s wf
  | newRange start stop => exact Arena.follows_newRange _ start stop s wf
  | dropRange id => exact Arena.evolves_dropRange _ s id
  | recordSnapshots on => exact ⟨.refl, .refl, fun h => h, rfl⟩
  | takeSnapshots => exact ⟨.refl, .refl, fun h => h, rfl⟩

end Op

/-- The arena after a run from `Arena::new`. -/
def after (ops : List Op) : Arena := run ops Arena.new

theorem after_append (ops more : List Op) : after (ops ++ more) = run more (after ops) :=
  run_append ops more Arena.new

theorem after_snoc (ops : List Op) (op : Op) : after (ops ++ [op]) = op.apply (after ops) :=
  after_append ops [op]

namespace Arena

theorem slotWf_empty : SlotWf empty :=
  ⟨wf_empty, wf_empty, rfl⟩

theorem slotWf_new : SlotWf new := by
  have h := slotWf_empty.evolves (follows_create .grow .document _ slotWf_empty)
  exact ⟨h.nodes, h.ranges, h.live⟩

/-- Some slot holds the node that was the `k`-th to be created. -/
def HoldsNode (s : Arena) (k : Nat) : Prop :=
  ∃ slot ∈ s.slots, ∃ n, slot.node = some n ∧ n.serial = k

/-- Some range slot holds the range that was the `k`-th to be created. -/
def HoldsRange (s : Arena) (k : Nat) : Prop :=
  ∃ slot ∈ s.ranges, ∃ r, slot.range = some r ∧ r.serial = k

theorem holdsNode_iff {s : Arena} {k : Nat} : s.HoldsNode k ↔ Held Node.serial s.nodePool k := by
  constructor
  · rintro ⟨⟨g, node⟩, hmem, n, hn, hk⟩
    obtain ⟨i, hi⟩ := List.mem_iff_getElem?.mp hmem
    simp only at hn
    subst hn
    exact ⟨i, g, n, cells_eq_slot.mpr hi, hk⟩
  · rintro ⟨i, g, n, hcell, hk⟩
    exact ⟨_, List.mem_of_getElem? (cells_eq_slot.mp hcell), n, rfl, hk⟩

theorem holdsRange_iff {s : Arena} {k : Nat} : s.HoldsRange k ↔ Held Range.serial s.rangePool k := by
  constructor
  · rintro ⟨⟨g, range⟩, hmem, r, hr, hk⟩
    obtain ⟨i, hi⟩ := List.mem_iff_getElem?.mp hmem
    simp only at hr
    subst hr
    exact ⟨i, g, r, cells_eq_range.mpr hi, hk⟩
  · rintro ⟨i, g, r, hcell, hk⟩
    exact ⟨_, List.mem_of_getElem? (cells_eq_range.mp hcell), r, rfl, hk⟩

theorem get_eq_at? (s : Arena) (id : NodeId) : s.get id = s.nodePool.at? id.index id.generation := by
  unfold Arena.get Pool.at?
  rw [nodePool_cells]
  cases s.slots[id.index]? <;> rfl

theorem range_eq_at? (s : Arena) (id : RangeId) : s.range id = s.rangePool.at? id.index id.generation := by
  unfold Arena.range Pool.at?
  rw [rangePool_cells]
  cases s.ranges[id.index]? <;> rfl

end Arena

theorem slotWf_after (ops : List Op) : (after ops).SlotWf := by
  induction ops using List.reverseRecOn with
  | nil => exact Arena.slotWf_new
  | append_singleton ops op ih =>
      rw [after_snoc]
      exact ih.evolves (op.evolves ih)

/-- The node slots of a run form a history. -/
theorem nodeHistory : History u32Max Node.serial fun ops => (after ops).nodePool where
  one := Arena.one_le_u32Max
  start := Arena.slotWf_new.nodes
  none_retired := by
    rintro i ⟨hcell, -⟩
    rw [Arena.cells_eq_slot] at hcell
    cases i <;> simp [after, Arena.new, Arena.create, run_bind, Arena.empty, u32Max] at hcell
  moves ops op := ⟨op.nodeKind, by
    rw [after_snoc]
    exact (op.evolves (slotWf_after ops)).nodes⟩

/-- The range slots of a run form a history. -/
theorem rangeHistory : History u32Max Range.serial fun ops => (after ops).rangePool where
  one := Arena.one_le_u32Max
  start := Arena.slotWf_new.ranges
  none_retired := by
    rintro i ⟨hcell, -⟩
    rw [Arena.cells_eq_range] at hcell
    simp [after, Arena.new, Arena.create, run_bind, Arena.empty, u32Max] at hcell
  moves ops op := ⟨op.rangeKind, by
    rw [after_snoc]
    exact (op.evolves (slotWf_after ops)).ranges⟩

/-! ## What a run does to a handle -/

/-- Earlier in the run the slot was occupied at the last generation, and that
occupant has been freed since. -/
def NodeSlotRetired (ops : List Op) (i : Nat) : Prop :=
  (∃ before later, ops = before ++ later ∧ (after before).get ⟨i, u32Max⟩ ≠ none) ∧
    (after ops).get ⟨i, u32Max⟩ = none

/-- The same for a range slot. -/
def RangeSlotRetired (ops : List Op) (i : Nat) : Prop :=
  (∃ before later, ops = before ++ later ∧ (after before).range ⟨i, u32Max⟩ ≠ none) ∧
    (after ops).range ⟨i, u32Max⟩ = none

/-- What holds of node handles at the end of a run and in every continuation. -/
structure NodeHandlesSafe (ops : List Op) : Prop where
  /-- `create` hands out a handle to the node it made, which has a number no node
  had before -/
  created : ∀ data id s, Arena.create data (after ops) = .ok id s →
    s.get id = some (Node.new (after ops).births data) ∧
      ∀ k, (after ops).HoldsNode k → k < (after ops).births
  /-- the handle resolves to that node for as long as the arena holds the node -/
  resolves : ∀ data id s more, Arena.create data (after ops) = .ok id s →
    (run more s).HoldsNode (after ops).births →
      ∃ n, (run more s).get id = some n ∧ n.serial = (after ops).births
  /-- once the node is freed the handle resolves to nothing, for ever -/
  stale : ∀ data id s more later, Arena.create data (after ops) = .ok id s →
    ¬ (run more s).HoldsNode (after ops).births → (run later (run more s)).get id = none
  /-- nothing but `remove_subtree` frees a node -/
  freed_by : ∀ (op : Op) k, (after ops).HoldsNode k → ¬ (op.apply (after ops)).HoldsNode k →
    ∃ id, op = .removeSubtree id
  /-- no handle resolves to two nodes -/
  unique : ∀ id m n more, (after ops).get id = some m → (run more (after ops)).get id = some n →
    n.serial = m.serial
  /-- a retired slot never resolves again, at any generation -/
  retired : ∀ i, NodeSlotRetired ops i → ∀ more g, (run more (after ops)).get ⟨i, g⟩ = none
  free_nodup : (after ops).free.Nodup
  /-- the free list is the vacant slots that are not retired -/
  free_iff : ∀ i, i ∈ (after ops).free ↔
    (∃ g, (after ops).slots[i]? = some ⟨g, none⟩) ∧ ¬ NodeSlotRetired ops i
  /-- `len()` is the number of occupied slots -/
  len : (after ops).live = (after ops).occupied

/-- What holds of range handles at the end of a run and in every continuation. -/
structure RangeHandlesSafe (ops : List Op) : Prop where
  /-- `new_range` hands out a handle to the range it made, under a new number -/
  created : ∀ start stop id s, Arena.newRange start stop (after ops) = .ok id s →
    s.range id = some ⟨start, stop, (after ops).rangeBirths⟩ ∧
      ∀ k, (after ops).HoldsRange k → k < (after ops).rangeBirths
  /-- the handle resolves to that range for as long as the arena holds it -/
  resolves : ∀ start stop id s more, Arena.newRange start stop (after ops) = .ok id s →
    (run more s).HoldsRange (after ops).rangeBirths →
      ∃ r, (run more s).range id = some r ∧ r.serial = (after ops).rangeBirths
  /-- once the range is dropped the handle resolves to nothing, for ever -/
  stale : ∀ start stop id s more later, Arena.newRange start stop (after ops) = .ok id s →
    ¬ (run more s).HoldsRange (after ops).rangeBirths →
      (run later (run more s)).range id = none
  /-- a range goes by `drop_range`, or with the nodes it was in -/
  freed_by : ∀ (op : Op) k, (after ops).HoldsRange k → ¬ (op.apply (after ops)).HoldsRange k →
    (∃ id, op = .dropRange id) ∨ ∃ id, op = .removeSubtree id
  /-- no handle resolves to two ranges -/
  unique : ∀ id q r more, (after ops).range id = some q →
    (run more (after ops)).range id = some r → r.serial = q.serial
  /-- a retired slot never resolves again, at any generation -/
  retired : ∀ i, RangeSlotRetired ops i → ∀ more g, (run more (after ops)).range ⟨i, g⟩ = none
  free_nodup : (after ops).freeRanges.Nodup
  /-- the free list is the vacant slots that are not retired -/
  free_iff : ∀ i, i ∈ (after ops).freeRanges ↔
    (∃ g, (after ops).ranges[i]? = some ⟨g, none⟩) ∧ ¬ RangeSlotRetired ops i

variable {s : Arena}

theorem create_eq_after {ops : List Op} {data : NodeData} {id : NodeId}
    (h : Arena.create data (after ops) = .ok id s) :
    s = after (ops ++ [.create data]) ∧ s.get id = some (Node.new (after ops).births data) := by
  constructor
  · rw [after_snoc, Op.apply, h, final_ok]
  · rcases Arena.create_cases (slotWf_after ops) data with
      ⟨index, rest, g, -, hslot, hok⟩ | ⟨-, hok⟩ | herr
    · rw [hok] at h
      cases h
      have hlt := (List.getElem?_eq_some_iff.mp hslot).1
      simp [Arena.get_eq_some, hlt]
    · rw [hok] at h
      cases h
      simp [Arena.get_eq_some]
    · rw [herr] at h
      cases h

theorem newRange_eq_after {ops : List Op} {start stop : BoundaryPoint} {id : RangeId}
    (h : Arena.newRange start stop (after ops) = .ok id s) :
    s = after (ops ++ [.newRange start stop]) ∧
      s.range id = some ⟨start, stop, (after ops).rangeBirths⟩ := by
  constructor
  · rw [after_snoc, Op.apply, h, final_ok]
  · rcases Arena.newRange_cases (slotWf_after ops) start stop with
      ⟨-, ⟨index, rest, g, -, hslot, hok⟩ | ⟨-, hok⟩⟩ | ⟨e, herr⟩
    · rw [hok] at h
      cases h
      have hlt := (List.getElem?_eq_some_iff.mp hslot).1
      simp [Arena.range_eq_some, hlt]
    · rw [hok] at h
      cases h
      simp [Arena.range_eq_some]
    · rw [herr] at h
      cases h

theorem alive_of_get {s : Arena} {id : NodeId} {n : Node} (h : s.get id = some n) :
    Alive Node.serial s.nodePool id.index id.generation n.serial :=
  alive_iff_at?.mpr ⟨n, by rw [← Arena.get_eq_at?, h], rfl⟩

theorem alive_of_range {id : RangeId} {r : Range} (h : s.range id = some r) :
    Alive Range.serial s.rangePool id.index id.generation r.serial :=
  alive_iff_at?.mpr ⟨r, by rw [← Arena.range_eq_at?, h], rfl⟩

/-- A call that may only allocate nodes frees none. -/
theorem holdsNode_of_grow (wf : s.SlotWf) {op : Op} (hkind : op.nodeKind = .grow)
    {k : Nat} (h : s.HoldsNode k) : (op.apply s).HoldsNode k := by
  have hevolves := (op.evolves wf).nodes
  rw [hkind] at hevolves
  obtain ⟨i, g, n, hcell, hk⟩ := Arena.holdsNode_iff.mp h
  have halive : Alive Node.serial s.nodePool i g k := ⟨n, hcell, hk⟩
  exact Arena.holdsNode_iff.mpr (halive.steps_grow Arena.one_le_u32Max wf.nodes hevolves).held

theorem holdsRange_of_grow (wf : s.SlotWf) {op : Op} (hkind : op.rangeKind = .grow)
    {k : Nat} (h : s.HoldsRange k) : (op.apply s).HoldsRange k := by
  have hevolves := (op.evolves wf).ranges
  rw [hkind] at hevolves
  obtain ⟨i, g, r, hcell, hk⟩ := Arena.holdsRange_iff.mp h
  have halive : Alive Range.serial s.rangePool i g k := ⟨r, hcell, hk⟩
  exact Arena.holdsRange_iff.mpr (halive.steps_grow Arena.one_le_u32Max wf.ranges hevolves).held

theorem nodeSlotRetired_iff (ops : List Op) (i : Nat) :
    NodeSlotRetired ops i ↔ Retired u32Max (after ops).nodePool i := by
  rw [nodeHistory.retired_iff]
  unfold NodeSlotRetired RetiredAfter
  simp only [Arena.get_eq_at?]

theorem rangeSlotRetired_iff (ops : List Op) (i : Nat) :
    RangeSlotRetired ops i ↔ Retired u32Max (after ops).rangePool i := by
  rw [rangeHistory.retired_iff]
  unfold RangeSlotRetired RetiredAfter
  simp only [Arena.range_eq_at?]

theorem nodeHandlesSafe (ops : List Op) : NodeHandlesSafe ops where
  created data id s h := by
    refine ⟨(create_eq_after h).2, fun k hk => ?_⟩
    obtain ⟨i, g, n, hcell, rfl⟩ := Arena.holdsNode_iff.mp hk
    exact (slotWf_after ops).nodes.serial_lt i g n hcell
  resolves data id s more h hheld := by
    obtain ⟨rfl, hget⟩ := create_eq_after h
    rw [← after_append] at hheld ⊢
    have halive := nodeHistory.alive_of_held (alive_of_get hget) more (Arena.holdsNode_iff.mp hheld)
    obtain ⟨n, hn, hserial⟩ := alive_iff_at?.mp halive
    exact ⟨n, by rw [Arena.get_eq_at?, hn], hserial⟩
  stale data id s more later h hgone := by
    obtain ⟨rfl, hget⟩ := create_eq_after h
    rw [← after_append] at hgone
    rw [← after_append, ← after_append, Arena.get_eq_at?]
    exact nodeHistory.none_of_not_held (alive_of_get hget) more
      (fun held => hgone (Arena.holdsNode_iff.mpr held)) later
  freed_by op k hheld hgone := by
    cases op with
    | removeSubtree id => exact ⟨id, rfl⟩
    | _ => exact absurd (holdsNode_of_grow (slotWf_after ops) rfl hheld) hgone
  unique id m n more hm hn := by
    rw [Arena.get_eq_at?] at hm hn
    rw [← after_append] at hn
    exact nodeHistory.serial_unique hm more hn
  retired i hret more g := by
    have h := nodeHistory.retired ((nodeSlotRetired_iff ops i).mp hret) more
    rw [← after_append, Arena.get_eq_at?]
    exact h.at?_eq_none g
  free_nodup := (slotWf_after ops).nodes.free_nodup
  free_iff i := by
    rw [nodeSlotRetired_iff]
    have h := (slotWf_after ops).nodes.mem_free_iff i
    simp only [Arena.cells_eq_slot] at h
    exact h
  len := (slotWf_after ops).live

theorem rangeHandlesSafe (ops : List Op) : RangeHandlesSafe ops where
  created start stop id s h := by
    refine ⟨(newRange_eq_after h).2, fun k hk => ?_⟩
    obtain ⟨i, g, r, hcell, rfl⟩ := Arena.holdsRange_iff.mp hk
    exact (slotWf_after ops).ranges.serial_lt i g r hcell
  resolves start stop id s more h hheld := by
    obtain ⟨rfl, hget⟩ := newRange_eq_after h
    rw [← after_append] at hheld ⊢
    have halive :=
      rangeHistory.alive_of_held (alive_of_range hget) more (Arena.holdsRange_iff.mp hheld)
    obtain ⟨r, hr, hserial⟩ := alive_iff_at?.mp halive
    exact ⟨r, by rw [Arena.range_eq_at?, hr], hserial⟩
  stale start stop id s more later h hgone := by
    obtain ⟨rfl, hget⟩ := newRange_eq_after h
    rw [← after_append] at hgone
    rw [← after_append, ← after_append, Arena.range_eq_at?]
    exact rangeHistory.none_of_not_held (alive_of_range hget) more
      (fun held => hgone (Arena.holdsRange_iff.mpr held)) later
  freed_by op k hheld hgone := by
    cases op with
    | removeSubtree id => exact Or.inr ⟨id, rfl⟩
    | dropRange id => exact Or.inl ⟨id, rfl⟩
    | _ => exact absurd (holdsRange_of_grow (slotWf_after ops) rfl hheld) hgone
  unique id q r more hq hr := by
    rw [Arena.range_eq_at?] at hq hr
    rw [← after_append] at hr
    exact rangeHistory.serial_unique hq more hr
  retired i hret more g := by
    have h := rangeHistory.retired ((rangeSlotRetired_iff ops i).mp hret) more
    rw [← after_append, Arena.range_eq_at?]
    exact h.at?_eq_none g
  free_nodup := (slotWf_after ops).ranges.free_nodup
  free_iff i := by
    rw [rangeSlotRetired_iff]
    have h := (slotWf_after ops).ranges.mem_free_iff i
    simp only [Arena.cells_eq_range] at h
    exact h

/-- Handles are safe over every run of every operation: a handle means one node
(one range) from its creation until that is freed, and nothing ever after. -/
theorem handles_safe (ops : List Op) : NodeHandlesSafe ops ∧ RangeHandlesSafe ops :=
  ⟨nodeHandlesSafe ops, rangeHandlesSafe ops⟩

end Pelorus.Dom
