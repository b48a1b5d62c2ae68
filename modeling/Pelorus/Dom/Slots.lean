import Pelorus.Dom.Arena
import Pelorus.Lib.Generational

/-
  Dom/Slots.lean --- the arena as two generational pools.

  Nodes and ranges live in slots of the same shape, and every mutator touches
  the slots only through five changes: writing through a resolved handle, popping
  the free list, pushing a slot, freeing a slot, retiring one.  This file proves
  that, operation by operation and with no assumption on the links between the
  nodes: the trees may be as corrupt as they like.  What stale handles do then
  follows from `Lib/Generational.lean`.
-/
set_option autoImplicit false

namespace Pelorus.Dom

open Lib.StateRun Lib.Generational

namespace Arena

/-- The node slots as a pool. -/
def nodePool (s : Arena) : Pool Node :=
  ⟨s.slots.map fun slot => ⟨slot.generation, slot.node⟩, s.free, s.births⟩

/-- The range slots as a pool. -/
def rangePool (s : Arena) : Pool Range :=
  ⟨s.ranges.map fun slot => ⟨slot.generation, slot.range⟩, s.freeRanges, s.rangeBirths⟩

/-- The number of occupied slots. -/
def occupied (s : Arena) : Nat := s.slots.countP fun slot => slot.node.isSome

/-- Both pools are consistent and `live` counts the occupied slots. -/
structure SlotWf (s : Arena) : Prop where
  nodes : Wf u32Max Node.serial s.nodePool
  ranges : Wf u32Max Range.serial s.rangePool
  live : s.live = s.occupied

/-- What happens to the slots of an arena in one operation: steps of one kind on
the nodes, of one kind on the ranges, with the live count kept exact. -/
structure Evolves (kind rangeKind : Kind) (s t : Arena) : Prop where
  nodes : Steps u32Max Node.serial kind s.nodePool t.nodePool
  ranges : Steps u32Max Range.serial rangeKind s.rangePool t.rangePool
  live : s.live = s.occupied → t.live = t.occupied
  document : t.document = s.document

theorem one_le_u32Max : 1 ≤ u32Max := by decide

theorem Evolves.refl (kind rangeKind : Kind) (s : Arena) : Evolves kind rangeKind s s :=
  ⟨.refl, .refl, id, rfl⟩

theorem Evolves.trans {kind rangeKind : Kind} {s t u : Arena}
    (h : Evolves kind rangeKind s t) (h' : Evolves kind rangeKind t u) :
    Evolves kind rangeKind s u :=
  ⟨h.nodes.trans h'.nodes, h.ranges.trans h'.ranges, fun hs => h'.live (h.live hs),
    h'.document.trans h.document⟩

theorem SlotWf.evolves {kind rangeKind : Kind} {s t : Arena} (wf : SlotWf s)
    (h : Evolves kind rangeKind s t) : SlotWf t :=
  ⟨wf.nodes.steps one_le_u32Max h.nodes, wf.ranges.steps one_le_u32Max h.ranges,
    h.live wf.live⟩

theorem composes (kind rangeKind : Kind) : Composes SlotWf (Evolves kind rangeKind) where
  refl := Evolves.refl kind rangeKind
  trans := Evolves.trans
  keeps := SlotWf.evolves

/-! ## Lookups -/

variable {s : Arena} {id : NodeId}
variable {n : Node} {i : Nat}

/-- A handle resolves to `n` exactly when its slot holds `n` at its generation. -/
theorem get_eq_some : s.get id = some n ↔ s.slots[id.index]? = some ⟨id.generation, some n⟩ := by
  unfold Arena.get
  constructor
  · intro h
    split at h
    · simp at h
    · rename_i slot hslot
      split at h
      · simp at h
      · rename_i hg
        obtain ⟨generation, node⟩ := slot
        simp only [ne_eq, Decidable.not_not] at hg
        simp only at h
        rw [hslot, hg, h]
  · intro h
    simp [h]

theorem range_eq_some {id : RangeId} {r : Range} :
    s.range id = some r ↔ s.ranges[id.index]? = some ⟨id.generation, some r⟩ := by
  unfold Arena.range
  constructor
  · intro h
    split at h
    · simp at h
    · rename_i slot hslot
      split at h
      · simp at h
      · rename_i hg
        obtain ⟨generation, range⟩ := slot
        simp only [ne_eq, Decidable.not_not] at hg
        simp only at h
        rw [hslot, hg, h]
  · intro h
    simp [h]

@[simp] theorem nodePool_cells (s : Arena) (i : Nat) :
    s.nodePool.cells[i]? = s.slots[i]?.map fun slot => ⟨slot.generation, slot.node⟩ := by
  simp [nodePool]

@[simp] theorem rangePool_cells (s : Arena) (i : Nat) :
    s.rangePool.cells[i]? = s.ranges[i]?.map fun slot => ⟨slot.generation, slot.range⟩ := by
  simp [rangePool]

theorem cells_eq_slot {g : Nat} {v : Option Node} :
    s.nodePool.cells[i]? = some ⟨g, v⟩ ↔ s.slots[i]? = some ⟨g, v⟩ := by
  rw [nodePool_cells]
  cases s.slots[i]? with
  | none => simp
  | some slot =>
      obtain ⟨generation, node⟩ := slot
      simp

theorem cells_eq_range {g : Nat} {v : Option Range} :
    s.rangePool.cells[i]? = some ⟨g, v⟩ ↔ s.ranges[i]? = some ⟨g, v⟩ := by
  rw [rangePool_cells]
  cases s.ranges[i]? with
  | none => simp
  | some slot =>
      obtain ⟨generation, range⟩ := slot
      simp

/-! ## How many slots are occupied -/

/-- Overwriting a slot changes the count by the two occupancies. -/
theorem countP_set_add {slots : List Slot} {old : Slot} (h : slots[i]? = some old)
    (new : Slot) :
    (slots.set i new).countP (fun slot => slot.node.isSome) + (if old.node.isSome then 1 else 0) =
      slots.countP (fun slot => slot.node.isSome) + (if new.node.isSome then 1 else 0) := by
  obtain ⟨hlt, hget⟩ := List.getElem?_eq_some_iff.mp h
  rw [List.countP_set hlt, hget]
  split
  · rename_i hold
    have hpos : 0 < slots.countP fun slot => slot.node.isSome :=
      List.countP_pos_iff.mpr ⟨old, List.mem_of_getElem? h, hold⟩
    omega
  · omega

/-! ## The primitive changes -/

theorem nodePool_setNode (s : Arena) (id : NodeId) (n : Node) :
    (s.setNode id n).nodePool = { s.nodePool with
      cells := s.nodePool.cells.set id.index ⟨id.generation, some n⟩ } := by
  simp [setNode, nodePool, List.map_set]

/-- Overwriting a resolved node, serial kept, is one write. -/
theorem evolves_setNode {kind rangeKind : Kind} {m : Node}
    (h : s.get id = some n) (hserial : m.serial = n.serial) :
    Evolves kind rangeKind s (s.setNode id m) := by
  have hslot := get_eq_some.mp h
  refine ⟨?_, .refl, ?_, rfl⟩
  · have hstep : Step u32Max Node.serial kind s.nodePool (s.setNode id m).nodePool := by
      rw [nodePool_setNode]
      exact Step.write (cells_eq_slot.mpr hslot) hserial
    exact .single hstep
  · intro hlive
    have hcount := countP_set_add hslot ⟨id.generation, some m⟩
    simp only [Option.isSome_some, if_true] at hcount
    simp only [occupied, setNode] at hlive ⊢
    omega

theorem resolve_eq_ok (h : s.get id = some n) : resolve id s = .ok n s := by
  simp [resolve, run_bind, h]

theorem resolve_eq_error (h : s.get id = none) : resolve id s = .error .noSuchNode s := by
  simp [resolve, run_bind, h]

theorem update_eq_ok (f : Node → Node)
    (h : s.get id = some n) : update id f s = .ok ⟨⟩ (s.setNode id (f n)) := by
  simp [update, run_bind, resolve_eq_ok h]

theorem update_eq_error (f : Node → Node) (h : s.get id = none) : update id f s = .error .noSuchNode s := by
  simp [update, run_bind, resolve_eq_error h]

theorem follows_resolve (kind rangeKind : Kind) (id : NodeId) :
    Follows SlotWf (Evolves kind rangeKind) (resolve id) := by
  intro s _
  cases h : s.get id with
  | none => rw [resolve_eq_error h]; exact Evolves.refl _ _ _
  | some n => rw [resolve_eq_ok h]; exact Evolves.refl _ _ _

theorem follows_update (kind rangeKind : Kind) (id : NodeId) {f : Node → Node}
    (hf : ∀ n, (f n).serial = n.serial) :
    Follows SlotWf (Evolves kind rangeKind) (update id f) := by
  intro s _
  cases h : s.get id with
  | none => rw [update_eq_error f h]; exact Evolves.refl _ _ _
  | some n => rw [update_eq_ok f h]; exact evolves_setNode h (hf n)

theorem follows_check (kind rangeKind : Kind) {α : Type} (f : Arena → Except TreeError α) :
    Follows SlotWf (Evolves kind rangeKind) (check f) := by
  intro s _
  simp only [check, run_bind, run_get]
  cases f s <;> exact Evolves.refl _ _ _

/-- Changing every range, serials kept, is a run of writes to the range slots. -/
theorem evolves_mapRanges {kind rangeKind : Kind} (s : Arena) {f : Range → Range}
    (hf : ∀ r, (f r).serial = r.serial) : Evolves kind rangeKind s (s.mapRanges f) := by
  refine ⟨.refl, ?_, id, rfl⟩
  have h : Steps u32Max Range.serial rangeKind _ _ :=
    steps_map rangeKind hf s.freeRanges s.rangeBirths [] s.rangePool.cells
  simpa [mapRanges, rangePool, Function.comp_def] using h

theorem evolves_rangesBeforeRemove {kind rangeKind : Kind} (s : Arena) (id : NodeId) :
    Evolves kind rangeKind s (s.rangesBeforeRemove id) := by
  unfold rangesBeforeRemove
  split
  · exact evolves_mapRanges s fun _ => rfl
  · exact Evolves.refl _ _ _

theorem follows_modify {kind rangeKind : Kind} {f : Arena → Arena}
    (hf : ∀ s, Evolves kind rangeKind s (f s)) :
    Follows SlotWf (Evolves kind rangeKind) (modify f : ArenaM PUnit) :=
  fun s _ => hf s

/-! ## Allocation -/

theorem create_of_free (data : NodeData) {index : Nat} {rest : List Nat}
    {slot : Slot} (hfree : s.free = index :: rest) (hslot : s.slots[index]? = some slot) :
    create data s = .ok ⟨index, slot.generation⟩
      { s with
        free := rest
        slots := s.slots.set index { slot with node := some (Node.new s.births data) }
        live := s.live + 1
        births := s.births + 1 } := by
  simp [create, run_bind, hfree, hslot]

theorem create_of_full (data : NodeData) (hfree : s.free = [])
    (hlen : s.slots.length < u32Max) :
    create data s = .ok ⟨s.slots.length, 1⟩
      { s with
        slots := s.slots ++ [⟨1, some (Node.new s.births data)⟩]
        live := s.live + 1
        births := s.births + 1 } := by
  have h : ¬ s.slots.length ≥ u32Max := Nat.not_le.mpr hlen
  simp [create, run_bind, hfree, h]

theorem create_of_exhausted (data : NodeData) (hfree : s.free = [])
    (hlen : u32Max ≤ s.slots.length) : create data s = .error .exhausted s := by
  simp [create, run_bind, hfree, hlen]

/-- On consistent slots `create` reuses the top of the free list, extends the
slots, or is refused and changes nothing. -/
theorem create_cases (wf : SlotWf s) (data : NodeData) :
    (∃ index rest g, s.free = index :: rest ∧ s.slots[index]? = some ⟨g, none⟩ ∧
      create data s = .ok ⟨index, g⟩
        { s with
          free := rest
          slots := s.slots.set index ⟨g, some (Node.new s.births data)⟩
          live := s.live + 1
          births := s.births + 1 }) ∨
    (s.free = [] ∧ create data s = .ok ⟨s.slots.length, 1⟩
      { s with
        slots := s.slots ++ [⟨1, some (Node.new s.births data)⟩]
        live := s.live + 1
        births := s.births + 1 }) ∨
    create data s = .error .exhausted s := by
  cases hfree : s.free with
  | nil =>
      right
      by_cases hlen : s.slots.length < u32Max
      · exact Or.inl ⟨rfl, hfree ▸ create_of_full data hfree hlen⟩
      · exact Or.inr (create_of_exhausted data hfree (Nat.le_of_not_lt hlen))
  | cons index rest =>
      left
      have hmem : index ∈ s.nodePool.free := by simp [nodePool, hfree]
      obtain ⟨g, hcell⟩ := wf.nodes.free_vacant index hmem
      have hslot := cells_eq_slot.mp hcell
      exact ⟨index, rest, g, rfl, hslot, create_of_free data hfree hslot⟩

theorem follows_create (rangeKind : Kind) (data : NodeData) :
    Follows SlotWf (Evolves .grow rangeKind) (create data) := by
  intro s wf
  rcases create_cases wf data with ⟨index, rest, g, hfree, hslot, h⟩ | ⟨hfree, h⟩ | h
  · rw [h]
    refine ⟨?_, .refl, ?_, rfl⟩
    · have hstep : Step u32Max Node.serial .grow s.nodePool
          ⟨s.nodePool.cells.set index ⟨g, some (Node.new s.births data)⟩, rest, s.births + 1⟩ :=
        Step.reuse hfree (cells_eq_slot.mpr hslot) rfl
      refine .single ?_
      simpa [nodePool, List.map_set] using hstep
    · intro hlive
      have hcount := countP_set_add hslot ⟨g, some (Node.new s.births data)⟩
      simp only [Option.isSome_some, Option.isSome_none, if_true, Bool.false_eq_true,
        if_false] at hcount
      simp only [occupied, final_ok] at hlive ⊢
      omega
  · rw [h]
    refine ⟨?_, .refl, ?_, rfl⟩
    · have hstep : Step u32Max Node.serial .grow s.nodePool
          ⟨s.nodePool.cells ++ [⟨1, some (Node.new s.births data)⟩], [], s.births + 1⟩ :=
        Step.extend hfree rfl
      refine .single ?_
      simpa [nodePool, hfree] using hstep
    · intro hlive
      simp only [occupied, final_ok, List.countP_append] at hlive ⊢
      simp [hlive]
  · rw [h]
    exact Evolves.refl _ _ _

/-! ## Freeing -/

/-- A resolved handle is freed: its slot moves to the next generation, or is
retired. -/
theorem freeSlot_of_get (h : s.get id = some n) :
    s.freeSlot id = (true,
      if id.generation < u32Max then
        { s with
          slots := s.slots.set id.index ⟨id.generation + 1, none⟩
          live := s.live - 1
          free := id.index :: s.free }
      else
        { s with
          slots := s.slots.set id.index ⟨id.generation, none⟩
          live := s.live - 1
          retired := s.retired + 1 }) := by
  have hslot := get_eq_some.mp h
  unfold freeSlot
  rw [hslot]
  by_cases hg : id.generation < u32Max <;> simp [hg]

theorem freeSlot_of_stale (h : s.get id = none) : s.freeSlot id = (false, s) := by
  unfold freeSlot
  unfold Arena.get at h
  split at h
  · rfl
  · rename_i slot hslot
    split at h
    · rename_i hg; simp [hg]
    · simp [h]

theorem evolves_freeSlot (rangeKind : Kind) (s : Arena) (id : NodeId) :
    Evolves .shrink rangeKind s (s.freeSlot id).2 := by
  cases h : s.get id with
  | none => rw [freeSlot_of_stale h]; exact Evolves.refl _ _ _
  | some n =>
      have hslot := get_eq_some.mp h
      have hcell := cells_eq_slot.mpr hslot
      have hcount : ∀ g, (s.slots.set id.index ⟨g, none⟩).countP (fun slot => slot.node.isSome) + 1
          = s.occupied := by
        intro g
        have := countP_set_add hslot ⟨g, none⟩
        simpa [occupied] using this
      rw [freeSlot_of_get h]
      by_cases hg : id.generation < u32Max
      · simp only [hg, if_true]
        refine ⟨.single ?_, .refl, ?_, rfl⟩
        · have hstep : Step u32Max Node.serial .shrink s.nodePool _ := Step.release hcell hg
          simpa [nodePool, List.map_set] using hstep
        · intro hlive
          have := hcount (id.generation + 1)
          simp only [occupied] at hlive this ⊢
          omega
      · simp only [hg, if_false]
        refine ⟨.single ?_, .refl, ?_, rfl⟩
        · have hstep : Step u32Max Node.serial .shrink s.nodePool _ := Step.retire hcell hg
          simpa [nodePool, List.map_set] using hstep
        · intro hlive
          have := hcount id.generation
          simp only [occupied] at hlive this ⊢
          omega

theorem evolves_freeFrom (rangeKind : Kind) : ∀ (fuel : Nat) (stack : List NodeId) (freed : Nat)
    (s : Arena), Evolves .shrink rangeKind s (freeFrom fuel stack freed s).2
  | 0, _, _, s => Evolves.refl _ _ s
  | _ + 1, [], _, s => Evolves.refl _ _ s
  | fuel + 1, current :: stack, freed, s => by
      unfold freeFrom
      cases s.children current with
      | none => exact evolves_freeFrom rangeKind fuel stack freed s
      | some children =>
          exact (evolves_freeSlot rangeKind s current).trans (evolves_freeFrom rangeKind fuel _ _ _)

/-! ## Ranges -/

theorem evolves_dropRange (kind : Kind) (s : Arena) (id : RangeId) :
    Evolves kind .shrink s (s.dropRange id).2 := by
  unfold dropRange
  split
  · exact Evolves.refl _ _ _
  · rename_i slot hslot
    obtain ⟨g, range⟩ := slot
    split
    · exact Evolves.refl _ _ _
    · rename_i hlive
      cases range with
      | none => simp at hlive
      | some r =>
          have hcell := cells_eq_range.mpr hslot
          split
          · rename_i hg
            refine ⟨.refl, .single ?_, fun h => h, rfl⟩
            have hstep : Step u32Max Range.serial .shrink s.rangePool _ := Step.release hcell hg
            simpa [rangePool, List.map_set] using hstep
          · rename_i hg
            refine ⟨.refl, .single ?_, fun h => h, rfl⟩
            have hstep : Step u32Max Range.serial .shrink s.rangePool _ := Step.retire hcell hg
            simpa [rangePool, List.map_set] using hstep

theorem evolves_dropDangling (kind : Kind) (s : Arena) : Evolves kind .shrink s s.dropDangling := by
  unfold dropDangling
  generalize s.danglingRanges = ids
  induction ids generalizing s with
  | nil => exact Evolves.refl _ _ _
  | cons id ids ih => exact (evolves_dropRange kind s id).trans (ih _)

/-- Whether `new_range` accepts its two boundary points: both valid, and in an
order that can be established. -/
def acceptsRange (s : Arena) (start stop : BoundaryPoint) : Prop :=
  s.isValidBoundary start = true ∧ s.isValidBoundary stop = true ∧
    (s.compareBoundaryPoints start stop = some .before ∨
      s.compareBoundaryPoints start stop = some .equal)

/-- On consistent slots `new_range` reuses a range slot, extends them, or is
refused and changes nothing. -/
theorem newRange_cases (wf : SlotWf s) (start stop : BoundaryPoint) :
    (s.acceptsRange start stop ∧
      ((∃ index rest g, s.freeRanges = index :: rest ∧ s.ranges[index]? = some ⟨g, none⟩ ∧
        newRange start stop s = .ok ⟨index, g⟩
          { s with
            freeRanges := rest
            ranges := s.ranges.set index ⟨g, some ⟨start, stop, s.rangeBirths⟩⟩
            rangeBirths := s.rangeBirths + 1 }) ∨
      (s.freeRanges = [] ∧ newRange start stop s = .ok ⟨s.ranges.length, 1⟩
        { s with
          ranges := s.ranges ++ [⟨1, some ⟨start, stop, s.rangeBirths⟩⟩]
          rangeBirths := s.rangeBirths + 1 }))) ∨
    ∃ e, newRange start stop s = .error e s := by
  by_cases hacc : s.acceptsRange start stop
  · obtain ⟨hstart, hstop, hcmp⟩ := hacc
    cases hfree : s.freeRanges with
    | nil =>
        by_cases hlen : s.ranges.length > u32Max
        · right
          refine ⟨.exhausted, ?_⟩
          rcases hcmp with h | h <;>
            simp [newRange, run_bind, hstart, hstop, h, hfree, hlen]
        · left
          refine ⟨⟨hstart, hstop, hcmp⟩, Or.inr ⟨rfl, ?_⟩⟩
          rcases hcmp with h | h <;>
            simp [newRange, run_bind, hstart, hstop, h, hfree, hlen]
    | cons index rest =>
        left
        have hmem : index ∈ s.rangePool.free := by simp [rangePool, hfree]
        obtain ⟨g, hcell⟩ := wf.ranges.free_vacant index hmem
        have hslot := cells_eq_range.mp hcell
        refine ⟨⟨hstart, hstop, hcmp⟩, Or.inl ⟨index, rest, g, rfl, hslot, ?_⟩⟩
        rcases hcmp with h | h <;>
          simp [newRange, run_bind, hstart, hstop, h, hfree, hslot]
  · right
    unfold acceptsRange at hacc
    by_cases hstart : s.isValidBoundary start = true
    · by_cases hstop : s.isValidBoundary stop = true
      · refine ⟨.wouldCycle, ?_⟩
        cases hcmp : s.compareBoundaryPoints start stop with
        | none => simp [newRange, run_bind, hstart, hstop, hcmp]
        | some position =>
            cases position with
            | before => exact absurd ⟨hstart, hstop, Or.inl hcmp⟩ hacc
            | equal => exact absurd ⟨hstart, hstop, Or.inr hcmp⟩ hacc
            | after => simp [newRange, run_bind, hstart, hstop, hcmp]
      · exact ⟨.noSuchNode, by simp [newRange, run_bind, hstop]⟩
    · exact ⟨.noSuchNode, by simp [newRange, run_bind, hstart]⟩

theorem follows_newRange (kind : Kind) (start stop : BoundaryPoint) :
    Follows SlotWf (Evolves kind .grow) (newRange start stop) := by
  intro s wf
  rcases newRange_cases wf start stop with ⟨-, h | h⟩ | ⟨e, h⟩
  · obtain ⟨index, rest, g, hfree, hslot, h⟩ := h
    rw [h]
    refine ⟨.refl, .single ?_, fun h => h, rfl⟩
    have hstep : Step u32Max Range.serial .grow s.rangePool
        ⟨s.rangePool.cells.set index ⟨g, some ⟨start, stop, s.rangeBirths⟩⟩, rest,
          s.rangeBirths + 1⟩ :=
      Step.reuse hfree (cells_eq_range.mpr hslot) rfl
    simpa [rangePool, List.map_set] using hstep
  · obtain ⟨hfree, h⟩ := h
    rw [h]
    refine ⟨.refl, .single ?_, fun h => h, rfl⟩
    have hstep : Step u32Max Range.serial .grow s.rangePool
        ⟨s.rangePool.cells ++ [⟨1, some ⟨start, stop, s.rangeBirths⟩⟩], [],
          s.rangeBirths + 1⟩ :=
      Step.extend hfree rfl
    simpa [rangePool, hfree] using hstep
  · rw [h]
    exact Evolves.refl _ _ _

/-! ## The structural operations

None of these needs a sound tree: they write through handles they resolved. -/

section Structural

variable (kind rangeKind : Kind)

theorem follows_setForward (parent : NodeId) (previous target : Option NodeId) :
    Follows SlotWf (Evolves kind rangeKind) (setForward parent previous target) := by
  cases previous <;> exact follows_update _ _ _ fun _ => rfl

theorem follows_setBackward (parent : NodeId) (next target : Option NodeId) :
    Follows SlotWf (Evolves kind rangeKind) (setBackward parent next target) := by
  cases next <;> exact follows_update _ _ _ fun _ => rfl

theorem follows_detach (id : NodeId) : Follows SlotWf (Evolves kind rangeKind) (detach id) := by
  have comp := composes kind rangeKind
  refine Follows.bind comp (follows_resolve _ _ _) fun n => ?_
  cases n.parent with
  | none => exact follows_pure comp _
  | some parent =>
      refine Follows.bind comp
        (follows_modify fun s => evolves_rangesBeforeRemove s id) fun _ => ?_
      refine Follows.bind comp (follows_setForward _ _ _ _ _) fun _ => ?_
      refine Follows.bind comp (follows_setBackward _ _ _ _ _) fun _ => ?_
      exact follows_update _ _ _ fun _ => rfl

theorem follows_appendChild (parent child : NodeId) :
    Follows SlotWf (Evolves kind rangeKind) (appendChild parent child) := by
  have comp := composes kind rangeKind
  refine Follows.bind comp (follows_check _ _ _) fun _ => ?_
  refine Follows.bind comp (follows_detach _ _ _) fun _ => ?_
  refine Follows.bind comp (follows_resolve _ _ _) fun n => ?_
  refine Follows.bind comp (follows_update _ _ _ fun _ => rfl) fun _ => ?_
  refine Follows.bind comp (follows_setForward _ _ _ _ _) fun _ => ?_
  exact follows_update _ _ _ fun _ => rfl

theorem evolves_notifyInsert (s : Arena) (parent newNode : NodeId) :
    Evolves kind rangeKind s (s.notifyInsert parent newNode) := by
  unfold notifyInsert
  split
  · exact evolves_mapRanges s fun _ => rfl
  · exact Evolves.refl _ _ _

theorem follows_insertBefore (sibling newNode : NodeId) :
    Follows SlotWf (Evolves kind rangeKind) (insertBefore sibling newNode) := by
  have comp := composes kind rangeKind
  refine Follows.bind comp (follows_resolve _ _ _) fun n => ?_
  cases n.parent with
  | none => exact follows_throw comp _
  | some parent =>
      refine Follows.bind comp (follows_check _ _ _) fun _ => ?_
      refine Follows.bind comp (follows_detach _ _ _) fun _ => ?_
      refine Follows.bind comp (follows_resolve _ _ _) fun m => ?_
      refine Follows.bind comp (follows_update _ _ _ fun _ => rfl) fun _ => ?_
      refine Follows.bind comp (follows_update _ _ _ fun _ => rfl) fun _ => ?_
      refine Follows.bind comp (follows_setForward _ _ _ _ _) fun _ => ?_
      exact follows_modify fun s => evolves_notifyInsert _ _ s parent newNode

theorem follows_reparentChildren (source target : NodeId) :
    Follows SlotWf (Evolves kind rangeKind) (reparentChildren source target) := by
  have comp := composes kind rangeKind
  refine Follows.bind comp (follows_get comp) fun s => ?_
  cases s.children source with
  | none => exact follows_throw comp _
  | some children => exact follows_forM comp (fun c => follows_appendChild _ _ _ c) children

theorem evolves_snapshotAttributeChange (s : Arena) (id : NodeId) (name : QualName) :
    Evolves kind rangeKind s (s.snapshotAttributeChange id name) := by
  unfold snapshotAttributeChange
  repeat' split
  all_goals exact ⟨.refl, .refl, fun h => h, rfl⟩

theorem follows_setAttribute (id : NodeId) (name : QualName) (value : String) :
    Follows SlotWf (Evolves kind rangeKind) (setAttribute id name value) := by
  have comp := composes kind rangeKind
  refine Follows.bind comp
    (follows_modify fun s => evolves_snapshotAttributeChange _ _ s id name) fun _ => ?_
  refine Follows.bind comp (follows_resolve _ _ _) fun n => ?_
  cases n.data.attrs with
  | none => exact follows_throw comp _
  | some attrs => exact follows_update _ _ _ fun _ => rfl

theorem follows_removeAttribute (id : NodeId) (name : QualName) :
    Follows SlotWf (Evolves kind rangeKind) (removeAttribute id name) := by
  have comp := composes kind rangeKind
  refine Follows.bind comp
    (follows_modify fun s => evolves_snapshotAttributeChange _ _ s id name) fun _ => ?_
  refine Follows.bind comp (follows_resolve _ _ _) fun n => ?_
  cases n.data.attrs with
  | none => exact follows_throw comp _
  | some attrs =>
      exact Follows.bind comp (follows_update _ _ _ fun _ => rfl) fun _ => follows_pure comp _

theorem follows_addAttributesIfMissing (id : NodeId) (incoming : List Attribute) :
    Follows SlotWf (Evolves kind rangeKind) (addAttributesIfMissing id incoming) := by
  have comp := composes kind rangeKind
  refine Follows.bind comp (follows_get comp) fun s => follows_forM comp (fun attr => ?_) incoming
  split
  · exact follows_pure comp _
  · exact follows_setAttribute _ _ _ _ _

theorem follows_cloneFrom : ∀ (budget : Nat) (stack : List (NodeId × NodeId)),
    Follows SlotWf (Evolves .grow rangeKind) (cloneFrom budget stack)
  | 0, [] => follows_pure (composes _ _) _
  | _ + 1, [] => follows_pure (composes _ _) _
  | 0, _ :: _ => follows_throw (composes _ _) _
  | budget + 1, (source, parent) :: stack => by
      have comp := composes .grow rangeKind
      refine Follows.bind comp (follows_resolve _ _ _) fun n => ?_
      refine Follows.bind comp (follows_create _ _) fun copy => ?_
      refine Follows.bind comp (follows_appendChild _ _ _ _) fun _ => ?_
      refine Follows.bind comp (follows_get comp) fun s => ?_
      cases s.children source with
      | none => exact follows_throw comp _
      | some children => exact follows_cloneFrom budget _

theorem follows_cloneSubtree (id : NodeId) :
    Follows SlotWf (Evolves .grow rangeKind) (cloneSubtree id) := by
  have comp := composes .grow rangeKind
  refine Follows.bind comp (follows_resolve _ _ _) fun n => ?_
  refine Follows.bind comp (follows_create _ _) fun root => ?_
  refine Follows.bind comp (follows_get comp) fun s => ?_
  cases s.children id with
  | none => exact follows_throw comp _
  | some children =>
      exact Follows.bind comp (follows_cloneFrom _ _ _) fun _ => follows_pure comp _

end Structural

theorem evolves_freeSubtree (s : Arena) (id : NodeId) : Evolves .shrink .shrink s (s.freeSubtree id).2 :=
  (evolves_freeFrom _ _ _ _ s).trans (evolves_dropDangling _ _)

theorem follows_removeSubtree (id : NodeId) :
    Follows SlotWf (Evolves .shrink .shrink) (removeSubtree id) := by
  have comp := composes .shrink .shrink
  refine Follows.bind comp (follows_get comp) fun s => ?_
  split
  · exact follows_throw comp _
  · split
    · exact follows_throw comp _
    · refine Follows.bind comp (follows_detach _ _ _) fun _ => ?_
      exact fun t _ => evolves_freeSubtree t id

end Arena

end Pelorus.Dom
