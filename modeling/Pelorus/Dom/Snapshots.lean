import Pelorus.Dom.Handles

/-
  Dom/Snapshots.lean --- the attribute snapshots describe the last flush.

  The table that `take_snapshots` empties is a list of captures, one for each
  element written since.  Nothing in the source says what it holds after many
  calls: a write captures when it is the first one, and sets a flag every time.
  Here the table is what folding `record` over the writes gives (`step_record`,
  `run_record`), and `describe` says in one line what such a fold holds of an
  element: the attributes at its first write, and the flags of all of them.

  WHAT COUNTS AS A WRITE.  A call of `set_attribute` or `remove_attribute`
  writes the name it is given, whether or not a value changes.  A call of
  `add_attributes_if_missing` writes the names that were absent before it; where
  there are none it does not reach the table at all.
-/
set_option autoImplicit false

namespace Pelorus.Dom

open Lib.StateRun

/-! ## The three kinds of change -/

/-- The three change flags of a snapshot. -/
inductive ChangeKind where
  | classAttr
  | idAttr
  | otherAttr
  deriving DecidableEq, Repr

/-- The flag that stands for a name. -/
def QualName.changeKind (name : QualName) : ChangeKind :=
  if name.ns = "" ∧ name.localName = "class" then .classAttr
  else if name.ns = "" ∧ name.localName = "id" then .idAttr
  else .otherAttr

/-- `class_changed`, `id_changed` and `other_attributes_changed`. -/
def ElementSnapshot.changed (snapshot : ElementSnapshot) : ChangeKind → Bool
  | .classAttr => snapshot.classChanged
  | .idAttr => snapshot.idChanged
  | .otherAttr => snapshot.otherAttributesChanged

@[simp] theorem ElementSnapshot.attrs_noteChange (name : QualName) (snapshot : ElementSnapshot) :
    (snapshot.noteChange name).attrs = snapshot.attrs := by
  unfold noteChange
  split
  · rfl
  · split <;> rfl

theorem ElementSnapshot.changed_noteChange (name : QualName) (snapshot : ElementSnapshot)
    (kind : ChangeKind) :
    (snapshot.noteChange name).changed kind = true ↔
      snapshot.changed kind = true ∨ name.changeKind = kind := by
  unfold noteChange QualName.changeKind
  split
  · cases kind <;> simp [changed]
  · split <;> cases kind <;> simp [changed]

@[simp] theorem ElementSnapshot.changed_capture (attrs : List Attribute) (kind : ChangeKind) :
    (capture attrs).changed kind = false := by
  cases kind <;> rfl

/-! ## The table of captures -/

/-- One attribute write: the element, the name, and the element's attributes
before it. -/
structure Write where
  id : NodeId
  name : QualName
  attrs : List Attribute

/-- The table of snapshots. -/
abbrev Table : Type := List (NodeId × ElementSnapshot)

/-- What one write does to the table. -/
def record (table : Table) (w : Write) : Table :=
  match table.findIdx? fun entry => entry.1 == w.id with
  | some index => table.modify index fun entry => (entry.1, entry.2.noteChange w.name)
  | none => table ++ [(w.id, (ElementSnapshot.capture w.attrs).noteChange w.name)]

/-- What the table holds of an element after a list of writes. -/
def describe (id : NodeId) (ws : List Write) : Option ElementSnapshot :=
  match ws.filter fun w => w.id == id with
  | [] => none
  | w :: rest =>
      some ((w :: rest).foldl (fun snapshot v => snapshot.noteChange v.name)
        (ElementSnapshot.capture w.attrs))

variable {ws : List Write} {id : NodeId}

theorem describe_append_of_ne {w : Write} (h : w.id ≠ id) : describe id (ws ++ [w]) = describe id ws := by
  unfold describe
  rw [List.filter_append]
  simp [h]

theorem describe_append_self (ws : List Write) (w : Write) :
    describe w.id (ws ++ [w]) =
      some (((describe w.id ws).getD (ElementSnapshot.capture w.attrs)).noteChange w.name) := by
  unfold describe
  rw [List.filter_append]
  cases h : ws.filter fun v => v.id == w.id with
  | nil => simp
  | cons v rest => simp [List.foldl_append]

/-- The table has one entry for each element described, and no other. -/
structure Tabulates (ws : List Write) (table : Table) : Prop where
  keys : (table.map Prod.fst).Nodup
  entries : ∀ id snapshot, (id, snapshot) ∈ table ↔ describe id ws = some snapshot

theorem tabulates_nil : Tabulates [] [] where
  keys := List.nodup_nil
  entries := fun id snapshot => by simp [describe]

/-- Changing the entry at a key leaves the keys alone. -/
theorem keys_modify (f : ElementSnapshot → ElementSnapshot) :
    ∀ (table : Table) (index : Nat),
      (table.modify index fun entry => (entry.1, f entry.2)).map Prod.fst = table.map Prod.fst
  | [], index => by cases index <;> rfl
  | entry :: table, 0 => rfl
  | entry :: table, index + 1 => by
      simp only [List.modify_succ_cons, List.map_cons, keys_modify f table index]

/-- In a table without duplicate keys, the entry changed is the only one under
its key. -/
theorem mem_modify {table : Table} {index : Nat} {key : NodeId} {old : ElementSnapshot}
    (f : ElementSnapshot → ElementSnapshot) (hnd : (table.map Prod.fst).Nodup)
    (hat : table[index]? = some (key, old)) (id : NodeId) (snapshot : ElementSnapshot) :
    (id, snapshot) ∈ table.modify index (fun entry => (entry.1, f entry.2)) ↔
      if id = key then snapshot = f old else (id, snapshot) ∈ table := by
  induction table generalizing index with
  | nil => simp at hat
  | cons entry table ih =>
      obtain ⟨hne, hnd'⟩ := List.nodup_cons.mp hnd
      cases index with
      | zero =>
          simp only [List.getElem?_cons_zero, Option.some.injEq] at hat
          subst hat
          have hfresh : ∀ snapshot, (key, snapshot) ∉ table := fun snapshot hmem =>
            hne (List.mem_map.mpr ⟨_, hmem, rfl⟩)
          by_cases hid : id = key
          · subst hid
            simp [hfresh]
          · simp [hid]
      | succ index =>
          have hat' : table[index]? = some (key, old) := by simpa using hat
          have hkey : key ∈ table.map Prod.fst :=
            List.mem_map.mpr ⟨_, List.mem_of_getElem? hat', rfl⟩
          have hentry : entry.1 ≠ key := fun h => hne (h ▸ hkey)
          rw [List.modify_succ_cons, List.mem_cons, ih hnd' hat', List.mem_cons]
          by_cases hid : id = key
          · subst hid
            have : (id, snapshot) ≠ entry := fun h => hentry (by rw [← h])
            simp [this]
          · simp [hid]

theorem Tabulates.record {table : Table} (h : Tabulates ws table) (w : Write) :
    Tabulates (ws ++ [w]) (record table w) := by
  unfold Dom.record
  cases hfind : table.findIdx? fun entry => entry.1 == w.id with
  | some index =>
      obtain ⟨hlt, hkey, -⟩ := List.findIdx?_eq_some_iff_getElem.mp hfind
      obtain ⟨⟨key, old⟩, hentry⟩ : ∃ entry, table[index] = entry := ⟨_, rfl⟩
      have hat : table[index]? = some (key, old) := by
        rw [List.getElem?_eq_getElem hlt, hentry]
      have hid : key = w.id := by simpa [hentry] using hkey
      subst hid
      have hold : describe w.id ws = some old := (h.entries _ _).mp (List.mem_of_getElem? hat)
      refine ⟨by rw [keys_modify]; exact h.keys, fun id snapshot => ?_⟩
      rw [mem_modify _ h.keys hat]
      by_cases hid : id = w.id
      · subst hid
        rw [if_pos rfl, describe_append_self, hold]
        simp [eq_comm]
      · rw [if_neg hid, describe_append_of_ne (Ne.symm hid)]
        exact h.entries id snapshot
  | none =>
      have hfresh : ∀ entry ∈ table, entry.1 ≠ w.id := by
        simpa using hfind
      have hnone : describe w.id ws = none := by
        cases hdesc : describe w.id ws with
        | none => rfl
        | some snapshot => exact absurd rfl (hfresh _ ((h.entries _ _).mpr hdesc))
      refine ⟨?_, fun id snapshot => ?_⟩
      · rw [List.map_append, List.nodup_append]
        refine ⟨h.keys, List.nodup_singleton _, ?_⟩
        intro a ha b hb
        obtain ⟨entry, hmem, rfl⟩ := List.mem_map.mp ha
        rw [List.mem_singleton.mp hb]
        exact hfresh entry hmem
      · rw [List.mem_append, List.mem_singleton]
        by_cases hid : id = w.id
        · subst hid
          have hnot : (w.id, snapshot) ∉ table := fun hmem => hfresh _ hmem rfl
          rw [describe_append_self, hnone]
          simp [hnot, eq_comm]
        · rw [describe_append_of_ne (Ne.symm hid), ← h.entries id snapshot]
          simp [hid]

theorem tabulates_foldl (more : List Write) : ∀ {ws : List Write} {table : Table},
    Tabulates ws table → Tabulates (ws ++ more) (more.foldl record table) := by
  induction more with
  | nil => intro ws table h; simpa using h
  | cons w more ih =>
      intro ws table h
      have h' := ih (h.record w)
      rwa [List.append_assoc, List.singleton_append] at h'

/-- The attributes a write carries matter only where its element is not in the
table yet. -/
theorem record_of_mem {table : Table} (h : id ∈ table.map Prod.fst)
    (name : QualName) (attrs attrs' : List Attribute) :
    record table ⟨id, name, attrs⟩ = record table ⟨id, name, attrs'⟩ := by
  unfold record
  cases hfind : table.findIdx? fun entry => entry.1 == id with
  | some index => rfl
  | none =>
      have hfresh : ∀ entry ∈ table, entry.1 ≠ id := by simpa using hfind
      obtain ⟨entry, hmem, hid⟩ := List.mem_map.mp h
      exact absurd hid (hfresh entry hmem)

theorem mem_record (table : Table) (w : Write) : w.id ∈ (record table w).map Prod.fst := by
  unfold record
  cases hfind : table.findIdx? fun entry => entry.1 == w.id with
  | none => simp
  | some index =>
      obtain ⟨hlt, hkey, -⟩ := List.findIdx?_eq_some_iff_getElem.mp hfind
      have hid : table[index].1 = w.id := by simpa using hkey
      simp only [keys_modify]
      exact List.mem_map.mpr ⟨_, List.getElem_mem hlt, hid⟩

/-! ## What the table says of an element -/

/-- A described element has a first write, whose attributes the snapshot has. -/
theorem describe_attrs {snapshot : ElementSnapshot} (h : describe id ws = some snapshot) :
    ∃ w rest, ws.filter (fun w => w.id == id) = w :: rest ∧ snapshot.attrs = w.attrs := by
  unfold describe at h
  cases hws : ws.filter fun w => w.id == id with
  | nil => simp [hws] at h
  | cons w rest =>
      rw [hws] at h
      refine ⟨w, rest, rfl, ?_⟩
      have hfold : ∀ (vs : List Write) (start : ElementSnapshot),
          (vs.foldl (fun snapshot v => snapshot.noteChange v.name) start).attrs = start.attrs := by
        intro vs
        induction vs with
        | nil => intro start; rfl
        | cons v vs ih => intro start; rw [List.foldl_cons, ih, ElementSnapshot.attrs_noteChange]
      rw [← Option.some.inj h, hfold]
      rfl

/-- A flag of the description is set by the writes of its kind, and by no other. -/
theorem describe_changed {snapshot : ElementSnapshot}
    (h : describe id ws = some snapshot) (kind : ChangeKind) :
    snapshot.changed kind = true ↔ ∃ w ∈ ws, w.id = id ∧ w.name.changeKind = kind := by
  have hfold : ∀ (vs : List Write) (start : ElementSnapshot),
      (vs.foldl (fun snapshot v => snapshot.noteChange v.name) start).changed kind = true ↔
        start.changed kind = true ∨ ∃ v ∈ vs, v.name.changeKind = kind := by
    intro vs
    induction vs with
    | nil => intro start; simp
    | cons v vs ih =>
        intro start
        rw [List.foldl_cons, ih, ElementSnapshot.changed_noteChange]
        simp [or_assoc]
  have hmem : ∀ w, w ∈ ws.filter (fun w => w.id == id) ↔ w ∈ ws ∧ w.id = id := by simp
  unfold describe at h
  cases hws : ws.filter fun w => w.id == id with
  | nil => simp [hws] at h
  | cons w rest =>
      rw [hws] at h hmem
      rw [← Option.some.inj h, hfold, ElementSnapshot.changed_capture]
      simp only [Bool.false_eq_true, false_or]
      exact exists_congr fun v => by rw [hmem, and_assoc]

theorem describe_isSome : (∃ snapshot, describe id ws = some snapshot) ↔ ∃ w ∈ ws, w.id = id := by
  unfold describe
  cases hws : ws.filter fun w => w.id == id with
  | nil =>
      have hnone : ∀ w ∈ ws, w.id ≠ id := by simpa [List.filter_eq_nil_iff] using hws
      simpa using hnone
  | cons w rest =>
      have hw : w ∈ ws.filter fun w => w.id == id := hws ▸ List.mem_cons_self
      have : w ∈ ws ∧ w.id = id := by simpa using hw
      exact ⟨fun _ => ⟨w, this⟩, fun _ => ⟨_, rfl⟩⟩

/-! ## The calls that leave the table alone -/

namespace Arena

/-- The table and the switch are as they were. -/
def SameTable (s t : Arena) : Prop :=
  t.snapshots = s.snapshots ∧ t.recordingSnapshots = s.recordingSnapshots

theorem SameTable.refl (s : Arena) : SameTable s s := ⟨rfl, rfl⟩

theorem SameTable.trans {s t u : Arena} (h : SameTable s t) (h' : SameTable t u) : SameTable s u :=
  ⟨h'.1.trans h.1, h'.2.trans h.2⟩

/-- The states a program may start from: all of them. -/
abbrev Anywhere (_ : Arena) : Prop := True

theorem composes_sameTable : Composes Anywhere SameTable where
  refl := SameTable.refl
  trans := SameTable.trans
  keeps := fun _ _ => trivial

theorem sameTable_resolve (id : NodeId) : Follows Anywhere SameTable (resolve id) := by
  intro s _
  cases h : s.get id with
  | none => rw [resolve_eq_error h]; exact SameTable.refl s
  | some n => rw [resolve_eq_ok h]; exact SameTable.refl s

theorem sameTable_update (id : NodeId) (f : Node → Node) : Follows Anywhere SameTable (update id f) := by
  intro s _
  cases h : s.get id with
  | none => rw [update_eq_error f h]; exact SameTable.refl s
  | some n => rw [update_eq_ok f h]; exact ⟨rfl, rfl⟩

theorem sameTable_check {α : Type} (f : Arena → Except TreeError α) :
    Follows Anywhere SameTable (check f) := by
  intro s _
  simp only [check, run_bind, run_get]
  cases f s <;> exact SameTable.refl s

theorem sameTable_modify {f : Arena → Arena} (hf : ∀ s, SameTable s (f s)) :
    Follows Anywhere SameTable (modify f : ArenaM PUnit) :=
  fun s _ => hf s

theorem sameTable_create (data : NodeData) : Follows Anywhere SameTable (create data) := by
  intro s _
  cases hfree : s.free with
  | nil =>
      by_cases hlen : s.slots.length < u32Max
      · rw [create_of_full data hfree hlen]
        exact ⟨rfl, rfl⟩
      · rw [create_of_exhausted data hfree (Nat.le_of_not_lt hlen)]
        exact SameTable.refl s
  | cons index rest =>
      cases hslot : s.slots[index]? with
      | none =>
          have h : create data s = .error .exhausted { s with free := rest } := by
            simp [create, run_bind, hfree, hslot]
          rw [h]
          exact ⟨rfl, rfl⟩
      | some slot =>
          rw [create_of_free data hfree hslot]
          exact ⟨rfl, rfl⟩

theorem sameTable_rangesBeforeRemove (s : Arena) (id : NodeId) : SameTable s (s.rangesBeforeRemove id) := by
  unfold rangesBeforeRemove
  split
  · exact ⟨rfl, rfl⟩
  · exact SameTable.refl s

theorem sameTable_notifyInsert (parent newNode : NodeId) (s : Arena) :
    SameTable s (s.notifyInsert parent newNode) := by
  unfold notifyInsert
  split
  · exact ⟨rfl, rfl⟩
  · exact SameTable.refl s

theorem sameTable_setForward (parent : NodeId) (previous target : Option NodeId) :
    Follows Anywhere SameTable (setForward parent previous target) := by
  cases previous <;> exact sameTable_update _ _

theorem sameTable_setBackward (parent : NodeId) (next target : Option NodeId) :
    Follows Anywhere SameTable (setBackward parent next target) := by
  cases next <;> exact sameTable_update _ _

theorem sameTable_detach (id : NodeId) : Follows Anywhere SameTable (detach id) := by
  have comp := composes_sameTable
  refine Follows.bind comp (sameTable_resolve _) fun n => ?_
  cases n.parent with
  | none => exact follows_pure comp _
  | some parent =>
      refine Follows.bind comp
        (sameTable_modify fun s => sameTable_rangesBeforeRemove s id) fun _ => ?_
      refine Follows.bind comp (sameTable_setForward _ _ _) fun _ => ?_
      refine Follows.bind comp (sameTable_setBackward _ _ _) fun _ => ?_
      exact sameTable_update _ _

theorem sameTable_appendChild (parent child : NodeId) :
    Follows Anywhere SameTable (appendChild parent child) := by
  have comp := composes_sameTable
  refine Follows.bind comp (sameTable_check _) fun _ => ?_
  refine Follows.bind comp (sameTable_detach _) fun _ => ?_
  refine Follows.bind comp (sameTable_resolve _) fun n => ?_
  refine Follows.bind comp (sameTable_update _ _) fun _ => ?_
  refine Follows.bind comp (sameTable_setForward _ _ _) fun _ => ?_
  exact sameTable_update _ _

theorem sameTable_insertBefore (sibling newNode : NodeId) :
    Follows Anywhere SameTable (insertBefore sibling newNode) := by
  have comp := composes_sameTable
  refine Follows.bind comp (sameTable_resolve _) fun n => ?_
  cases n.parent with
  | none => exact follows_throw comp _
  | some parent =>
      refine Follows.bind comp (sameTable_check _) fun _ => ?_
      refine Follows.bind comp (sameTable_detach _) fun _ => ?_
      refine Follows.bind comp (sameTable_resolve _) fun m => ?_
      refine Follows.bind comp (sameTable_update _ _) fun _ => ?_
      refine Follows.bind comp (sameTable_update _ _) fun _ => ?_
      refine Follows.bind comp (sameTable_setForward _ _ _) fun _ => ?_
      exact sameTable_modify (sameTable_notifyInsert parent newNode)

theorem sameTable_reparentChildren (source target : NodeId) :
    Follows Anywhere SameTable (reparentChildren source target) := by
  have comp := composes_sameTable
  refine Follows.bind comp (follows_get comp) fun s => ?_
  cases s.children source with
  | none => exact follows_throw comp _
  | some children => exact follows_forM comp (fun c => sameTable_appendChild _ c) children

theorem sameTable_freeSlot (s : Arena) (id : NodeId) : SameTable s (s.freeSlot id).2 := by
  unfold freeSlot
  split
  · exact SameTable.refl s
  · split
    · exact SameTable.refl s
    · split <;> exact ⟨rfl, rfl⟩

theorem sameTable_freeFrom : ∀ (fuel : Nat) (stack : List NodeId) (freed : Nat) (s : Arena),
    SameTable s (freeFrom fuel stack freed s).2
  | 0, _, _, s => SameTable.refl s
  | _ + 1, [], _, s => SameTable.refl s
  | fuel + 1, current :: stack, freed, s => by
      unfold freeFrom
      cases s.children current with
      | none => exact sameTable_freeFrom fuel stack freed s
      | some children => exact (sameTable_freeSlot s current).trans (sameTable_freeFrom fuel _ _ _)

theorem sameTable_dropRange (s : Arena) (id : RangeId) : SameTable s (s.dropRange id).2 := by
  unfold dropRange
  split
  · exact SameTable.refl s
  · split
    · exact SameTable.refl s
    · split <;> exact ⟨rfl, rfl⟩

theorem sameTable_dropDangling (s : Arena) : SameTable s s.dropDangling := by
  unfold dropDangling
  generalize s.danglingRanges = ids
  induction ids generalizing s with
  | nil => exact SameTable.refl s
  | cons id ids ih => exact (sameTable_dropRange s id).trans (ih _)

theorem sameTable_removeSubtree (id : NodeId) : Follows Anywhere SameTable (removeSubtree id) := by
  have comp := composes_sameTable
  refine Follows.bind comp (follows_get comp) fun s => ?_
  split
  · exact follows_throw comp _
  · split
    · exact follows_throw comp _
    · refine Follows.bind comp (sameTable_detach _) fun _ => ?_
      exact fun t _ => (sameTable_freeFrom _ _ _ t).trans (sameTable_dropDangling _)

theorem sameTable_cloneFrom : ∀ (budget : Nat) (stack : List (NodeId × NodeId)),
    Follows Anywhere SameTable (cloneFrom budget stack)
  | 0, [] => follows_pure composes_sameTable _
  | _ + 1, [] => follows_pure composes_sameTable _
  | 0, _ :: _ => follows_throw composes_sameTable _
  | budget + 1, (source, parent) :: stack => by
      have comp := composes_sameTable
      refine Follows.bind comp (sameTable_resolve _) fun n => ?_
      refine Follows.bind comp (sameTable_create _) fun copy => ?_
      refine Follows.bind comp (sameTable_appendChild _ _) fun _ => ?_
      refine Follows.bind comp (follows_get comp) fun s => ?_
      cases s.children source with
      | none => exact follows_throw comp _
      | some children => exact sameTable_cloneFrom budget _

theorem sameTable_cloneSubtree (id : NodeId) : Follows Anywhere SameTable (cloneSubtree id) := by
  have comp := composes_sameTable
  refine Follows.bind comp (sameTable_resolve _) fun n => ?_
  refine Follows.bind comp (sameTable_create _) fun root => ?_
  refine Follows.bind comp (follows_get comp) fun s => ?_
  cases s.children id with
  | none => exact follows_throw comp _
  | some children =>
      exact Follows.bind comp (sameTable_cloneFrom _ _) fun _ => follows_pure comp _

theorem sameTable_newRange (start stop : BoundaryPoint) :
    Follows Anywhere SameTable (newRange start stop) := by
  intro s _
  have hplace : (s.isValidBoundary start = true) → (s.isValidBoundary stop = true) →
      (s.compareBoundaryPoints start stop = some .before ∨
        s.compareBoundaryPoints start stop = some .equal) →
      SameTable s (final (newRange start stop s)) := by
    intro hstart hstop hcmp
    cases hfree : s.freeRanges with
    | nil =>
        by_cases hlen : s.ranges.length > u32Max <;> rcases hcmp with h | h <;>
          simp [newRange, run_bind, hstart, hstop, h, hfree, hlen, SameTable]
    | cons index rest =>
        cases hslot : s.ranges[index]? <;> rcases hcmp with h | h <;>
          simp [newRange, run_bind, hstart, hstop, h, hfree, hslot, SameTable]
  by_cases hstart : s.isValidBoundary start = true
  · by_cases hstop : s.isValidBoundary stop = true
    · cases hcmp : s.compareBoundaryPoints start stop with
      | none => simp [newRange, run_bind, hstart, hstop, hcmp, SameTable]
      | some position =>
          cases position with
          | before => exact hplace hstart hstop (Or.inl hcmp)
          | equal => exact hplace hstart hstop (Or.inr hcmp)
          | after => simp [newRange, run_bind, hstart, hstop, hcmp, SameTable]
    · simp [newRange, run_bind, hstop, SameTable]
  · simp [newRange, run_bind, hstart, SameTable]

end Arena

/-! ## The writes of one call -/

theorem NodeData.attrs_withAttrs {d : NodeData} {old : List Attribute} (h : d.attrs = some old)
    (attrs : List Attribute) : (d.withAttrs attrs).attrs = some attrs := by
  cases d <;> simp_all [NodeData.attrs, NodeData.withAttrs]

/-- The attributes of a live element. -/
def Arena.attrsOf (s : Arena) (id : NodeId) : Option (List Attribute) :=
  (s.get id).bind fun n => n.data.attrs

namespace Op

/-- The element an attribute call names. -/
def element : Op → Option NodeId
  | setAttribute id _ _ | removeAttribute id _ | addAttributesIfMissing id _ => some id
  | _ => none

/-- The names an attribute call writes, in order. -/
def namesWritten : Op → Arena → List QualName
  | setAttribute _ name _, _ | removeAttribute _ name, _ => [name]
  | addAttributesIfMissing id incoming, s =>
      (incoming.map Attribute.name).filter fun name =>
        decide (name ∉ ((s.attrsOf id).getD []).map Attribute.name)
  | _, _ => []

/-- The call writes the name on the element. -/
def Writes (op : Op) (s : Arena) (id : NodeId) (name : QualName) : Prop :=
  op.element = some id ∧ name ∈ op.namesWritten s

/-- An attribute call names a live element, and the call is neither the flush
nor the one that stops the recording. -/
structure OnElements (op : Op) (s : Arena) : Prop where
  live : ∀ id, op.element = some id → (s.attrsOf id).isSome = true
  noFlush : op ≠ takeSnapshots
  recording : op ≠ recordSnapshots false

theorem OnElements.of_element {op : Op} {s : Arena} (h : op.element = some id)
    (hlive : (s.attrsOf id).isSome = true) : OnElements op s where
  live := fun id' h' => by
    obtain rfl : id = id' := Option.some.inj (h.symm.trans h')
    exact hlive
  noFlush := by
    rintro rfl
    simp [Op.element] at h
  recording := by
    rintro rfl
    simp [Op.element] at h

/-- The writes of one call. -/
def writes (op : Op) (s : Arena) : List Write :=
  match op.element with
  | none => []
  | some id => (op.namesWritten s).map fun name => ⟨id, name, (s.attrsOf id).getD []⟩

theorem mem_writes {op : Op} {s : Arena} {id : NodeId} {name : QualName} :
    (∃ w ∈ op.writes s, w.id = id ∧ w.name = name) ↔ op.Writes s id name := by
  unfold writes Writes
  cases h : op.element with
  | none => simp
  | some el =>
      simp only [List.mem_map, Option.some.injEq]
      constructor
      · rintro ⟨w, ⟨name', hmem, rfl⟩, rfl, rfl⟩
        exact ⟨rfl, hmem⟩
      · rintro ⟨rfl, hmem⟩
        exact ⟨_, ⟨name, hmem, rfl⟩, rfl, rfl⟩

end Op

namespace Arena

variable {s : Arena} {attrs : List Attribute}

/-- On a live element the capture is one `record`. -/
theorem snapshotAttributeChange_eq
    (hrec : s.recordingSnapshots = true) (hattrs : s.attrsOf id = some attrs) (name : QualName) :
    s.snapshotAttributeChange id name =
      { s with snapshots := record s.snapshots ⟨id, name, attrs⟩ } := by
  unfold snapshotAttributeChange record
  simp only [hrec, Bool.not_true, Bool.false_eq_true, if_false]
  cases hfind : s.snapshots.findIdx? fun entry => entry.1 == id with
  | some index => rfl
  | none =>
      unfold attrsOf at hattrs
      simp only [hattrs]

/-- What a write of one attribute leaves: the table with the write recorded, and
an element where the element was. -/
structure Recorded (s t : Arena) (w : Write) : Prop where
  table : t.snapshots = record s.snapshots w
  recording : t.recordingSnapshots = true
  live : (t.attrsOf w.id).isSome = true

theorem attrsOf_setNode {n : Node} (h : s.get id = some n) (m : Node) :
    (s.setNode id m).attrsOf id = m.data.attrs := by
  have hget : (s.setNode id m).get id = some m := by
    rw [get_eq_some]
    have hlt := (List.getElem?_eq_some_iff.mp (get_eq_some.mp h)).1
    simp [setNode, hlt]
  simp [attrsOf, hget]

/-- The state both attribute calls end in: the write recorded, then new
attributes on the same element. -/
theorem recorded_setNode {n : Node} {w : Write}
    (hrec : s.recordingSnapshots = true) (hget : s.get w.id = some n)
    (hattrs : n.data.attrs = some w.attrs) (attrs : List Attribute) :
    Recorded s (({ s with snapshots := record s.snapshots w } : Arena).setNode w.id
      { n with data := n.data.withAttrs attrs }) w := by
  have hget' : ({ s with snapshots := record s.snapshots w } : Arena).get w.id = some n := hget
  refine ⟨rfl, hrec, ?_⟩
  rw [attrsOf_setNode hget', NodeData.attrs_withAttrs hattrs]
  rfl

/-- The attributes `set_attribute` leaves. -/
def putAttribute (attrs : List Attribute) (name : QualName) (value : String) : List Attribute :=
  match attrs.findIdx? fun attr => attr.name == name with
  | some index => attrs.modify index fun attr => { attr with value := value }
  | none => attrs ++ [{ name := name, value := value }]

theorem recorded_setAttribute
    (hrec : s.recordingSnapshots = true) (hattrs : s.attrsOf id = some attrs) (name : QualName)
    (value : String) :
    ∃ t, setAttribute id name value s = .ok ⟨⟩ t ∧ Recorded s t ⟨id, name, attrs⟩ := by
  obtain ⟨n, hget, hdata⟩ := Option.bind_eq_some_iff.mp hattrs
  have hget' : ({ s with snapshots := record s.snapshots ⟨id, name, attrs⟩ } : Arena).get id =
      some n := hget
  refine ⟨_, ?_, recorded_setNode hrec hget hdata (putAttribute attrs name value)⟩
  simp only [setAttribute, run_bind, run_modify, snapshotAttributeChange_eq hrec hattrs,
    resolve_eq_ok hget', hdata]
  exact update_eq_ok _ hget'

theorem recorded_removeAttribute
    (hrec : s.recordingSnapshots = true) (hattrs : s.attrsOf id = some attrs) (name : QualName) :
    Recorded s (final (removeAttribute id name s)) ⟨id, name, attrs⟩ := by
  obtain ⟨n, hget, hdata⟩ := Option.bind_eq_some_iff.mp hattrs
  have hget' : ({ s with snapshots := record s.snapshots ⟨id, name, attrs⟩ } : Arena).get id =
      some n := hget
  have hrun : final (removeAttribute id name s) =
      ({ s with snapshots := record s.snapshots ⟨id, name, attrs⟩ } : Arena).setNode id
        { n with data := n.data.withAttrs (attrs.filter fun attr => attr.name != name) } := by
    simp only [removeAttribute, run_bind, run_modify, snapshotAttributeChange_eq hrec hattrs,
      resolve_eq_ok hget', hdata, update_eq_ok _ hget', run_pure, final_ok]
  rw [hrun]
  exact recorded_setNode hrec hget hdata _

/-- The loop of `add_attributes_if_missing`.  The attributes `attrs` are those
before the loop: only the first write of an element not in the table reads them. -/
theorem recorded_addMissing {id : NodeId} {attrs : List Attribute} (skip : List QualName) :
    ∀ (incoming : List Attribute) (s : Arena), s.recordingSnapshots = true →
      (s.attrsOf id).isSome = true →
      (s.attrsOf id = some attrs ∨ id ∈ s.snapshots.map Prod.fst) →
      ∃ t, (incoming.forM fun attr =>
          if attr.name ∈ skip then pure () else setAttribute id attr.name attr.value) s =
            (.ok ⟨⟩ t : EStateM.Result TreeError Arena PUnit) ∧
        t.recordingSnapshots = true ∧
        t.snapshots = (((incoming.map Attribute.name).filter fun name =>
          decide (name ∉ skip)).map fun name => (⟨id, name, attrs⟩ : Write)).foldl record
            s.snapshots
  | [], s, hrec, _, _ => ⟨s, rfl, hrec, rfl⟩
  | attr :: incoming, s, hrec, hlive, hfirst => by
      by_cases hskip : attr.name ∈ skip
      · obtain ⟨t, hrun, hrec', htable⟩ := recorded_addMissing skip incoming s hrec hlive hfirst
        refine ⟨t, ?_, hrec', ?_⟩
        · have hhead : (if attr.name ∈ skip then pure () else
              setAttribute id attr.name attr.value : ArenaM PUnit) s = .ok ⟨⟩ s := by
            rw [if_pos hskip]
            rfl
          exact (run_bind_ok hhead).trans hrun
        · rw [htable]
          simp [hskip]
      · obtain ⟨before, hbefore⟩ := Option.isSome_iff_exists.mp hlive
        obtain ⟨u, hu, hrecorded⟩ := recorded_setAttribute hrec hbefore attr.name attr.value
        -- where the element is in the table already, the capture is not looked at
        have htable : u.snapshots = record s.snapshots ⟨id, attr.name, attrs⟩ := by
          rw [hrecorded.table]
          rcases hfirst with hattrs | hmem
          · rw [hattrs] at hbefore
            rw [Option.some.inj hbefore]
          · exact record_of_mem hmem _ _ _
        have hmem : id ∈ u.snapshots.map Prod.fst := by
          rw [hrecorded.table]
          exact mem_record _ _
        obtain ⟨t, hrun, hrec', htable'⟩ := @recorded_addMissing id attrs skip incoming u
          hrecorded.recording hrecorded.live (Or.inr hmem)
        refine ⟨t, ?_, hrec', ?_⟩
        · have hhead : (if attr.name ∈ skip then pure () else
              setAttribute id attr.name attr.value : ArenaM PUnit) s = .ok ⟨⟩ u := by
            rw [if_neg hskip]
            exact hu
          exact (run_bind_ok hhead).trans hrun
        · rw [htable', htable]
          simp [hskip]

end Arena

namespace Op

/-- What one call does to the table: it records its writes. -/
theorem step_record (op : Op) {s : Arena} (hrec : s.recordingSnapshots = true)
    (hop : op.OnElements s) :
    (op.apply s).recordingSnapshots = true ∧
      (op.apply s).snapshots = (op.writes s).foldl record s.snapshots := by
  have hsame : ∀ {t : Arena}, s.SameTable t → op.element = none →
      t.recordingSnapshots = true ∧ t.snapshots = (op.writes s).foldl record s.snapshots := by
    intro t h hnone
    rw [writes, hnone]
    exact ⟨h.2.trans hrec, h.1⟩
  cases op with
  | create data => exact hsame (Arena.sameTable_create data s trivial) rfl
  | appendChild parent child => exact hsame (Arena.sameTable_appendChild parent child s trivial) rfl
  | insertBefore sibling newNode =>
      exact hsame (Arena.sameTable_insertBefore sibling newNode s trivial) rfl
  | detach id => exact hsame (Arena.sameTable_detach id s trivial) rfl
  | reparentChildren source target =>
      exact hsame (Arena.sameTable_reparentChildren source target s trivial) rfl
  | removeSubtree id => exact hsame (Arena.sameTable_removeSubtree id s trivial) rfl
  | cloneSubtree id => exact hsame (Arena.sameTable_cloneSubtree id s trivial) rfl
  | getMut id change => exact hsame (Arena.sameTable_update id _ s trivial) rfl
  | newRange start stop => exact hsame (Arena.sameTable_newRange start stop s trivial) rfl
  | dropRange id => exact hsame (Arena.sameTable_dropRange s id) rfl
  | takeSnapshots => exact absurd rfl hop.noFlush
  | recordSnapshots on =>
      cases on with
      | false => exact absurd rfl hop.recording
      | true => exact ⟨rfl, rfl⟩
  | setAttribute id name value =>
      obtain ⟨attrs, hattrs⟩ := Option.isSome_iff_exists.mp (hop.live id rfl)
      obtain ⟨t, ht, h⟩ := Arena.recorded_setAttribute hrec hattrs name value
      have happly : (setAttribute id name value).apply s = t := congrArg final ht
      rw [happly]
      refine ⟨h.recording, h.table.trans ?_⟩
      simp [writes, element, namesWritten, hattrs]
  | removeAttribute id name =>
      obtain ⟨attrs, hattrs⟩ := Option.isSome_iff_exists.mp (hop.live id rfl)
      have h := Arena.recorded_removeAttribute hrec hattrs name
      refine ⟨h.recording, h.table.trans ?_⟩
      simp [writes, element, namesWritten, hattrs]
  | addAttributesIfMissing id incoming =>
      obtain ⟨attrs, hattrs⟩ := Option.isSome_iff_exists.mp (hop.live id rfl)
      obtain ⟨t, ht, hrec', htable⟩ := Arena.recorded_addMissing
        (((s.attrsOf id).getD []).map Attribute.name) incoming s hrec (hop.live id rfl)
        (Or.inl hattrs)
      have happly : (addAttributesIfMissing id incoming).apply s = t := congrArg final ht
      rw [happly]
      refine ⟨hrec', htable.trans ?_⟩
      simp only [writes, element, namesWritten, hattrs, Option.getD_some]

end Op

/-! ## Runs -/

/-- The writes of a run, in order. -/
def writesOf : List Op → Arena → List Write
  | [], _ => []
  | op :: ops, s => op.writes s ++ writesOf ops (op.apply s)

/-- The table after a run is the table before it with the run's writes recorded. -/
theorem run_record : ∀ (ops : List Op) (s : Arena), s.recordingSnapshots = true →
    Each Op.OnElements ops s →
      (run ops s).snapshots = (writesOf ops s).foldl record s.snapshots
  | [], _, _, _ => rfl
  | op :: ops, s, hrec, ⟨hop, hops⟩ => by
      obtain ⟨hrec', hstep⟩ := op.step_record hrec hop
      rw [run_cons, run_record ops (op.apply s) hrec' hops, hstep, writesOf, List.foldl_append]

/-- A call of the run, with the calls before it. -/
def CallOf (ops before : List Op) (op : Op) : Prop := ∃ later, ops = before ++ op :: later

theorem callOf_cons {op op' : Op} {ops before : List Op} :
    CallOf (op :: ops) before op' ↔
      (before = [] ∧ op' = op) ∨ ∃ rest, before = op :: rest ∧ CallOf ops rest op' := by
  unfold CallOf
  cases before with
  | nil => simp [eq_comm]
  | cons head rest => simp [eq_comm, and_assoc]

/-- Some call of the run writes the name on the element. -/
def WrittenIn (ops : List Op) (s : Arena) (id : NodeId) (name : QualName) : Prop :=
  ∃ before op, CallOf ops before op ∧ op.Writes (run before s) id name

theorem mem_writesOf {id : NodeId} {name : QualName} : ∀ (ops : List Op) (s : Arena),
    (∃ w ∈ writesOf ops s, w.id = id ∧ w.name = name) ↔ WrittenIn ops s id name
  | [], s => by simp [writesOf, WrittenIn, CallOf]
  | op :: ops, s => by
      have ih := @mem_writesOf id name ops (op.apply s)
      have hop := @Op.mem_writes op s id name
      constructor
      · rintro ⟨w, hw, hname⟩
        rcases List.mem_append.mp hw with hw | hw
        · exact ⟨[], op, callOf_cons.mpr (Or.inl ⟨rfl, rfl⟩), hop.mp ⟨w, hw, hname⟩⟩
        · obtain ⟨before, op', hcall, h⟩ := ih.mp ⟨w, hw, hname⟩
          exact ⟨op :: before, op', callOf_cons.mpr (Or.inr ⟨before, rfl, hcall⟩), h⟩
      · rintro ⟨before, op', hcall, h⟩
        rcases callOf_cons.mp hcall with ⟨rfl, rfl⟩ | ⟨rest, rfl, hrest⟩
        · obtain ⟨w, hw, hname⟩ := hop.mpr h
          exact ⟨w, List.mem_append_left _ hw, hname⟩
        · obtain ⟨w, hw, hname⟩ := ih.mpr ⟨rest, op', hrest, h⟩
          exact ⟨w, List.mem_append_right _ hw, hname⟩

theorem first_writesOf {w : Write} {rest : List Write} :
    ∀ (ops : List Op) (s : Arena), Each Op.OnElements ops s →
      (writesOf ops s).filter (fun w => w.id == id) = w :: rest →
      ∃ before op, CallOf ops before op ∧ (∃ name, op.Writes (run before s) id name) ∧
        (∀ name, ¬ WrittenIn before s id name) ∧ (run before s).attrsOf id = some w.attrs
  | [], _, _, h => by simp [writesOf] at h
  | op :: ops, s, ⟨hop, hops⟩, h => by
      rw [writesOf, List.filter_append] at h
      cases hhead : (op.writes s).filter fun w => w.id == id with
      | nil =>
          rw [hhead, List.nil_append] at h
          obtain ⟨before, op', hcall, hwrites, hfirst, hattrs⟩ :=
            first_writesOf ops (op.apply s) hops h
          refine ⟨op :: before, op', callOf_cons.mpr (Or.inr ⟨before, rfl, hcall⟩), hwrites,
            fun name hname => ?_, hattrs⟩
          obtain ⟨v, hv, hid, hn⟩ := (mem_writesOf (op :: before) s).mpr hname
          rcases List.mem_append.mp hv with hv | hv
          · have : v ∈ (op.writes s).filter fun w => w.id == id :=
              List.mem_filter.mpr ⟨hv, by simpa using hid⟩
            rw [hhead] at this
            exact List.not_mem_nil this
          · exact hfirst name ((mem_writesOf before (op.apply s)).mp ⟨v, hv, hid, hn⟩)
      | cons v more =>
          rw [hhead] at h
          obtain rfl : v = w := (List.cons.inj h).1
          have hv : v ∈ (op.writes s).filter fun w => w.id == id := hhead ▸ List.mem_cons_self
          obtain ⟨hmem, hid⟩ := List.mem_filter.mp hv
          have hwrites := Op.mem_writes.mp ⟨v, hmem, beq_iff_eq.mp hid, rfl⟩
          refine ⟨[], op, callOf_cons.mpr (Or.inl ⟨rfl, rfl⟩), ⟨v.name, hwrites⟩, ?_, ?_⟩
          · rintro name ⟨before, op', ⟨later, hnil⟩, -⟩
            simp at hnil
          · obtain ⟨attrs, hattrs⟩ := Option.isSome_iff_exists.mp (hop.live id hwrites.1)
            unfold Op.writes at hmem
            rw [hwrites.1] at hmem
            obtain ⟨name, -, rfl⟩ := List.mem_map.mp hmem
            rw [run_nil, hattrs, Option.getD_some]

/-! ## The table describes the last flush -/

/-- What the table says after a run that began at a flush. -/
structure DescribesFlush (s : Arena) (ops : List Op) : Prop where
  /-- at most one snapshot for each handle -/
  one : ((run ops s).snapshots.map Prod.fst).Nodup
  /-- a snapshot for exactly the elements written -/
  written : ∀ id, (∃ snapshot, (id, snapshot) ∈ (run ops s).snapshots) ↔
    ∃ name, WrittenIn ops s id name
  /-- with the attributes just before the first call that wrote the element -/
  attrs : ∀ id snapshot, (id, snapshot) ∈ (run ops s).snapshots →
    ∃ before op, CallOf ops before op ∧ (∃ name, op.Writes (run before s) id name) ∧
      (∀ name, ¬ WrittenIn before s id name) ∧
      (run before s).attrsOf id = some snapshot.attrs
  /-- and the flags of the names written -/
  flags : ∀ id snapshot, (id, snapshot) ∈ (run ops s).snapshots →
    ∀ kind, snapshot.changed kind = true ↔
      ∃ name, WrittenIn ops s id name ∧ name.changeKind = kind

/-- With recording on, from a flush and through any calls, the snapshots
describe the state at that flush. -/
theorem snapshots_describe_flush (s : Arena) (hrec : s.recordingSnapshots = true) (ops : List Op)
    (hops : Each Op.OnElements ops s.takeSnapshots.2) :
    DescribesFlush s.takeSnapshots.2 ops := by
  have htable : Tabulates (writesOf ops s.takeSnapshots.2) (run ops s.takeSnapshots.2).snapshots := by
    rw [run_record ops s.takeSnapshots.2 hrec hops]
    exact tabulates_foldl _ tabulates_nil
  refine ⟨htable.keys, fun id => ?_, fun id snapshot hmem => ?_, fun id snapshot hmem kind => ?_⟩
  · simp only [htable.entries, describe_isSome, ← mem_writesOf]
    constructor
    · rintro ⟨w, hw, hid⟩
      exact ⟨w.name, w, hw, hid, rfl⟩
    · rintro ⟨name, w, hw, hid, -⟩
      exact ⟨w, hw, hid⟩
  · obtain ⟨w, rest, hfilter, hattrs⟩ := describe_attrs ((htable.entries _ _).mp hmem)
    rw [hattrs]
    exact first_writesOf ops _ hops hfilter
  · rw [describe_changed ((htable.entries _ _).mp hmem) kind]
    simp only [← mem_writesOf]
    constructor
    · rintro ⟨w, hw, hid, hkind⟩
      exact ⟨w.name, ⟨w, hw, hid, rfl⟩, hkind⟩
    · rintro ⟨name, ⟨w, hw, hid, rfl⟩, hkind⟩
      exact ⟨w, hw, hid, hkind⟩

/-- An arena with one element that has a class, recording, just after a flush. -/
def styledElement : Arena :=
  after [.create (.element ⟨none, "html", "p"⟩ [⟨⟨none, "", "class"⟩, "a"⟩] none false),
    .recordSnapshots true, .takeSnapshots]

/-- The call that adds a class where there is one. -/
def addPresentClass : Op := .addAttributesIfMissing ⟨1, 1⟩ [⟨⟨none, "", "class"⟩, "b"⟩]

theorem snapshots_describe_flush_styledElement :
    DescribesFlush styledElement.takeSnapshots.2
      [.setAttribute ⟨1, 1⟩ ⟨none, "", "class"⟩ "b"] :=
  snapshots_describe_flush styledElement (by decide) _
    ⟨Op.OnElements.of_element rfl (by decide), trivial⟩

/-- The call names a live element and its class, and leaves neither a snapshot
nor a flag. -/
theorem named_not_recorded :
    Each Op.OnElements [addPresentClass] styledElement.takeSnapshots.2 ∧
      styledElement.recordingSnapshots = true ∧ addPresentClass.element = some ⟨1, 1⟩ ∧
      (run [addPresentClass] styledElement.takeSnapshots.2).snapshots = [] :=
  ⟨⟨Op.OnElements.of_element rfl (by decide), trivial⟩, by decide, rfl, by decide⟩

end Pelorus.Dom
