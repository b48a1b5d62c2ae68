import Pelorus.Dom.Node
import Pelorus.Lib.Runs

/-
  Dom/Arena.lean --- the generational arena (`px-dom/src/arena.rs`), its
  traversals (`iter.rs`, `lib.rs`) and its live ranges (`range.rs`).

  HOW A FALLIBLE MUTATOR IS MODELLED.  A Rust method that takes `&mut self` and
  returns `Result<T, TreeError>` is an `EStateM TreeError Arena T`: it returns
  the arena as it stands ALSO when it fails, so an error in the middle of a
  relink leaves the half-done links in place, as the source does.

  WHAT BOUNDS A LOOP.  Every loop of the source that carries a budget is
  recursion on that budget, with the same value.  The one `while` loop that
  carries none is the freeing walk of `remove_subtree`; it recurses on
  `freeFuel`, and `Dom/Removal.lean` proves that this much is always enough.

  STORAGE.  The chunked slot storage is a list: `Slots::get` splits an index
  into a chunk and an offset, and nothing else depends on the split.  A work
  stack is a list whose head is the top.
-/
set_option autoImplicit false

namespace Pelorus.Dom

/-- One slot: occupied, vacant, or retired. -/
structure Slot where
  generation : Nat
  node : Option Node
  deriving DecidableEq, Repr

/-- A range slot. -/
structure RangeSlot where
  generation : Nat
  range : Option Range
  deriving DecidableEq, Repr

/-- A DOM tree. -/
structure Arena where
  slots : List Slot
  /-- indices of vacant slots, the next to be reused first -/
  free : List Nat
  live : Nat
  retired : Nat
  document : NodeId
  ranges : List RangeSlot
  freeRanges : List Nat
  snapshots : List (NodeId × ElementSnapshot)
  recordingSnapshots : Bool
  /-- ghost: how many nodes were ever created -/
  births : Nat
  /-- ghost: how many ranges were ever created -/
  rangeBirths : Nat
  deriving DecidableEq, Repr

/-- A mutator of the arena that may be refused. -/
abbrev ArenaM (α : Type) : Type := EStateM TreeError Arena α

namespace Arena

/-! ## Resolution -/

/-- `Arena::get`: resolve a handle. -/
def get (s : Arena) (id : NodeId) : Option Node :=
  match s.slots[id.index]? with
  | none => none
  | some slot => if slot.generation ≠ id.generation then none else slot.node

def contains (s : Arena) (id : NodeId) : Bool := (s.get id).isSome

/-- The handle resolved, or `NoSuchNode`: the source's
`self.get(id).ok_or(TreeError::NoSuchNode)?`. -/
def resolve (id : NodeId) : ArenaM Node := do
  match (← EStateM.get).get id with
  | some n => return n
  | none => throw .noSuchNode

/-- Overwrite the occupant of a slot. -/
def setNode (s : Arena) (id : NodeId) (n : Node) : Arena :=
  { s with slots := s.slots.set id.index { generation := id.generation, node := some n } }

/-- A write through `self.get_mut(id).ok_or(TreeError::NoSuchNode)?`. -/
def update (id : NodeId) (f : Node → Node) : ArenaM Unit := do
  let n ← resolve id
  modify fun s => s.setNode id (f n)

/-! ## Allocation -/

def create (data : NodeData) : ArenaM NodeId := do
  let s ← EStateM.get
  let node := Node.new s.births data
  match s.free with
  | index :: rest =>
      -- `free.pop()` has happened by the time the slot is looked up
      set { s with free := rest }
      match s.slots[index]? with
      | none => throw .exhausted
      | some slot =>
          set { s with
            free := rest
            slots := s.slots.set index { slot with node := some node }
            live := s.live + 1
            births := s.births + 1 }
          return ⟨index, slot.generation⟩
  | [] =>
      let index := s.slots.length
      if index ≥ u32Max then
        throw .exhausted
      else
        set { s with
          slots := s.slots ++ [(⟨1, some node⟩ : Slot)]
          live := s.live + 1
          births := s.births + 1 }
        return ⟨index, 1⟩

/-- The arena `Arena::new` starts from, before its document node exists. -/
def empty : Arena :=
  { slots := [], free := [], live := 0, retired := 0, document := ⟨0, 1⟩,
    ranges := [], freeRanges := [], snapshots := [], recordingSnapshots := false,
    births := 0, rangeBirths := 0 }

/-- `Arena::new`: an arena holding nothing but a `Document` node. -/
def new : Arena :=
  match create .document empty with
  | .ok id s => { s with document := id }
  | .error _ s => s

/-! ## Traversals -/

/-- What `Children` yields from a cursor on, with `budget` items left. -/
def childIdsFrom (s : Arena) : Nat → Option NodeId → List NodeId
  | 0, _ => []
  | _ + 1, none => []
  | budget + 1, some current =>
      current :: childIdsFrom s budget ((s.get current).bind Node.nextSibling)

/-- `Arena::child_ids`: this node's children, in order. -/
def childIds (s : Arena) (id : NodeId) : List NodeId :=
  childIdsFrom s s.slots.length ((s.get id).bind Node.firstChild)

/-- What `Ancestors` yields from a cursor on, with `budget` items left. -/
def ancestorsFrom (s : Arena) : Nat → Option NodeId → List NodeId
  | 0, _ => []
  | _ + 1, none => []
  | budget + 1, some current =>
      current :: ancestorsFrom s budget ((s.get current).bind Node.parent)

/-- `Arena::ancestors`: nearest first. -/
def ancestors (s : Arena) (id : NodeId) : List NodeId :=
  ancestorsFrom s (MAX_DEPTH + 1) ((s.get id).bind Node.parent)

/-- What `Descendants` yields from a work stack on.  A popped handle that went
stale is skipped; a popped node pushes its children so that the first is on
top, and stops collecting them one past the budget. -/
def descendantsFrom (s : Arena) : Nat → List NodeId → List NodeId
  | 0, _ => []
  | _ + 1, [] => []
  | budget + 1, current :: stack =>
      match s.get current with
      | none => descendantsFrom s budget stack
      | some n =>
          current :: descendantsFrom s budget
            (childIdsFrom s (budget + 1) n.firstChild ++ stack)

/-- `Arena::descendants`: this node and its descendants, in document order. -/
def descendants (s : Arena) (id : NodeId) : List NodeId :=
  descendantsFrom s s.slots.length (if s.contains id then [id] else [])

/-- The snapshot walk of `Arena::children`: `none` when a link does not resolve
or the list is longer than there are slots. -/
def childrenFrom (s : Arena) : Nat → Option NodeId → Option (List NodeId)
  | _, none => some []
  | 0, some _ => none
  | fuel + 1, some current => do
      let n ← s.get current
      let rest ← childrenFrom s fuel n.nextSibling
      return current :: rest

/-- `Arena::children`: this node's children, as a snapshot. -/
def children (s : Arena) (id : NodeId) : Option (List NodeId) := do
  let n ← s.get id
  childrenFrom s s.slots.length n.firstChild

/-- The upward walk of `precedes`, stopped after `budget` parents. -/
def rootFrom (s : Arena) : Nat → NodeId → NodeId
  | 0, id => id
  | budget + 1, id =>
      match (s.get id).bind Node.parent with
      | none => id
      | some parent => rootFrom s budget parent

/-- `Arena::precedes`: whether `a` comes strictly before `b` in document order;
`none` when either is stale, they are the same node, or they share no tree.

The source breaks out of its scan once both positions are known.  A position is
the last index at which the handle was yielded before that, which is the first
one unless the walk yields a handle twice. -/
def precedes (s : Arena) (a b : NodeId) : Option Bool :=
  if !s.contains a || !s.contains b || a == b then none
  else
    let root := rootFrom s (MAX_DEPTH + 1) a
    if root ≠ rootFrom s (MAX_DEPTH + 1) b then none
    else scan (s.descendants root) 0 none none
where
  /-- the position scan, broken off once both are found -/
  scan : List NodeId → Nat → Option Nat → Option Nat → Option Bool
    | _, _, some first, some second => some (decide (first < second))
    | [], _, _, _ => none
    | id :: rest, index, first, second =>
        scan rest (index + 1) (if id = a then some index else first)
          (if id = b then some index else second)

/-! ## Boundary points -/

/-- `node_length`: children for a container, bytes for character data. -/
def nodeLength (s : Arena) (id : NodeId) : Option Nat :=
  match s.get id with
  | none => none
  | some n =>
      match n.data.characterLength with
      | some bytes => some bytes
      | none => some (s.childIds id).length

def isInclusiveAncestor (s : Arena) (ancestor descendant : NodeId) : Bool :=
  if ancestor = descendant then s.contains ancestor
  else (s.ancestors descendant).any (· == ancestor)

/-- `index_of`: the index of a node among its parent's children. -/
def indexOf (s : Arena) (child : NodeId) : Option Nat := do
  let n ← s.get child
  let parent ← n.parent
  (s.childIds parent).findIdx? (· == child)

/-- The climb of `compare_boundary_points` from `child` to the child of
`ancestor` that contains it. -/
def climbTo (s : Arena) (ancestor : NodeId) : Nat → NodeId → Option NodeId
  | 0, _ => none
  | budget + 1, child => do
      let n ← s.get child
      let parent ← n.parent
      if parent = ancestor then return child else climbTo s ancestor budget parent

/-- Steps 3 and 4 of `compare_boundary_points`: the answer once `a`'s node is
known not to follow `b`'s. -/
def compareForward (s : Arena) (a b : BoundaryPoint) : Option Position := do
  if s.isInclusiveAncestor a.node b.node then
    let child ← s.climbTo a.node (MAX_DEPTH + 1) b.node
    let index ← s.indexOf child
    if index < a.offset then return .after
  match s.precedes a.node b.node with
  | some true => some .before
  | some false => some .after
  | none => none

/-- The recursion of `compare_boundary_points`.  The source recurses on the
mirrored pair when `b`'s node precedes `a`'s; `fuel` bounds that recursion, and
two is enough, since the mirrored call cannot mirror again. -/
def compareFrom (s : Arena) : Nat → BoundaryPoint → BoundaryPoint → Option Position
  | 0, _, _ => none
  | fuel + 1, a, b =>
      if !s.contains a.node || !s.contains b.node then none
      else if a.node = b.node then
        some (if a.offset < b.offset then .before
          else if a.offset = b.offset then .equal else .after)
      else if s.precedes b.node a.node = some true then
        (compareFrom s fuel b a).map Position.mirror
      else s.compareForward a b

def compareBoundaryPoints (s : Arena) (a b : BoundaryPoint) : Option Position :=
  compareFrom s 2 a b

def isValidBoundary (s : Arena) (point : BoundaryPoint) : Bool :=
  match s.nodeLength point.node with
  | some length => decide (point.offset ≤ length)
  | none => false

/-! ## Ranges -/

def range (s : Arena) (id : RangeId) : Option Range :=
  match s.ranges[id.index]? with
  | none => none
  | some slot => if slot.generation ≠ id.generation then none else slot.range

def newRange (start stop : BoundaryPoint) : ArenaM RangeId := do
  let s ← EStateM.get
  if !s.isValidBoundary start || !s.isValidBoundary stop then throw .noSuchNode
  match s.compareBoundaryPoints start stop with
  | some .before | some .equal => pure ()
  | some .after | none => throw .wouldCycle
  let range : Range := { start := start, stop := stop, serial := s.rangeBirths }
  match s.freeRanges with
  | index :: rest =>
      set { s with freeRanges := rest }
      match s.ranges[index]? with
      | none => throw .exhausted
      | some slot =>
          set { s with
            freeRanges := rest
            ranges := s.ranges.set index { slot with range := some range }
            rangeBirths := s.rangeBirths + 1 }
          return ⟨index, slot.generation⟩
  | [] =>
      let index := s.ranges.length
      if index > u32Max then
        throw .exhausted
      else
        set { s with
          ranges := s.ranges ++ [(⟨1, some range⟩ : RangeSlot)]
          rangeBirths := s.rangeBirths + 1 }
        return ⟨index, 1⟩

/-- `Arena::drop_range`.  A slot whose generations are spent is not given back. -/
def dropRange (s : Arena) (id : RangeId) : Bool × Arena :=
  match s.ranges[id.index]? with
  | none => (false, s)
  | some slot =>
      if slot.generation ≠ id.generation ∨ slot.range = none then (false, s)
      else if slot.generation < u32Max then
        (true, { s with
          ranges := s.ranges.set id.index { generation := slot.generation + 1, range := none }
          freeRanges := id.index :: s.freeRanges })
      else
        (true, { s with ranges := s.ranges.set id.index { slot with range := none } })

/-- Apply a change to every range held. -/
def mapRanges (s : Arena) (f : Range → Range) : Arena :=
  { s with ranges := s.ranges.map fun slot => { slot with range := slot.range.map f } }

/-- The insertion rule for one boundary point. -/
def afterInsertPoint (parent : NodeId) (index : Nat) (p : BoundaryPoint) : BoundaryPoint :=
  if p.node = parent ∧ p.offset > index then ⟨parent, p.offset + 1⟩ else p

/-- `ranges_after_insert`: a boundary point of `parent` past `index` moves along. -/
def rangesAfterInsert (s : Arena) (parent : NodeId) (index : Nat) : Arena :=
  s.mapRanges fun r =>
    { r with start := afterInsertPoint parent index r.start
             stop := afterInsertPoint parent index r.stop }

/-- The removal rule for one boundary point: inside the removed subtree it
collapses to where the subtree was, after it in the parent it shifts down. -/
def beforeRemovePoint (s : Arena) (node parent : NodeId) (index : Nat)
    (p : BoundaryPoint) : BoundaryPoint :=
  if s.isInclusiveAncestor node p.node then ⟨parent, index⟩
  else if p.node = parent ∧ p.offset > index then ⟨parent, p.offset - 1⟩
  else p

/-- `ranges_before_remove`, which must run while the node is still in place. -/
def rangesBeforeRemove (s : Arena) (node : NodeId) : Arena :=
  match (s.get node).bind Node.parent, s.indexOf node with
  | some parent, some index =>
      s.mapRanges fun r =>
        { r with start := beforeRemovePoint s node parent index r.start
                 stop := beforeRemovePoint s node parent index r.stop }
  | _, _ => s

/-! ## Structure -/

/-- Write the forward link into a position: the `next_sibling` of the node before
it, or the parent's `first_child` when there is none. -/
def setForward (parent : NodeId) (previous target : Option NodeId) : ArenaM Unit :=
  match previous with
  | some previous => update previous fun m => { m with nextSibling := target }
  | none => update parent fun m => { m with firstChild := target }

/-- Write the backward link into a position: the `prev_sibling` of the node after
it, or the parent's `last_child` when there is none. -/
def setBackward (parent : NodeId) (next target : Option NodeId) : ArenaM Unit :=
  match next with
  | some next => update next fun m => { m with prevSibling := target }
  | none => update parent fun m => { m with lastChild := target }

/-- `Arena::detach`: unlink a node from its parent and siblings. -/
def detach (id : NodeId) : ArenaM Unit := do
  let n ← resolve id
  match n.parent with
  | none => return ()
  | some parent =>
      modify fun s => s.rangesBeforeRemove id
      setForward parent n.prevSibling n.nextSibling
      setBackward parent n.nextSibling n.prevSibling
      update id Node.detachLinks

/-- The upward walk of `check_insertable`: the depth `child` would end up at. -/
def resultingDepth (s : Arena) (child : NodeId) :
    Nat → Nat → Option NodeId → Except TreeError Nat
  | _, depth, none => .ok depth
  | fuel, depth, some current =>
      if current = child then .error .wouldCycle
      else
        match fuel with
        | 0 => .error .tooDeep
        | fuel + 1 =>
            match s.get current with
            | none => .error .noSuchNode
            | some n => resultingDepth s child fuel (depth + 1) n.parent

/-- The child loop of `subtree_height`: push every child, and give up when the
work stack outgrows the slots. -/
def pushChildren (s : Arena) (relative : Nat) :
    Nat → Option NodeId → List (NodeId × Nat) → Except TreeError (List (NodeId × Nat))
  | _, none, stack => .ok stack
  | 0, some _, _ => .error .tooDeep
  | fuel + 1, some current, stack =>
      match s.get current with
      | none => .error .noSuchNode
      | some n =>
          if stack.length + 1 > s.slots.length + 1 then .error .tooDeep
          else pushChildren s relative fuel n.nextSibling ((current, relative) :: stack)

/-- The walk of `subtree_height`, with its budget. -/
def heightFrom (s : Arena) :
    Nat → List (NodeId × Nat) → Nat → Except TreeError Nat
  | _, [], height => .ok height
  | 0, _ :: _, _ => .error .tooDeep
  | budget + 1, (current, relative) :: stack, height =>
      if relative > MAX_DEPTH then .error .tooDeep
      else
        match s.get current with
        | none => .error .noSuchNode
        | some n =>
            match pushChildren s (relative + 1) (s.slots.length + 2) n.firstChild stack with
            | .error e => .error e
            | .ok stack => heightFrom s budget stack (max height relative)

/-- `subtree_height`: how far the deepest descendant sits below a node. -/
def subtreeHeight (s : Arena) (id : NodeId) : Except TreeError Nat :=
  heightFrom s (s.slots.length + 1) [(id, 0)] 0

/-- `check_insertable`: whether `child` may be inserted under `parent`. -/
def checkInsertable (s : Arena) (parent child : NodeId) : Except TreeError Unit :=
  if !s.contains parent || !s.contains child then .error .noSuchNode
  else if parent = child then .error .wouldCycle
  else if child = s.document then .error .immovable
  else if !((s.get parent).any fun n => n.data.canHaveChildren) then
    .error .cannotHaveChildren
  else do
    let depth ← resultingDepth s child MAX_DEPTH 0 (some parent)
    let height ← s.subtreeHeight child
    if depth + height > MAX_DEPTH then .error .tooDeep else .ok ()

/-- A check that reads the arena and does not change it. -/
def check {α : Type} (f : Arena → Except TreeError α) : ArenaM α := do
  match f (← EStateM.get) with
  | .ok a => return a
  | .error e => throw e

/-- `Arena::append_child`: append `child` as the last child of `parent`.  There
is no range notification: an append moves no boundary point. -/
def appendChild (parent child : NodeId) : ArenaM Unit := do
  check fun s => s.checkInsertable parent child
  detach child
  let last := (← resolve parent).lastChild
  update child fun m =>
    { m with parent := some parent, prevSibling := last, nextSibling := none }
  setForward parent last (some child)
  update parent fun m => { m with lastChild := some child }

/-- The notification `insert_before` ends with. -/
def notifyInsert (s : Arena) (parent newNode : NodeId) : Arena :=
  match s.indexOf newNode with
  | some index => s.rangesAfterInsert parent index
  | none => s

/-- `Arena::insert_before`: insert `newNode` immediately before `sibling`. -/
def insertBefore (sibling newNode : NodeId) : ArenaM Unit := do
  match (← resolve sibling).parent with
  | none => throw .noSuchNode
  | some parent =>
      check fun s => s.checkInsertable parent newNode
      detach newNode
      let previous := (← resolve sibling).prevSibling
      update newNode fun m =>
        { m with parent := some parent, prevSibling := previous, nextSibling := some sibling }
      update sibling fun m => { m with prevSibling := some newNode }
      setForward parent previous (some newNode)
      modify fun s => s.notifyInsert parent newNode

/-- `Arena::reparent_children`: move every child of `from` to the end of `to`,
over a snapshot of the child list. -/
def reparentChildren (source target : NodeId) : ArenaM Unit := do
  match (← EStateM.get).children source with
  | none => throw .noSuchNode
  | some children => children.forM (appendChild target)

/-! ## Removal -/

/-- `free_slot`: free one slot, bumping its generation, or retire it when the
generations are spent.  Returns whether anything was freed. -/
def freeSlot (s : Arena) (id : NodeId) : Bool × Arena :=
  match s.slots[id.index]? with
  | none => (false, s)
  | some slot =>
      if slot.generation ≠ id.generation ∨ slot.node = none then (false, s)
      else if slot.generation < u32Max then
        (true, { s with
          slots := s.slots.set id.index { generation := slot.generation + 1, node := none }
          live := s.live - 1
          free := id.index :: s.free })
      else
        (true, { s with
          slots := s.slots.set id.index { slot with node := none }
          live := s.live - 1
          retired := s.retired + 1 })

/-- The freeing walk of `remove_subtree`.  A handle that stopped resolving is
skipped; a template's contents are freed with it. -/
def freeFrom : Nat → List NodeId → Nat → Arena → Nat × Arena
  | 0, _, freed, s => (freed, s)
  | _ + 1, [], freed, s => (freed, s)
  | fuel + 1, current :: stack, freed, s =>
      match s.children current with
      | none => freeFrom fuel stack freed s
      | some children =>
          let stack := children.reverse ++ stack
          let stack :=
            match (s.get current).bind fun n => n.data.templateContents with
            | some contents => contents :: stack
            | none => stack
          let (wasFreed, s) := s.freeSlot current
          freeFrom fuel stack (if wasFreed then freed + 1 else freed) s

/-- More pops than the walk can make: each slot is freed at most once and pushes
at most one handle for each slot and one for its template contents. -/
def freeFuel (s : Arena) : Nat := s.slots.length * (s.slots.length + 1) + 2

/-- The ranges left pointing at a freed node. -/
def danglingRanges (s : Arena) : List RangeId :=
  s.ranges.zipIdx.filterMap fun (slot, index) =>
    match slot.range with
    | none => none
    | some r =>
        if !s.contains r.start.node || !s.contains r.stop.node then
          some ⟨index, slot.generation⟩
        else none

/-- Drop any range left pointing into what was just freed. -/
def dropDangling (s : Arena) : Arena :=
  s.danglingRanges.foldl (fun s id => (s.dropRange id).2) s

/-- The part of `remove_subtree` after the node is detached. -/
def freeSubtree (s : Arena) (id : NodeId) : Nat × Arena :=
  let walked := freeFrom s.freeFuel [id] 0 s
  (walked.1, walked.2.dropDangling)

/-- `Arena::remove_subtree`: free a node and everything under it. -/
def removeSubtree (id : NodeId) : ArenaM Nat := do
  let s ← EStateM.get
  if !s.contains id then throw .noSuchNode
  else if id = s.document then throw .immovable
  else
    detach id
    modifyGet fun s => s.freeSubtree id

/-! ## Cloning -/

/-- The copying walk of `clone_subtree`, over pairs of a node still to copy and
the copy of its parent. -/
def cloneFrom : Nat → List (NodeId × NodeId) → ArenaM Unit
  | _, [] => return ()
  | 0, _ :: _ => throw .tooDeep
  | budget + 1, (source, parent) :: stack => do
      let n ← resolve source
      let copy ← create n.data
      appendChild parent copy
      match (← EStateM.get).children source with
      | none => throw .noSuchNode
      | some children => cloneFrom budget (children.map (·, copy) ++ stack)

/-- `Arena::clone_subtree`: deep-copy a subtree; the copy is detached. -/
def cloneSubtree (id : NodeId) : ArenaM NodeId := do
  let n ← resolve id
  let root ← create n.data
  let s ← EStateM.get
  match s.children id with
  | none => throw .noSuchNode
  | some children =>
      cloneFrom (s.slots.length + 1) (children.map (·, root))
      return root

/-! ## Attributes and snapshots -/

/-- `snapshot_attribute_change`: capture once per flush, note every change. -/
def snapshotAttributeChange (s : Arena) (id : NodeId) (name : QualName) : Arena :=
  if !s.recordingSnapshots then s
  else
    match s.snapshots.findIdx? fun entry => entry.1 == id with
    | some index =>
        { s with snapshots := s.snapshots.modify index fun entry =>
            (entry.1, entry.2.noteChange name) }
    | none =>
        match (s.get id).bind fun n => n.data.attrs with
        | none => s
        | some attrs =>
            { s with snapshots :=
                s.snapshots ++ [(id, (ElementSnapshot.capture attrs).noteChange name)] }

/-- `Arena::set_attribute`: the first attribute of that name is replaced. -/
def setAttribute (id : NodeId) (name : QualName) (value : String) : ArenaM Unit := do
  modify fun s => s.snapshotAttributeChange id name
  let n ← resolve id
  match n.data.attrs with
  | none => throw .noSuchNode
  | some attrs =>
      let attrs :=
        match attrs.findIdx? fun attr => attr.name == name with
        | some index => attrs.modify index fun attr => { attr with value := value }
        | none => attrs ++ [{ name := name, value := value }]
      update id fun m => { m with data := m.data.withAttrs attrs }

/-- `Arena::remove_attribute`: returns whether it was there. -/
def removeAttribute (id : NodeId) (name : QualName) : ArenaM Bool := do
  modify fun s => s.snapshotAttributeChange id name
  let n ← resolve id
  match n.data.attrs with
  | none => throw .noSuchNode
  | some attrs =>
      let kept := attrs.filter fun attr => attr.name != name
      update id fun m => { m with data := m.data.withAttrs kept }
      return kept.length != attrs.length

/-- `Arena::add_attributes_if_missing`: names present before the call are kept. -/
def addAttributesIfMissing (id : NodeId) (incoming : List Attribute) : ArenaM Unit := do
  let present :=
    (((← EStateM.get).get id).bind fun n => n.data.attrs).getD [] |>.map Attribute.name
  incoming.forM fun attr =>
    if attr.name ∈ present then pure () else setAttribute id attr.name attr.value

def recordSnapshots (s : Arena) (on : Bool) : Arena := { s with recordingSnapshots := on }

def takeSnapshots (s : Arena) : List (NodeId × ElementSnapshot) × Arena :=
  (s.snapshots, { s with snapshots := [] })

end Arena

end Pelorus.Dom

/-! # Runs of arena operations

An `Op` is one call of a mutator with its arguments; `Op.apply` is the arena it
leaves, whether the call succeeded or was refused.  Handle arguments are
arbitrary: live, stale, or never allocated. -/

namespace Pelorus.Dom

open Lib.StateRun

/-- One call of a mutator of the arena.

`getMut` is what the crate does through `Arena::get_mut`: it changes the payload
of a node it resolved (appending to a text run, marking a script started). -/
inductive Op where
  | create (data : NodeData)
  | appendChild (parent child : NodeId)
  | insertBefore (sibling newNode : NodeId)
  | detach (id : NodeId)
  | reparentChildren (source target : NodeId)
  | removeSubtree (id : NodeId)
  | cloneSubtree (id : NodeId)
  | setAttribute (id : NodeId) (name : QualName) (value : String)
  | removeAttribute (id : NodeId) (name : QualName)
  | addAttributesIfMissing (id : NodeId) (incoming : List Attribute)
  | getMut (id : NodeId) (change : NodeData → NodeData)
  | newRange (start stop : BoundaryPoint)
  | dropRange (id : RangeId)
  | recordSnapshots (on : Bool)
  | takeSnapshots

/-- The arena a call leaves. -/
def Op.apply : Op → Arena → Arena
  | create data, s => final (Arena.create data s)
  | appendChild parent child, s => final (Arena.appendChild parent child s)
  | insertBefore sibling newNode, s => final (Arena.insertBefore sibling newNode s)
  | detach id, s => final (Arena.detach id s)
  | reparentChildren source target, s => final (Arena.reparentChildren source target s)
  | removeSubtree id, s => final (Arena.removeSubtree id s)
  | cloneSubtree id, s => final (Arena.cloneSubtree id s)
  | setAttribute id name value, s => final (Arena.setAttribute id name value s)
  | removeAttribute id name, s => final (Arena.removeAttribute id name s)
  | addAttributesIfMissing id incoming, s =>
      final (Arena.addAttributesIfMissing id incoming s)
  | getMut id change, s =>
      final (Arena.update id (fun n => { n with data := change n.data }) s)
  | newRange start stop, s => final (Arena.newRange start stop s)
  | dropRange id, s => (s.dropRange id).2
  | recordSnapshots on, s => s.recordSnapshots on
  | takeSnapshots, s => s.takeSnapshots.2

/-- The arena a sequence of calls leaves. -/
def run (ops : List Op) (s : Arena) : Arena := ops.foldl (fun s op => op.apply s) s

@[simp] theorem run_nil (s : Arena) : run [] s = s := rfl

@[simp] theorem run_cons (op : Op) (ops : List Op) (s : Arena) :
    run (op :: ops) s = run ops (op.apply s) := rfl

theorem run_append (ops ops' : List Op) (s : Arena) :
    run (ops ++ ops') s = run ops' (run ops s) := List.foldl_append

/-- Every call of the run satisfies `ok` in the state it is made in. -/
def Each (ok : Op → Arena → Prop) : List Op → Arena → Prop
  | [], _ => True
  | op :: ops, s => ok op s ∧ Each ok ops (op.apply s)

theorem each_of_forall {ok : Op → Arena → Prop} : ∀ (ops : List Op) (s : Arena),
    (∀ op ∈ ops, ∀ s, ok op s) → Each ok ops s
  | [], _, _ => trivial
  | op :: ops, s, h =>
      ⟨h op (by simp) s, each_of_forall ops (op.apply s) fun op' hop' => h op' (by simp [hop'])⟩

/-- A property kept by every call that satisfies `ok` holds after every run of
such calls. -/
theorem run_induction {inv : Arena → Prop} {ok : Op → Arena → Prop}
    (step : ∀ op s, inv s → ok op s → inv (op.apply s)) :
    ∀ (ops : List Op) (s : Arena), inv s → Each ok ops s → inv (run ops s)
  | [], _, hs, _ => hs
  | op :: ops, s, hs, ⟨hop, hops⟩ => run_induction step ops (op.apply s) (step op s hs hop) hops

end Pelorus.Dom
