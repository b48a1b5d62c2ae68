import Mathlib.Data.Finset.Sort
import Pelorus.Ipc.Vocabulary
import Pelorus.Lib.Collections
import Pelorus.Websec.Origin

/-
  Broker/FrameTree.lean --- the process key and the bookkeeping of the process pool
  (`px-broker/src/site.rs`).

  The two maps of a pool that only `register` and `forget` have changed are inverse to
  each other (`ProcessPool.Wf`).
-/
set_option autoImplicit false

namespace Pelorus.Broker

open Lib Websec

def MAX_CONTENT_PROCESSES : Nat := 64

/-- Which connection a message arrived on. -/
structure ChannelId where
  value : UInt64
  deriving DecidableEq

/-- A browsing context group. -/
structure GroupId where
  value : UInt64
  deriving DecidableEq

/-- The top-level site of a document, and its origin. -/
structure ProcessKey where
  topLevelSite : Text
  origin : Origin
  deriving DecidableEq

/-- The registrable domain of a top-level document, if it has one. -/
def siteOf (topLevel : Origin) (resolver : SiteResolver) : Option Text :=
  match topLevel.host? with
  | some (.domain domain) => (resolver domain).filter fun site => !site.isEmpty
  | _ => none

def ProcessKey.new (topLevel origin : Origin) (resolver : SiteResolver) : Option ProcessKey :=
  (siteOf topLevel resolver).map fun site => { topLevelSite := site, origin }

inductive PoolError where
  | atCap
  | keyTaken
  | channelBusy
  deriving DecidableEq, Repr

inductive PoolLookup where
  | share (channel : ChannelId)
  | spawn
  | atCap
  deriving DecidableEq

structure ProcessPool where
  byKey : Map (GroupId × ProcessKey) ChannelId
  byChannel : Map ChannelId (GroupId × ProcessKey)

namespace ProcessPool

def empty : ProcessPool := ⟨∅, ∅⟩

def len (p : ProcessPool) : Nat := p.byChannel.keys.length

def lookup (p : ProcessPool) (group : GroupId) (key : ProcessKey) : PoolLookup :=
  match p.byKey.lookup (group, key) with
  | some channel => .share channel
  | none => if MAX_CONTENT_PROCESSES ≤ p.len then .atCap else .spawn

def register (p : ProcessPool) (group : GroupId) (key : ProcessKey) (channel : ChannelId) :
    Except PoolError ProcessPool :=
  if (p.byChannel.lookup channel).isSome then .error .channelBusy
  else if (p.byKey.lookup (group, key)).isSome then .error .keyTaken
  else if MAX_CONTENT_PROCESSES ≤ p.len then .error .atCap
  else .ok ⟨p.byKey.insert (group, key) channel, p.byChannel.insert channel (group, key)⟩

def keyOf (p : ProcessPool) (channel : ChannelId) : Option (GroupId × ProcessKey) :=
  p.byChannel.lookup channel

def forget (p : ProcessPool) (channel : ChannelId) : ProcessPool :=
  match p.byChannel.lookup channel with
  | some entry => ⟨p.byKey.erase entry, p.byChannel.erase channel⟩
  | none => p

/-- The maps are inverse to each other, and not too large. -/
structure Wf (p : ProcessPool) : Prop where
  inverse : ∀ entry channel, p.byKey.lookup entry = some channel ↔ p.keyOf channel = some entry
  len_eq : p.byKey.keys.length = p.len
  len_le : p.len ≤ MAX_CONTENT_PROCESSES

theorem wf_empty : empty.Wf where
  inverse entry channel := by simp [empty, keyOf]
  len_eq := rfl
  len_le := Nat.zero_le _

theorem length_insert {α β : Type} [DecidableEq α] {m : Map α β} {a : α} (h : m.lookup a = none)
    (b : β) : (m.insert a b).keys.length = m.keys.length + 1 := by
  rw [AList.keys_insert, List.length_cons,
    List.erase_of_not_mem fun hmem => AList.lookup_eq_none.mp h (AList.mem_keys.mpr hmem)]

theorem length_erase {α β : Type} [DecidableEq α] {m : Map α β} {a : α} {b : β}
    (h : m.lookup a = some b) : (m.erase a).keys.length = m.keys.length - 1 := by
  rw [AList.keys_erase, List.length_erase_of_mem]
  exact AList.mem_keys.mp (AList.lookup_isSome.mp (by rw [h]; rfl))

variable {p p' : ProcessPool}
variable {key : ProcessKey} {channel : ChannelId}

theorem register_ok {group : GroupId} (h : p.register group key channel = .ok p') :
    p.keyOf channel = none ∧ p.byKey.lookup (group, key) = none ∧ p.len < MAX_CONTENT_PROCESSES ∧
      p' = ⟨p.byKey.insert (group, key) channel, p.byChannel.insert channel (group, key)⟩ := by
  unfold register at h
  split at h
  · cases h
  · rename_i hbusy
    split at h
    · cases h
    · rename_i htaken
      split at h
      · cases h
      · rename_i hroom
        cases h
        exact ⟨by simpa [keyOf] using hbusy, by simpa using htaken, Nat.not_le.mp hroom, rfl⟩

theorem keyOf_register {group : GroupId} (h : p.register group key channel = .ok p') (c : ChannelId) :
    p'.keyOf c = if c = channel then some (group, key) else p.keyOf c := by
  obtain ⟨-, -, -, rfl⟩ := register_ok h
  show (p.byChannel.insert channel (group, key)).lookup c = _
  split
  · rename_i hc
    rw [hc, AList.lookup_insert]
  · rename_i hc
    exact AList.lookup_insert_ne hc

theorem Wf.register (hp : p.Wf) {group : GroupId} (h : p.register group key channel = .ok p') : p'.Wf := by
  have hkeyOf := keyOf_register h
  obtain ⟨hfree, hkey, hroom, rfl⟩ := register_ok h
  constructor
  · intro entry c
    rw [hkeyOf]
    by_cases hentry : entry = (group, key)
    · subst hentry
      have hinsert : (p.byKey.insert (group, key) channel).lookup (group, key) = some channel :=
        AList.lookup_insert _
      rw [hinsert]
      split
      · rename_i hc
        simp [hc]
      · rename_i hc
        rw [← hp.inverse, hkey]
        simp [Ne.symm hc]
    · have hinsert : (p.byKey.insert (group, key) channel).lookup entry = p.byKey.lookup entry :=
        AList.lookup_insert_ne hentry
      rw [hinsert, hp.inverse]
      split
      · rename_i hc
        rw [hc, hfree]
        simp [Ne.symm hentry]
      · rfl
  · show (p.byKey.insert (group, key) channel).keys.length =
      (p.byChannel.insert channel (group, key)).keys.length
    rw [length_insert hkey, length_insert hfree, hp.len_eq]
    rfl
  · show (p.byChannel.insert channel (group, key)).keys.length ≤ _
    rw [length_insert hfree]
    exact hroom

theorem keyOf_forget (p : ProcessPool) (channel c : ChannelId) :
    (p.forget channel).keyOf c = if c = channel then none else p.keyOf c := by
  unfold forget
  split
  · show (p.byChannel.erase channel).lookup c = _
    split
    · rename_i hc
      rw [hc, AList.lookup_erase]
    · rename_i hc
      exact AList.lookup_erase_ne hc
  · rename_i hnone
    split
    · rename_i hc
      rw [hc]
      exact hnone
    · rfl

theorem Wf.forget (hp : p.Wf) (channel : ChannelId) : (p.forget channel).Wf := by
  constructor
  · intro entry c
    rw [keyOf_forget]
    unfold ProcessPool.forget
    split
    · rename_i served hserved
      have hserved' : p.byKey.lookup served = some channel := (hp.inverse served channel).mpr hserved
      show (p.byKey.erase served).lookup entry = some c ↔ _
      by_cases hentry : entry = served
      · subst hentry
        rw [AList.lookup_erase]
        split
        · simp
        · rename_i hc
          rw [← hp.inverse, hserved']
          simp [Ne.symm hc]
      · rw [AList.lookup_erase_ne hentry, hp.inverse]
        split
        · rename_i hc
          have hserved'' : p.keyOf c = some served := hc ▸ hserved
          rw [hserved'']
          simp [Ne.symm hentry]
        · rfl
    · rename_i hnone
      rw [hp.inverse]
      split
      · rename_i hc
        have hnone' : p.keyOf c = none := hc ▸ hnone
        rw [hnone']
      · rfl
  · unfold ProcessPool.forget
    split
    · rename_i served hserved
      show (p.byKey.erase served).keys.length = (p.byChannel.erase channel).keys.length
      rw [length_erase ((hp.inverse served channel).mpr hserved), length_erase hserved, hp.len_eq]
      rfl
    · exact hp.len_eq
  · unfold ProcessPool.forget
    split
    · show (p.byChannel.erase channel).keys.length ≤ _
      rw [AList.keys_erase]
      exact Nat.le_trans List.length_erase_le hp.len_le
    · exact hp.len_le

end ProcessPool

end Pelorus.Broker

/-! # The frame tree (`FrameTree` of `px-broker/src/lib.rs`)

A frame lives in a slot; its handle is the index of the slot and the generation that
the slot had when the frame was made.  `at?` is the slot that a handle resolves to,
which every accessor reads.

SETS of slot indices are finite sets of numbers.  Where the source visits a hash set,
the indices are visited in ascending order: every visit changes its own slot only, and
the notices are sorted at the end. -/

namespace Pelorus.Broker

open Lib Websec
open Ipc (FrameId)

def MAX_FRAME_DEPTH : Nat := 8

def MAX_CHILDREN_PER_FRAME : Nat := 256

/-- `checked_add(1)` of an integer type with values below `bound`. -/
def checkedSucc {α : Type} (toNat : α → Nat) (ofNat : Nat → α) (bound : Nat) (n : α) : Option α :=
  if toNat n + 1 < bound then some (ofNat (toNat n + 1)) else none

def succU8 : UInt8 → Option UInt8 := checkedSucc UInt8.toNat UInt8.ofNat (2 ^ 8)

def succU32 : UInt32 → Option UInt32 := checkedSucc UInt32.toNat UInt32.ofNat (2 ^ 32)

def succU64 : UInt64 → Option UInt64 := checkedSucc UInt64.toNat UInt64.ofNat (2 ^ 64)

inductive FrameState where
  | live
  | crashed
  deriving DecidableEq, Repr

inductive Lifecycle where
  | free
  | live
  | crashed
  deriving DecidableEq, Repr

inductive TreeError where
  | full
  | noParent
  | tooDeep
  | tooManyChildren
  | ordinalTaken
  deriving DecidableEq, Repr

/-- One frame's slot. -/
structure FrameSlot where
  generation : UInt32
  owner : Option ChannelId
  retired : Bool
  lifecycle : Lifecycle
  parent : Option FrameId
  depth : UInt8
  ordinal : Option UInt32
  group : GroupId
  origin : Option Origin
  deriving DecidableEq

structure FrameTree where
  slots : List FrameSlot
  nextGroup : UInt64

/-- The slot of a new frame. -/
def FrameSlot.new (owner : ChannelId) (parent : Option FrameId) (depth : UInt8)
    (ordinal : Option UInt32) (group : GroupId) (generation : UInt32) : FrameSlot where
  generation := generation
  owner := some owner
  retired := false
  lifecycle := .live
  parent := parent
  depth := depth
  ordinal := ordinal
  group := group
  origin := none

/-- A slot after its frame is gone. -/
def FrameSlot.freed (s : FrameSlot) : FrameSlot :=
  { s with owner := none, lifecycle := .free, parent := none, ordinal := none, origin := none }

/-- A slot after the process of its frame died. -/
def FrameSlot.crash (s : FrameSlot) : FrameSlot := { s with owner := none, lifecycle := .crashed }

namespace FrameTree

def empty : FrameTree := ⟨[], 0⟩

/-! ## Handles -/

def resolve (t : FrameTree) (frame : FrameId) : Option Nat :=
  match t.slots[frame.index.toNat]? with
  | none => none
  | some slot =>
      if slot.generation ≠ frame.generation ∨ slot.lifecycle = .free then none
      else some frame.index.toNat

/-- The slot that a handle resolves to. -/
def at? (t : FrameTree) (frame : FrameId) : Option FrameSlot :=
  (t.resolve frame).bind fun index => t.slots[index]?

def owner (t : FrameTree) (frame : FrameId) : Option ChannelId :=
  (t.at? frame).bind FrameSlot.owner

def state (t : FrameTree) (frame : FrameId) : Option FrameState :=
  (t.at? frame).bind fun slot =>
    match slot.lifecycle with
    | .live => some .live
    | .crashed => some .crashed
    | .free => none

def parent (t : FrameTree) (frame : FrameId) : Option FrameId :=
  (t.at? frame).bind FrameSlot.parent

def depth (t : FrameTree) (frame : FrameId) : Option UInt8 := (t.at? frame).map FrameSlot.depth

def group (t : FrameTree) (frame : FrameId) : Option GroupId := (t.at? frame).map FrameSlot.group

def origin (t : FrameTree) (frame : FrameId) : Option Origin :=
  (t.at? frame).bind FrameSlot.origin

/-- `exists`. -/
def exists? (t : FrameTree) (frame : FrameId) : Bool := (t.resolve frame).isSome

/-! ## Making frames -/

/-- The loop of `alloc` over the slots, from index `i` on: the first free slot that has a
generation left is filled, and the spent ones before it are retired.  There is a result if
the loop returns. -/
def reuse (new : UInt32 → FrameSlot) : Nat → List FrameSlot → List FrameSlot × Option (Option FrameId)
  | _, [] => ([], none)
  | i, slot :: slots =>
      if slot.lifecycle = .free ∧ slot.retired = false then
        match succU32 slot.generation with
        | some next =>
            if i < 2 ^ 32 then (new next :: slots, some (some ⟨UInt32.ofNat i, next⟩))
            else (slot :: slots, some none)
        | none =>
            let rest := reuse new (i + 1) slots
            ({ slot with retired := true } :: rest.1, rest.2)
      else
        let rest := reuse new (i + 1) slots
        (slot :: rest.1, rest.2)

def alloc (t : FrameTree) (new : UInt32 → FrameSlot) : FrameTree × Option FrameId :=
  match reuse new 0 t.slots with
  | (slots, some result) => ({ t with slots }, result)
  | (slots, none) =>
      if slots.length < 2 ^ 32 then
        ({ t with slots := slots ++ [new 0] }, some ⟨UInt32.ofNat slots.length, 0⟩)
      else ({ t with slots }, none)

def create (t : FrameTree) (owner : ChannelId) : FrameTree × Option FrameId :=
  match succU64 t.nextGroup with
  | none => (t, none)
  | some next =>
      match t.alloc (FrameSlot.new owner none 0 none ⟨t.nextGroup⟩) with
      | (t, none) => (t, none)
      | (t, some frame) => ({ t with nextGroup := next }, some frame)

/-- The slots of the frames embedded in a frame. -/
def children (t : FrameTree) (parent : FrameId) : List FrameSlot :=
  t.slots.filter fun slot => slot.lifecycle ≠ .free ∧ slot.parent = some parent

def createChild (t : FrameTree) (owner : ChannelId) (parent : FrameId) (ordinal : UInt32) :
    FrameTree × Except TreeError FrameId :=
  match t.at? parent with
  | none => (t, .error .noParent)
  | some slot =>
      if slot.lifecycle ≠ .live ∨ slot.owner ≠ some owner then (t, .error .noParent)
      else
        match succU8 slot.depth with
        | none => (t, .error .tooDeep)
        | some depth =>
            if MAX_FRAME_DEPTH < depth.toNat then (t, .error .tooDeep)
            else if (t.children parent).any fun child => child.ordinal = some ordinal then
              (t, .error .ordinalTaken)
            else if MAX_CHILDREN_PER_FRAME ≤ (t.children parent).length then
              (t, .error .tooManyChildren)
            else
              match t.alloc (FrameSlot.new owner (some parent) depth (some ordinal) slot.group) with
              | (t, none) => (t, .error .full)
              | (t, some frame) => (t, .ok frame)

/-! ## Changing frames -/

/-- Change the slot that a handle resolves to. -/
def modify (t : FrameTree) (frame : FrameId) (f : FrameSlot → FrameSlot) : FrameTree :=
  match t.resolve frame with
  | none => t
  | some index => { t with slots := t.slots.modify index f }

def commitOrigin (t : FrameTree) (frame : FrameId) (origin : Origin) : FrameTree × Bool :=
  match t.at? frame with
  | none => (t, false)
  | some slot =>
      if slot.lifecycle = .live then
        (t.modify frame fun slot => { slot with origin := some origin }, true)
      else (t, false)

def transfer (t : FrameTree) (frame : FrameId) (source target : ChannelId) : FrameTree × Bool :=
  match t.at? frame with
  | none => (t, false)
  | some slot =>
      if slot.lifecycle = .live ∧ slot.owner = some source then
        (t.modify frame fun slot => { slot with owner := some target }, true)
      else (t, false)

/-- Up to `n` steps towards the top-level frame. -/
def climb (t : FrameTree) : Nat → FrameId → FrameId
  | 0, frame => frame
  | n + 1, frame =>
      match t.parent frame with
      | some p => climb t n p
      | none => frame

def processKey (t : FrameTree) (frame : FrameId) (resolver : SiteResolver) : Option ProcessKey := do
  let state ← t.state frame
  if state ≠ .live then none
  else
    let origin ← t.origin frame
    let root := t.climb (MAX_FRAME_DEPTH + 1) frame
    if (t.parent root).isSome then none
    else
      let rootOrigin ← t.origin root
      ProcessKey.new rootOrigin origin resolver

/-! ## Removing frames -/

def ownedBy (t : FrameTree) (channel : ChannelId) : Finset Nat :=
  (Finset.range t.slots.length).filter fun i =>
    ∃ slot ∈ t.slots[i]?, slot.lifecycle = .live ∧ slot.owner = some channel

/-- One pass of `descendants` over the slots, from index `i` on. -/
def sweep (t : FrameTree) (seed : Finset Nat) : Nat → List FrameSlot → Finset Nat → Finset Nat × Bool
  | _, [], found => (found, false)
  | i, slot :: slots, found =>
      if slot.lifecycle = .free ∨ i ∈ found then sweep t seed (i + 1) slots found
      else
        match slot.parent.bind t.resolve with
        | none => sweep t seed (i + 1) slots found
        | some p =>
            if p ∈ seed ∨ p ∈ found then
              ((sweep t seed (i + 1) slots (insert i found)).1, true)
            else sweep t seed (i + 1) slots found

/-- The passes of `descendants`, `fuel` at most. -/
def sweeps (t : FrameTree) (seed : Finset Nat) : Nat → Finset Nat → Finset Nat
  | 0, found => found
  | fuel + 1, found =>
      let pass := t.sweep seed 0 t.slots found
      if pass.2 then sweeps t seed fuel pass.1 else pass.1

/-- `descendants`: every pass but the last finds one more slot. -/
def descendants (t : FrameTree) (seed : Finset Nat) : Finset Nat :=
  t.sweeps seed (t.slots.length + 1) ∅

def freeIndices (t : FrameTree) (indices : Finset Nat) : FrameTree :=
  { t with slots := t.slots.mapIdx fun i slot => if i ∈ indices then slot.freed else slot }

def releaseAll (t : FrameTree) (channel : ChannelId) : FrameTree :=
  let roots := t.ownedBy channel
  t.freeIndices (t.descendants roots ∪ roots)

/-- One turn of the loop of `crash_channel`. -/
def crashOne (channel : ChannelId) (acc : FrameTree × List (ChannelId × FrameId)) (i : Nat) :
    FrameTree × List (ChannelId × FrameId) :=
  let (t, notices) := acc
  match t.slots[i]? with
  | none => acc
  | some slot =>
      if i < 2 ^ 32 then
        let parentOwner := (slot.parent.bind t.owner).filter fun o => o ≠ channel
        ({ t with slots := t.slots.modify i FrameSlot.crash },
          notices ++ parentOwner.toList.map fun o => (o, ⟨UInt32.ofNat i, slot.generation⟩))
      else acc

/-- The order of the notices. -/
def noticeLe (a b : ChannelId × FrameId) : Prop :=
  a.1.value < b.1.value ∨ a.1.value = b.1.value ∧ a.2.index ≤ b.2.index

instance : DecidableRel noticeLe := fun a b =>
  inferInstanceAs (Decidable (a.1.value < b.1.value ∨ a.1.value = b.1.value ∧ a.2.index ≤ b.2.index))

def crashChannel (t : FrameTree) (channel : ChannelId) : FrameTree × List (ChannelId × FrameId) :=
  let roots := t.ownedBy channel
  let doomed := t.descendants roots
  let crashed := ((List.range t.slots.length).filter fun i => i ∈ roots ∧ i ∉ doomed).foldl
    (crashOne channel) (t, [])
  (crashed.1.freeIndices doomed, crashed.2.insertionSort noticeLe)

end FrameTree

end Pelorus.Broker
