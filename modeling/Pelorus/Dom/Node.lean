/-
  Dom/Node.lean --- handles, nodes, boundary points and the refusals of the DOM
  arena (`px-dom/src/handle.rs`, `node.rs`, `range.rs`).

  A node holds five links and a payload, and every link is a `NodeId`: a slot
  index together with the generation of the occupant that was meant.  Nothing
  here resolves a handle; resolution is `Arena.get` and can fail.

  TWO GHOST FIELDS.  `Node.serial` and `Range.serial` are not in the source.
  They number the nodes (the ranges) in the order they were created, no
  definition of the model reads them, and they are what "the same node" means
  in the statements about stale handles.
-/
set_option autoImplicit false

namespace Pelorus.Dom

/-- `u32::MAX`: the last generation a slot can have, and the one slot index
`create` refuses. -/
def u32Max : Nat := 4294967295

/-- The maximum depth of the tree. -/
def MAX_DEPTH : Nat := 512

/-- A handle to a node: a slot and the generation of the occupant it means.

Both halves are `u32` in the source (the generation non-zero); a handle built
from larger numbers never resolves, so the wider type only adds stale handles. -/
structure NodeId where
  index : Nat
  generation : Nat
  deriving DecidableEq, Repr, Inhabited

/-- A handle to a live range, generational for the same reason. -/
structure RangeId where
  index : Nat
  generation : Nat
  deriving DecidableEq, Repr, Inhabited

/-- Why a tree operation was refused. -/
inductive TreeError where
  /-- a handle did not resolve -/
  | noSuchNode
  /-- the operation would have put a node inside its own subtree -/
  | wouldCycle
  /-- the operation would have exceeded `MAX_DEPTH` -/
  | tooDeep
  /-- the arena has no slot to give -/
  | exhausted
  /-- the parent is not a document, a fragment or an element -/
  | cannotHaveChildren
  /-- the operation would have moved or removed the document node -/
  | immovable
  deriving DecidableEq, Repr

/-! ## Payloads -/

/-- An element or attribute name: prefix, namespace and local part. -/
structure QualName where
  pfx : Option String
  ns : String
  localName : String
  deriving DecidableEq, Repr

/-- One attribute. -/
structure Attribute where
  name : QualName
  value : String
  deriving DecidableEq, Repr

/-- A node's payload. -/
inductive NodeData where
  | document
  | fragment
  | doctype (name publicId systemId : String)
  | text (contents : String)
  | comment (contents : String)
  | element (name : QualName) (attrs : List Attribute)
      (templateContents : Option NodeId) (scriptAlreadyStarted : Bool)
  | processingInstruction (target contents : String)
  deriving DecidableEq, Repr

namespace NodeData

/-- Only a document, a fragment or an element can hold children. -/
def canHaveChildren : NodeData → Bool
  | document | fragment | element .. => true
  | _ => false

/-- The contents fragment of a `<template>`, if this is one. -/
def templateContents : NodeData → Option NodeId
  | element _ _ contents _ => contents
  | _ => none

/-- The attributes, if this is an element. -/
def attrs : NodeData → Option (List Attribute)
  | element _ attrs _ _ => some attrs
  | _ => none

/-- Replace the attributes of an element; any other payload is left alone. -/
def withAttrs (attrs : List Attribute) : NodeData → NodeData
  | element name _ contents started => element name attrs contents started
  | data => data

/-- The length of the character data, in UTF-8 bytes, if there is any. -/
def characterLength : NodeData → Option Nat
  | text contents | comment contents => some contents.utf8ByteSize
  | processingInstruction _ contents => some contents.utf8ByteSize
  | _ => none

@[simp] theorem canHaveChildren_withAttrs (attrs : List Attribute) (d : NodeData) :
    (d.withAttrs attrs).canHaveChildren = d.canHaveChildren := by
  cases d <;> rfl

@[simp] theorem templateContents_withAttrs (attrs : List Attribute) (d : NodeData) :
    (d.withAttrs attrs).templateContents = d.templateContents := by
  cases d <;> rfl

/-- A payload with character data is not a container, so the two meanings of an
offset never meet in one node. -/
theorem characterLength_eq_none {d : NodeData} (h : d.canHaveChildren = true) :
    d.characterLength = none := by
  cases d <;> simp_all [canHaveChildren, characterLength]

end NodeData

/-- A node: five links and a payload. -/
structure Node where
  parent : Option NodeId
  firstChild : Option NodeId
  lastChild : Option NodeId
  prevSibling : Option NodeId
  nextSibling : Option NodeId
  data : NodeData
  /-- ghost: how many nodes were created before this one -/
  serial : Nat
  deriving DecidableEq, Repr

/-- `Node::new`: a payload with no links. -/
def Node.new (serial : Nat) (data : NodeData) : Node :=
  { parent := none, firstChild := none, lastChild := none, prevSibling := none,
    nextSibling := none, data := data, serial := serial }

/-- `Node::detach_links`: forget the parent and the siblings, keep the children. -/
def Node.detachLinks (n : Node) : Node :=
  { n with parent := none, prevSibling := none, nextSibling := none }

/-! ## Boundary points and ranges -/

/-- A node and an offset into it: children for a container, bytes for character
data. -/
structure BoundaryPoint where
  node : NodeId
  offset : Nat
  deriving DecidableEq, Repr

/-- Where one boundary point sits relative to another. -/
inductive Position where
  | before
  | equal
  | after
  deriving DecidableEq, Repr

/-- The answer to the mirrored question. -/
def Position.mirror : Position → Position
  | before => after
  | equal => equal
  | after => before

/-- A live range. -/
structure Range where
  start : BoundaryPoint
  stop : BoundaryPoint
  /-- ghost: how many ranges were created before this one -/
  serial : Nat
  deriving DecidableEq, Repr

/-! ## Snapshots -/

/-- What an element looked like before the first mutation since the last flush. -/
structure ElementSnapshot where
  attrs : List Attribute
  classChanged : Bool
  idChanged : Bool
  otherAttributesChanged : Bool
  deriving DecidableEq, Repr

def ElementSnapshot.capture (attrs : List Attribute) : ElementSnapshot :=
  { attrs := attrs, classChanged := false, idChanged := false,
    otherAttributesChanged := false }

/-- `ElementSnapshot::note_change`: only the no-namespace `class` and `id` have
flags of their own. -/
def ElementSnapshot.noteChange (name : QualName) (snapshot : ElementSnapshot) :
    ElementSnapshot :=
  if name.ns = "" ∧ name.localName = "class" then
    { snapshot with classChanged := true }
  else if name.ns = "" ∧ name.localName = "id" then
    { snapshot with idChanged := true }
  else { snapshot with otherAttributesChanged := true }

end Pelorus.Dom
