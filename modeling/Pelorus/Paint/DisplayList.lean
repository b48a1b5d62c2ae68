import Mathlib.Data.Int.Basic
import Mathlib.Data.UInt
import Pelorus.Lib.Bytes

/-
  Paint/DisplayList.lean --- what to draw (`px-paint/src/display_list.rs`).

  A list is a flat run of items with two tables beside it: the glyphs that runs are windows
  into, and the images.  `validate` says that every window and every index lies in its table,
  `clipsBalanced` that clips open and close in turn.
-/
set_option autoImplicit false

namespace Pelorus.Paint

/-- 1/60 px.  Any `i32` can be wrapped; layout only makes values that `au` leaves alone. -/
structure Au where
  val : Int32
  deriving DecidableEq

structure Rect where
  x : Au
  y : Au
  width : Au
  height : Au
  deriving DecidableEq

structure Color where
  r : UInt8
  g : UInt8
  b : UInt8
  a : UInt8
  deriving DecidableEq

def Color.TRANSPARENT : Color := ⟨0, 0, 0, 0⟩

inductive BorderStyle where
  | none
  | solid
  deriving DecidableEq

structure BorderSide where
  width : Au
  style : BorderStyle
  color : Color
  deriving DecidableEq

/-- The exponent of a corner's curve, in 1/16. -/
inductive CornerShape where
  | convex (n16 : UInt16)
  | concave (n16 : UInt16)
  deriving DecidableEq

structure Corner where
  rx : Au
  ry : Au
  shape : CornerShape
  deriving DecidableEq

/-! The four sides of a box, clockwise from the top, or its four corners from the top left one. -/

variable {α : Type}

/-- Corners from the top left one, clockwise. -/
structure RoundedRect where
  rect : Rect
  corners : Vector Corner 4
  deriving DecidableEq

structure FontId where
  val : UInt32
  deriving DecidableEq

structure PositionedGlyph where
  glyphId : UInt32
  x : Au
  y : Au
  deriving DecidableEq

def MAX_GLYPHS : Nat := 2 ^ 18

def MAX_GLYPHS_PER_RUN : Nat := 2 ^ 16

def MAX_IMAGES : Nat := 1024

/-- Why a list is not well formed. -/
inductive ListError where
  | tooManyGlyphs
  | runTooLong
  | runOutOfBounds
  | badImage
  | imageOutOfBounds
  deriving DecidableEq

/-- A decoded image, four bytes a pixel. -/
structure ImageData where
  width : UInt32
  height : UInt32
  rgba : List UInt8
  deriving DecidableEq

def ImageData.isWellFormed (i : ImageData) : Bool :=
  i.width.toNat * i.height.toNat * 4 = i.rgba.length ∧ i.width > 0 ∧ i.height > 0

inductive ImageFilter where
  | nearest
  | smooth
  deriving DecidableEq

/-- A shared value; `ptr_eq` compares addresses. -/
structure Arc (α : Type) where
  address : Nat
  value : α
  deriving DecidableEq

/-- One paint operation. -/
inductive Item where
  | fillRect (rect : Rect) (color : Color)
  | border (rect : Rect) (sides : Vector BorderSide 4)
  | textRun (rect : Rect) (color : Color)
  | glyphRun (font : FontId) (size : Au) (color : Color) (start len : UInt32)
  | pushClip (rect : Rect)
  | popClip
  | fillRoundedRect (shape : RoundedRect) (color : Color)
  | roundedBorder (shape : RoundedRect) (sides : Vector BorderSide 4)
  | pushRoundedClip (shape : RoundedRect)
  | image (rect : Rect) (image : UInt32) (filter : ImageFilter)
  deriving DecidableEq

/-- Items back to front, with the tables they name. -/
structure DisplayList where
  items : List Item
  glyphs : List PositionedGlyph
  images : List (Arc ImageData)
  deriving DecidableEq

namespace DisplayList

/-- The glyphs of a run, if the window lies in the arena. -/
def runGlyphs (list : DisplayList) (start len : UInt32) : Option (List PositionedGlyph) :=
  if start.toNat + len.toNat ≤ list.glyphs.length then
    some ((list.glyphs.drop start.toNat).take len.toNat)
  else none

/-- The check of one item. -/
def checkItem (list : DisplayList) : Item → Except ListError Unit
  | .glyphRun _ _ _ start len =>
      if MAX_GLYPHS_PER_RUN < len.toNat then .error .runTooLong
      else if (list.runGlyphs start len).isNone then .error .runOutOfBounds
      else .ok ()
  | .image _ image _ => if list.images.length ≤ image.toNat then .error .imageOutOfBounds else .ok ()
  | _ => .ok ()

def validate (list : DisplayList) : Except ListError Unit :=
  if MAX_GLYPHS < list.glyphs.length then .error .tooManyGlyphs
  else if MAX_IMAGES < list.images.length ∨ list.images.any (fun i => !i.value.isWellFormed) then
    .error .badImage
  else forM list.items list.checkItem

/-- What an item does to the number of open clips; nothing closes a clip that is not open. -/
def clipStep (depth : Nat) : Item → Option Nat
  | .pushClip _ | .pushRoundedClip _ => some (depth + 1)
  | .popClip => if depth = 0 then none else some (depth - 1)
  | _ => some depth

def clipsBalanced (list : DisplayList) : Bool := list.items.foldlM clipStep 0 == some 0

end DisplayList

end Pelorus.Paint

/-! # Canvases and the limits of the rasterizer (`px-paint/src/raster.rs`) -/

namespace Pelorus.Paint

open Lib

/-- Deepest permitted nesting of clips. -/
def MAX_CLIP_DEPTH : Nat := 256

/-- Why rasterization was refused. -/
inductive RasterError where
  | emptyViewport
  | tooLarge
  | unbalancedClips
  | clipTooDeep
  | badList (error : ListError)
  deriving DecidableEq

/-- An RGBA8 raster, row by row. -/
structure Canvas where
  width : UInt32
  height : UInt32
  pixels : Bytes
  deriving DecidableEq

end Pelorus.Paint

/-! # Deterministic image scaling (`px-paint/src/image.rs`)

A destination pixel is a weighted mean of source pixels, with weights that are the product of
one weight for each axis.  Which taps an index has does not depend on the window asked for. -/

namespace Pelorus.Paint

open Lib

end Pelorus.Paint
