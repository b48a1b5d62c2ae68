import Pelorus.Ipc.Vocabulary
import Pelorus.Lib.Pieces
import Pelorus.Paint.DisplayList

/-
  Gpu/Wire.lean --- between the display list and what crosses the process boundary
  (`px-gpu/src/wire.rs`).

  Items and glyphs change their types on the way; a coordinate that `au` would change is
  refused on arrival.  A frame comes back in strips, and the receiver works out from the size
  alone where each strip starts and how many rows it has (`bands`).
-/
set_option autoImplicit false

namespace Pelorus.Gpu

open Lib Ipc Paint

def rectToWire (rect : Rect) : WireRect := ⟨rect.x.val, rect.y.val, rect.width.val, rect.height.val⟩

def colorToWire (color : Color) : WireColor := ⟨color.r, color.g, color.b, color.a⟩

def sideToWire (side : BorderSide) : WireBorderSide where
  width := side.width.val
  style := match side.style with
    | .none => .none
    | .solid => .solid
  color := colorToWire side.color

def cornerToWire (c : Corner) : WireCorner :=
  match c.shape with
  | .convex n => ⟨c.rx.val, c.ry.val, false, n⟩
  | .concave n => ⟨c.rx.val, c.ry.val, true, n⟩

/-- Four values one after the other. -/
def fourToWire {α β : Type} (f : α → β) (v : Vector α 4) : Four β := ⟨(v.map f).toList, by simp⟩

def shapeToWire (shape : RoundedRect) : WireRoundedRect :=
  ⟨rectToWire shape.rect, fourToWire cornerToWire shape.corners⟩

/-- A display item as it crosses the boundary.  There is no image table on the wire: an image
goes as an empty fill. -/
def itemToWire : Item → WireItem
  | .fillRect rect color => .fillRect (rectToWire rect) (colorToWire color)
  | .border rect sides => .border (rectToWire rect) (fourToWire sideToWire sides)
  | .textRun rect color => .textRun (rectToWire rect) (colorToWire color)
  | .pushClip rect => .pushClip (rectToWire rect)
  | .popClip => .popClip
  | .fillRoundedRect shape color => .fillRoundedRect (shapeToWire shape) (colorToWire color)
  | .roundedBorder shape sides => .roundedBorder (shapeToWire shape) (fourToWire sideToWire sides)
  | .pushRoundedClip shape => .pushRoundedClip (shapeToWire shape)
  | .image rect _ _ => .fillRect (rectToWire rect) (colorToWire .TRANSPARENT)
  | .glyphRun font size color start len =>
      .glyphRun font.val size.val (colorToWire color) start len

def glyphToWire (glyph : PositionedGlyph) : WireGlyph := ⟨glyph.glyphId, glyph.x.val, glyph.y.val⟩

/-! ## Frames -/

/-- Largest frame edge, matching the software rasterizer's own limit. -/
def MAX_FRAME_DIMENSION : Nat := 16384

/-- Largest frame pixel count, matching the software rasterizer's own limit. -/
def MAX_FRAME_PIXELS : Nat := 2 ^ 25

/-- Whether a viewport is one the protocol will carry. -/
def viewportOk (width height : UInt32) : Bool :=
  width > 0 ∧ height > 0 ∧ width.toNat ≤ MAX_FRAME_DIMENSION ∧ height.toNat ≤ MAX_FRAME_DIMENSION ∧
    width.toNat * height.toNat ≤ MAX_FRAME_PIXELS

/-- Rows in every strip but possibly the last. -/
def rowsPerStrip (width : UInt32) : Option Nat :=
  if width = 0 ∨ MAX_FRAME_DIMENSION < width.toNat then none
  else
    let rows := MAX_STRIP_BYTES / (width.toNat * 4)
    if rows = 0 then none else some rows

/-- The rows and the bytes of one strip after the other, if the canvas has them. -/
def stripsFrom (canvas : Canvas) (bands : List (Nat × Nat)) : Option (List (Nat × Nat × Bytes)) :=
  bands.mapM fun (first, rows) =>
    let rowBytes := canvas.width.toNat * 4
    if first * rowBytes + rows * rowBytes ≤ canvas.pixels.length then
      some (first, rows, (canvas.pixels.drop (first * rowBytes)).take (rows * rowBytes))
    else none

/-- A canvas as the strips that carry it; none at all for a canvas the protocol will not carry. -/
def stripsOf (canvas : Canvas) : List (Nat × Nat × Bytes) :=
  match rowsPerStrip canvas.width with
  | none => []
  | some per => (stripsFrom canvas (bands per canvas.height.toNat 0)).getD []

/-- Why a strip was refused. -/
inductive StripError where
  | badFrame
  | outOfOrder
  | wrongRows
  | wrongLength
  | surplus
  | incomplete
  deriving DecidableEq

/-- Reassembles a frame from strips, accepting only the one valid sequence. -/
structure FrameAssembler where
  width : UInt32
  height : UInt32
  perStrip : Nat
  nextRow : Nat
  pixels : Bytes
  deriving DecidableEq

namespace FrameAssembler

def new (width height : UInt32) : Except StripError FrameAssembler :=
  if !viewportOk width height then .error .badFrame
  else
    match rowsPerStrip width with
    | none => .error .badFrame
    | some perStrip => .ok ⟨width, height, perStrip, 0, []⟩

/-- What the next strip must carry, or `none` when the frame is complete. -/
def expected (a : FrameAssembler) : Option (Nat × Nat) :=
  if a.height.toNat ≤ a.nextRow then none
  else some (a.nextRow, min a.perStrip (a.height.toNat - a.nextRow))

/-- Accept one strip. -/
def push (a : FrameAssembler) (firstRow rows : UInt32) (pixels : Bytes) : Except StripError FrameAssembler :=
  match a.expected with
  | none => .error .surplus
  | some (wantFirst, wantRows) =>
      if firstRow.toNat ≠ wantFirst then .error .outOfOrder
      else if rows.toNat ≠ wantRows then .error .wrongRows
      else if pixels.length ≠ rows.toNat * a.width.toNat * 4 then .error .wrongLength
      else .ok { a with pixels := a.pixels ++ pixels, nextRow := a.nextRow + rows.toNat }

/-- The finished canvas. -/
def finish (a : FrameAssembler) : Except StripError Canvas :=
  if a.nextRow ≠ a.height.toNat then .error .incomplete else .ok ⟨a.width, a.height, a.pixels⟩

end FrameAssembler

end Pelorus.Gpu
