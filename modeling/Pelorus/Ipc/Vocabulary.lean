import Pelorus.Lib.Postcard

/-
  Ipc/Vocabulary.lean --- the nine message vocabularies (`px-ipc/src/message.rs`,
  `gpu.rs`, `script.rs`, `frames.rs`) and their wire formats, as the derived
  serializers write them.

  The variants behind the `testing` feature are not in a release build, and not
  here.  A `Vec` holds at most `isize::MAX` elements, which is the only bound on
  the payload of `Echo` below the size of a message.
-/
set_option autoImplicit false

namespace Pelorus.Ipc

open Lib.Postcard

/-- A vector without a cap of its own. -/
abbrev Vec (α : Type) : Type := Bounded α (2 ^ 63 - 1)

/-- `[T; 4]`. -/
abbrev Four (α : Type) : Type := { l : List α // l.length = 4 }

/-- An enumeration without fields, by the position of each value. -/
def plain {α : Type} (values : List α) (index : α → UInt32)
    (h : ∀ a, values[(index a).toNat]? = some a) : Codec α :=
  u32.filterMap (fun i => values[i.toNat]?) index h

/-! ## Frames and liveness -/

/-- A handle to a frame in the broker's frame tree. -/
structure FrameId where
  index : UInt32
  generation : UInt32
  deriving DecidableEq

def frameId : Codec FrameId where
  write f := u32.write f.index ++ u32.write f.generation
  read bytes := do
    let (index, bytes) ← u32.read bytes
    let (generation, bytes) ← u32.read bytes
    some (⟨index, generation⟩, bytes)
  read_write f rest := by simp [List.append_assoc]

inductive FrameHost where
  | local
  | remote
  deriving DecidableEq

def frameHost : Codec FrameHost :=
  plain [.local, .remote]
    (fun
      | .local => 0
      | .remote => 1)
    (by rintro (_ | _) <;> rfl)

/-- Content process to broker. -/
inductive Request where
  | ping
  | echo (payload : Vec UInt8)
  | frameHost (frame : FrameId)
  deriving DecidableEq

def bytesVec : Codec (Vec UInt8) := bounded u8 (2 ^ 63 - 1) (by decide)

def request : Codec Request where
  write
    | .ping => u32.write 0
    | .echo payload => u32.write 1 ++ bytesVec.write payload
    | .frameHost frame => u32.write 2 ++ frameId.write frame
  read bytes := do
    let (variant, bytes) ← u32.read bytes
    match variant.toNat with
    | 0 => some (.ping, bytes)
    | 1 => (bytesVec.read bytes).map fun (payload, bytes) => (.echo payload, bytes)
    | 2 => (frameId.read bytes).map fun (frame, bytes) => (.frameHost frame, bytes)
    | _ => none
  read_write m rest := by cases m <;> simp [List.append_assoc]

/-- Broker to content process. -/
inductive Response where
  | pong
  | echo (payload : Vec UInt8)
  | frameHost (host : FrameHost)
  | denied
  deriving DecidableEq

def response : Codec Response where
  write
    | .pong => u32.write 0
    | .echo payload => u32.write 1 ++ bytesVec.write payload
    | .frameHost host => u32.write 2 ++ frameHost.write host
    | .denied => u32.write 3
  read bytes := do
    let (variant, bytes) ← u32.read bytes
    match variant.toNat with
    | 0 => some (.pong, bytes)
    | 1 => (bytesVec.read bytes).map fun (payload, bytes) => (.echo payload, bytes)
    | 2 => (frameHost.read bytes).map fun (host, bytes) => (.frameHost host, bytes)
    | 3 => some (.denied, bytes)
    | _ => none
  read_write m rest := by cases m <;> simp [List.append_assoc]

/-! ## The GPU process -/

def MAX_STRIP_BYTES : Nat := 256 * 1024

def MAX_ITEMS_PER_MESSAGE : Nat := 1024

def MAX_GLYPHS_PER_MESSAGE : Nat := 4096

def MAX_FONT_CHUNK_BYTES : Nat := 256 * 1024

/-- One positioned glyph. -/
structure WireGlyph where
  glyph : UInt32
  x : Int32
  y : Int32
  deriving DecidableEq

def wireGlyph : Codec WireGlyph where
  write g := u32.write g.glyph ++ (i32.write g.x ++ i32.write g.y)
  read bytes := do
    let (glyph, bytes) ← u32.read bytes
    let (x, bytes) ← i32.read bytes
    let (y, bytes) ← i32.read bytes
    some (⟨glyph, x, y⟩, bytes)
  read_write g rest := by simp [List.append_assoc]

/-- A rectangle in app units, page space. -/
structure WireRect where
  x : Int32
  y : Int32
  width : Int32
  height : Int32
  deriving DecidableEq

def wireRect : Codec WireRect where
  write r := i32.write r.x ++ (i32.write r.y ++ (i32.write r.width ++ i32.write r.height))
  read bytes := do
    let (x, bytes) ← i32.read bytes
    let (y, bytes) ← i32.read bytes
    let (width, bytes) ← i32.read bytes
    let (height, bytes) ← i32.read bytes
    some (⟨x, y, width, height⟩, bytes)
  read_write r rest := by simp [List.append_assoc]

/-- Non-premultiplied sRGB with 8-bit alpha. -/
structure WireColor where
  r : UInt8
  g : UInt8
  b : UInt8
  a : UInt8
  deriving DecidableEq

def wireColor : Codec WireColor where
  write c := u8.write c.r ++ (u8.write c.g ++ (u8.write c.b ++ u8.write c.a))
  read bytes := do
    let (r, bytes) ← u8.read bytes
    let (g, bytes) ← u8.read bytes
    let (b, bytes) ← u8.read bytes
    let (a, bytes) ← u8.read bytes
    some (⟨r, g, b, a⟩, bytes)
  read_write c rest := by simp [List.append_assoc]

inductive WireBorderStyle where
  | none
  | solid
  deriving DecidableEq

def wireBorderStyle : Codec WireBorderStyle :=
  plain [.none, .solid]
    (fun
      | .none => 0
      | .solid => 1)
    (by rintro (_ | _) <;> rfl)

/-- One border side. -/
structure WireBorderSide where
  width : Int32
  style : WireBorderStyle
  color : WireColor
  deriving DecidableEq

def wireBorderSide : Codec WireBorderSide where
  write s := i32.write s.width ++ (wireBorderStyle.write s.style ++ wireColor.write s.color)
  read bytes := do
    let (width, bytes) ← i32.read bytes
    let (style, bytes) ← wireBorderStyle.read bytes
    let (color, bytes) ← wireColor.read bytes
    some (⟨width, style, color⟩, bytes)
  read_write s rest := by simp [List.append_assoc]

/-- One corner of a rounded rectangle. -/
structure WireCorner where
  rx : Int32
  ry : Int32
  concave : Bool
  n16 : UInt16
  deriving DecidableEq

def wireCorner : Codec WireCorner where
  write c := i32.write c.rx ++ (i32.write c.ry ++ (bool.write c.concave ++ u16.write c.n16))
  read bytes := do
    let (rx, bytes) ← i32.read bytes
    let (ry, bytes) ← i32.read bytes
    let (concave, bytes) ← bool.read bytes
    let (n16, bytes) ← u16.read bytes
    some (⟨rx, ry, concave, n16⟩, bytes)
  read_write c rest := by simp [List.append_assoc]

/-- A rectangle with four shaped corners. -/
structure WireRoundedRect where
  rect : WireRect
  corners : Four WireCorner
  deriving DecidableEq

def wireRoundedRect : Codec WireRoundedRect where
  write r := wireRect.write r.rect ++ (array wireCorner 4).write r.corners
  read bytes := do
    let (rect, bytes) ← wireRect.read bytes
    let (corners, bytes) ← (array wireCorner 4).read bytes
    some (⟨rect, corners⟩, bytes)
  read_write r rest := by simp [List.append_assoc]

/-- One paint operation. -/
inductive WireItem where
  | fillRect (rect : WireRect) (color : WireColor)
  | border (rect : WireRect) (sides : Four WireBorderSide)
  | textRun (rect : WireRect) (color : WireColor)
  | pushClip (rect : WireRect)
  | popClip
  | glyphRun (font : UInt32) (size : Int32) (color : WireColor) (start len : UInt32)
  | fillRoundedRect (shape : WireRoundedRect) (color : WireColor)
  | roundedBorder (shape : WireRoundedRect) (sides : Four WireBorderSide)
  | pushRoundedClip (shape : WireRoundedRect)
  deriving DecidableEq

def borderSides : Codec (Four WireBorderSide) := array wireBorderSide 4

def wireItem : Codec WireItem where
  write
    | .fillRect rect color => u32.write 0 ++ (wireRect.write rect ++ wireColor.write color)
    | .border rect sides => u32.write 1 ++ (wireRect.write rect ++ borderSides.write sides)
    | .textRun rect color => u32.write 2 ++ (wireRect.write rect ++ wireColor.write color)
    | .pushClip rect => u32.write 3 ++ wireRect.write rect
    | .popClip => u32.write 4
    | .glyphRun font size color start len =>
        u32.write 5 ++ (u32.write font ++ (i32.write size ++ (wireColor.write color ++
          (u32.write start ++ u32.write len))))
    | .fillRoundedRect shape color =>
        u32.write 6 ++ (wireRoundedRect.write shape ++ wireColor.write color)
    | .roundedBorder shape sides =>
        u32.write 7 ++ (wireRoundedRect.write shape ++ borderSides.write sides)
    | .pushRoundedClip shape => u32.write 8 ++ wireRoundedRect.write shape
  read bytes := do
    let (variant, bytes) ← u32.read bytes
    match variant.toNat with
    | 0 =>
        let (rect, bytes) ← wireRect.read bytes
        let (color, bytes) ← wireColor.read bytes
        some (.fillRect rect color, bytes)
    | 1 =>
        let (rect, bytes) ← wireRect.read bytes
        let (sides, bytes) ← borderSides.read bytes
        some (.border rect sides, bytes)
    | 2 =>
        let (rect, bytes) ← wireRect.read bytes
        let (color, bytes) ← wireColor.read bytes
        some (.textRun rect color, bytes)
    | 3 =>
        let (rect, bytes) ← wireRect.read bytes
        some (.pushClip rect, bytes)
    | 4 => some (.popClip, bytes)
    | 5 =>
        let (font, bytes) ← u32.read bytes
        let (size, bytes) ← i32.read bytes
        let (color, bytes) ← wireColor.read bytes
        let (start, bytes) ← u32.read bytes
        let (len, bytes) ← u32.read bytes
        some (.glyphRun font size color start len, bytes)
    | 6 =>
        let (shape, bytes) ← wireRoundedRect.read bytes
        let (color, bytes) ← wireColor.read bytes
        some (.fillRoundedRect shape color, bytes)
    | 7 =>
        let (shape, bytes) ← wireRoundedRect.read bytes
        let (sides, bytes) ← borderSides.read bytes
        some (.roundedBorder shape sides, bytes)
    | 8 =>
        let (shape, bytes) ← wireRoundedRect.read bytes
        some (.pushRoundedClip shape, bytes)
    | _ => none
  read_write m rest := by cases m <;> simp [List.append_assoc]

/-- Why the GPU process declined to produce a frame. -/
inductive GpuFailure where
  | badViewport
  | badItemCount
  | badClips
  | outOfOrder
  | badCoordinate
  | backend
  | badFontTransfer
  | badFont
  | badGlyphs
  | unknownFont
  deriving DecidableEq

def gpuFailure : Codec GpuFailure :=
  plain [.badViewport, .badItemCount, .badClips, .outOfOrder, .badCoordinate, .backend,
      .badFontTransfer, .badFont, .badGlyphs, .unknownFont]
    (fun why => UInt32.ofNat why.ctorIdx)
    (by rintro (_ | _) <;> rfl)

/-- Broker to GPU process. -/
inductive GpuRequest where
  | begin (serial width height itemCount glyphCount : UInt32)
  | items (items : Bounded WireItem MAX_ITEMS_PER_MESSAGE)
  | draw
  | glyphs (glyphs : Bounded WireGlyph MAX_GLYPHS_PER_MESSAGE)
  | fontBegin (font len : UInt32)
  | fontChunk (font offset : UInt32) (bytes : Bounded UInt8 MAX_FONT_CHUNK_BYTES)
  deriving DecidableEq

def itemChunk : Codec (Bounded WireItem MAX_ITEMS_PER_MESSAGE) := bounded wireItem _ (by decide)

def glyphChunk : Codec (Bounded WireGlyph MAX_GLYPHS_PER_MESSAGE) := bounded wireGlyph _ (by decide)

def fontBytes : Codec (Bounded UInt8 MAX_FONT_CHUNK_BYTES) := bounded u8 _ (by decide)

def gpuRequest : Codec GpuRequest where
  write
    | .begin serial width height itemCount glyphCount =>
        u32.write 0 ++ (u32.write serial ++ (u32.write width ++ (u32.write height ++
          (u32.write itemCount ++ u32.write glyphCount))))
    | .items items => u32.write 1 ++ itemChunk.write items
    | .draw => u32.write 2
    | .glyphs glyphs => u32.write 3 ++ glyphChunk.write glyphs
    | .fontBegin font len => u32.write 4 ++ (u32.write font ++ u32.write len)
    | .fontChunk font offset bytes =>
        u32.write 5 ++ (u32.write font ++ (u32.write offset ++ fontBytes.write bytes))
  read bytes := do
    let (variant, bytes) ← u32.read bytes
    match variant.toNat with
    | 0 =>
        let (serial, bytes) ← u32.read bytes
        let (width, bytes) ← u32.read bytes
        let (height, bytes) ← u32.read bytes
        let (itemCount, bytes) ← u32.read bytes
        let (glyphCount, bytes) ← u32.read bytes
        some (.begin serial width height itemCount glyphCount, bytes)
    | 1 =>
        let (items, bytes) ← itemChunk.read bytes
        some (.items items, bytes)
    | 2 => some (.draw, bytes)
    | 3 =>
        let (glyphs, bytes) ← glyphChunk.read bytes
        some (.glyphs glyphs, bytes)
    | 4 =>
        let (font, bytes) ← u32.read bytes
        let (len, bytes) ← u32.read bytes
        some (.fontBegin font len, bytes)
    | 5 =>
        let (font, bytes) ← u32.read bytes
        let (offset, bytes) ← u32.read bytes
        let (chunk, bytes) ← fontBytes.read bytes
        some (.fontChunk font offset chunk, bytes)
    | _ => none
  read_write m rest := by cases m <;> simp [List.append_assoc]

/-- GPU process to broker. -/
inductive GpuResponse where
  | ready (landlockAbi : UInt32)
  | frameHeader (serial width height : UInt32)
  | strip (firstRow rows : UInt32) (pixels : Bounded UInt8 MAX_STRIP_BYTES)
  | failed (why : GpuFailure)
  deriving DecidableEq

def stripPixels : Codec (Bounded UInt8 MAX_STRIP_BYTES) := bounded u8 _ (by decide)

def gpuResponse : Codec GpuResponse where
  write
    | .ready landlockAbi => u32.write 0 ++ u32.write landlockAbi
    | .frameHeader serial width height =>
        u32.write 1 ++ (u32.write serial ++ (u32.write width ++ u32.write height))
    | .strip firstRow rows pixels =>
        u32.write 2 ++ (u32.write firstRow ++ (u32.write rows ++ stripPixels.write pixels))
    | .failed why => u32.write 3 ++ gpuFailure.write why
  read bytes := do
    let (variant, bytes) ← u32.read bytes
    match variant.toNat with
    | 0 =>
        let (landlockAbi, bytes) ← u32.read bytes
        some (.ready landlockAbi, bytes)
    | 1 =>
        let (serial, bytes) ← u32.read bytes
        let (width, bytes) ← u32.read bytes
        let (height, bytes) ← u32.read bytes
        some (.frameHeader serial width height, bytes)
    | 2 =>
        let (firstRow, bytes) ← u32.read bytes
        let (rows, bytes) ← u32.read bytes
        let (pixels, bytes) ← stripPixels.read bytes
        some (.strip firstRow rows pixels, bytes)
    | 3 =>
        let (why, bytes) ← gpuFailure.read bytes
        some (.failed why, bytes)
    | _ => none
  read_write m rest := by cases m <;> simp [List.append_assoc]

/-! ## Script -/

def MAX_SCRIPT_SOURCE_BYTES : Nat := 256 * 1024

def MAX_SCRIPT_RESULT_BYTES : Nat := 16 * 1024

def MAX_SCRIPT_ERROR_BYTES : Nat := 4 * 1024

/-- Why the host stopped running script in a content process. -/
inductive TerminateReason where
  | taskQueueOverflow
  | microtaskQueueOverflow
  | timerOverflow
  | microtaskBudget
  | runtimeLimit
  | enginePanic
  deriving DecidableEq

def terminateReason : Codec TerminateReason :=
  plain [.taskQueueOverflow, .microtaskQueueOverflow, .timerOverflow, .microtaskBudget,
      .runtimeLimit, .enginePanic]
    (fun reason => UInt32.ofNat reason.ctorIdx)
    (by rintro (_ | _) <;> rfl)

/-- What a script run came to. -/
inductive ScriptResult where
  | value (text : BoundedStr MAX_SCRIPT_RESULT_BYTES)
  | error (message : BoundedStr MAX_SCRIPT_ERROR_BYTES)
  | terminated (reason : TerminateReason)
  deriving DecidableEq

def resultText : Codec (BoundedStr MAX_SCRIPT_RESULT_BYTES) := boundedStr _ (by decide)

def errorText : Codec (BoundedStr MAX_SCRIPT_ERROR_BYTES) := boundedStr _ (by decide)

def scriptResult : Codec ScriptResult where
  write
    | .value text => u32.write 0 ++ resultText.write text
    | .error message => u32.write 1 ++ errorText.write message
    | .terminated reason => u32.write 2 ++ terminateReason.write reason
  read bytes := do
    let (variant, bytes) ← u32.read bytes
    match variant.toNat with
    | 0 =>
        let (text, bytes) ← resultText.read bytes
        some (.value text, bytes)
    | 1 =>
        let (message, bytes) ← errorText.read bytes
        some (.error message, bytes)
    | 2 =>
        let (reason, bytes) ← terminateReason.read bytes
        some (.terminated reason, bytes)
    | _ => none
  read_write m rest := by cases m <;> simp [List.append_assoc]

/-- Broker to content process. -/
inductive ScriptRequest where
  | init (seed : UInt64)
  | runScript (source : BoundedStr MAX_SCRIPT_SOURCE_BYTES)
  deriving DecidableEq

def scriptSource : Codec (BoundedStr MAX_SCRIPT_SOURCE_BYTES) := boundedStr _ (by decide)

def scriptRequest : Codec ScriptRequest where
  write
    | .init seed => u32.write 0 ++ u64.write seed
    | .runScript source => u32.write 1 ++ scriptSource.write source
  read bytes := do
    let (variant, bytes) ← u32.read bytes
    match variant.toNat with
    | 0 =>
        let (seed, bytes) ← u64.read bytes
        some (.init seed, bytes)
    | 1 =>
        let (source, bytes) ← scriptSource.read bytes
        some (.runScript source, bytes)
    | _ => none
  read_write m rest := by cases m <;> simp [List.append_assoc]

/-- Content process to broker. -/
inductive ScriptResponse where
  | result (result : ScriptResult)
  deriving DecidableEq

def scriptResponse : Codec ScriptResponse where
  write
    | .result result => u32.write 0 ++ scriptResult.write result
  read bytes := do
    let (variant, bytes) ← u32.read bytes
    match variant.toNat with
    | 0 =>
        let (result, bytes) ← scriptResult.read bytes
        some (.result result, bytes)
    | _ => none
  read_write m rest := by cases m; simp [List.append_assoc]

/-! ## Cross-process frames -/

def MAX_NAVIGATE_URL_BYTES : Nat := 2048

/-- How a navigation was initiated. -/
inductive NavigationKind where
  | push
  | replace
  | reload
  deriving DecidableEq

def navigationKind : Codec NavigationKind :=
  plain [.push, .replace, .reload] (fun kind => UInt32.ofNat kind.ctorIdx)
    (by rintro (_ | _) <;> rfl)

/-- Content process to broker. -/
inductive FrameRequest where
  | createChildFrame (parent : FrameId) (elementOrdinal : UInt32)
  | navigate (frame : FrameId) (url : BoundedStr MAX_NAVIGATE_URL_BYTES) (kind : NavigationKind)
  deriving DecidableEq

def navigateUrl : Codec (BoundedStr MAX_NAVIGATE_URL_BYTES) := boundedStr _ (by decide)

def frameRequest : Codec FrameRequest where
  write
    | .createChildFrame parent elementOrdinal =>
        u32.write 0 ++ (frameId.write parent ++ u32.write elementOrdinal)
    | .navigate frame url kind =>
        u32.write 1 ++ (frameId.write frame ++ (navigateUrl.write url ++ navigationKind.write kind))
  read bytes := do
    let (variant, bytes) ← u32.read bytes
    match variant.toNat with
    | 0 =>
        let (parent, bytes) ← frameId.read bytes
        let (elementOrdinal, bytes) ← u32.read bytes
        some (.createChildFrame parent elementOrdinal, bytes)
    | 1 =>
        let (frame, bytes) ← frameId.read bytes
        let (url, bytes) ← navigateUrl.read bytes
        let (kind, bytes) ← navigationKind.read bytes
        some (.navigate frame url kind, bytes)
    | _ => none
  read_write m rest := by cases m <;> simp [List.append_assoc]

/-- The broker's reply. -/
inductive FrameResponse where
  | denied
  | created (frame : FrameId)
  | navigationAuthorised
  deriving DecidableEq

def frameResponse : Codec FrameResponse where
  write
    | .denied => u32.write 0
    | .created frame => u32.write 1 ++ frameId.write frame
    | .navigationAuthorised => u32.write 2
  read bytes := do
    let (variant, bytes) ← u32.read bytes
    match variant.toNat with
    | 0 => some (.denied, bytes)
    | 1 =>
        let (frame, bytes) ← frameId.read bytes
        some (.created frame, bytes)
    | 2 => some (.navigationAuthorised, bytes)
    | _ => none
  read_write m rest := by cases m <;> simp [List.append_assoc]

/-- Broker to content process, unsolicited. -/
inductive FrameEvent where
  | frameReplaced (frame : FrameId)
  | frameCrashed (frame : FrameId)
  | setViewport (frame : FrameId) (width height : UInt16)
  deriving DecidableEq

def frameEvent : Codec FrameEvent where
  write
    | .frameReplaced frame => u32.write 0 ++ frameId.write frame
    | .frameCrashed frame => u32.write 1 ++ frameId.write frame
    | .setViewport frame width height =>
        u32.write 2 ++ (frameId.write frame ++ (u16.write width ++ u16.write height))
  read bytes := do
    let (variant, bytes) ← u32.read bytes
    match variant.toNat with
    | 0 =>
        let (frame, bytes) ← frameId.read bytes
        some (.frameReplaced frame, bytes)
    | 1 =>
        let (frame, bytes) ← frameId.read bytes
        some (.frameCrashed frame, bytes)
    | 2 =>
        let (frame, bytes) ← frameId.read bytes
        let (width, bytes) ← u16.read bytes
        let (height, bytes) ← u16.read bytes
        some (.setViewport frame width height, bytes)
    | _ => none
  read_write m rest := by cases m <;> simp [List.append_assoc]

/-! ## Directions -/

/-- The vocabularies. -/
inductive Vocabulary where
  | request
  | response
  | gpuRequest
  | gpuResponse
  | scriptRequest
  | scriptResponse
  | frameRequest
  | frameResponse
  | frameEvent
  deriving DecidableEq

namespace Vocabulary

/-- The messages of a vocabulary. -/
abbrev Msg : Vocabulary → Type
  | request => Request
  | response => Response
  | gpuRequest => GpuRequest
  | gpuResponse => GpuResponse
  | scriptRequest => ScriptRequest
  | scriptResponse => ScriptResponse
  | frameRequest => FrameRequest
  | frameResponse => FrameResponse
  | frameEvent => FrameEvent

/-- `Message::TAG`. -/
def tag : Vocabulary → UInt8
  | request => 0xA1
  | response => 0xA2
  | gpuRequest => 0xA3
  | gpuResponse => 0xA4
  | scriptRequest => 0xB1
  | scriptResponse => 0xB2
  | frameRequest => 0xC1
  | frameResponse => 0xC2
  | frameEvent => 0xC3

/-- The wire format of a vocabulary. -/
def codec : (v : Vocabulary) → Codec v.Msg
  | request => Ipc.request
  | response => Ipc.response
  | gpuRequest => Ipc.gpuRequest
  | gpuResponse => Ipc.gpuResponse
  | scriptRequest => Ipc.scriptRequest
  | scriptResponse => Ipc.scriptResponse
  | frameRequest => Ipc.frameRequest
  | frameResponse => Ipc.frameResponse
  | frameEvent => Ipc.frameEvent

/-- No two directions have one tag. -/
theorem tag_injective : Function.Injective tag := by
  intro v w h
  cases v <;> cases w <;> first
    | rfl
    | exact absurd h (by decide)

end Vocabulary

end Pelorus.Ipc
