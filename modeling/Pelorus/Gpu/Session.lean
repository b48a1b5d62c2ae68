import Pelorus.Gpu.Wire
import Pelorus.Ipc.Framing

/-
  Gpu/Session.lean --- how a font crosses (`px-ipc/src/gpu_fonts.rs`), and parsed fonts by id
  (`px-gpu/src/fonts.rs`).

  A font is announced with its length and follows in chunks; the receiver knows from the length
  where each chunk starts and how long it is.
-/
set_option autoImplicit false

namespace Pelorus.Gpu

open Lib Ipc

/-- Largest single font. -/
def MAX_FONT_BYTES : Nat := 16 * 1024 * 1024

/-- Most fonts one process holds over its life. -/
def MAX_FONTS : Nat := 64

/-- Most font bytes one process holds in total. -/
def MAX_TOTAL_FONT_BYTES : Nat := 64 * 1024 * 1024

namespace FontAssembler

end FontAssembler

/-- One chunk of a font: nothing if it does not fit a message. -/
def chunkRequest (font : UInt32) (i : Nat) (chunk : Bytes) : Option GpuRequest :=
  if 2 ^ 32 ≤ i * MAX_FONT_CHUNK_BYTES then none
  else if h : chunk.length ≤ MAX_FONT_CHUNK_BYTES then
    some (.fontChunk font (UInt32.ofNat (i * MAX_FONT_CHUNK_BYTES)) ⟨chunk, h⟩)
  else none

/-- The requests that carry a font, unless it is empty or too long. -/
def fontRequests (font : UInt32) (bytes : Bytes) : Option (List GpuRequest) :=
  if bytes.length = 0 ∨ MAX_FONT_BYTES < bytes.length then none
  else
    some (.fontBegin font (UInt32.ofNat bytes.length) ::
      (pieces MAX_FONT_CHUNK_BYTES bytes).zipIdx.filterMap fun (chunk, i) => chunkRequest font i chunk)

/-- Parsed fonts by display-list id. -/
structure FontSet (Font : Type) where
  fonts : List (UInt32 × Font)

namespace FontSet

variable {Font : Type}

def new : FontSet Font := ⟨[]⟩

def get (set : FontSet Font) (id : UInt32) : Option Font := set.fonts.lookup id

def contains (set : FontSet Font) (id : UInt32) : Bool := (set.get id).isSome

/-- Parse and hold, replacing nothing; `none` for a font that is refused. -/
def insert (parse : Bytes → Option Font) (set : FontSet Font) (id : UInt32) (bytes : Bytes) :
    Option (FontSet Font) :=
  if set.contains id then none
  else (parse bytes).map fun font => ⟨set.fonts ++ [(id, font)]⟩

end FontSet

end Pelorus.Gpu

/-! # The supervisor that owns the GPU process (`px-gpu/src/session.rs`)

THE PROCESS is whatever it wants to be.  All that the session sees of it is what arrives, or
does not arrive, when it looks, and whether there is room to write: two lists that are given
with every attempt to start a process.  A `silence` is one look that finds nothing in time, the
end of either list a closed channel.  Time is part of what is given: a deadline has passed when
the lists say so.

The results of a frame carry everything that the process in use was ever written. -/

namespace Pelorus.Gpu

open Lib Ipc Paint

/-! ## What the process does -/

/-- What the session finds when it looks at the inbound queue. -/
inductive Arrival where
  | message (m : Except IpcError GpuResponse)
  | silence

/-- What the session finds when it wants to write. -/
inductive Room where
  | accepted
  /-- The queue is full; the deadline may have passed by then. -/
  | full (late : Bool)
  | gone

/-- One mechanism of confinement (`px_sandbox::Rung`). -/
inductive Rung where
  | noNewPrivs
  | seccomp
  | landlock
  | userNamespaces
  | restrictedToken
  | jobObject
  | lowIntegrity
  | memoryCap
  deriving DecidableEq

/-- What comes of an attempt to start a process. -/
structure Spawn where
  refused : Option String
  stdout : Bool
  stdin : Bool
  inbound : List Arrival
  outbound : List Room
  verified : Except String (List Rung)

/-- Why a GPU process was given up on. -/
inductive Cause where
  | spawnRefused (why : String)
  | startupTimedOut
  | notConfined (why : String)
  | exited
  | timedOut
  | malformed
  | oversized
  | protocol (why : String)
  | reported (why : GpuFailure)
  | writeFailed
  deriving DecidableEq

def fromIpc : IpcError → Cause
  | .peerClosed => .exited
  | .messageTooLarge _ => .oversized
  | .malformed | .poisoned | .io => .malformed

/-- A process, as the session holds it; `queued` is what its writer was given since the start. -/
structure GpuProcess where
  sent : List UInt32
  applied : List Rung
  reportedLandlockAbi : UInt32
  inbound : List Arrival
  outbound : List Room
  queued : List GpuRequest

/-- A process in the middle of an exchange, and the fonts that were sent in it. -/
structure Talk extends GpuProcess where
  fresh : List UInt32

abbrev TalkM (α : Type) : Type := EStateM Cause Talk α

/-- Wait for a message. -/
def recvFrom : List Arrival → Except Cause GpuResponse × List Arrival
  | [] => (.error .exited, [])
  | .silence :: rest => (.error .timedOut, rest)
  | .message (.ok m) :: rest => (.ok m, rest)
  | .message (.error e) :: rest => (.error (fromIpc e), rest)

/-- Look for a message. -/
def tryRecvFrom : List Arrival → Option (Except IpcError GpuResponse) × List Arrival
  | [] => (none, [])
  | .silence :: rest => (none, rest)
  | .message m :: rest => (some m, rest)

/-- The write half is gone: the process may have said why. -/
def afterClose (inbound : List Arrival) : Cause × List Arrival :=
  match recvFrom inbound with
  | (.ok (.failed why), rest) => (.reported why, rest)
  | (_, rest) => (.writeFailed, rest)

/-- Write one frame as soon as there is room, looking for an early answer while there is none. -/
def offer : List Room → List Arrival → Except Cause Unit × List Room × List Arrival
  | [], inbound => (.error (afterClose inbound).1, [], (afterClose inbound).2)
  | .gone :: room, inbound => (.error (afterClose inbound).1, room, (afterClose inbound).2)
  | .accepted :: room, inbound => (.ok (), room, inbound)
  | .full late :: room, inbound =>
      match tryRecvFrom inbound with
      | (some (.ok (.failed why)), rest) => (.error (.reported why), room, rest)
      | (some (.ok _), rest) => (.error (.protocol "unsolicited message"), room, rest)
      | (some (.error e), rest) => (.error (fromIpc e), room, rest)
      | (none, rest) => if late then (.error .timedOut, room, rest) else offer room rest

/-! ## One exchange -/

def recv : TalkM GpuResponse := fun t =>
  match recvFrom t.inbound with
  | (.ok m, rest) => .ok m { t with inbound := rest }
  | (.error cause, rest) => .error cause { t with inbound := rest }

def send (request : GpuRequest) : TalkM PUnit := fun t =>
  match encodeFrame .gpuRequest request with
  | .error _ => .error (.protocol "a request could not be framed") t
  | .ok _ =>
      match offer t.outbound t.inbound with
      | (.ok (), room, rest) =>
          .ok ⟨⟩ { t with outbound := room, inbound := rest, queued := t.queued ++ [request] }
      | (.error cause, room, rest) => .error cause { t with outbound := room, inbound := rest }

/-- What has to hold for the exchange to go on. -/
def ensure (ok : Bool) (why : String) : TalkM PUnit :=
  if ok then pure ⟨⟩ else throw (.protocol why)

/-- A font the session will send to any process that needs it. -/
structure RegisteredFont where
  id : UInt32
  bytes : Bytes

/-- What an exchange needs besides the fonts. -/
structure FrameRequest where
  serial : UInt32
  list : DisplayList
  width : UInt32
  height : UInt32

/-- The distinct fonts a list's glyph runs name, in first-use order. -/
def fontsNeeded (list : DisplayList) : List UInt32 :=
  list.items.foldl
    (fun needed item => match item with
      | .glyphRun font _ _ _ _ => if font.val ∈ needed then needed else needed ++ [font.val]
      | _ => needed) []

def sendFont (registry : List RegisteredFont) (id : UInt32) : TalkM PUnit := do
  let t ← EStateM.get
  if id ∈ t.sent then pure ⟨⟩
  else
    match registry.find? (fun font => font.id = id) with
    | none => throw (.protocol "a run names an unregistered font")
    | some font =>
        match fontRequests id font.bytes with
        | none => throw (.protocol "a font could not be chunked")
        | some requests => do
            requests.forM send
            modify fun t => { t with sent := t.sent ++ [id], fresh := t.fresh ++ [id] }

def sendGlyphs (glyphs : List PositionedGlyph) : TalkM PUnit :=
  let wireGlyphs := glyphs.map glyphToWire
  if h : wireGlyphs.length ≤ MAX_GLYPHS_PER_MESSAGE then send (.glyphs ⟨wireGlyphs, h⟩)
  else throw (.protocol "a chunk exceeded its bound")

def sendItems (items : List Item) : TalkM PUnit :=
  let wireItems := items.map itemToWire
  if h : wireItems.length ≤ MAX_ITEMS_PER_MESSAGE then send (.items ⟨wireItems, h⟩)
  else throw (.protocol "a chunk exceeded its bound")

/-- Strips until the frame is complete. -/
def stripsFromQueue : FrameAssembler → List Arrival → Except Cause FrameAssembler × List Arrival
  | a, [] => if a.expected.isNone then (.ok a, []) else (.error .exited, [])
  | a, arrival :: rest =>
      if a.expected.isNone then (.ok a, arrival :: rest)
      else
        match arrival with
        | .silence => (.error .timedOut, rest)
        | .message (.error e) => (.error (fromIpc e), rest)
        | .message (.ok (.strip firstRow rows pixels)) =>
            match a.push firstRow rows pixels.items with
            | .error _ => (.error (.protocol "a strip is not the next valid strip"), rest)
            | .ok a => stripsFromQueue a rest
        | .message (.ok (.failed why)) => (.error (.reported why), rest)
        | .message (.ok _) => (.error (.protocol "expected a strip"), rest)

def receiveStrips (a : FrameAssembler) : TalkM FrameAssembler := fun t =>
  match stripsFromQueue a t.inbound with
  | (.ok a, rest) => .ok a { t with inbound := rest }
  | (.error cause, rest) => .error cause { t with inbound := rest }

/-- Nothing may be waiting after the last strip. -/
def expectQuiet : TalkM PUnit := fun t =>
  match tryRecvFrom t.inbound with
  | (some _, rest) => .error (.protocol "more was sent than was asked for") { t with inbound := rest }
  | (none, rest) => .ok ⟨⟩ { t with inbound := rest }

def expectHeader (serial width height : UInt32) : TalkM PUnit := do
  match ← recv with
  | .frameHeader echoed w h => do
      ensure (echoed = serial) "the header answers a different request"
      ensure ((w, h) = (width, height)) "the header is for a different size"
  | .failed why => throw (.reported why)
  | _ => throw (.protocol "expected a frame header")

def receiveFrame (serial width height : UInt32) : TalkM Canvas := do
  expectHeader serial width height
  match FrameAssembler.new width height with
  | .error _ => throw (.protocol "the frame is not a size the protocol carries")
  | .ok assembler => do
      let assembler ← receiveStrips assembler
      expectQuiet
      match assembler.finish with
      | .error _ => throw (.protocol "the frame is incomplete")
      | .ok canvas => pure canvas

/-- Send the fonts that the process lacks. -/
def sendFonts (registry : List RegisteredFont) (list : DisplayList) : TalkM PUnit :=
  (fontsNeeded list).forM (sendFont registry)

/-- Send a list: its size, its glyphs, its items, and that it is to be drawn. -/
def sendFrame (frame : FrameRequest) : TalkM PUnit := do
  send (.begin frame.serial frame.width frame.height (UInt32.ofNat frame.list.items.length)
    (UInt32.ofNat frame.list.glyphs.length))
  (pieces MAX_GLYPHS_PER_MESSAGE frame.list.glyphs).forM sendGlyphs
  (pieces MAX_ITEMS_PER_MESSAGE frame.list.items).forM sendItems
  send .draw

/-- One whole exchange: send the list, receive and reassemble the frame. -/
def exchange (registry : List RegisteredFont) (frame : FrameRequest) : TalkM Canvas := do
  ensure (frame.list.items.length < 2 ^ 32) "too many items"
  ensure (frame.list.glyphs.length < 2 ^ 32) "too many glyphs"
  sendFonts registry frame.list
  sendFrame frame
  receiveFrame frame.serial frame.width frame.height

/-- Create the process, wait for it to say it is ready, and ask the kernel whether it is confined. -/
def GpuProcess.start (spawn : Spawn) : Except Cause GpuProcess :=
  match spawn.refused with
  | some error => .error (.spawnRefused error)
  | none =>
      if !spawn.stdout then .error (.spawnRefused "no stdout pipe")
      else if !spawn.stdin then .error (.spawnRefused "no stdin pipe")
      else
        match recvFrom spawn.inbound with
        | (.error .timedOut, _) => .error .startupTimedOut
        | (.error cause, _) => .error cause
        | (.ok (.ready landlockAbi), rest) =>
            match spawn.verified with
            | .error error => .error (.notConfined error)
            | .ok applied => .ok ⟨[], applied, landlockAbi, rest, spawn.outbound, []⟩
        | (.ok _, _) => .error (.protocol "the first message was not Ready")

/-! ## The session -/

/-- How a session is set up. -/
structure GpuConfig where
  executable : Option String
  maxRestarts : UInt32

/-- Which renderer produced a frame. -/
inductive Backend where
  | gpu
  | software
  deriving DecidableEq

/-- What the session did, for the log. -/
inductive GpuEvent where
  | disabled
  | started (applied : List Rung) (reportedLandlockAbi : UInt32)
  | failed (cause : Cause)
  | gaveUp (restarts : UInt32)
  deriving DecidableEq

/-- Why a font was not registered. -/
inductive FontRegisterError where
  | badLength
  | duplicate
  | overCap
  deriving DecidableEq

/-- Why a backend produced no frame. -/
inductive RenderError where
  | input (error : RasterError)
  | backend (why : String)
  deriving DecidableEq

/-- What the session uses to draw on its own: a parser of fonts and the software rasterizer. -/
structure Software (Font : Type) where
  parse : Bytes → Option Font
  rasterize : DisplayList → UInt32 → UInt32 → FontSet Font → Except RenderError Canvas

/-- Events kept; the oldest are dropped. -/
def EVENT_LOG_CAP : Nat := 64

structure GpuSession (Font : Type) where
  config : GpuConfig
  process : Option GpuProcess
  registry : List RegisteredFont
  registryBytes : Nat
  local_ : FontSet Font
  rejected : List UInt32
  failures : UInt32
  spawned : UInt32
  givenUp : Bool
  serial : UInt32
  last : Backend
  events : List GpuEvent

/-- `u32::saturating_add(1)`. -/
def saturatingSucc (n : UInt32) : UInt32 := if n = UInt32.ofNat (2 ^ 32 - 1) then n else n + 1

/-- What a frame came to: the session after it, the result, and what the process that was used had
been written since it started. -/
structure Frame (Font : Type) where
  session : GpuSession Font
  result : Except RenderError Canvas
  queued : List GpuRequest

namespace GpuSession

variable {Font : Type}

def record (s : GpuSession Font) (event : GpuEvent) : GpuSession Font :=
  { s with events := (if EVENT_LOG_CAP ≤ s.events.length then s.events.drop 1 else s.events) ++ [event] }

/-- A session.  Spawns nothing. -/
def new (config : GpuConfig) : GpuSession Font :=
  let session : GpuSession Font :=
    ⟨config, none, [], 0, FontSet.new, [], 0, 0, config.executable.isNone, 0, .software, []⟩
  if session.givenUp then session.record .disabled else session

/-- Replacement processes created so far. -/
def restarts (s : GpuSession Font) : UInt32 := if s.spawned = 0 then 0 else s.spawned - 1

/-- Drop the process, record why, and give up for good if the bound is spent. -/
def fail (s : GpuSession Font) (cause : Cause) : GpuSession Font :=
  let s := { s with process := none }.record (.failed cause)
  let s := { s with failures := saturatingSucc s.failures }
  if s.failures > s.config.maxRestarts then
    { s with givenUp := true }.record (.gaveUp s.restarts)
  else s

def ensureProcess (s : GpuSession Font) (spawn : Spawn) : GpuSession Font :=
  if s.process.isSome ∨ s.givenUp then s
  else
    match s.config.executable with
    | none => s
    | some _ =>
        let s := { s with spawned := saturatingSucc s.spawned }
        match GpuProcess.start spawn with
        | .ok process =>
            { s.record (.started process.applied process.reportedLandlockAbi) with process := some process }
        | .error cause => s.fail cause

/-- Whether an attempt to start a process is made. -/
def starts (s : GpuSession Font) : Bool :=
  s.process.isNone && !s.givenUp && s.config.executable.isSome

/-- Register a font under an id. -/
def registerFont (software : Software Font) (s : GpuSession Font) (id : UInt32) (bytes : Bytes) :
    Except FontRegisterError (GpuSession Font) :=
  if bytes.length = 0 ∨ MAX_FONT_BYTES < bytes.length then .error .badLength
  else if s.registry.any (fun font => font.id = id) then .error .duplicate
  else if MAX_FONTS ≤ s.registry.length ∨ MAX_TOTAL_FONT_BYTES < s.registryBytes + bytes.length then
    .error .overCap
  else
    .ok { s with
      registryBytes := s.registryBytes + bytes.length
      local_ := (s.local_.insert software.parse id bytes).getD s.local_
      registry := s.registry ++ [⟨id, bytes⟩] }

/-- How deep clips nest, for the input's own bound. -/
def depthOk (items : List Item) : Bool :=
  (items.foldlM
    (fun depth item =>
      let depth := match item with
        | .pushClip _ | .pushRoundedClip _ => depth + 1
        | .popClip => depth - 1
        | _ => depth
      if MAX_CLIP_DEPTH < depth then none else some depth) 0).isSome

/-- Most display items one frame may declare. -/
def MAX_DISPLAY_ITEMS : Nat := 2 ^ 18

/-- Most glyphs one frame's arena may declare. -/
def MAX_DISPLAY_GLYPHS : Nat := 2 ^ 18

/-- Whether this input is one the GPU path can carry. -/
def gpuCanTake (s : GpuSession Font) (list : DisplayList) (width height : UInt32) : Bool :=
  if s.givenUp || !viewportOk width height then false
  else if MAX_DISPLAY_ITEMS < list.items.length || !list.clipsBalanced then false
  else if MAX_DISPLAY_GLYPHS < list.glyphs.length || list.validate != .ok () then false
  else if !(fontsNeeded list).all (fun id =>
      !s.rejected.contains id && s.registry.any fun font => font.id = id) then false
  else depthOk list.items

/-- What the frame is when the session draws it on its own. -/
def inSoftware (software : Software Font) (s : GpuSession Font) (list : DisplayList) (width height : UInt32)
    (queued : List GpuRequest) : Frame Font :=
  let s := { s with last := .software }
  ⟨s, software.rasterize list width height s.local_, queued⟩

/-- The process said a font did not parse: the fonts of this frame are the suspects, and none is sent
again.  In any case the process is lost. -/
def lose (s : GpuSession Font) (cause : Cause) (fresh : List UInt32) : GpuSession Font :=
  (if cause = .reported .badFont then { s with rejected := s.rejected ++ fresh } else s).fail cause

/-- Render with the process that is held. -/
def renderWith (software : Software Font) (s : GpuSession Font) (process : GpuProcess) (list : DisplayList)
    (width height : UInt32) : Frame Font :=
  match exchange s.registry ⟨s.serial, list, width, height⟩ ⟨process, []⟩ with
  | .ok canvas t => ⟨{ s with process := some t.toGpuProcess, last := .gpu }, .ok canvas, t.queued⟩
  | .error cause t => (s.lose cause t.fresh).inSoftware software list width height t.queued

/-- Render a list: in the GPU process if there is a healthy one, and otherwise in software. -/
def render (software : Software Font) (s : GpuSession Font) (spawn : Spawn) (list : DisplayList)
    (width height : UInt32) : Frame Font :=
  if s.gpuCanTake list width height then
    let s := s.ensureProcess spawn
    let s := { s with serial := s.serial + 1 }
    match s.process with
    | none => s.inSoftware software list width height []
    | some process => s.renderWith software process list width height
  else s.inSoftware software list width height []

end GpuSession

end Pelorus.Gpu
