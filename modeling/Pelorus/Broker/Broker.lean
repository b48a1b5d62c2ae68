import Pelorus.Broker.FrameTree
import Pelorus.Lib.Runs

/-
  Broker/Broker.lean --- the capability broker (`px-broker/src/lib.rs`).

  An OPERATION of a run is a call of one of the broker's public functions, with any
  channel and frame handles as arguments.  The resolver of registrable domains is an
  argument of the call that uses it.
-/
set_option autoImplicit false
set_option linter.dupNamespace false

namespace Pelorus.Broker

open Lib Websec Ipc

/-- Denials retained for inspection. -/
def AUDIT_CAPACITY : Nat := 256

/-- Why the broker refused, for the audit log. -/
inductive DenyReason where
  | notYourFrame
  | noSuchFrame
  | unknownChannel
  | tooDeep
  | frameLimit
  | notAncestor
  | noProcessKey
  | badUrl
  | internal
  deriving DecidableEq, Repr

/-- The result of moving a frame between processes. -/
structure Transfer where
  replaced : Option (ChannelId × FrameEvent)
  target : ChannelId
  deriving DecidableEq

/-- What committing a document in a frame requires of the process pool. -/
inductive CommitPlan where
  | inPlace
  | transferred (transfer : Transfer)
  | needsProcess (key : ProcessKey)
  | atCap
  deriving DecidableEq

/-- What goes on the wire, and what goes to the audit log. -/
structure Decision where
  response : Response
  audit : Option DenyReason

def Decision.allow (response : Response) : Decision := ⟨response, none⟩

def Decision.deny (reason : DenyReason) : Decision := ⟨.denied, some reason⟩

/-- What a channel is permitted to do. -/
structure ChannelCaps where
  hosts : Finset FrameId
  visible : Finset FrameId

structure Broker where
  nextChannel : UInt64
  capabilities : Map ChannelId ChannelCaps
  frames : FrameTree
  pool : ProcessPool
  audit : List (ChannelId × DenyReason)

namespace ChannelCaps

/-- `ChannelCaps::default`. -/
def empty : ChannelCaps := ⟨∅, ∅⟩

/-- Host a frame, and see it. -/
def host (frame : FrameId) (caps : ChannelCaps) : ChannelCaps :=
  ⟨insert frame caps.hosts, insert frame caps.visible⟩

/-- See a frame. -/
def see (frame : FrameId) (caps : ChannelCaps) : ChannelCaps :=
  { caps with visible := insert frame caps.visible }

/-- Lose a frame, and with `blind` the sight of it. -/
def lose (frame : FrameId) (blind : Bool) (caps : ChannelCaps) : ChannelCaps :=
  ⟨caps.hosts.erase frame, if blind then caps.visible.erase frame else caps.visible⟩

/-- Keep the frames that pass. -/
def purge (hosted seen : FrameId → Bool) (caps : ChannelCaps) : ChannelCaps :=
  ⟨caps.hosts.filter fun f => hosted f, caps.visible.filter fun f => seen f⟩

end ChannelCaps

namespace Broker

def new : Broker := ⟨0, ∅, .empty, .empty, []⟩

def isOpen (b : Broker) (channel : ChannelId) : Bool := (b.capabilities.lookup channel).isSome

/-- Change the capabilities of a channel, if it is open. -/
def withCaps (b : Broker) (channel : ChannelId) (f : ChannelCaps → ChannelCaps) : Broker :=
  match b.capabilities.lookup channel with
  | some caps => { b with capabilities := b.capabilities.insert channel (f caps) }
  | none => b

/-! ## Channels -/

def openChannel (b : Broker) : Broker × Option ChannelId :=
  match succU64 b.nextChannel with
  | none => (b, none)
  | some next =>
      ({ b with nextChannel := next,
                capabilities := b.capabilities.insert ⟨b.nextChannel⟩ .empty },
       some ⟨b.nextChannel⟩)

def purgeDeadFrames (b : Broker) : Broker :=
  let purged := b.capabilities.refine fun channel caps =>
    some (caps.purge (fun f => b.frames.owner f = some channel) fun f => b.frames.exists? f)
  { b with capabilities := purged }

def closeChannel (b : Broker) (channel : ChannelId) : Broker :=
  purgeDeadFrames
    { b with capabilities := b.capabilities.erase channel,
             frames := b.frames.releaseAll channel,
             pool := b.pool.forget channel }

def channelDied (b : Broker) (channel : ChannelId) : Broker × List (ChannelId × FrameEvent) :=
  let crashed := b.frames.crashChannel channel
  (purgeDeadFrames
    { b with capabilities := b.capabilities.erase channel,
             frames := crashed.1,
             pool := b.pool.forget channel },
   crashed.2.map fun notice => (notice.1, .frameCrashed notice.2))

/-! ## Authority -/

def canSee (b : Broker) (channel : ChannelId) (frame : FrameId) : Bool :=
  (b.frames.owner frame).isSome &&
    (b.capabilities.lookup channel).any fun caps => frame ∈ caps.visible

def holdsFrame (b : Broker) (channel : ChannelId) (frame : FrameId) : Bool :=
  b.frames.owner frame = some channel &&
    (b.capabilities.lookup channel).any fun caps => frame ∈ caps.hosts

def grantVisibility (b : Broker) (viewer : ChannelId) (frame : FrameId) : Broker × Bool :=
  if (b.frames.owner frame).isNone then (b, false)
  else (b.withCaps viewer (.see frame), b.isOpen viewer)

/-! ## Making frames -/

def createFrame (b : Broker) (channel : ChannelId) : Broker × Option FrameId :=
  if b.isOpen channel then
    match b.frames.create channel with
    | (frames, none) => ({ b with frames }, none)
    | (frames, some frame) => ({ b with frames }.withCaps channel (.host frame), some frame)
  else (b, none)

/-- Why the tree's refusal of a child is a refusal of the broker. -/
def denyTree : TreeError → DenyReason
  | .tooDeep => .tooDeep
  | .tooManyChildren => .frameLimit
  | .ordinalTaken => .frameLimit
  | .noParent => .noSuchFrame
  | .full => .internal

def createChildFrame (b : Broker) (channel : ChannelId) (parent : FrameId) (ordinal : UInt32) :
    Broker × Except DenyReason FrameId :=
  if !b.isOpen channel then (b, .error .unknownChannel)
  else if !b.holdsFrame channel parent then
    (b, .error (if (b.frames.owner parent).isNone then .noSuchFrame else .notYourFrame))
  else
    match b.frames.createChild channel parent ordinal with
    | (frames, .error e) => ({ b with frames }, .error (denyTree e))
    | (frames, .ok frame) => ({ b with frames }.withCaps channel (.host frame), .ok frame)

/-! ## Moving frames between processes -/

def transferFrame (b : Broker) (frame : FrameId) (target : ChannelId) :
    Broker × Except DenyReason Transfer :=
  match b.frames.owner frame with
  | none => (b, .error .noSuchFrame)
  | some source =>
      if source = target then (b, .ok ⟨none, target⟩)
      else if !b.isOpen target then (b, .error .unknownChannel)
      else
        let parentOwner := (b.frames.parent frame).bind b.frames.owner
        match b.frames.transfer frame source target with
        | (frames, false) => ({ b with frames }, .error .internal)
        | (frames, true) =>
            let b := { b with frames }.withCaps source (.lose frame (parentOwner ≠ some source))
            let b := b.withCaps target (.host frame)
            let b := match parentOwner with
              | some owner => b.withCaps owner (.see frame)
              | none => b
            (b, .ok ⟨some (source, .frameReplaced frame), target⟩)

/-- The plan of a commit that found a process for its key. -/
def planTransfer : Broker × Except DenyReason Transfer → Broker × Except DenyReason CommitPlan
  | (b, .ok transfer) => (b, .ok (.transferred transfer))
  | (b, .error reason) => (b, .error reason)

def planOtherProcess (b : Broker) (frame : FrameId) (group : GroupId) (key : ProcessKey) :
    Broker × Except DenyReason CommitPlan :=
  match b.pool.lookup group key with
  | .share target => planTransfer (b.transferFrame frame target)
  | .spawn => (b, .ok (.needsProcess key))
  | .atCap => (b, .ok .atCap)

def commitDocument (b : Broker) (frame : FrameId) (origin : Origin) (resolver : SiteResolver) :
    Broker × Except DenyReason CommitPlan :=
  match b.frames.owner frame with
  | none => (b, .error .noSuchFrame)
  | some current =>
      match b.frames.commitOrigin frame origin with
      | (frames, false) => ({ b with frames }, .error .noSuchFrame)
      | (frames, true) =>
          let b := { b with frames }
          match b.frames.processKey frame resolver with
          | none => (b, .error .noProcessKey)
          | some key =>
              match b.frames.group frame with
              | none => (b, .error .noSuchFrame)
              | some group =>
                  match b.pool.keyOf current with
                  | some served =>
                      if served = (group, key) then (b, .ok .inPlace)
                      else b.planOtherProcess frame group key
                  | none =>
                      match b.pool.lookup group key with
                      | .share target => planTransfer (b.transferFrame frame target)
                      | _ =>
                          match b.pool.register group key current with
                          | .ok pool => ({ b with pool }, .ok .inPlace)
                          | .error _ => (b, .error .frameLimit)

def attachProcess (b : Broker) (frame : FrameId) (key : ProcessKey) (process : ChannelId) :
    Broker × Except DenyReason Transfer :=
  match b.frames.group frame with
  | none => (b, .error .noSuchFrame)
  | some group =>
      if !b.isOpen process then (b, .error .unknownChannel)
      else
        match b.pool.register group key process with
        | .error _ => (b, .error .frameLimit)
        | .ok pool => { b with pool }.transferFrame frame process

/-! ## Messages -/

/-- The loop of `authorise_navigation`: up to `n` steps towards the top-level frame. -/
def holdsAncestor (b : Broker) (channel : ChannelId) : Nat → FrameId → Bool
  | 0, _ => false
  | n + 1, frame =>
      match b.frames.parent frame with
      | some p => if b.holdsFrame channel p then true else holdsAncestor b channel n p
      | none => false

def authoriseNavigation (b : Broker) (channel : ChannelId) (frame : FrameId) (url : Text) :
    Except DenyReason Unit :=
  if !b.isOpen channel then .error .unknownChannel
  else if b.frames.state frame ≠ some .live then .error .noSuchFrame
  else if !(b.holdsFrame channel frame || b.holdsAncestor channel (MAX_FRAME_DEPTH + 1) frame) then
    .error (if (b.frames.owner frame).isNone then .noSuchFrame else .notAncestor)
  else if (Url.parse url).isNone then .error .badUrl
  else .ok ()

def recordReason (b : Broker) (channel : ChannelId) (reason : DenyReason) : Broker :=
  { b with audit :=
      (if AUDIT_CAPACITY ≤ b.audit.length then b.audit.drop 1 else b.audit) ++ [(channel, reason)] }

/-- The answer of `dispatch_frame` to an outcome. -/
def answer (channel : ChannelId) :
    Broker × Except DenyReason FrameResponse → Broker × FrameResponse × Option DenyReason
  | (b, .ok response) => (b, response, none)
  | (b, .error reason) => (b.recordReason channel reason, .denied, some reason)

def dispatchFrame (b : Broker) (channel : ChannelId) (request : FrameRequest) :
    Broker × FrameResponse × Option DenyReason :=
  match request with
  | .createChildFrame parent ordinal =>
      let made := b.createChildFrame channel parent ordinal
      answer channel (made.1, made.2.map .created)
  | .navigate frame url _ =>
      answer channel
        (b, (b.authoriseNavigation channel frame url.text).map fun _ => .navigationAuthorised)

def dispatch (b : Broker) (channel : ChannelId) (request : Request) : Decision :=
  if !b.isOpen channel then .deny .unknownChannel
  else
    match request with
    | .ping => .allow .pong
    | .echo payload => .allow (.echo payload)
    | .frameHost frame =>
        if !b.canSee channel frame then
          .deny (if (b.frames.owner frame).isNone then .noSuchFrame else .notYourFrame)
        else if b.holdsFrame channel frame then .allow (.frameHost .local)
        else .allow (.frameHost .remote)

/-! ## Runs -/

/-- A call of a function of the broker. -/
inductive Op where
  | openChannel
  | closeChannel (channel : ChannelId)
  | channelDied (channel : ChannelId)
  | createFrame (channel : ChannelId)
  | createChildFrame (channel : ChannelId) (parent : FrameId) (ordinal : UInt32)
  | commitDocument (frame : FrameId) (origin : Origin) (resolver : SiteResolver)
  | attachProcess (frame : FrameId) (key : ProcessKey) (process : ChannelId)
  | grantVisibility (viewer : ChannelId) (frame : FrameId)
  | dispatch (channel : ChannelId) (request : Request)
  | dispatchFrame (channel : ChannelId) (request : FrameRequest)

/-- The broker after a call. -/
def step (b : Broker) : Op → Broker
  | .openChannel => b.openChannel.1
  | .closeChannel channel => b.closeChannel channel
  | .channelDied channel => (b.channelDied channel).1
  | .createFrame channel => (b.createFrame channel).1
  | .createChildFrame channel parent ordinal => (b.createChildFrame channel parent ordinal).1
  | .commitDocument frame origin resolver => (b.commitDocument frame origin resolver).1
  | .attachProcess frame key process => (b.attachProcess frame key process).1
  | .grantVisibility viewer frame => (b.grantVisibility viewer frame).1
  | .dispatch _ _ => b
  | .dispatchFrame channel request => (b.dispatchFrame channel request).1

/-- The broker after a run. -/
def run (ops : List Op) : Broker := runFrom step new ops

end Broker

end Pelorus.Broker
