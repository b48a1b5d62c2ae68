import Pelorus.Broker.Broker
import Pelorus.Broker.Tree

/-
  Broker/Change.lean --- what a call can do to the broker, and what every call keeps.

  A call ends a channel, or it is a sequence of CHANGES (`step_changes`): each is one of
  seven, with the guards under which the code makes it.  An invariant of the broker is
  proved for the seven and for the two ends of a channel.
-/
set_option autoImplicit false
set_option linter.dupNamespace false

namespace Pelorus.Broker.Broker

open Websec Ipc
open Relation (ReflTransGen)

variable {b b' : Broker} {c d : ChannelId} {f g : FrameId}

/-! ## Capabilities -/

section

variable (k : ChannelCaps → ChannelCaps)

include k

@[simp] theorem frames_withCaps : (b.withCaps c k).frames = b.frames := by
  unfold withCaps
  split <;> rfl

@[simp] theorem pool_withCaps : (b.withCaps c k).pool = b.pool := by
  unfold withCaps
  split <;> rfl

@[simp] theorem nextChannel_withCaps : (b.withCaps c k).nextChannel = b.nextChannel := by
  unfold withCaps
  split <;> rfl

@[simp] theorem audit_withCaps : (b.withCaps c k).audit = b.audit := by
  unfold withCaps
  split <;> rfl

theorem caps_withCaps :
    (b.withCaps c k).capabilities.lookup d =
      (b.capabilities.lookup d).map fun caps => if d = c then k caps else caps := by
  unfold withCaps
  split
  · rename_i caps hcaps
    by_cases hd : d = c
    · subst hd
      have hinsert : (b.capabilities.insert d (k caps)).lookup d = some (k caps) :=
        AList.lookup_insert _
      show (b.capabilities.insert d (k caps)).lookup d = _
      rw [hinsert, hcaps]
      simp
    · have hinsert : (b.capabilities.insert c (k caps)).lookup d = b.capabilities.lookup d :=
        AList.lookup_insert_ne hd
      show (b.capabilities.insert c (k caps)).lookup d = _
      rw [hinsert]
      simp [hd]
  · rename_i hnone
    by_cases hd : d = c
    · rw [hd, hnone]
      rfl
    · simp [hd]

end

theorem isOpen_iff : b.isOpen c ↔ ∃ caps, b.capabilities.lookup c = some caps :=
  Option.isSome_iff_exists

/-- The capabilities of a channel after the frame moved. -/
def movedCaps (f : FrameId) (source target : ChannelId) (parentOwner : Option ChannelId)
    (c : ChannelId) (caps : ChannelCaps) : ChannelCaps :=
  let caps := if c = source then caps.lose f (parentOwner ≠ some source) else caps
  let caps := if c = target then caps.host f else caps
  if parentOwner = some c then caps.see f else caps

/-- Nothing changed but the log and the retirement of slots. -/
structure Rests (b b' : Broker) : Prop where
  frames : FrameTree.Retired b.frames b'.frames
  full : b'.frames = b.frames ∨ 2 ^ 32 ≤ b.frames.slots.length
  capabilities : b'.capabilities = b.capabilities
  pool : b'.pool = b.pool
  nextChannel : b'.nextChannel = b.nextChannel

theorem Rests.refl (b : Broker) : Rests b b := ⟨FrameTree.retired_refl _, .inl rfl, rfl, rfl, rfl⟩

/-- The frame moved between two channels. -/
structure Moves (b : Broker) (f : FrameId) (source target : ChannelId) (b' : Broker) : Prop where
  owner : b.frames.owner f = some source
  distinct : source ≠ target
  isOpen : b.isOpen target
  frames : b'.frames = b.frames.modify f fun s => { s with owner := some target }
  caps : ∀ c, b'.capabilities.lookup c = (b.capabilities.lookup c).map
    (movedCaps f source target ((b.frames.parent f).bind b.frames.owner) c)
  pool : b'.pool = b.pool
  nextChannel : b'.nextChannel = b.nextChannel

/-- One change of a broker that leaves the frames there are, the pool and what is seen. -/
inductive Still (b : Broker) : Broker → Prop where
  | rests (b' : Broker) (h : Rests b b') : Still b b'
  | opened (next : UInt64) (h : succU64 b.nextChannel = some next) :
      Still b { b with nextChannel := next,
                       capabilities := b.capabilities.insert ⟨b.nextChannel⟩ .empty }
  | made (c : ChannelId) (frames : FrameTree) (f : FrameId) (hopen : b.isOpen c)
      (h : FrameTree.Makes b.frames c frames (some f)) :
      Still b ({ b with frames }.withCaps c (.host f))

/-- One change of a broker. -/
inductive Change (b : Broker) : Broker → Prop where
  | still (b' : Broker) (h : Still b b') : Change b b'
  | committed (f : FrameId) (origin : Origin) (s : FrameSlot) (hs : b.frames.at? f = some s)
      (hlive : s.lifecycle = .live) :
      Change b { b with frames := b.frames.modify f fun s => { s with origin := some origin } }
  | registered (group : GroupId) (key : ProcessKey) (c : ChannelId) (pool : ProcessPool)
      (hopen : b.isOpen c) (h : b.pool.register group key c = .ok pool) :
      Change b { b with pool }
  | moved (f : FrameId) (source target : ChannelId) (b' : Broker) (h : Moves b f source target b') :
      Change b b'
  | saw (viewer : ChannelId) (f : FrameId) (howner : (b.frames.owner f).isSome) :
      Change b (b.withCaps viewer (.see f))

theorem Change.of_still (h : ReflTransGen Still b b') : ReflTransGen Change b b' :=
  ReflTransGen.mono (fun _ _ h => .still _ h) _ _ h

/-! ## The functions as changes -/

/-- What `transfer_frame` did. -/
inductive Transfers (b : Broker) (f : FrameId) (target : ChannelId) :
    Broker × Except DenyReason Transfer → Prop where
  | refused (reason : DenyReason) : Transfers b f target (b, .error reason)
  | already (h : b.frames.owner f = some target) : Transfers b f target (b, .ok ⟨none, target⟩)
  | moved (source : ChannelId) (b' : Broker) (h : Moves b f source target b') :
      Transfers b f target (b', .ok ⟨some (source, .frameReplaced f), target⟩)

theorem transferFrame_spec (b : Broker) (f : FrameId) (target : ChannelId) :
    Transfers b f target (b.transferFrame f target) := by
  unfold transferFrame
  split
  · exact .refused _
  · rename_i source howner
    split
    · rename_i heq
      exact .already (howner.trans (congrArg some heq))
    · rename_i hne
      split
      · exact .refused _
      · rename_i hopen
        have htransfer : b.frames.transfer f source target = (b.frames, false) ∨
            b.frames.transfer f source target =
              (b.frames.modify f fun s => { s with owner := some target }, true) := by
          unfold FrameTree.transfer
          split
          · exact .inl rfl
          · split
            · exact .inr rfl
            · exact .inl rfl
        rcases htransfer with hno | hyes
        · simp only [hno]
          exact .refused _
        · simp only [hyes]
          refine .moved source _ ⟨howner, hne, by simpa using hopen, ?_, fun c => ?_, ?_, ?_⟩
          · cases (b.frames.parent f).bind b.frames.owner <;> simp
          · cases (b.frames.parent f).bind b.frames.owner with
            | none =>
                simp only [caps_withCaps, Option.map_map]
                congr 1
            | some o =>
                simp only [caps_withCaps, Option.map_map]
                congr 1
                funext caps
                simp [movedCaps, eq_comm]
          · cases (b.frames.parent f).bind b.frames.owner <;> simp
          · cases (b.frames.parent f).bind b.frames.owner <;> simp

theorem transferFrame_changes (b : Broker) (f : FrameId) (target : ChannelId) :
    ReflTransGen Change b (b.transferFrame f target).1 := by
  have h := transferFrame_spec b f target
  generalize b.transferFrame f target = result at h
  cases h with
  | refused => exact .refl
  | already => exact .refl
  | moved source b' h => exact .single (.moved f source target b' h)

theorem createChildFrame_still (b : Broker) (c : ChannelId) (parent : FrameId) (ordinal : UInt32) :
    ReflTransGen Still b (b.createChildFrame c parent ordinal).1 := by
  unfold createChildFrame
  split
  · exact .refl
  · rename_i hopen
    split
    · exact .refl
    · have hmakes := FrameTree.createChild_spec b.frames c parent ordinal
      generalize b.frames.createChild c parent ordinal = result at hmakes
      obtain ⟨frames, e | f⟩ := result
      · cases hmakes with
        | nothing _ h hfull => exact .single (.rests _ ⟨h, hfull, rfl, rfl, rfl⟩)
      · exact .single (.made c frames f (by simpa using hopen) hmakes)

theorem createFrame_still (b : Broker) (c : ChannelId) : ReflTransGen Still b (b.createFrame c).1 := by
  unfold createFrame
  split
  · rename_i hopen
    have hmakes := FrameTree.create_spec b.frames c
    generalize b.frames.create c = result at hmakes
    obtain ⟨frames, none | f⟩ := result
    · cases hmakes with
      | nothing _ h hfull => exact .single (.rests _ ⟨h, hfull, rfl, rfl, rfl⟩)
    · exact .single (.made c frames f hopen hmakes)
  · exact .refl

theorem attachProcess_changes (b : Broker) (f : FrameId) (key : ProcessKey) (c : ChannelId) :
    ReflTransGen Change b (b.attachProcess f key c).1 := by
  unfold attachProcess
  split
  · exact .refl
  · split
    · exact .refl
    · rename_i hopen
      split
      · exact .refl
      · rename_i pool hreg
        exact .head (.registered _ _ _ _ (by simpa using hopen) hreg) (transferFrame_changes _ f c)

@[simp] theorem planTransfer_fst (r : Broker × Except DenyReason Transfer) : (planTransfer r).1 = r.1 := by
  obtain ⟨b, e | t⟩ := r <;> rfl

@[simp] theorem answer_frames (c : ChannelId) (r : Broker × Except DenyReason FrameResponse) :
    (answer c r).1 = { r.1 with audit := (answer c r).1.audit } := by
  obtain ⟨b, e | t⟩ := r <;> rfl

theorem planOtherProcess_changes (b : Broker) (f : FrameId) (group : GroupId) (key : ProcessKey) :
    ReflTransGen Change b (b.planOtherProcess f group key).1 := by
  unfold planOtherProcess
  split
  · rw [planTransfer_fst]
    exact transferFrame_changes b f _
  · exact .refl
  · exact .refl

/-- A frame whose owner is known may commit. -/
theorem commitOrigin_eq (t : FrameTree) (f : FrameId) (origin : Origin) :
    t.commitOrigin f origin = (t, false) ∨ ∃ s, t.at? f = some s ∧ s.lifecycle = .live ∧
      t.commitOrigin f origin = (t.modify f fun s => { s with origin := some origin }, true) := by
  unfold FrameTree.commitOrigin
  split
  · exact .inl rfl
  · rename_i s hs
    split
    · rename_i hlive
      exact .inr ⟨s, hs, hlive, rfl⟩
    · exact .inl rfl

theorem commitDocument_changes (howner : ∀ f c, b.frames.owner f = some c → b.isOpen c) (f : FrameId)
    (origin : Origin) (resolver : SiteResolver) :
    ReflTransGen Change b (b.commitDocument f origin resolver).1 := by
  unfold commitDocument
  split
  · exact .refl
  · rename_i current hcurrent
    obtain hno | ⟨s, hs, hlive, hyes⟩ := commitOrigin_eq b.frames f origin
    · simp only [hno]
      exact .refl
    · simp only [hyes]
      refine .head (.committed f origin s hs hlive) ?_
      split
      · exact .refl
      · split
        · exact .refl
        · split
          · split
            · exact .refl
            · exact planOtherProcess_changes _ f _ _
          · split
            · rw [planTransfer_fst]
              exact transferFrame_changes _ f _
            · split
              · rename_i hreg
                exact .single (.registered _ _ current _ (howner f current hcurrent) hreg)
              · exact .refl

theorem Rests.audited {log : List (ChannelId × DenyReason)} : Rests b { b with audit := log } :=
  ⟨FrameTree.retired_refl _, .inl rfl, rfl, rfl, rfl⟩

theorem openChannel_still (b : Broker) : ReflTransGen Still b b.openChannel.1 := by
  unfold openChannel
  cases hnext : succU64 b.nextChannel with
  | none => exact .refl
  | some next => exact .single (.opened next hnext)

theorem dispatchFrame_still (b : Broker) (c : ChannelId) (request : FrameRequest) :
    ReflTransGen Still b (b.dispatchFrame c request).1 := by
  cases request with
  | createChildFrame parent ordinal =>
      show ReflTransGen Still b (answer c _).1
      rw [answer_frames]
      exact .tail (createChildFrame_still b c parent ordinal) (.rests _ .audited)
  | navigate f url kind =>
      show ReflTransGen Still b (answer c _).1
      rw [answer_frames]
      exact .single (.rests _ .audited)

/-- The call ends no channel, and commits, moves and shows no frame. -/
def Quiet : Op → Prop
  | .closeChannel _ => False
  | .channelDied _ => False
  | .commitDocument _ _ _ => False
  | .attachProcess _ _ _ => False
  | .grantVisibility _ _ => False
  | _ => True

/-- What a call did. -/
inductive StepCases (b : Broker) : Op → Prop where
  | closes (c : ChannelId) : StepCases b (.closeChannel c)
  | dies (c : ChannelId) : StepCases b (.channelDied c)
  | commits (f : FrameId) (origin : Origin) (resolver : SiteResolver)
      (h : ReflTransGen Change b (b.commitDocument f origin resolver).1) :
      StepCases b (.commitDocument f origin resolver)
  | attaches (f : FrameId) (key : ProcessKey) (c : ChannelId)
      (h : ReflTransGen Change b (b.attachProcess f key c).1) : StepCases b (.attachProcess f key c)
  | grants (viewer : ChannelId) (f : FrameId)
      (h : (b.frames.owner f = none ∧ (b.grantVisibility viewer f) = (b, false)) ∨
        ((b.frames.owner f).isSome ∧
          b.grantVisibility viewer f = (b.withCaps viewer (.see f), b.isOpen viewer))) :
      StepCases b (.grantVisibility viewer f)
  | rest (op : Op) (hop : Quiet op) (h : ReflTransGen Still b (b.step op)) : StepCases b op

/-- What a call can do. -/
theorem step_cases (howner : ∀ f c, b.frames.owner f = some c → b.isOpen c) (op : Op) : StepCases b op := by
  cases op with
  | closeChannel c => exact .closes c
  | channelDied c => exact .dies c
  | commitDocument f origin resolver =>
      exact .commits f origin resolver (commitDocument_changes howner f origin resolver)
  | attachProcess f key c => exact .attaches f key c (attachProcess_changes b f key c)
  | grantVisibility viewer f =>
      refine .grants viewer f ?_
      unfold grantVisibility
      cases b.frames.owner f with
      | none => exact .inl ⟨rfl, rfl⟩
      | some o => exact .inr ⟨rfl, rfl⟩
  | openChannel => exact .rest _ trivial (openChannel_still b)
  | createFrame c => exact .rest _ trivial (createFrame_still b c)
  | createChildFrame c parent ordinal =>
      exact .rest _ trivial (createChildFrame_still b c parent ordinal)
  | dispatch c request => exact .rest _ trivial .refl
  | dispatchFrame c request => exact .rest _ trivial (dispatchFrame_still b c request)

/-- A call ends a channel, or it is a sequence of changes. -/
theorem step_changes (howner : ∀ f c, b.frames.owner f = some c → b.isOpen c) (op : Op) :
    (∃ c, op = .closeChannel c ∨ op = .channelDied c) ∨
      (∀ c, op ≠ .closeChannel c ∧ op ≠ .channelDied c) ∧ ReflTransGen Change b (b.step op) := by
  cases step_cases howner op with
  | closes c => exact .inl ⟨c, .inl rfl⟩
  | dies c => exact .inl ⟨c, .inr rfl⟩
  | commits f origin resolver h => exact .inr ⟨by simp, h⟩
  | attaches f key c h => exact .inr ⟨by simp, h⟩
  | grants viewer f h =>
      refine .inr ⟨by simp, ?_⟩
      show ReflTransGen Change b (b.grantVisibility viewer f).1
      obtain ⟨-, h⟩ | ⟨howner, h⟩ := h
      · rw [h]
      · rw [h]
        exact .single (.saw viewer f howner)
  | rest _ hop h =>
      refine .inr ⟨fun c => ⟨?_, ?_⟩, Change.of_still h⟩
      · rintro rfl
        exact hop
      · rintro rfl
        exact hop

end Pelorus.Broker.Broker
