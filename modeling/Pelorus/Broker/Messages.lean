import Pelorus.Broker.Handles

/-
  Broker/Messages.lean --- what a message can get its sender (`dispatch` and
  `dispatch_frame`).

  A reply other than `Denied` needs an open channel and a frame within its reach.  A
  request that is refused leaves everything but the audit log and the retirement of slots;
  one that is granted adds one new frame to the sets of the sender, or nothing.
-/
set_option autoImplicit false
set_option linter.dupNamespace false

namespace Pelorus.Broker.Broker

open Lib Websec Ipc

variable {b b' : Broker} {c d : ChannelId} {f g : FrameId}

/-! ## Reach -/

/-- The channel hosts the frame or one that it is embedded in, at any depth. -/
def Reaches (b : Broker) (c : ChannelId) (f : FrameId) : Prop :=
  ∃ p, b.holdsFrame c p ∧ Relation.ReflTransGen (fun q g => b.frames.parent g = some q) p f

theorem Reaches.of_ancestor : ∀ {n : Nat} {f : FrameId}, b.holdsAncestor c n f → b.Reaches c f
  | 0, f, h => by cases h
  | n + 1, f, h => by
      unfold holdsAncestor at h
      split at h
      · rename_i p hp
        split at h
        · rename_i hholds
          exact ⟨p, hholds, .single hp⟩
        · obtain ⟨q, hholds, hpath⟩ := Reaches.of_ancestor h
          exact ⟨q, hholds, hpath.tail hp⟩
      · cases h

/-- What a request of the base vocabulary needs. -/
def Allows (b : Broker) (c : ChannelId) : Request → Prop
  | .ping => b.isOpen c
  | .echo _ => b.isOpen c
  | .frameHost f => b.isOpen c ∧ b.canSee c f

/-- What a request of the frame vocabulary needs. -/
def AllowsFrame (b : Broker) (c : ChannelId) : FrameRequest → Prop
  | .createChildFrame parent _ => b.isOpen c ∧ b.holdsFrame c parent
  | .navigate f _ _ => b.isOpen c ∧ b.Reaches c f

theorem allows_of_dispatch {request : Request} (h : (b.dispatch c request).response ≠ .denied) :
    b.Allows c request := by
  unfold dispatch at h
  split at h
  · exact absurd rfl h
  · rename_i hopen
    have hopen : b.isOpen c := by simpa using hopen
    cases request with
    | ping => exact hopen
    | echo payload => exact hopen
    | frameHost f =>
        refine ⟨hopen, ?_⟩
        by_contra hsee
        simp only [Bool.not_eq_true] at hsee
        simp [hsee, Decision.deny] at h

theorem allows_of_navigate {url : Text} (h : b.authoriseNavigation c f url = .ok ()) :
    b.isOpen c ∧ b.Reaches c f := by
  unfold authoriseNavigation at h
  split at h
  · cases h
  · rename_i hopen
    split at h
    · cases h
    · split at h
      · cases h
      · rename_i hholds
        refine ⟨by simpa using hopen, ?_⟩
        simp only [Bool.not_eq_true, Bool.not_eq_false', Bool.or_eq_true] at hholds
        rcases hholds with hself | hancestor
        · exact ⟨f, hself, .refl⟩
        · exact .of_ancestor hancestor

/-! ## Making a child -/

/-- What `create_child_frame` did. -/
inductive CreatesChild (b : Broker) (c : ChannelId) (parent : FrameId) :
    Broker × Except DenyReason FrameId → Prop where
  | refused (reason : DenyReason) (b' : Broker) (h : Rests b b') (hlog : b'.audit = b.audit) :
      CreatesChild b c parent (b', .error reason)
  | created (f : FrameId) (frames : FrameTree) (hopen : b.isOpen c) (hholds : b.holdsFrame c parent)
      (h : FrameTree.Makes b.frames c frames (some f)) :
      CreatesChild b c parent ({ b with frames }.withCaps c (.host f), .ok f)

theorem createChildFrame_spec (b : Broker) (c : ChannelId) (parent : FrameId) (ordinal : UInt32) :
    CreatesChild b c parent (b.createChildFrame c parent ordinal) := by
  unfold createChildFrame
  split
  · exact .refused _ _ (.refl b) rfl
  · rename_i hopen
    split
    · exact .refused _ _ (.refl b) rfl
    · rename_i hholds
      have hmakes := FrameTree.createChild_spec b.frames c parent ordinal
      generalize b.frames.createChild c parent ordinal = result at hmakes
      obtain ⟨frames, e | f⟩ := result
      · cases hmakes with
        | nothing _ h hfull => exact .refused _ _ ⟨h, hfull, rfl, rfl, rfl⟩ rfl
      · exact .created f frames (by simpa using hopen) (by simpa using hholds) hmakes

/-- What a message did to everything but its sender's sets and the log. -/
structure Harmless (b b' : Broker) (c : ChannelId) : Prop where
  others : ∀ d, d ≠ c → b'.capabilities.lookup d = b.capabilities.lookup d
  frames : ∀ g s, b.frames.at? g = some s → b'.frames.at? g = some s
  pool : b'.pool = b.pool
  nextChannel : b'.nextChannel = b.nextChannel

/-- What a message did to its sender's sets: nothing, or one frame was added to them. -/
def Gains (b b' : Broker) (c : ChannelId) (f : Option FrameId) : Prop :=
  b'.capabilities.lookup c = (b.capabilities.lookup c).map fun caps =>
    match f with
    | none => caps
    | some f => ⟨insert f caps.hosts, insert f caps.visible⟩

/-- The frame that a reply hands to the sender. -/
def handed : FrameResponse → Option FrameId
  | .created f => some f
  | _ => none

theorem harmless_refl (b : Broker) (c : ChannelId) : Harmless b b c :=
  ⟨fun _ _ => rfl, fun _ _ h => h, rfl, rfl⟩

theorem gains_none (h : b'.capabilities = b.capabilities) : Gains b b' c none := by
  unfold Gains
  rw [h]
  exact Option.map_id'.symm

theorem Harmless.rests (h : Rests b b') : Harmless b b' c where
  others d _ := by rw [h.capabilities]
  frames g s hs := by rw [h.frames.at?, hs]
  pool := h.pool
  nextChannel := h.nextChannel

theorem harmless_created {frames : FrameTree} (h : FrameTree.Makes b.frames c frames (some f)) :
    Harmless b ({ b with frames }.withCaps c (.host f)) c where
  others d hd := by
    rw [caps_withCaps]
    simp [hd]
  frames g s hs := by
    rw [frames_withCaps]
    exact (Wf.born h).kept g s hs
  pool := pool_withCaps _
  nextChannel := nextChannel_withCaps _

theorem gains_created {frames : FrameTree} :
    Gains b ({ b with frames }.withCaps c (.host f)) c (some f) := by
  unfold Gains
  rw [caps_withCaps]
  simp [ChannelCaps.host]

/-- What `dispatch_frame` did. -/
structure Answers (b : Broker) (c : ChannelId) (request : FrameRequest)
    (result : Broker × FrameResponse × Option DenyReason) : Prop where
  allowed : result.2.1 ≠ .denied → b.AllowsFrame c request
  refused : result.2.1 = .denied → Rests b result.1 ∧
    ∃ reason, result.2.2 = some reason ∧ result.1.audit = (b.recordReason c reason).audit
  granted : result.2.1 ≠ .denied → result.1.audit = b.audit
  harmless : Harmless b result.1 c
  gains : Gains b result.1 c (handed result.2.1)

theorem Rests.recordReason (h : Rests b b') (reason : DenyReason) : Rests b (b'.recordReason c reason) :=
  ⟨h.frames, h.full, h.capabilities, h.pool, h.nextChannel⟩

/-- A refusal: the log has one more entry, and slots may be retired. -/
theorem Answers.refuse {request : FrameRequest} (h : Rests b b') (hlog : b'.audit = b.audit)
    (reason : DenyReason) : Answers b c request (b'.recordReason c reason, .denied, some reason) where
  allowed h := absurd rfl h
  refused _ := ⟨h.recordReason reason, reason, rfl, by
    unfold Broker.recordReason
    rw [hlog]⟩
  granted h := absurd rfl h
  harmless := .rests (h.recordReason reason)
  gains := gains_none h.capabilities

theorem dispatchFrame_spec (b : Broker) (c : ChannelId) (request : FrameRequest) :
    Answers b c request (b.dispatchFrame c request) := by
  cases request with
  | createChildFrame parent ordinal =>
      have hspec := createChildFrame_spec b c parent ordinal
      show Answers b c _ (answer c ((b.createChildFrame c parent ordinal).1,
        (b.createChildFrame c parent ordinal).2.map .created))
      generalize b.createChildFrame c parent ordinal = result at hspec
      cases hspec with
      | refused reason b' h hlog => exact .refuse h hlog reason
      | created f frames hopen hholds h =>
          refine ⟨fun _ => ⟨hopen, hholds⟩, fun hdenied => ?_, fun _ => ?_, ?_, ?_⟩
          · cases hdenied
          · exact audit_withCaps _
          · exact harmless_created h
          · exact gains_created
  | navigate f url kind =>
      show Answers b c _ (answer c (b, (b.authoriseNavigation c f url.text).map fun _ =>
        FrameResponse.navigationAuthorised))
      cases hallowed : b.authoriseNavigation c f url.text with
      | error reason => exact .refuse (.refl b) rfl reason
      | ok u =>
          refine ⟨fun _ => allows_of_navigate hallowed, fun hdenied => ?_, fun _ => rfl, ?_, ?_⟩
          · cases hdenied
          · exact harmless_refl b c
          · exact gains_none rfl

/-- The frame was in no channel's sets. -/
def Unseen (b : Broker) (f : FrameId) : Prop :=
  ∀ d caps, b.capabilities.lookup d = some caps → f ∉ caps.hosts ∧ f ∉ caps.visible

theorem Wf.unseen (hw : b.Wf) (h : b.frames.exists? f = false) : b.Unseen f := by
  intro d caps hcaps
  have hvisible : f ∉ caps.visible := fun hmem => by
    have hsome := hw.visible_exists d caps hcaps f hmem
    rw [← FrameTree.exists?_eq, h] at hsome
    cases hsome
  exact ⟨fun hmem => hvisible (hw.hosts_visible d caps hcaps hmem), hvisible⟩

/-- Messages confer no authority: in every state that is reached, and for every channel and
every message. -/
theorem messages_confer_nothing (ops : List Op) (c : ChannelId) :
    (∀ request, (run ops).step (.dispatch c request) = run ops ∧
      (((run ops).dispatch c request).response ≠ .denied → (run ops).Allows c request)) ∧
    ∀ request, Answers (run ops) c request ((run ops).dispatchFrame c request) ∧
      ∀ f, ((run ops).dispatchFrame c request).2.1 = .created f →
        ∀ pre post, ops = pre ++ post → (run pre).Unseen f := by
  refine ⟨fun request => ⟨rfl, allows_of_dispatch⟩, fun request => ⟨dispatchFrame_spec _ c request, ?_⟩⟩
  rintro f hcreated pre post rfl
  exact (wf_run pre).unseen ((unused pre post).created c request f hcreated)

/-- A change opens no channel but the next. -/
theorem isOpen_change (h : Change b b') (hlt : c.value.toNat < b.nextChannel.toNat) (hopen : b'.isOpen c) :
    b.isOpen c := by
  cases h with
  | still _ h =>
      cases h with
      | rests _ h => rwa [isOpen, h.capabilities] at hopen
      | opened next h =>
          have hne : c ≠ ⟨b.nextChannel⟩ := by
            rintro rfl
            exact absurd hlt (Nat.lt_irrefl _)
          rwa [isOpen, AList.lookup_insert_ne hne] at hopen
      | made => rwa [isOpen_withCaps] at hopen
  | committed => exact hopen
  | registered => exact hopen
  | moved _ _ _ _ h => rwa [h.isOpen'] at hopen
  | saw => rwa [isOpen_withCaps] at hopen

theorem isOpen_step (hw : b.Wf) (op : Op) (hlt : c.value.toNat < b.nextChannel.toNat)
    (hopen : (b.step op).isOpen c) : b.isOpen c := by
  obtain ⟨d, rfl | rfl⟩ | ⟨-, h⟩ := step_changes hw.owner_open op
  · exact (isOpen_afterEnd.mp hopen).2
  · exact (isOpen_afterEnd.mp hopen).2
  · generalize b.step op = b' at h hopen
    induction h with
    | refl => exact hopen
    | tail hbefore h ih => exact ih (isOpen_change h (Nat.lt_of_lt_of_le hlt (later_changes hw hbefore).2) hopen)

/-- A channel that has been closed is answered nothing, whatever is called after. -/
theorem closed_for_good (pre mid post : List Op) (hbefore : (run pre).isOpen c)
    (hclosed : (run (pre ++ mid)).isOpen c = false) :
    (∀ request, ((run (pre ++ mid ++ post)).dispatch c request).response = .denied) ∧
      ∀ request, ((run (pre ++ mid ++ post)).dispatchFrame c request).2.1 = .denied := by
  have hshut : (run (pre ++ mid ++ post)).isOpen c = false := by
    induction post using List.reverseRecOn with
    | nil => rwa [List.append_nil]
    | append_singleton post op ih =>
        by_contra hopen
        rw [← List.append_assoc, run_snoc] at hopen
        have hlater := (later_run (wf_run pre) (mid ++ post)).2
        rw [← run_append, ← List.append_assoc] at hlater
        have hlt := Nat.lt_of_lt_of_le ((wf_run pre).channel_lt c hbefore) hlater
        rw [isOpen_step (wf_run _) op hlt (by simpa using hopen)] at ih
        cases ih
  refine ⟨fun request => ?_, fun request => ?_⟩
  · by_contra hanswered
    have hallows := allows_of_dispatch hanswered
    cases request <;> simp_all [Allows]
  · by_contra hanswered
    have hallows := (dispatchFrame_spec _ c request).allowed hanswered
    cases request <;> simp_all [AllowsFrame]

theorem closed_for_good_one : ((run ([.openChannel] ++ [.closeChannel ⟨0⟩] ++ [.openChannel])).dispatch ⟨0⟩ .ping).response = .denied :=
  (closed_for_good [.openChannel] [.closeChannel ⟨0⟩] [.openChannel] (by decide) (by decide)).1 .ping

/-! ## A full tree

A slot is reused until its generation is the last, while all other slots of the tree are
taken.  The next frame is refused, and retires the slot. -/

/-- A top-level frame of the first channel, in the slot's first generation. -/
def Parked (s : FrameSlot) : Prop :=
  s.generation = 0 ∧ s.owner = some ⟨0⟩ ∧ s.lifecycle = .live ∧ s.parent = none ∧ s.depth = 0

theorem Parked.lifecycle {s : FrameSlot} (h : Parked s) : s.lifecycle ≠ .free := by
  rw [h.2.2.1]
  exact Lifecycle.noConfusion

theorem reuse_taken (new : UInt32 → FrameSlot) : ∀ (slots : List FrameSlot) (k : Nat),
    (∀ s ∈ slots, s.lifecycle ≠ .free) → FrameTree.reuse new k slots = (slots, none)
  | [], _, _ => rfl
  | s :: slots, k, h => by
      unfold FrameTree.reuse
      rw [if_neg fun hfree => h s List.mem_cons_self hfree.1,
        reuse_taken new slots (k + 1) fun s hs => h s (List.mem_cons_of_mem _ hs)]

/-- One slot, and parked frames in all others. -/
structure Crowded (b : Broker) (first : FrameSlot) (rest : List FrameSlot) : Prop where
  slots : b.frames.slots = first :: rest
  parked : ∀ s ∈ rest, Parked s
  isOpen : b.isOpen ⟨0⟩

variable {first : FrameSlot} {rest : List FrameSlot}

theorem Crowded.park (h : b.Crowded first rest)
    (hfirst : first.lifecycle ≠ .free) (hlen : rest.length + 1 < 2 ^ 32)
    (hgroup : b.frames.nextGroup.toNat + 1 < 2 ^ 64) :
    ∃ s, (b.createFrame ⟨0⟩).1.Crowded first (rest ++ [s]) ∧
      (b.createFrame ⟨0⟩).1.frames.nextGroup.toNat = b.frames.nextGroup.toNat + 1 ∧
      (b.createFrame ⟨0⟩).1.nextChannel = b.nextChannel := by
  obtain ⟨next, hnext⟩ : ∃ next, succU64 b.frames.nextGroup = some next :=
    ⟨_, checkedSucc_eq_some.mpr ⟨hgroup, rfl⟩⟩
  have htaken : ∀ s ∈ b.frames.slots, s.lifecycle ≠ .free := by
    rw [h.slots]
    intro s hs
    rcases List.mem_cons.mp hs with rfl | hs
    · exact hfirst
    · exact (h.parked s hs).lifecycle
  have halloc : b.frames.alloc (FrameSlot.new ⟨0⟩ none 0 none ⟨b.frames.nextGroup⟩) =
      ({ b.frames with slots := first :: (rest ++ [FrameSlot.new ⟨0⟩ none 0 none ⟨b.frames.nextGroup⟩ 0]) },
        some ⟨UInt32.ofNat b.frames.slots.length, 0⟩) := by
    unfold FrameTree.alloc
    rw [reuse_taken _ _ _ htaken]
    simp only
    rw [if_pos (by rw [h.slots]; exact hlen), h.slots]
    rfl
  have hcreate : b.createFrame ⟨0⟩ =
      ({ b with frames := ⟨first :: (rest ++ [FrameSlot.new ⟨0⟩ none 0 none ⟨b.frames.nextGroup⟩ 0]), next⟩
        }.withCaps ⟨0⟩ (.host ⟨UInt32.ofNat b.frames.slots.length, 0⟩),
        some ⟨UInt32.ofNat b.frames.slots.length, 0⟩) := by
    unfold createFrame FrameTree.create
    rw [if_pos h.isOpen]
    simp only [hnext, halloc]
  rw [hcreate]
  refine ⟨_, ⟨by rw [frames_withCaps], fun s hs => ?_, ?_⟩, ?_, nextChannel_withCaps _⟩
  · rcases List.mem_append.mp hs with hs | hs
    · exact h.parked s hs
    · rw [List.mem_singleton] at hs
      rw [hs]
      exact ⟨rfl, rfl, rfl, rfl, rfl⟩
  · rw [isOpen_withCaps]
    exact h.isOpen
  · rw [frames_withCaps]
    exact succU64_toNat hnext

theorem Crowded.close (h : b.Crowded first rest)
    (hlive : first.lifecycle = .live) (howner : first.owner = some c) (hparent : first.parent = none)
    (hc : c ≠ ⟨0⟩) : (b.closeChannel c).Crowded first.freed rest := by
  have hparents : ∀ (i : Nat) (s : FrameSlot), b.frames.slots[i]? = some s → s.parent = none := by
    intro i s hs
    rw [h.slots] at hs
    rcases List.mem_cons.mp (List.mem_of_getElem? hs) with rfl | hs
    · exact hparent
    · exact (h.parked s hs).2.2.2.1
  have hdescendants : ∀ i, i ∉ b.frames.descendants (b.frames.ownedBy c) := by
    intro i hi
    obtain ⟨q, ⟨s, hs, -, hbind⟩, -⟩ := (FrameTree.mem_descendants.mp hi).embeds
    rw [hparents i s hs] at hbind
    cases hbind
  have howned : ∀ i, i ∈ b.frames.ownedBy c ↔ i = 0 := by
    intro i
    rw [FrameTree.mem_ownedBy, h.slots]
    cases i with
    | zero => simp [hlive, howner]
    | succ i =>
        simp only [List.getElem?_cons_succ, Nat.add_eq_zero_iff, Nat.one_ne_zero, and_false, iff_false]
        rintro ⟨s, hs, -, hs'⟩
        rw [(h.parked s (List.mem_of_getElem? hs)).2.1] at hs'
        exact hc (Option.some.inj hs').symm
  refine ⟨?_, h.parked, ?_⟩
  · show b.frames.slots.mapIdx _ = _
    apply List.ext_getElem?
    intro i
    rw [List.getElem?_mapIdx, h.slots]
    cases i with
    | zero => simp [howned]
    | succ i =>
        simp only [List.getElem?_cons_succ]
        cases rest[i]? with
        | none => rfl
        | some s => simp [hdescendants, howned]
  · exact isOpen_afterEnd.mpr ⟨Ne.symm hc, h.isOpen⟩

theorem Crowded.open (h : b.Crowded first rest)
    (hnext : b.nextChannel.toNat + 1 < 2 ^ 64) :
    b.openChannel.1.Crowded first rest ∧ b.openChannel.1.isOpen ⟨b.nextChannel⟩ ∧
      b.openChannel.1.nextChannel.toNat = b.nextChannel.toNat + 1 ∧
      b.openChannel.1.frames = b.frames := by
  obtain ⟨next, hsucc⟩ : ∃ next, succU64 b.nextChannel = some next :=
    ⟨_, checkedSucc_eq_some.mpr ⟨hnext, rfl⟩⟩
  have hlookup : ∀ c, b.isOpen c ∨ c = ⟨b.nextChannel⟩ →
      ((b.capabilities.insert ⟨b.nextChannel⟩ ChannelCaps.empty).lookup c).isSome := by
    intro c hc
    by_cases heq : c = ⟨b.nextChannel⟩
    · rw [heq, AList.lookup_insert]
      rfl
    · rw [AList.lookup_insert_ne heq]
      exact hc.resolve_right heq
  unfold openChannel
  rw [hsucc]
  exact ⟨⟨h.slots, h.parked, hlookup _ (.inl h.isOpen)⟩, hlookup _ (.inr rfl), succU64_toNat hsucc, rfl⟩

theorem Crowded.reuse {first : FrameSlot} {rest : List FrameSlot} (h : b.Crowded first rest)
    (hfree : first.lifecycle = .free) (hretired : first.retired = false) {next : UInt32}
    (hnext : succU32 first.generation = some next) (hopen : b.isOpen c)
    (hgroup : b.frames.nextGroup.toNat + 1 < 2 ^ 64) :
    (b.createFrame c).1.Crowded (FrameSlot.new c none 0 none ⟨b.frames.nextGroup⟩ next) rest ∧
      (b.createFrame c).1.frames.nextGroup.toNat = b.frames.nextGroup.toNat + 1 ∧
      (b.createFrame c).1.nextChannel = b.nextChannel := by
  obtain ⟨group, hsucc⟩ : ∃ group, succU64 b.frames.nextGroup = some group :=
    ⟨_, checkedSucc_eq_some.mpr ⟨hgroup, rfl⟩⟩
  have halloc : b.frames.alloc (FrameSlot.new c none 0 none ⟨b.frames.nextGroup⟩) =
      ({ b.frames with slots := FrameSlot.new c none 0 none ⟨b.frames.nextGroup⟩ next :: rest },
        some ⟨0, next⟩) := by
    unfold FrameTree.alloc FrameTree.reuse
    rw [h.slots]
    simp only [hfree, hretired, hnext]
    rfl
  have hcreate : b.createFrame c =
      ({ b with frames := ⟨FrameSlot.new c none 0 none ⟨b.frames.nextGroup⟩ next :: rest, group⟩
        }.withCaps c (.host ⟨0, next⟩), some ⟨0, next⟩) := by
    unfold createFrame FrameTree.create
    rw [if_pos hopen]
    simp only [hsucc, halloc]
  rw [hcreate]
  refine ⟨⟨by rw [frames_withCaps], h.parked, ?_⟩, ?_, nextChannel_withCaps _⟩
  · rw [isOpen_withCaps]
    exact h.isOpen
  · rw [frames_withCaps]
    exact succU64_toNat hsucc

theorem Crowded.refuse {s : FrameSlot} (hw : b.Wf)
    (h : b.Crowded first (s :: rest)) (hfree : first.lifecycle = .free) (hretired : first.retired = false)
    (hspent : succU32 first.generation = none) (hlen : (s :: rest).length + 1 = 2 ^ 32) :
    (b.dispatchFrame ⟨0⟩ (.createChildFrame ⟨1, 0⟩ 0)).2.1 = .denied ∧
      (b.dispatchFrame ⟨0⟩ (.createChildFrame ⟨1, 0⟩ 0)).1.frames ≠ b.frames := by
  obtain ⟨hgen, howner, hlive, -, hdepth⟩ := h.parked s List.mem_cons_self
  have hat : b.frames.at? ⟨1, 0⟩ = some s := by
    refine FrameTree.at?_eq_some.mpr ⟨?_, hgen, (h.parked s List.mem_cons_self).lifecycle⟩
    rw [h.slots]
    rfl
  have hchildren : b.frames.children ⟨1, 0⟩ = [] := by
    unfold FrameTree.children
    rw [h.slots, List.filter_eq_nil_iff]
    intro s' hs'
    rcases List.mem_cons.mp hs' with rfl | hs'
    · simp [hfree]
    · simp [(h.parked s' hs').2.2.2.1]
  have halloc : ∀ new, b.frames.alloc new =
      ({ b.frames with slots := { first with retired := true } :: s :: rest }, none) := by
    intro new
    have hrest := reuse_taken new (s :: rest) 1 fun s' hs' => (h.parked s' hs').lifecycle
    have hreuse : FrameTree.reuse new 0 b.frames.slots =
        ({ first with retired := true } :: s :: rest, none) := by
      rw [h.slots]
      unfold FrameTree.reuse
      rw [if_pos ⟨hfree, hretired⟩]
      simp only [hspent, hrest]
    have hfull : ¬ ({ first with retired := true } :: s :: rest).length < 2 ^ 32 := by
      rw [List.length_cons, hlen]
      exact Nat.lt_irrefl _
    unfold FrameTree.alloc
    rw [hreuse]
    simp only
    rw [if_neg hfull]
  have hcreate : b.frames.createChild ⟨0⟩ ⟨1, 0⟩ 0 =
      ({ b.frames with slots := { first with retired := true } :: s :: rest }, .error .full) := by
    have hdepth' : succU8 s.depth = some 1 := by
      rw [hdepth]
      rfl
    unfold FrameTree.createChild
    simp only [hat, hlive, howner, hdepth', hchildren, halloc]
    rfl
  have hholds : b.holdsFrame ⟨0⟩ ⟨1, 0⟩ := by
    have hframe : b.frames.owner ⟨1, 0⟩ = some ⟨0⟩ := FrameTree.owner_eq_some.mpr ⟨s, hat, howner⟩
    obtain ⟨caps, hcaps⟩ := isOpen_iff.mp h.isOpen
    have hmem := (hw.hosts _ caps hcaps _).mpr hframe
    unfold holdsFrame
    rw [hframe, hcaps]
    simp [hmem]
  have hchild : b.createChildFrame ⟨0⟩ ⟨1, 0⟩ 0 =
      ({ b with frames := { b.frames with slots := { first with retired := true } :: s :: rest } },
        .error .internal) := by
    unfold createChildFrame
    rw [h.isOpen, hholds, hcreate]
    rfl
  have hdispatch : b.dispatchFrame ⟨0⟩ (.createChildFrame ⟨1, 0⟩ 0) =
      answer ⟨0⟩ ((b.createChildFrame ⟨0⟩ ⟨1, 0⟩ 0).1,
        (b.createChildFrame ⟨0⟩ ⟨1, 0⟩ 0).2.map .created) := rfl
  rw [hdispatch, hchild]
  refine ⟨rfl, fun hframes => ?_⟩
  have hslots := congrArg FrameTree.slots hframes
  rw [h.slots] at hslots
  have hfirst := congrArg FrameSlot.retired (List.cons.inj hslots).1
  rw [hretired] at hfirst
  cases hfirst

/-! The run that fills the tree, but for one slot that it reuses `n` times. -/

def filling (n : Nat) : List Op :=
  [.openChannel, .openChannel, .createFrame ⟨1⟩] ++ List.replicate n (.createFrame ⟨0⟩) ++
    [.closeChannel ⟨1⟩]

def cycle (k : Nat) : List Op :=
  [.openChannel, .createFrame ⟨UInt64.ofNat k⟩, .closeChannel ⟨UInt64.ofNat k⟩]

def cycling (n : Nat) : List Op := (List.range n).flatMap fun k => cycle (k + 2)

/-- After `n` frames were parked behind a first slot that is taken. -/
theorem crowded_parked : ∀ n, n < 2 ^ 32 → ∃ rest,
    (run ([.openChannel, .openChannel, .createFrame ⟨1⟩] ++
      List.replicate n (.createFrame ⟨0⟩))).Crowded (FrameSlot.new ⟨1⟩ none 0 none ⟨0⟩ 0) rest ∧
    rest.length = n ∧
    (run ([.openChannel, .openChannel, .createFrame ⟨1⟩] ++
      List.replicate n (.createFrame ⟨0⟩))).frames.nextGroup.toNat = n + 1 ∧
    (run ([.openChannel, .openChannel, .createFrame ⟨1⟩] ++
      List.replicate n (.createFrame ⟨0⟩))).nextChannel = 2
  | 0, _ => ⟨[], ⟨rfl, by simp, rfl⟩, rfl, rfl, rfl⟩
  | n + 1, hn => by
      obtain ⟨rest, hcrowded, hlen, hgroup, hnext⟩ := crowded_parked n (Nat.lt_of_succ_lt hn)
      obtain ⟨s, hcrowded', hgroup', hnext'⟩ := hcrowded.park Lifecycle.noConfusion (by omega)
        (by rw [hgroup]; omega)
      have hrun : run ([.openChannel, .openChannel, .createFrame ⟨1⟩] ++
          List.replicate (n + 1) (.createFrame ⟨0⟩)) =
          ((run ([.openChannel, .openChannel, .createFrame ⟨1⟩] ++
            List.replicate n (.createFrame ⟨0⟩))).createFrame ⟨0⟩).1 := by
        rw [List.replicate_succ', ← List.append_assoc]
        exact runFrom_snoc step new _ _
      rw [hrun]
      exact ⟨rest ++ [s], hcrowded', by simp [hlen], by rw [hgroup', hgroup], hnext'.trans hnext⟩

/-- The first slot is free in its generation `n`, and `m` frames are parked behind it. -/
structure Worn (b : Broker) (m n : Nat) : Prop where
  crowded : ∃ first rest, b.Crowded first rest ∧ first.lifecycle = .free ∧ first.retired = false ∧
    first.generation.toNat = n ∧ rest.length = m
  nextGroup : b.frames.nextGroup.toNat = m + 1 + n
  nextChannel : b.nextChannel.toNat = n + 2

theorem worn_filling {m : Nat} (hm : m < 2 ^ 32) : (run (filling m)).Worn m 0 := by
  obtain ⟨rest, hcrowded, hlen, hgroup, hnext⟩ := crowded_parked m hm
  have hrun : run (filling m) = (run ([.openChannel, .openChannel, .createFrame ⟨1⟩] ++
      List.replicate m (.createFrame ⟨0⟩))).closeChannel ⟨1⟩ := runFrom_snoc step new _ _
  have hclosed := hcrowded.close (c := ⟨1⟩) rfl rfl rfl (by decide)
  rw [hrun]
  refine ⟨⟨_, rest, hclosed, rfl, rfl, rfl, hlen⟩, hgroup, ?_⟩
  show (run _).nextChannel.toNat = 2
  rw [hnext]
  rfl

/-- One more reuse of the first slot. -/
theorem Worn.cycle {m n : Nat} (h : b.Worn m n) (hm : m < 2 ^ 32) (hn : n + 1 < 2 ^ 32) :
    (runFrom step b (cycle (n + 2))).Worn m (n + 1) := by
  obtain ⟨first, rest, hcrowded, hfree, hretired, hgen, hlen⟩ := h.crowded
  have hid : UInt64.ofNat (n + 2) = b.nextChannel := by
    rw [← h.nextChannel]
    exact UInt64.ofNat_toNat
  obtain ⟨next, hsucc⟩ : ∃ next, succU32 first.generation = some next :=
    ⟨_, checkedSucc_eq_some.mpr ⟨by rw [hgen]; exact hn, rfl⟩⟩
  obtain ⟨hopened, hisOpen, hchannel, hframes⟩ := hcrowded.open (by rw [h.nextChannel]; omega)
  obtain ⟨hreused, hgroup, hchannel'⟩ := hopened.reuse hfree hretired hsucc hisOpen
    (by rw [hframes, h.nextGroup]; omega)
  have hne : (⟨b.nextChannel⟩ : ChannelId) ≠ ⟨0⟩ := by
    intro heq
    have hzero := congrArg (fun c : ChannelId => c.value.toNat) heq
    have hzero : b.nextChannel.toNat = 0 := hzero
    rw [h.nextChannel] at hzero
    omega
  have hclosed := hreused.close (c := ⟨b.nextChannel⟩) rfl rfl rfl hne
  have hrun : runFrom step b (Broker.cycle (n + 2)) =
      ((b.openChannel.1.createFrame ⟨b.nextChannel⟩).1.closeChannel ⟨b.nextChannel⟩) := by
    unfold Broker.cycle
    rw [hid]
    rfl
  rw [hrun]
  refine ⟨⟨_, rest, hclosed, rfl, rfl, ?_, hlen⟩, ?_, ?_⟩
  · show next.toNat = n + 1
    rw [succU32_toNat hsucc, hgen]
  · show (b.openChannel.1.createFrame ⟨b.nextChannel⟩).1.frames.nextGroup.toNat = _
    rw [hgroup, hframes, h.nextGroup, Nat.add_assoc]
  · show (b.openChannel.1.createFrame ⟨b.nextChannel⟩).1.nextChannel.toNat = _
    rw [hchannel', hchannel, h.nextChannel]

theorem worn_cycling {m : Nat} (hm : m < 2 ^ 32) : ∀ n, n < 2 ^ 32 →
    (run (filling m ++ cycling n)).Worn m n
  | 0, _ => by
      show (run (filling m ++ [])).Worn m 0
      rw [List.append_nil]
      exact worn_filling hm
  | n + 1, hn => by
      have hrun : run (filling m ++ cycling (n + 1)) =
          runFrom step (run (filling m ++ cycling n)) (cycle (n + 2)) := by
        unfold cycling
        rw [List.range_succ, List.flatMap_append, List.flatMap_singleton, ← List.append_assoc,
          run_append]
      rw [hrun]
      exact (worn_cycling hm n (Nat.lt_of_succ_lt hn)).cycle hm hn

/-- A refusal that changes more than the audit log. -/
theorem denied_retires : ((run (filling (2 ^ 32 - 1) ++ cycling (2 ^ 32 - 1))).dispatchFrame ⟨0⟩
      (.createChildFrame ⟨1, 0⟩ 0)).2.1 = .denied ∧
    ((run (filling (2 ^ 32 - 1) ++ cycling (2 ^ 32 - 1))).dispatchFrame ⟨0⟩
      (.createChildFrame ⟨1, 0⟩ 0)).1.frames ≠
      (run (filling (2 ^ 32 - 1) ++ cycling (2 ^ 32 - 1))).frames := by
  have hworn := worn_cycling (m := 2 ^ 32 - 1) (by omega) (2 ^ 32 - 1) (by omega)
  have hw := wf_run (filling (2 ^ 32 - 1) ++ cycling (2 ^ 32 - 1))
  generalize run (filling (2 ^ 32 - 1) ++ cycling (2 ^ 32 - 1)) = b at hworn hw
  obtain ⟨first, rest, hcrowded, hfree, hretired, hgen, hlen⟩ := hworn.crowded
  have hspent : succU32 first.generation = none := by
    unfold succU32 checkedSucc
    rw [if_neg]
    rw [hgen]
    omega
  cases rest with
  | nil =>
      rw [List.length_nil] at hlen
      omega
  | cons s rest => exact hcrowded.refuse hw hfree hretired hspent (by rw [hlen]; omega)

end Pelorus.Broker.Broker
