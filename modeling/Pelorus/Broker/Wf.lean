import Pelorus.Broker.Change

/-
  Broker/Wf.lean --- the capability sets, the frame tree and the process pool agree.

  `Wf` is kept by each change and by the end of a channel, so by every call (`Wf.step`),
  so by every run (`wf_run`).
-/
set_option autoImplicit false
set_option linter.dupNamespace false

namespace Pelorus.Broker.Broker

open Lib Websec Ipc
open Relation (ReflTransGen)

variable {b b' : Broker} {c d : ChannelId} {f g : FrameId} {caps : ChannelCaps}

/-- The capability sets, the frame tree and the process pool agree. -/
structure Wf (b : Broker) : Prop where
  frames : b.frames.Wf
  hosts : ∀ c caps, b.capabilities.lookup c = some caps →
    ∀ f, f ∈ caps.hosts ↔ b.frames.owner f = some c
  hosts_visible : ∀ c caps, b.capabilities.lookup c = some caps → caps.hosts ⊆ caps.visible
  visible_exists : ∀ c caps, b.capabilities.lookup c = some caps →
    ∀ f ∈ caps.visible, (b.frames.at? f).isSome
  owner_open : ∀ f c, b.frames.owner f = some c → b.isOpen c
  channel_lt : ∀ c, b.isOpen c → c.value.toNat < b.nextChannel.toNat
  pool : b.pool.Wf
  pool_open : ∀ c entry, b.pool.keyOf c = some entry → b.isOpen c

theorem caps_new (c : ChannelId) : new.capabilities.lookup c = none := AList.lookup_empty c

theorem isOpen_new (c : ChannelId) : new.isOpen c = false := by
  unfold isOpen
  rw [caps_new]
  rfl

theorem wf_new : new.Wf where
  frames := FrameTree.wf_empty
  hosts c caps h := by rw [caps_new] at h; cases h
  hosts_visible c caps h := by rw [caps_new] at h; cases h
  visible_exists c caps h := by rw [caps_new] at h; cases h
  owner_open f c h := by cases h
  channel_lt c h := by rw [isOpen_new] at h; cases h
  pool := ProcessPool.wf_empty
  pool_open c entry h := by
    have hnone : new.pool.keyOf c = none := AList.lookup_empty c
    rw [hnone] at h
    cases h

theorem isOpen_withCaps (k : ChannelCaps → ChannelCaps) : (b.withCaps c k).isOpen d = b.isOpen d := by
  unfold isOpen
  rw [caps_withCaps, Option.isSome_map]

/-! ## What the changes do to the tree -/

theorem owner_eq_of_at? {t t' : FrameTree} (h : t'.at? f = t.at? f) : t'.owner f = t.owner f := by
  unfold FrameTree.owner
  rw [h]

variable {s : FrameSlot} {frames : FrameTree}

theorem at?_committed (hs : b.frames.at? f = some s) (origin : Origin) (g : FrameId) :
    (b.frames.modify f fun s => { s with origin := some origin }).at? g =
      if g = f then some { s with origin := some origin } else b.frames.at? g :=
  FrameTree.at?_modify (k := fun s => { s with origin := some origin }) hs (fun _ => rfl)
    (fun _ => rfl) (fun _ => rfl) g

theorem at?_moved (hs : b.frames.at? f = some s) (target : ChannelId) (g : FrameId) :
    (b.frames.modify f fun s => { s with owner := some target }).at? g =
      if g = f then some { s with owner := some target } else b.frames.at? g :=
  FrameTree.at?_modify (k := fun s => { s with owner := some target }) hs (fun _ => rfl)
    (fun _ => rfl) (fun _ => rfl) g

theorem owner_committed (hs : b.frames.at? f = some s) (origin : Origin) (g : FrameId) :
    (b.frames.modify f fun s => { s with origin := some origin }).owner g = b.frames.owner g := by
  unfold FrameTree.owner
  rw [at?_committed hs]
  split
  · rename_i hg
    rw [hg, hs]
    rfl
  · rfl

namespace Moves

variable {source target : ChannelId}

section

variable (h : Moves b f source target b')

include h

theorem at? :
    ∃ s, b.frames.at? f = some s ∧ s.owner = some source ∧ ∀ g, b'.frames.at? g =
      if g = f then some { s with owner := some target } else b.frames.at? g := by
  obtain ⟨s, hs, howner⟩ := FrameTree.owner_eq_some.mp h.owner
  exact ⟨s, hs, howner, fun g => by rw [h.frames, at?_moved hs]⟩

theorem owner' (g : FrameId) : b'.frames.owner g = if g = f then some target else b.frames.owner g := by
  obtain ⟨s, -, -, hat⟩ := h.at?
  unfold FrameTree.owner
  rw [hat]
  split <;> rfl

theorem parent (g : FrameId) : b'.frames.parent g = b.frames.parent g := by
  obtain ⟨s, hs, -, hat⟩ := h.at?
  unfold FrameTree.parent
  rw [hat]
  split
  · rename_i hg
    rw [hg, hs]
    rfl
  · rfl

theorem isOpen' (c : ChannelId) : b'.isOpen c = b.isOpen c := by
  unfold Broker.isOpen
  rw [h.caps, Option.isSome_map]

theorem mem_hosts (hc : b.capabilities.lookup c = some caps) :
    ∃ caps', b'.capabilities.lookup c = some caps' ∧
      ∀ g, g ∈ caps'.hosts ↔ (g = f ∧ c = target) ∨ (g ∈ caps.hosts ∧ ¬ (g = f ∧ c = source)) := by
  refine ⟨_, by rw [h.caps, hc]; rfl, fun g => ?_⟩
  have hne := h.distinct
  generalize (b.frames.parent f).bind b.frames.owner = o
  by_cases hs : c = source
  · subst hs
    by_cases ho : o = some c <;> simp [movedCaps, hne, ho, ChannelCaps.see, ChannelCaps.lose, and_comm]
  · by_cases ht : c = target
    · subst ht
      by_cases ho : o = some c <;> simp [movedCaps, hs, ho, ChannelCaps.see, ChannelCaps.host]
    · by_cases ho : o = some c <;> simp [movedCaps, hs, ht, ho, ChannelCaps.see]

theorem mem_visible (hc : b.capabilities.lookup c = some caps) :
    ∃ caps', b'.capabilities.lookup c = some caps' ∧
      ∀ g, g ∈ caps'.visible ↔
        (g = f ∧ (c = target ∨ (b.frames.parent f).bind b.frames.owner = some c)) ∨
        (g ∈ caps.visible ∧ ¬ (g = f ∧ c = source)) := by
  refine ⟨_, by rw [h.caps, hc]; rfl, fun g => ?_⟩
  have hne := h.distinct
  generalize (b.frames.parent f).bind b.frames.owner = o
  by_cases hs : c = source
  · subst hs
    by_cases ho : o = some c
    · simp [movedCaps, hne, ho, ChannelCaps.see, ChannelCaps.lose]
      tauto
    · simp [movedCaps, hne, ho, ChannelCaps.lose, and_comm]
  · by_cases ht : c = target
    · subst ht
      by_cases ho : o = some c <;> simp [movedCaps, hs, ho, ChannelCaps.see, ChannelCaps.host]
    · by_cases ho : o = some c <;> simp [movedCaps, hs, ht, ho, ChannelCaps.see]

end

end Moves

/-! ## What the end of a channel does to the capabilities -/

/-- The broker after the end of a channel, with the tree that is left. -/
def afterEnd (b : Broker) (c : ChannelId) (frames : FrameTree) : Broker :=
  purgeDeadFrames { b with capabilities := b.capabilities.erase c, frames, pool := b.pool.forget c }

theorem caps_afterEnd {caps' : ChannelCaps} :
    (b.afterEnd c frames).capabilities.lookup d = some caps' ↔
      d ≠ c ∧ ∃ caps, b.capabilities.lookup d = some caps ∧
        caps' = caps.purge (fun f => frames.owner f = some d) fun f => frames.exists? f := by
  show (Map.refine _ (b.capabilities.erase c)).lookup d = some caps' ↔ _
  rw [Map.lookup_refine, Option.bind_eq_some_iff]
  by_cases hd : d = c
  · subst hd
    rw [AList.lookup_erase]
    simp
  · rw [AList.lookup_erase_ne hd]
    simp [hd, eq_comm]

theorem isOpen_afterEnd : (b.afterEnd c frames).isOpen d ↔ d ≠ c ∧ b.isOpen d := by
  rw [isOpen_iff, isOpen_iff]
  constructor
  · rintro ⟨caps', hcaps'⟩
    obtain ⟨hd, caps, hcaps, -⟩ := caps_afterEnd.mp hcaps'
    exact ⟨hd, caps, hcaps⟩
  · rintro ⟨hd, caps, hcaps⟩
    exact ⟨_, caps_afterEnd.mpr ⟨hd, caps, hcaps, rfl⟩⟩

/-! ## What the changes keep -/

namespace Wf

theorem rests (hw : b.Wf) (h : Rests b b') : b'.Wf := by
  have howner : ∀ f, b'.frames.owner f = b.frames.owner f := fun f => owner_eq_of_at? (h.frames.at? f)
  have hopen : ∀ c, b'.isOpen c = b.isOpen c := fun c => by
    unfold isOpen
    rw [h.capabilities]
  constructor
  · exact hw.frames.retired h.frames
  · intro c caps hc f
    rw [howner]
    exact hw.hosts c caps (h.capabilities ▸ hc) f
  · exact fun c caps hc => hw.hosts_visible c caps (h.capabilities ▸ hc)
  · intro c caps hc f
    rw [h.frames.at?]
    exact hw.visible_exists c caps (h.capabilities ▸ hc) f
  · intro f c
    rw [howner, hopen]
    exact hw.owner_open f c
  · intro c
    rw [hopen, h.nextChannel]
    exact hw.channel_lt c
  · rw [h.pool]
    exact hw.pool
  · intro c entry
    rw [h.pool, hopen]
    exact hw.pool_open c entry

theorem opened (hw : b.Wf) {next : UInt64} (hnext : succU64 b.nextChannel = some next) :
    Wf { b with nextChannel := next,
                capabilities := b.capabilities.insert ⟨b.nextChannel⟩ .empty } := by
  have hlookup : ∀ c, (b.capabilities.insert ⟨b.nextChannel⟩ ChannelCaps.empty).lookup c =
      if c = ⟨b.nextChannel⟩ then some .empty else b.capabilities.lookup c := by
    intro c
    split
    · rename_i hc
      rw [hc, AList.lookup_insert]
    · rename_i hc
      exact AList.lookup_insert_ne hc
  have hunused : b.isOpen ⟨b.nextChannel⟩ = false := by
    by_contra hopen
    exact absurd (hw.channel_lt _ (by simpa using hopen)) (Nat.lt_irrefl _)
  have hopen : ∀ c, b.isOpen c → ((b.capabilities.insert ⟨b.nextChannel⟩ ChannelCaps.empty).lookup c).isSome := by
    intro c hc
    rw [hlookup]
    split
    · rfl
    · exact hc
  constructor
  · exact hw.frames
  · intro c caps hc f
    have hc := (hlookup c).symm.trans hc
    split at hc
    · rename_i heq
      cases hc
      constructor
      · intro hmem
        cases hmem
      · intro howner
        have hopen := hw.owner_open f c howner
        rw [heq, hunused] at hopen
        cases hopen
    · exact hw.hosts c caps hc f
  · intro c caps hc
    have hc := (hlookup c).symm.trans hc
    split at hc
    · cases hc
      exact Finset.Subset.refl _
    · exact hw.hosts_visible c caps hc
  · intro c caps hc f hf
    have hc := (hlookup c).symm.trans hc
    split at hc
    · cases hc
      cases hf
    · exact hw.visible_exists c caps hc f hf
  · exact fun f c howner => hopen c (hw.owner_open f c howner)
  · intro c hc
    show c.value.toNat < next.toNat
    rw [succU64_toNat hnext]
    have hc : ((b.capabilities.insert ⟨b.nextChannel⟩ ChannelCaps.empty).lookup c).isSome := hc
    rw [hlookup] at hc
    split at hc
    · rename_i heq
      rw [heq]
      exact Nat.lt_succ_self _
    · exact Nat.lt_succ_of_lt (hw.channel_lt c hc)
  · exact hw.pool
  · exact fun c entry h => hopen c (hw.pool_open c entry h)

/-- The end of a channel: no frame has it for owner any more, and no other frame has changed
hands. -/
theorem ended (hw : b.Wf) (c : ChannelId) (hframes : frames.Wf)
    (howner : ∀ f d, frames.owner f = some d → d ≠ c ∧ b.frames.owner f = some d) :
    (b.afterEnd c frames).Wf := by
  constructor
  · exact hframes
  · intro d caps' hd f
    obtain ⟨-, caps, hcaps, rfl⟩ := caps_afterEnd.mp hd
    show f ∈ caps.hosts.filter _ ↔ frames.owner f = some d
    rw [Finset.mem_filter, decide_eq_true_iff]
    exact and_iff_right_of_imp fun h => (hw.hosts d caps hcaps f).mpr (howner f d h).2
  · intro d caps' hd f hf
    obtain ⟨-, caps, hcaps, rfl⟩ := caps_afterEnd.mp hd
    obtain ⟨hf, hfowner⟩ := Finset.mem_filter.mp hf
    obtain ⟨s, hs, -⟩ := FrameTree.owner_eq_some.mp (of_decide_eq_true hfowner)
    refine Finset.mem_filter.mpr ⟨hw.hosts_visible d caps hcaps hf, ?_⟩
    show frames.exists? f = true
    rw [FrameTree.exists?_eq, hs]
    rfl
  · intro d caps' hd f hf
    obtain ⟨-, caps, hcaps, rfl⟩ := caps_afterEnd.mp hd
    have hexists : frames.exists? f = true := (Finset.mem_filter.mp hf).2
    rwa [FrameTree.exists?_eq] at hexists
  · intro f d h
    obtain ⟨hd, h⟩ := howner f d h
    exact isOpen_afterEnd.mpr ⟨hd, hw.owner_open f d h⟩
  · exact fun d hd => hw.channel_lt d (isOpen_afterEnd.mp hd).2
  · exact hw.pool.forget c
  · intro d entry h
    have h : (b.pool.forget c).keyOf d = some entry := h
    rw [ProcessPool.keyOf_forget] at h
    split at h
    · cases h
    · rename_i hd
      exact isOpen_afterEnd.mpr ⟨hd, hw.pool_open d entry h⟩

theorem owner_releaseAll (hw : b.Wf) (c : ChannelId) (f : FrameId) (d : ChannelId)
    (h : (b.frames.releaseAll c).owner f = some d) : d ≠ c ∧ b.frames.owner f = some d := by
  obtain ⟨s, hs, howner⟩ := FrameTree.owner_eq_some.mp h
  rw [FrameTree.at?_releaseAll] at hs
  split at hs
  · cases hs
  · rename_i hkept
    have howner' : b.frames.owner f = some d := FrameTree.owner_eq_some.mpr ⟨s, hs, howner⟩
    refine ⟨fun hd => hkept (Finset.mem_union_right _ ?_), howner'⟩
    exact (FrameTree.mem_ownedBy_of_at? hs).mpr
      ⟨(hw.frames.live_iff f s hs).mpr (by rw [howner]; rfl), by rw [howner, hd]⟩

theorem owner_crashChannel (hw : b.Wf) (c : ChannelId) (f : FrameId) (d : ChannelId)
    (h : (b.frames.crashChannel c).1.owner f = some d) : d ≠ c ∧ b.frames.owner f = some d := by
  obtain ⟨s, hs, howner⟩ := FrameTree.owner_eq_some.mp h
  rw [FrameTree.at?_crashChannel hw.frames.linked] at hs
  split at hs
  · cases hs
  · split at hs
    · obtain ⟨s', -, rfl⟩ := Option.map_eq_some_iff.mp hs
      cases howner
    · rename_i hkept
      have howner' : b.frames.owner f = some d := FrameTree.owner_eq_some.mpr ⟨s, hs, howner⟩
      refine ⟨fun hd => hkept ?_, howner'⟩
      exact (FrameTree.mem_ownedBy_of_at? hs).mpr
        ⟨(hw.frames.live_iff f s hs).mpr (by rw [howner]; rfl), by rw [howner, hd]⟩

/-- The frame that a call made: not in the tree before, and owned by the channel. -/
structure Born (t t' : FrameTree) (c : ChannelId) (f : FrameId) : Prop where
  fresh : t.at? f = none
  owner : ∀ g, t'.owner g = if g = f then some c else t.owner g
  some : (t'.at? f).isSome
  kept : ∀ g s, t.at? g = Option.some s → t'.at? g = Option.some s

theorem born {t t' : FrameTree} (h : FrameTree.Makes t c t' (some f)) : Born t t' c f := by
  cases h with
  | made parent depth ordinal group _ _ hplaced h =>
      refine ⟨?_, fun g => ?_, by rw [h.at?_self]; rfl, fun g s => h.at?_other⟩
      · cases hs : t.at? f with
        | none => rfl
        | some s => exact absurd (FrameTree.spent_of_at? hs) h.fresh
      · unfold FrameTree.owner
        rw [h.at?]
        split <;> rfl

section

variable (hw : b.Wf)

include hw

theorem made (hopen : b.isOpen c) (h : FrameTree.Makes b.frames c frames (some f)) :
    Wf ({ b with frames }.withCaps c (.host f)) := by
  have hborn := born h
  have hlookup : ∀ d caps', ({ b with frames }.withCaps c (.host f)).capabilities.lookup d =
      some caps' → ∃ caps, b.capabilities.lookup d = some caps ∧
        caps' = if d = c then caps.host f else caps := by
    intro d caps' hd
    rw [caps_withCaps] at hd
    obtain ⟨caps, hcaps, rfl⟩ := Option.map_eq_some_iff.mp hd
    exact ⟨caps, hcaps, rfl⟩
  have hisOpen : ∀ d, ({ b with frames }.withCaps c (.host f)).isOpen d = b.isOpen d :=
    fun d => isOpen_withCaps _
  have hunowned : b.frames.owner f = none := by
    unfold FrameTree.owner
    rw [hborn.fresh]
    rfl
  constructor
  · rw [frames_withCaps]
    exact hw.frames.makes h
  · intro d caps' hd g
    obtain ⟨caps, hcaps, rfl⟩ := hlookup d caps' hd
    rw [frames_withCaps]
    show _ ↔ frames.owner g = some d
    rw [hborn.owner]
    by_cases hdc : d = c
    · subst hdc
      rw [if_pos rfl]
      show g ∈ insert f caps.hosts ↔ _
      rw [Finset.mem_insert]
      by_cases hg : g = f
      · simp [hg]
      · simp [hg, hw.hosts d caps hcaps]
    · rw [if_neg hdc]
      by_cases hg : g = f
      · subst hg
        rw [hw.hosts d caps hcaps, hunowned]
        simp [Ne.symm hdc]
      · rw [if_neg hg, hw.hosts d caps hcaps]
  · intro d caps' hd
    obtain ⟨caps, hcaps, rfl⟩ := hlookup d caps' hd
    split
    · exact Finset.insert_subset_insert f (hw.hosts_visible d caps hcaps)
    · exact hw.hosts_visible d caps hcaps
  · intro d caps' hd g hg
    obtain ⟨caps, hcaps, rfl⟩ := hlookup d caps' hd
    rw [frames_withCaps]
    have hkept : g ∈ caps.visible → (frames.at? g).isSome := fun hg => by
      obtain ⟨s, hs⟩ := Option.isSome_iff_exists.mp (hw.visible_exists d caps hcaps g hg)
      rw [hborn.kept g s hs]
      rfl
    split at hg
    · rcases Finset.mem_insert.mp hg with rfl | hg
      · exact hborn.some
      · exact hkept hg
    · exact hkept hg
  · intro g d howner
    rw [frames_withCaps] at howner
    rw [hisOpen]
    have howner : frames.owner g = some d := howner
    rw [hborn.owner] at howner
    split at howner
    · cases howner
      exact hopen
    · exact hw.owner_open g d howner
  · intro d hd
    rw [hisOpen] at hd
    rw [nextChannel_withCaps]
    exact hw.channel_lt d hd
  · rw [pool_withCaps]
    exact hw.pool
  · intro d entry
    rw [pool_withCaps, hisOpen]
    exact hw.pool_open d entry

theorem committed (hs : b.frames.at? f = some s) (origin : Origin) :
    Wf { b with frames := b.frames.modify f fun s => { s with origin := some origin } } where
  frames := hw.frames.shrink (FrameTree.shrinks_modify (k := fun s => { s with origin := some origin })
    hw.frames hs (fun _ => rfl) (fun _ => rfl) (fun _ => ⟨rfl, rfl, rfl, rfl⟩) Iff.rfl)
  hosts c caps hc g := by
    rw [owner_committed hs]
    exact hw.hosts c caps hc g
  hosts_visible := hw.hosts_visible
  visible_exists c caps hc g hg := by
    rw [at?_committed hs]
    split
    · rfl
    · exact hw.visible_exists c caps hc g hg
  owner_open g c howner := by
    rw [owner_committed hs] at howner
    exact hw.owner_open g c howner
  channel_lt := hw.channel_lt
  pool := hw.pool
  pool_open := hw.pool_open

theorem registered {group : GroupId} {key : ProcessKey} {pool : ProcessPool} (hopen : b.isOpen c)
    (h : b.pool.register group key c = .ok pool) : Wf { b with pool } where
  frames := hw.frames
  hosts := hw.hosts
  hosts_visible := hw.hosts_visible
  visible_exists := hw.visible_exists
  owner_open := hw.owner_open
  channel_lt := hw.channel_lt
  pool := hw.pool.register h
  pool_open d entry hd := by
    have hd : pool.keyOf d = some entry := hd
    rw [ProcessPool.keyOf_register h] at hd
    split at hd
    · rename_i heq
      rw [heq]
      exact hopen
    · exact hw.pool_open d entry hd

theorem moved {source target : ChannelId} (h : Moves b f source target b') : b'.Wf := by
  obtain ⟨s, hs, howner, hat⟩ := h.at?
  have hcaps : ∀ d caps', b'.capabilities.lookup d = some caps' →
      ∃ caps, b.capabilities.lookup d = some caps := by
    intro d caps' hd
    rw [h.caps] at hd
    obtain ⟨caps, hcaps, -⟩ := Option.map_eq_some_iff.mp hd
    exact ⟨caps, hcaps⟩
  constructor
  · rw [h.frames]
    refine hw.frames.shrink (FrameTree.shrinks_modify (k := fun s => { s with owner := some target })
      hw.frames hs (fun _ => rfl) (fun _ => rfl) (fun _ => ⟨rfl, rfl, rfl, rfl⟩) ?_)
    simp [howner]
  · intro d caps' hd g
    obtain ⟨caps, hcaps⟩ := hcaps d caps' hd
    obtain ⟨caps'', hd', hmem⟩ := h.mem_hosts hcaps
    rw [hd] at hd'
    cases hd'
    rw [hmem, h.owner', hw.hosts d caps hcaps]
    by_cases hg : g = f
    · subst hg
      rw [h.owner]
      have hne := h.distinct
      simp
      grind
    · simp [hg]
  · intro d caps' hd g hg
    obtain ⟨caps, hcaps⟩ := hcaps d caps' hd
    obtain ⟨_, hd', hhosts⟩ := h.mem_hosts hcaps
    rw [hd] at hd'
    cases hd'
    obtain ⟨_, hd', hvisible⟩ := h.mem_visible hcaps
    rw [hd] at hd'
    cases hd'
    rw [hvisible]
    rcases (hhosts g).mp hg with ⟨rfl, htarget⟩ | ⟨hg, hne⟩
    · exact .inl ⟨rfl, .inl htarget⟩
    · exact .inr ⟨hw.hosts_visible d caps hcaps hg, hne⟩
  · intro d caps' hd g hg
    obtain ⟨caps, hcaps⟩ := hcaps d caps' hd
    obtain ⟨_, hd', hvisible⟩ := h.mem_visible hcaps
    rw [hd] at hd'
    cases hd'
    rw [hat]
    split
    · rfl
    · rename_i hne
      rcases (hvisible g).mp hg with ⟨rfl, -⟩ | ⟨hg, -⟩
      · exact absurd rfl hne
      · exact hw.visible_exists d caps hcaps g hg
  · intro g d hd
    rw [h.isOpen']
    rw [h.owner'] at hd
    split at hd
    · cases hd
      exact h.isOpen
    · exact hw.owner_open g d hd
  · intro d hd
    rw [h.isOpen'] at hd
    rw [h.nextChannel]
    exact hw.channel_lt d hd
  · rw [h.pool]
    exact hw.pool
  · intro d entry
    rw [h.pool, h.isOpen']
    exact hw.pool_open d entry

theorem saw (viewer : ChannelId) (howner : (b.frames.owner f).isSome) :
    Wf (b.withCaps viewer (.see f)) := by
  have hlookup : ∀ d caps', (b.withCaps viewer (.see f)).capabilities.lookup d = some caps' →
      ∃ caps, b.capabilities.lookup d = some caps ∧
        caps' = if d = viewer then caps.see f else caps := by
    intro d caps' hd
    rw [caps_withCaps] at hd
    obtain ⟨caps, hcaps, rfl⟩ := Option.map_eq_some_iff.mp hd
    exact ⟨caps, hcaps, rfl⟩
  have hisOpen : ∀ d, (b.withCaps viewer (.see f)).isOpen d = b.isOpen d := fun d => isOpen_withCaps _
  constructor
  · rw [frames_withCaps]
    exact hw.frames
  · intro d caps' hd g
    obtain ⟨caps, hcaps, rfl⟩ := hlookup d caps' hd
    rw [frames_withCaps, ← hw.hosts d caps hcaps]
    split <;> rfl
  · intro d caps' hd
    obtain ⟨caps, hcaps, rfl⟩ := hlookup d caps' hd
    split
    · exact (hw.hosts_visible d caps hcaps).trans (Finset.subset_insert f _)
    · exact hw.hosts_visible d caps hcaps
  · intro d caps' hd g hg
    obtain ⟨caps, hcaps, rfl⟩ := hlookup d caps' hd
    rw [frames_withCaps]
    split at hg
    · rcases Finset.mem_insert.mp hg with rfl | hg
      · obtain ⟨o, howner⟩ := Option.isSome_iff_exists.mp howner
        obtain ⟨s, hs, -⟩ := FrameTree.owner_eq_some.mp howner
        rw [hs]
        rfl
      · exact hw.visible_exists d caps hcaps g hg
    · exact hw.visible_exists d caps hcaps g hg
  · intro g d
    rw [frames_withCaps, hisOpen]
    exact hw.owner_open g d
  · intro d
    rw [hisOpen, nextChannel_withCaps]
    exact hw.channel_lt d
  · rw [pool_withCaps]
    exact hw.pool
  · intro d entry
    rw [pool_withCaps, hisOpen]
    exact hw.pool_open d entry

theorem still (h : Still b b') : b'.Wf := by
  cases h with
  | rests _ h => exact hw.rests h
  | opened next h => exact hw.opened h
  | made c frames f hopen h => exact hw.made hopen h

theorem change (h : Change b b') : b'.Wf := by
  cases h with
  | still _ h => exact hw.still h
  | committed f origin s hs hlive => exact hw.committed hs origin
  | registered group key c pool hopen h => exact hw.registered hopen h
  | moved f source target _ h => exact hw.moved h
  | saw viewer f howner => exact hw.saw viewer howner

theorem changes (h : ReflTransGen Change b b') : b'.Wf := by
  induction h with
  | refl => exact hw
  | tail _ h ih => exact ih.change h

theorem closeChannel (c : ChannelId) : (b.closeChannel c).Wf :=
  hw.ended c (hw.frames.shrink (FrameTree.shrinks_releaseAll hw.frames c)) (hw.owner_releaseAll c)

theorem channelDied (c : ChannelId) : (b.channelDied c).1.Wf :=
  hw.ended c (hw.frames.shrink (FrameTree.shrinks_crashChannel hw.frames c)) (hw.owner_crashChannel c)

theorem step (op : Op) : (b.step op).Wf := by
  obtain ⟨c, rfl | rfl⟩ | ⟨-, h⟩ := step_changes hw.owner_open op
  · exact hw.closeChannel c
  · exact hw.channelDied c
  · exact hw.changes h

end

end Wf

/-- Every broker that is reached is well formed. -/
theorem wf_run (ops : List Op) : (run ops).Wf := run_keeps (fun _ op h => h.step op) wf_new ops

/-! ## Sight -/

/-- The frame is in the visible set of the open channel. -/
def Seen (b : Broker) (d : ChannelId) (f : FrameId) : Prop :=
  ∃ caps, b.capabilities.lookup d = some caps ∧ f ∈ caps.visible

theorem seen_afterEnd : (b.afterEnd c frames).Seen d f ↔ d ≠ c ∧ b.Seen d f ∧ frames.exists? f := by
  constructor
  · rintro ⟨caps', hcaps', hmem⟩
    obtain ⟨hd, caps, hcaps, rfl⟩ := caps_afterEnd.mp hcaps'
    obtain ⟨hmem, hexists⟩ := Finset.mem_filter.mp hmem
    exact ⟨hd, ⟨caps, hcaps, hmem⟩, hexists⟩
  · rintro ⟨hd, ⟨caps, hcaps, hmem⟩, hexists⟩
    exact ⟨_, caps_afterEnd.mpr ⟨hd, caps, hcaps, rfl⟩, Finset.mem_filter.mpr ⟨hmem, hexists⟩⟩

theorem seen_withCaps {k : ChannelCaps → ChannelCaps} (hk : ∀ caps, caps.visible ⊆ (k caps).visible)
    (h : b.Seen d f) : (b.withCaps c k).Seen d f := by
  obtain ⟨caps, hcaps, hmem⟩ := h
  refine ⟨_, by rw [caps_withCaps, hcaps]; rfl, ?_⟩
  split
  · exact hk caps hmem
  · exact hmem

theorem canSee_iff : b.canSee d f = true ↔ (b.frames.owner f).isSome ∧ b.Seen d f := by
  unfold canSee Seen
  rw [Bool.and_eq_true]
  cases b.capabilities.lookup d <;> simp

theorem live_owner (hw : b.Wf) (h : b.frames.state f = some .live) : ∃ o, b.frames.owner f = some o := by
  obtain ⟨s, hs, hlive⟩ := FrameTree.state_eq_live.mp h
  obtain ⟨o, ho⟩ := Option.isSome_iff_exists.mp ((hw.frames.live_iff f s hs).mp hlive)
  exact ⟨o, FrameTree.owner_eq_some.mpr ⟨s, hs, ho⟩⟩

theorem owner_live (hw : b.Wf) {o : ChannelId} (h : b.frames.owner f = some o) :
    b.frames.state f = some .live := by
  obtain ⟨s, hs, hlive, -⟩ := hw.frames.owner_live h
  exact FrameTree.state_eq_live.mpr ⟨s, hs, hlive⟩

end Pelorus.Broker.Broker
