import Pelorus.Broker.Handles

/-
  Broker/Crashes.lean --- the death of a channel.

      events_exact       the events are those owed: one for each frame that crashed in a
                         frame of another channel
      at?_channelDied    the frames embedded in a frame of the channel are gone, its other
                         frames crashed, and the rest is as it was

  RECLAIMED.  A crashed frame is reclaimed with the frame that it is embedded in.  Where
  there is none, or its process does not see the crashed frame, nobody is left who could
  have the frame removed.
-/
set_option autoImplicit false
set_option linter.dupNamespace false

namespace Pelorus.Broker

open Lib Ipc

namespace FrameTree

variable {t : FrameTree} {c o : ChannelId} {f p : FrameId} {s : FrameSlot}

/-- The frame is embedded, at any depth, in a frame of the channel. -/
def Embedded (t : FrameTree) (c : ChannelId) (f : FrameId) : Prop :=
  ∃ r, t.owner r = some c ∧ Relation.TransGen (fun q g => t.parent g = some q) r f

theorem embeds_iff {q : Nat} (hs : t.at? f = some s) :
    t.Embeds q f.index.toNat ↔ ∃ p, s.parent = some p ∧ (∃ sp, t.at? p = some sp) ∧ q = p.index.toNat := by
  obtain ⟨hslot, -, hfree⟩ := at?_eq_some.mp hs
  constructor
  · rintro ⟨s', hs', -, hbind⟩
    rw [hslot] at hs'
    cases hs'
    obtain ⟨p, hp, hq⟩ := Option.bind_eq_some_iff.mp hbind
    obtain ⟨rfl, sp, hsp, hgen, hfree'⟩ := resolve_eq_some.mp hq
    exact ⟨p, hp, ⟨sp, at?_eq_some.mpr ⟨hsp, hgen, hfree'⟩⟩, rfl⟩
  · rintro ⟨p, hp, ⟨sp, hsp⟩, rfl⟩
    exact ⟨s, hslot, hfree, by rw [hp]; exact resolve_of_at? hsp⟩

/-- Below the frames of a channel is embedded in one of them. -/
theorem below_iff (hw : t.Wf) (hs : t.at? f = some s) :
    f.index.toNat ∈ t.descendants (t.ownedBy c) ↔ t.Embedded c f := by
  rw [mem_descendants]
  constructor
  · rintro ⟨r, hr, hpath⟩
    generalize hi : f.index.toNat = i at hpath
    induction hpath generalizing f s with
    | single h =>
        subst hi
        obtain ⟨p, hp, ⟨sp, hsp⟩, rfl⟩ := (embeds_iff hs).mp h
        have howner := ((mem_ownedBy_of_at? hsp).mp hr).2
        exact ⟨p, owner_eq_some.mpr ⟨sp, hsp, howner⟩, .single (parent_eq_some.mpr ⟨s, hs, hp⟩)⟩
    | tail _ h ih =>
        subst hi
        obtain ⟨p, hp, ⟨sp, hsp⟩, rfl⟩ := (embeds_iff hs).mp h
        obtain ⟨r', howner, hpath⟩ := ih hsp rfl
        exact ⟨r', howner, hpath.tail (parent_eq_some.mpr ⟨s, hs, hp⟩)⟩
  · rintro ⟨r, howner, hpath⟩
    obtain ⟨sr, hsr, hlive, howner⟩ := hw.owner_live howner
    have hseed : r.index.toNat ∈ t.ownedBy c := (mem_ownedBy_of_at? hsr).mpr ⟨hlive, howner⟩
    refine ⟨_, hseed, ?_⟩
    clear hs
    induction hpath with
    | single h =>
        obtain ⟨s', hs', hp⟩ := parent_eq_some.mp h
        exact .single ((embeds_iff hs').mpr ⟨r, hp, ⟨sr, hsr⟩, rfl⟩)
    | tail _ h ih =>
        obtain ⟨s', hs', hp⟩ := parent_eq_some.mp h
        obtain ⟨sp, hsp, -⟩ := hw.parent _ s' _ hs' hp
        exact ih.tail ((embeds_iff hs').mpr ⟨_, hp, ⟨sp, hsp⟩, rfl⟩)

theorem owned_iff (hw : t.Wf) (hs : t.at? f = some s) :
    f.index.toNat ∈ t.ownedBy c ↔ t.owner f = some c := by
  rw [mem_ownedBy_of_at? hs]
  constructor
  · rintro ⟨-, howner⟩
    exact owner_eq_some.mpr ⟨s, hs, howner⟩
  · intro howner
    obtain ⟨s', hs', hlive, howner⟩ := hw.owner_live howner
    rw [hs] at hs'
    cases hs'
    exact ⟨hlive, howner⟩

/-! ## Notices -/

theorem mem_noticesAt {i : Nat} : (o, f) ∈ t.noticesAt c i ↔ ∃ s p, t.slots[i]? = some s ∧
    s.parent = some p ∧ t.owner p = some o ∧ o ≠ c ∧ f = ⟨UInt32.ofNat i, s.generation⟩ := by
  unfold noticesAt
  cases hs : t.slots[i]? with
  | none => simp
  | some s =>
      simp only [List.mem_map, Option.mem_toList, Option.filter_eq_some_iff,
        Option.bind_eq_some_iff, Prod.mk.injEq, decide_eq_true_iff, Option.some.injEq]
      constructor
      · rintro ⟨o', ⟨⟨p, hp, howner⟩, hne⟩, rfl, rfl⟩
        exact ⟨s, p, rfl, hp, howner, hne, rfl⟩
      · rintro ⟨s', p, rfl, hp, howner, hne, rfl⟩
        exact ⟨o, ⟨⟨p, hp, howner⟩, hne⟩, rfl, rfl⟩

theorem nodup_noticesAt (c : ChannelId) (i : Nat) : (t.noticesAt c i).Nodup := by
  unfold noticesAt
  split
  · exact List.nodup_nil
  · cases Option.filter _ _ with
    | none => exact List.nodup_nil
    | some o => exact List.nodup_singleton _

theorem mem_notices (hw : t.Wf) : (o, f) ∈ (t.crashChannel c).2 ↔
    t.owner f = some c ∧ ¬ t.Embedded c f ∧ o ≠ c ∧ ∃ p, t.parent f = some p ∧ t.owner p = some o := by
  rw [(crashChannel_spec hw.linked c).2, (List.perm_insertionSort noticeLe _).mem_iff, List.mem_flatMap]
  constructor
  · rintro ⟨i, hi, hmem⟩
    obtain ⟨howned, hsafe⟩ := mem_crashList.mp hi
    obtain ⟨s, p, hs, hp, howner, hne, rfl⟩ := mem_noticesAt.mp hmem
    obtain ⟨s', hs', hlive, -⟩ := mem_ownedBy.mp howned
    rw [hs] at hs'
    cases hs'
    have hlt : i < 2 ^ 32 :=
      Nat.lt_of_lt_of_le (List.getElem?_eq_some_iff.mp hs).1 hw.length_le
    have hat := at?_handle hlt hs (by rw [hlive]; exact Lifecycle.noConfusion)
    have hindex : (UInt32.ofNat i).toNat = i := toNat_ofNat hlt
    refine ⟨(owned_iff hw hat).mp (by rw [hindex]; exact howned), fun h => hsafe ?_, hne, p,
      parent_eq_some.mpr ⟨s, hat, hp⟩, howner⟩
    have hbelow := (below_iff hw hat).mpr h
    rwa [hindex] at hbelow
  · rintro ⟨howned, hsafe, hne, p, hparent, howner⟩
    obtain ⟨s, hs, hp⟩ := parent_eq_some.mp hparent
    obtain ⟨hslot, hgen, -⟩ := at?_eq_some.mp hs
    refine ⟨f.index.toNat, mem_crashList.mpr ⟨(owned_iff hw hs).mpr howned, fun h =>
      hsafe ((below_iff hw hs).mp h)⟩, mem_noticesAt.mpr ⟨s, p, hslot, hp, howner, hne, ?_⟩⟩
    rw [hgen]
    exact frameId_eq (toNat_ofNat (UInt32.toNat_lt f.index)).symm rfl

theorem nodup_notices (hw : t.Wf) : (t.crashChannel c).2.Nodup := by
  rw [(crashChannel_spec hw.linked c).2, (List.perm_insertionSort noticeLe _).nodup_iff, List.nodup_flatMap]
  refine ⟨fun i _ => nodup_noticesAt c i, ?_⟩
  have hnodup : (t.crashList c).Nodup := List.Nodup.filter _ List.nodup_range
  refine List.Pairwise.imp_of_mem ?_ hnodup
  intro i j hi hj hne
  have hlt : ∀ k ∈ t.crashList c, k < 2 ^ 32 := fun k hk => (crashable hw.linked c k hk).1
  rintro ⟨o, f⟩ hmem hmem'
  obtain ⟨s, p, -, -, -, -, rfl⟩ := mem_noticesAt.mp hmem
  obtain ⟨s', p', -, -, -, -, heq⟩ := mem_noticesAt.mp hmem'
  have hindex := congrArg (fun g : FrameId => g.index.toNat) heq
  simp only [toNat_ofNat (hlt i hi), toNat_ofNat (hlt j hj)] at hindex
  exact hne hindex

end FrameTree

namespace Broker

variable {b b' : Broker} {c d o : ChannelId} {f p : FrameId}

theorem at?_channelDied (hw : b.Wf) (c : ChannelId) (f : FrameId) :
    (b.frames.Embedded c f → (b.channelDied c).1.frames.at? f = none) ∧
    (¬ b.frames.Embedded c f → b.frames.owner f = some c →
      (b.channelDied c).1.frames.at? f = (b.frames.at? f).map FrameSlot.crash) ∧
    (¬ b.frames.Embedded c f → b.frames.owner f ≠ some c →
      (b.channelDied c).1.frames.at? f = b.frames.at? f) := by
  have hat : (b.channelDied c).1.frames.at? f = _ := FrameTree.at?_crashChannel hw.frames.linked c f
  cases hs : b.frames.at? f with
  | none =>
      rw [hs] at hat
      have hnone : (b.channelDied c).1.frames.at? f = none := by
        rw [hat]
        split
        · rfl
        · split <;> rfl
      exact ⟨fun _ => hnone, fun _ _ => hnone, fun _ _ => hnone⟩
  | some s =>
      rw [hs] at hat
      have hbelow := FrameTree.below_iff (c := c) hw.frames hs
      have howned := FrameTree.owned_iff (c := c) hw.frames hs
      refine ⟨fun h => ?_, fun h howner => ?_, fun h howner => ?_⟩
      · rw [hat, if_pos (hbelow.mpr h)]
      · rw [hat, if_neg (mt hbelow.mp h), if_pos (howned.mpr howner)]
      · rw [hat, if_neg (mt hbelow.mp h), if_neg (mt howned.mp howner)]

theorem at?_closeChannel (hw : b.Wf) (c : ChannelId) (f : FrameId) :
    (b.frames.Embedded c f ∨ b.frames.owner f = some c → (b.closeChannel c).frames.at? f = none) ∧
    (¬ (b.frames.Embedded c f ∨ b.frames.owner f = some c) →
      (b.closeChannel c).frames.at? f = b.frames.at? f) := by
  have hat : (b.closeChannel c).frames.at? f = _ := FrameTree.at?_releaseAll c f
  cases hs : b.frames.at? f with
  | none =>
      rw [hs] at hat
      have hnone : (b.closeChannel c).frames.at? f = none := by
        rw [hat]
        split <;> rfl
      exact ⟨fun _ => hnone, fun _ => hnone⟩
  | some s =>
      rw [hs] at hat
      have hremoved : f.index.toNat ∈ b.frames.descendants (b.frames.ownedBy c) ∪ b.frames.ownedBy c ↔
          b.frames.Embedded c f ∨ b.frames.owner f = some c := by
        rw [Finset.mem_union, FrameTree.below_iff hw.frames hs, FrameTree.owned_iff hw.frames hs]
      refine ⟨fun h => ?_, fun h => ?_⟩
      · rw [hat, if_pos (hremoved.mpr h)]
      · rw [hat, if_neg (mt hremoved.mp h)]

/-! ## The events of a death -/

/-- The frame became crashed. -/
def Crashes (b b' : Broker) (f : FrameId) : Prop :=
  b.frames.state f ≠ some .crashed ∧ b'.frames.state f = some .crashed

theorem state_eq_crashed {t : FrameTree} :
    t.state f = some .crashed ↔ ∃ s, t.at? f = some s ∧ s.lifecycle = .crashed := by
  unfold FrameTree.state
  rw [Option.bind_eq_some_iff]
  constructor
  · rintro ⟨s, hs, h⟩
    cases hl : s.lifecycle with
    | live => simp [hl] at h
    | free => simp [hl] at h
    | crashed => exact ⟨s, hs, hl⟩
  · rintro ⟨s, hs, h⟩
    exact ⟨s, hs, by simp [h]⟩

theorem crashes_iff (hw : b.Wf) :
    Crashes b (b.channelDied c).1 f ↔ b.frames.owner f = some c ∧ ¬ b.frames.Embedded c f := by
  obtain ⟨hgone, hcrashed, hkept⟩ := at?_channelDied hw c f
  unfold Crashes
  constructor
  · rintro ⟨hbefore, hafter⟩
    obtain ⟨s', hs', hlife⟩ := state_eq_crashed.mp hafter
    by_cases hembedded : b.frames.Embedded c f
    · rw [hgone hembedded] at hs'
      cases hs'
    · by_cases howner : b.frames.owner f = some c
      · exact ⟨howner, hembedded⟩
      · rw [hkept hembedded howner] at hs'
        exact absurd (state_eq_crashed.mpr ⟨s', hs', hlife⟩) hbefore
  · rintro ⟨howner, hembedded⟩
    obtain ⟨s, hs, hlive, -⟩ := hw.frames.owner_live howner
    constructor
    · rw [FrameTree.state_eq_live.mpr ⟨s, hs, hlive⟩]
      simp
    · refine state_eq_crashed.mpr ⟨s.crash, ?_, rfl⟩
      rw [hcrashed hembedded howner, hs]
      rfl

/-- The death of a channel is reported exactly, and takes exactly what it should. -/
structure DeathExact (b : Broker) (c : ChannelId) : Prop where
  events : ∀ event, event ∈ (b.channelDied c).2 ↔ ∃ o f p, event = (o, .frameCrashed f) ∧
    Crashes b (b.channelDied c).1 f ∧ b.frames.parent f = some p ∧ b.frames.owner p = some o ∧ o ≠ c
  once : (b.channelDied c).2.Nodup
  freed : ∀ f, b.frames.Embedded c f → (b.channelDied c).1.frames.exists? f = false
  kept : ∀ f, b.frames.owner f ≠ some c → ¬ b.frames.Embedded c f →
    (b.channelDied c).1.frames.at? f = b.frames.at? f

theorem Wf.deathExact (hw : b.Wf) (c : ChannelId) : b.DeathExact c where
  events event := by
    show event ∈ (b.frames.crashChannel c).2.map _ ↔ _
    rw [List.mem_map]
    constructor
    · rintro ⟨⟨o, f⟩, hmem, rfl⟩
      obtain ⟨howner, hsafe, hne, p, hp, ho⟩ := (FrameTree.mem_notices hw.frames).mp hmem
      exact ⟨o, f, p, rfl, (crashes_iff hw).mpr ⟨howner, hsafe⟩, hp, ho, hne⟩
    · rintro ⟨o, f, p, rfl, hcrashes, hp, ho, hne⟩
      obtain ⟨howner, hsafe⟩ := (crashes_iff hw).mp hcrashes
      exact ⟨(o, f), (FrameTree.mem_notices hw.frames).mpr ⟨howner, hsafe, hne, p, hp, ho⟩, rfl⟩
  once := by
    refine (FrameTree.nodup_notices hw.frames).map ?_
    rintro ⟨o, f⟩ ⟨o', f'⟩ h
    cases h
    rfl
  freed f h := by
    rw [FrameTree.exists?_eq, (at?_channelDied hw c f).1 h]
    rfl
  kept f howner h := (at?_channelDied hw c f).2.2 h howner

/-! ## Reclamation -/

/-- Every slot that is not free is owned by an open channel, or in the visible set of one. -/
def Reclaimable (b : Broker) : Prop :=
  ∀ i s, b.frames.slots[i]? = some s → s.lifecycle ≠ .free →
    (∃ c, s.owner = some c ∧ b.isOpen c) ∨ ∃ d, b.Seen d ⟨UInt32.ofNat i, s.generation⟩

theorem reclaimable_iff (hw : b.Wf) :
    b.Reclaimable ↔ ∀ f, b.frames.state f = some .crashed → ∃ d, b.Seen d f := by
  constructor
  · intro h f hcrashed
    obtain ⟨s, hs, hlife⟩ := state_eq_crashed.mp hcrashed
    obtain ⟨hslot, hgen, hfree⟩ := FrameTree.at?_eq_some.mp hs
    rcases h _ s hslot hfree with ⟨c, howner, -⟩ | ⟨d, hseen⟩
    · have hlive := (hw.frames.live_iff f s hs).mpr (by rw [howner]; rfl)
      rw [hlife] at hlive
      cases hlive
    · have hf : (⟨UInt32.ofNat f.index.toNat, s.generation⟩ : FrameId) = f :=
        frameId_eq (toNat_ofNat (UInt32.toNat_lt f.index)) hgen
      rw [hf] at hseen
      exact ⟨d, hseen⟩
  · intro h i s hs hfree
    have hlt : i < 2 ^ 32 :=
      Nat.lt_of_lt_of_le (List.getElem?_eq_some_iff.mp hs).1 hw.frames.length_le
    have hat := FrameTree.at?_handle hlt hs hfree
    cases hlife : s.lifecycle with
    | free => exact absurd hlife hfree
    | crashed => exact .inr (h _ (state_eq_crashed.mpr ⟨s, hat, hlife⟩))
    | live =>
        obtain ⟨c, hc⟩ := Option.isSome_iff_exists.mp ((hw.frames.live_iff _ s hat).mp hlife)
        exact .inl ⟨c, hc, hw.owner_open _ c (FrameTree.owner_eq_some.mpr ⟨s, hat, hc⟩)⟩

/-- A frame that the end of the channel leaves without an owner is in the visible set of
another open channel. -/
def Spares (b : Broker) : Op → Prop
  | .closeChannel c => ∀ f, b.frames.state f = some .crashed → ¬ b.frames.Embedded c f →
      ∃ d, d ≠ c ∧ b.Seen d f
  | .channelDied c => ∀ f, b.frames.state f = some .crashed ∨ b.frames.owner f = some c →
      ¬ b.frames.Embedded c f → ∃ d, d ≠ c ∧ b.Seen d f
  | _ => True

/-- A change crashes no frame, and a crashed frame that is seen is seen after it. -/
theorem crashed_change (hw : b.Wf) (h : Change b b') (hcrashed : b'.frames.state f = some .crashed) :
    b.frames.state f = some .crashed ∧ (b.Seen d f → b'.Seen d f) := by
  obtain ⟨s', hs', hlife⟩ := state_eq_crashed.mp hcrashed
  cases h with
  | still _ h =>
      cases h with
      | rests _ h =>
          rw [h.frames.at?] at hs'
          refine ⟨state_eq_crashed.mpr ⟨s', hs', hlife⟩, fun hseen => ?_⟩
          unfold Seen
          rw [h.capabilities]
          exact hseen
      | opened next h =>
          refine ⟨hcrashed, fun ⟨caps, hcaps, hmem⟩ => ⟨caps, ?_, hmem⟩⟩
          have hlt := hw.channel_lt d (isOpen_iff.mpr ⟨caps, hcaps⟩)
          have hne : d ≠ ⟨b.nextChannel⟩ := by
            rintro rfl
            exact absurd hlt (Nat.lt_irrefl _)
          show (b.capabilities.insert ⟨b.nextChannel⟩ ChannelCaps.empty).lookup d = some caps
          rw [AList.lookup_insert_ne hne, hcaps]
      | made c frames g hopen h =>
          rw [frames_withCaps] at hs'
          have hs' : frames.at? f = some s' := hs'
          refine ⟨?_, fun hseen => seen_withCaps (fun caps => Finset.subset_insert g _) hseen⟩
          cases h with
          | made parent depth ordinal group _ _ hplaced h =>
              obtain ⟨-, rfl⟩ | ⟨-, hold⟩ := h.cases hs'
              · cases hlife
              · exact state_eq_crashed.mpr ⟨s', hold, hlife⟩
  | committed g origin s hs hlive =>
      refine ⟨?_, fun hseen => hseen⟩
      rw [at?_committed hs] at hs'
      split at hs'
      · cases hs'
        have hlife : s.lifecycle = .crashed := hlife
        rw [hlive] at hlife
        cases hlife
      · exact state_eq_crashed.mpr ⟨s', hs', hlife⟩
  | registered group key c pool hopen h => exact ⟨hcrashed, fun hseen => hseen⟩
  | moved g source target _ h =>
      obtain ⟨s, hs, howner, hat⟩ := h.at?
      have hlive := (hw.frames.live_iff g s hs).mpr (by rw [howner]; rfl)
      rw [hat] at hs'
      split at hs'
      · cases hs'
        have hlife : s.lifecycle = .crashed := hlife
        rw [hlive] at hlife
        cases hlife
      · rename_i hne
        refine ⟨state_eq_crashed.mpr ⟨s', hs', hlife⟩, fun ⟨caps, hcaps, hmem⟩ => ?_⟩
        obtain ⟨caps', hcaps', hvisible⟩ := h.mem_visible hcaps
        exact ⟨caps', hcaps', (hvisible f).mpr (.inr ⟨hmem, fun heq => hne heq.1⟩)⟩
  | saw viewer g howner =>
      rw [frames_withCaps] at hcrashed
      exact ⟨hcrashed, fun hseen => seen_withCaps (fun caps => Finset.subset_insert g _) hseen⟩

/-- Every crashed frame is seen by an open channel. -/
def CrashedSeen (b : Broker) : Prop := ∀ f, b.frames.state f = some .crashed → ∃ d, b.Seen d f

theorem crashedSeen_changes (hw : b.Wf) (h : Relation.ReflTransGen Change b b') (hb : b.CrashedSeen) :
    b'.CrashedSeen := by
  induction h with
  | refl => exact hb
  | tail hbefore h ih =>
      intro f hcrashed
      have hw' := hw.changes hbefore
      obtain ⟨d, hseen⟩ := ih f (crashed_change (d := ⟨0⟩) hw' h hcrashed).1
      exact ⟨d, (crashed_change hw' h hcrashed).2 hseen⟩

/-- Where these frames are crashed after the end of a channel, other channels have to see them. -/
theorem crashedSeen_afterEnd {frames : FrameTree} {P : FrameId → Prop} (hstate : ∀ f,
    frames.state f = some .crashed ↔ P f ∧ ¬ b.frames.Embedded c f) :
    (b.afterEnd c frames).CrashedSeen ↔ ∀ f, P f → ¬ b.frames.Embedded c f → ∃ d, d ≠ c ∧ b.Seen d f := by
  constructor
  · intro h f hold hsafe
    obtain ⟨d, hseen⟩ := h f ((hstate f).mpr ⟨hold, hsafe⟩)
    obtain ⟨hd, hseen, -⟩ := seen_afterEnd.mp hseen
    exact ⟨d, hd, hseen⟩
  · intro h f hcrashed
    obtain ⟨hold, hsafe⟩ := (hstate f).mp hcrashed
    obtain ⟨d, hd, hseen⟩ := h f hold hsafe
    obtain ⟨s, hs, -⟩ := state_eq_crashed.mp hcrashed
    refine ⟨d, seen_afterEnd.mpr ⟨hd, hseen, ?_⟩⟩
    rw [FrameTree.exists?_eq]
    exact Option.isSome_iff_exists.mpr ⟨s, hs⟩

theorem crashedSeen_closeChannel (hw : b.Wf) (c : ChannelId) :
    (b.closeChannel c).CrashedSeen ↔ b.Spares (.closeChannel c) := by
  have hstate : ∀ f, (b.closeChannel c).frames.state f = some .crashed ↔
      b.frames.state f = some .crashed ∧ ¬ b.frames.Embedded c f := by
    intro f
    obtain ⟨hgone, hkept⟩ := at?_closeChannel hw c f
    simp only [state_eq_crashed]
    constructor
    · rintro ⟨s, hs, hlife⟩
      by_cases hout : b.frames.Embedded c f ∨ b.frames.owner f = some c
      · rw [hgone hout] at hs
        cases hs
      · exact ⟨⟨s, hkept hout ▸ hs, hlife⟩, fun h => hout (.inl h)⟩
    · rintro ⟨⟨s, hs, hlife⟩, hsafe⟩
      refine ⟨s, ?_, hlife⟩
      rw [hkept, hs]
      rintro (h | howner)
      · exact hsafe h
      · obtain ⟨s', hs', hlive, -⟩ := hw.frames.owner_live howner
        rw [hs] at hs'
        cases hs'
        rw [hlife] at hlive
        cases hlive
  exact crashedSeen_afterEnd hstate

theorem crashedSeen_channelDied (hw : b.Wf) (c : ChannelId) :
    (b.channelDied c).1.CrashedSeen ↔ b.Spares (.channelDied c) := by
  have hstate : ∀ f, (b.channelDied c).1.frames.state f = some .crashed ↔
      (b.frames.state f = some .crashed ∨ b.frames.owner f = some c) ∧ ¬ b.frames.Embedded c f := by
    intro f
    obtain ⟨hgone, hcrashed, hkept⟩ := at?_channelDied hw c f
    simp only [state_eq_crashed]
    constructor
    · rintro ⟨s, hs, hlife⟩
      by_cases hembedded : b.frames.Embedded c f
      · rw [hgone hembedded] at hs
        cases hs
      · refine ⟨?_, hembedded⟩
        by_cases howner : b.frames.owner f = some c
        · exact .inr howner
        · exact .inl ⟨s, hkept hembedded howner ▸ hs, hlife⟩
    · rintro ⟨hold, hsafe⟩
      by_cases howner : b.frames.owner f = some c
      · obtain ⟨s, hs, -⟩ := hw.frames.owner_live howner
        exact ⟨s.crash, by rw [hcrashed hsafe howner, hs]; rfl, rfl⟩
      · obtain ⟨s, hs, hlife⟩ := hold.resolve_right howner
        exact ⟨s, by rw [hkept hsafe howner, hs], hlife⟩
  exact crashedSeen_afterEnd hstate

theorem reclaimable_step (hw : b.Wf) (op : Op) (hb : b.Reclaimable) :
    (b.step op).Reclaimable ↔ b.Spares op := by
  rw [reclaimable_iff (hw.step op)]
  obtain ⟨c, rfl | rfl⟩ | ⟨hop, h⟩ := step_changes hw.owner_open op
  · exact crashedSeen_closeChannel hw c
  · exact crashedSeen_channelDied hw c
  · have hseen := crashedSeen_changes hw h ((reclaimable_iff hw).mp hb)
    refine iff_of_true hseen ?_
    cases op with
    | closeChannel c => exact absurd rfl (hop c).1
    | channelDied c => exact absurd rfl (hop c).2
    | _ => trivial

theorem reclaimable_new : new.Reclaimable := by
  intro i s hs
  cases hs

/-- In every state of every run the death of a channel is exact; and no slot is lost in the run
exactly if every end of a channel in it spares what it leaves without an owner. -/
theorem crash_exact_iff (ops : List Op) :
    ((∀ c, (run ops).DeathExact c) ∧ ∀ pre post, ops = pre ++ post → (run pre).Reclaimable) ↔
      ∀ pre op post, ops = pre ++ op :: post → (run pre).Spares op := by
  have hrun : (∀ pre post, ops = pre ++ post → (run pre).Reclaimable) ↔
      ∀ pre op post, ops = pre ++ op :: post → (run pre).Spares op :=
    prefixes_iff_steps (P := fun pre => (run pre).Reclaimable) (D := fun _ _ => True) reclaimable_new
      (fun past op _ hb => by rw [run_snoc]; exact reclaimable_step (wf_run past) op hb)
      fun _ _ _ _ => trivial
  rw [← hrun]
  exact and_iff_right fun c => (wf_run ops).deathExact c

/-- The crash of a top-level frame. -/
theorem crash_leaks : ¬ (run [.openChannel, .createFrame ⟨0⟩, .channelDied ⟨0⟩]).Reclaimable := by
  intro h
  have hslot : (run [.openChannel, .createFrame ⟨0⟩, .channelDied ⟨0⟩]).frames.slots[0]? =
      some (FrameSlot.new ⟨0⟩ none 0 none ⟨0⟩ 0).crash := rfl
  rcases h 0 _ hslot Lifecycle.noConfusion with ⟨c, howner, -⟩ | ⟨d, caps, hcaps, -⟩
  · cases howner
  · have hnone : (run [.openChannel, .createFrame ⟨0⟩, .channelDied ⟨0⟩]).capabilities.keys = [] := rfl
    have hmem : d ∈ (run [.openChannel, .createFrame ⟨0⟩, .channelDied ⟨0⟩]).capabilities.keys := by
      rw [← AList.mem_keys, ← AList.lookup_isSome, hcaps]
      rfl
    rw [hnone] at hmem
    cases hmem

end Broker

namespace FrameTree

variable {t : FrameTree} {f g : FrameId} {s s' : FrameSlot} {c : ChannelId}

/-! ## Destroying a frame -/

def destroy (t : FrameTree) (owner : ChannelId) (frame : FrameId) : FrameTree × Bool :=
  match t.at? frame with
  | none => (t, false)
  | some slot =>
      if slot.lifecycle = .live ∧ slot.owner = some owner then
        (t.freeIndices (t.descendants {frame.index.toNat} ∪ {frame.index.toNat}), true)
      else (t, false)

/-- The loop of `is_ancestor`. -/
def isAncestorIn (t : FrameTree) (ancestor : FrameId) : Nat → FrameId → Bool
  | 0, _ => false
  | n + 1, frame =>
      match t.parent frame with
      | none => false
      | some p => if p = ancestor then (t.state ancestor).isSome else isAncestorIn t ancestor n p

def isAncestor (t : FrameTree) (ancestor frame : FrameId) : Bool :=
  t.isAncestorIn ancestor (MAX_FRAME_DEPTH + 1) frame

/-- The loop answers for any depth if it may take more steps than the frame is deep. -/
theorem isAncestorIn_iff (hw : t.Wf) (hf : t.at? f = some s) : ∀ {n : Nat} {g : FrameId} {s' : FrameSlot},
    t.at? g = some s' → s'.depth.toNat < n →
      (t.isAncestorIn f n g = true ↔ g.index.toNat ∈ t.descendants {f.index.toNat})
  | n + 1, g, s', hg, hdepth => by
      rw [mem_descendants, isAncestorIn]
      cases hparent : t.parent g with
      | none =>
          refine iff_of_false Bool.false_ne_true fun hbelow => ?_
          obtain ⟨q, hq, -⟩ := hbelow.embeds
          obtain ⟨p, hp, -⟩ := (embeds_iff hg).mp hq
          rw [parent_eq_some.mpr ⟨s', hg, hp⟩] at hparent
          cases hparent
      | some p =>
          obtain ⟨a, ha, hp⟩ := parent_eq_some.mp hparent
          obtain rfl := Option.some.inj (hg.symm.trans ha)
          obtain ⟨sp, hsp, hlive, -, hdeeper⟩ := hw.parent g s' p hg hp
          have hembeds := (embeds_iff hg).mpr ⟨p, hp, ⟨sp, hsp⟩, rfl⟩
          by_cases heq : p = f
          · subst heq
            refine iff_of_true ?_ (.of_embeds (.inl (Finset.mem_singleton_self _)) hembeds)
            dsimp only
            rw [if_pos rfl, state_eq_live.mpr ⟨sp, hsp, hlive⟩]
            rfl
          · dsimp only
            rw [if_neg heq, isAncestorIn_iff hw hf hsp (by omega), mem_descendants]
            refine ⟨fun h => .of_embeds (.inr h) hembeds, fun h => ?_⟩
            obtain ⟨q, hq, hseed⟩ := h.embeds
            obtain ⟨p', hp', -, rfl⟩ := (embeds_iff hg).mp hq
            obtain rfl := Option.some.inj (hp.symm.trans hp')
            exact hseed.resolve_left fun hmem =>
              heq (eq_of_index hsp hf (UInt32.toNat_inj.mp (Finset.mem_singleton.mp hmem)))

theorem destroy_of_owner (hw : t.Wf) (h : t.owner f = some c) :
    t.destroy c f = (t.freeIndices (t.descendants {f.index.toNat} ∪ {f.index.toNat}), true) := by
  obtain ⟨s, hs, hlive, howner⟩ := hw.owner_live h
  unfold destroy
  rw [hs]
  exact if_pos ⟨hlive, howner⟩

theorem destroy_of_stranger (h : t.owner f ≠ some c) : t.destroy c f = (t, false) := by
  unfold destroy
  cases hs : t.at? f with
  | none => rfl
  | some s => exact if_neg fun hs' => h (owner_eq_some.mpr ⟨s, hs, hs'.2⟩)

theorem at?_destroy (hw : t.Wf) (h : t.owner f = some c) (g : FrameId) :
    (t.destroy c f).1.at? g = if g = f ∨ t.isAncestor f g = true then none else t.at? g := by
  rw [destroy_of_owner hw h, at?_freeIndices]
  cases hg : t.at? g with
  | none => simp
  | some s' =>
      obtain ⟨s, hs, -⟩ := hw.owner_live h
      have hancestor : t.isAncestor f g = true ↔ _ := isAncestorIn_iff hw hs hg (Nat.lt_succ_of_le (hw.depth_le g s' hg))
      have hself : g.index.toNat = f.index.toNat ↔ g = f :=
        ⟨fun heq => eq_of_index hg hs (UInt32.toNat_inj.mp heq), fun heq => by rw [heq]⟩
      simp only [Finset.mem_union, Finset.mem_singleton, hancestor, hself, or_comm]

end FrameTree

/-- DESTROYING A FRAME in a state that was reached takes away the frame and those that it is an ancestor of, if
its owner asks, and leaves every other handle and the shape of the tree as they were; nobody else changes anything. -/
theorem Broker.destroy_exact (ops : List Broker.Op) (c : ChannelId) (f : FrameId) :
    let t := (Broker.run ops).frames
    (t.destroy c f).1.Wf ∧ ((t.destroy c f).2 = true ↔ t.owner f = some c) ∧
      ∀ g, (t.destroy c f).1.at? g =
        if t.owner f = some c ∧ (g = f ∨ t.isAncestor f g = true) then none else t.at? g := by
  intro t
  have hw : t.Wf := (Broker.wf_run ops).frames
  by_cases h : t.owner f = some c
  · refine ⟨?_, ?_, fun g => ?_⟩
    · rw [FrameTree.destroy_of_owner hw h]
      exact hw.shrink (FrameTree.shrinks_freed hw _)
    · rw [FrameTree.destroy_of_owner hw h]
      exact iff_of_true rfl h
    · simp only [FrameTree.at?_destroy hw h, h, true_and]
  · rw [FrameTree.destroy_of_stranger h]
    exact ⟨hw, by simp [h], fun g => by simp [h]⟩

end Pelorus.Broker
