import Pelorus.Broker.Embedding

/-
  Broker/Tree.lean --- the shape of the frame tree, kept by every operation on it.

      Wf             a frame's parent is live, one level up, in the same group; depths,
                     siblings and ordinals are within their limits
      Wf.minted      a new top-level frame, or a new child that the checks of
                     `create_child` let through
      Wf.shrink      a change in place, or a removal that leaves no frame without its
                     parent
-/
set_option autoImplicit false

namespace Pelorus.Broker

open Ipc (FrameId)

/-- What a frame keeps for as long as its handle resolves. -/
structure SameFrame (s s' : FrameSlot) : Prop where
  parent : s'.parent = s.parent
  depth : s'.depth = s.depth
  ordinal : s'.ordinal = s.ordinal
  group : s'.group = s.group

theorem SameFrame.refl (s : FrameSlot) : SameFrame s s := ⟨rfl, rfl, rfl, rfl⟩

theorem SameFrame.trans {s s' s'' : FrameSlot} (h : SameFrame s s') (h' : SameFrame s' s'') :
    SameFrame s s'' :=
  ⟨h'.parent.trans h.parent, h'.depth.trans h.depth, h'.ordinal.trans h.ordinal,
    h'.group.trans h.group⟩

namespace FrameTree

variable {t t' : FrameTree} {f g p : FrameId} {s s' : FrameSlot} {c : ChannelId}

/-- The shape of the frame tree. -/
structure Wf (t : FrameTree) : Prop where
  length_le : t.slots.length ≤ 2 ^ 32
  live_iff : ∀ f s, t.at? f = some s → (s.lifecycle = .live ↔ s.owner.isSome)
  parent : ∀ f s p, t.at? f = some s → s.parent = some p → ∃ sp, t.at? p = some sp ∧
    sp.lifecycle = .live ∧ sp.group = s.group ∧ s.depth.toNat = sp.depth.toNat + 1
  depth_le : ∀ f s, t.at? f = some s → s.depth.toNat ≤ MAX_FRAME_DEPTH
  ordinals : ∀ f g s s' p, t.at? f = some s → t.at? g = some s' → s.parent = some p →
    s'.parent = some p → s.ordinal = s'.ordinal → f = g
  children_le : ∀ p, (t.children p).length ≤ MAX_CHILDREN_PER_FRAME

theorem at?_empty (f : FrameId) : empty.at? f = none := rfl

theorem wf_empty : empty.Wf where
  length_le := Nat.zero_le _
  live_iff f s h := by rw [at?_empty] at h; cases h
  parent f s p h := by rw [at?_empty] at h; cases h
  depth_le f s h := by rw [at?_empty] at h; cases h
  ordinals f g s s' p h := by rw [at?_empty] at h; cases h
  children_le p := Nat.zero_le _

namespace Wf

theorem linked (hw : t.Wf) : t.Linked where
  length_le := hw.length_le
  resolves f s p hs hp := by
    obtain ⟨sp, hsp, -⟩ := hw.parent f s p hs hp
    exact ⟨sp, hsp⟩

theorem owner_live (hw : t.Wf) (h : t.owner f = some c) :
    ∃ s, t.at? f = some s ∧ s.lifecycle = .live ∧ s.owner = some c := by
  obtain ⟨s, hs, howner⟩ := owner_eq_some.mp h
  exact ⟨s, hs, (hw.live_iff f s hs).mpr (by rw [howner]; rfl), howner⟩

theorem retired (hw : t.Wf) (h : Retired t t') : t'.Wf where
  length_le := by rw [length_forall₂ h.1]; exact hw.length_le
  live_iff f s := by rw [h.at?]; exact hw.live_iff f s
  parent f s p := by rw [h.at?, h.at?]; exact hw.parent f s p
  depth_le f s := by rw [h.at?]; exact hw.depth_le f s
  ordinals f g s s' p := by rw [h.at?, h.at?]; exact hw.ordinals f g s s' p
  children_le p := by rw [h.children]; exact hw.children_le p

end Wf

theorem mem_children (hs : t.at? f = some s) (hp : s.parent = some p) : s ∈ t.children p := by
  obtain ⟨hslot, -, hfree⟩ := at?_eq_some.mp hs
  exact List.mem_filter.mpr ⟨List.mem_of_getElem? hslot, by simpa using ⟨hfree, hp⟩⟩

/-- What the checks before `alloc` establish about a new frame. -/
inductive Placed (t : FrameTree) (owner : ChannelId) :
    Option FrameId → UInt8 → Option UInt32 → GroupId → Prop where
  | top (group : GroupId) : Placed t owner none 0 none group
  | child (p : FrameId) (sp : FrameSlot) (depth : UInt8) (ordinal : UInt32) (hp : t.at? p = some sp)
      (hlive : sp.lifecycle = .live) (howner : sp.owner = some owner)
      (hdepth : depth.toNat = sp.depth.toNat + 1)
      (hmax : depth.toNat ≤ MAX_FRAME_DEPTH)
      (hordinal : ∀ s ∈ t.children p, s.ordinal ≠ some ordinal)
      (hroom : (t.children p).length < MAX_CHILDREN_PER_FRAME) :
      Placed t owner (some p) depth (some ordinal) sp.group

theorem Minted.at?_self {new : UInt32 → FrameSlot} (hm : Minted new t t' f) :
    t'.at? f = some (new f.generation) := by rw [hm.at?, if_pos rfl]

theorem Minted.at?_other {new : UInt32 → FrameSlot} (hm : Minted new t t' f) (hg : t.at? g = some s) :
    t'.at? g = some s := by
  rw [hm.at?, if_neg, hg]
  rintro rfl
  exact hm.fresh (spent_of_at? hg)

theorem Minted.cases {new : UInt32 → FrameSlot} (hm : Minted new t t' f) (hg : t'.at? g = some s) :
    (g = f ∧ s = new f.generation) ∨ (g ≠ f ∧ t.at? g = some s) := by
  rw [hm.at?] at hg
  split at hg
  · rename_i hgf
    cases hg
    exact .inl ⟨hgf, rfl⟩
  · rename_i hgf
    exact .inr ⟨hgf, hg⟩

theorem Wf.minted (hw : t.Wf) {owner : ChannelId} {parent : Option FrameId} {depth : UInt8}
    {ordinal : Option UInt32} {group : GroupId} (hplaced : Placed t owner parent depth ordinal group)
    (hm : Minted (FrameSlot.new owner parent depth ordinal group) t t' f) : t'.Wf where
  length_le := hm.length hw.length_le
  live_iff g s hg := by
    obtain ⟨-, rfl⟩ | ⟨-, hg⟩ := hm.cases hg
    · simp [FrameSlot.new]
    · exact hw.live_iff g s hg
  parent g s p hg hp := by
    obtain ⟨-, rfl⟩ | ⟨-, hg⟩ := hm.cases hg
    · cases hplaced with
      | top => cases hp
      | child p' sp depth ordinal hp' hlive howner hdepth hmax hordinal hroom =>
          cases hp
          exact ⟨sp, hm.at?_other hp', hlive, rfl, hdepth⟩
    · obtain ⟨sp, hsp, hrest⟩ := hw.parent g s p hg hp
      exact ⟨sp, hm.at?_other hsp, hrest⟩
  depth_le g s hg := by
    obtain ⟨-, rfl⟩ | ⟨-, hg⟩ := hm.cases hg
    · cases hplaced with
      | top => exact Nat.zero_le _
      | child p sp depth ordinal hp hlive howner hdepth hmax hordinal hroom => exact hmax
    · exact hw.depth_le g s hg
  ordinals g g' s s' p hg hg' hp hp' hordinal := by
    have hclash : ∀ h s, t.at? h = some s → parent = some p → s.parent = some p → s.ordinal ≠ ordinal := by
      intro h s hs hparent hsp
      cases hplaced with
      | top => cases hparent
      | child p' sp depth ordinal hp' hlive howner hdepth hmax hordinal hroom =>
          cases hparent
          exact hordinal s (mem_children hs hsp)
    obtain ⟨rfl, rfl⟩ | ⟨-, hg⟩ := hm.cases hg
    · obtain ⟨rfl, rfl⟩ | ⟨-, hg'⟩ := hm.cases hg'
      · rfl
      · exact absurd hordinal.symm (hclash g' s' hg' hp hp')
    · obtain ⟨rfl, rfl⟩ | ⟨-, hg'⟩ := hm.cases hg'
      · exact absurd hordinal (hclash g s hg hp' hp)
      · exact hw.ordinals g g' s s' p hg hg' hp hp' hordinal
  children_le p := by
    rw [hm.children]
    split
    · rename_i hp
      cases hplaced with
      | top => cases hp
      | child p' sp depth ordinal hp' hlive howner hdepth hmax hordinal hroom =>
          cases hp
          exact hroom
    · exact hw.children_le p

/-- Frames were changed in place or removed, and none was left without its parent. -/
structure Shrinks (t t' : FrameTree) : Prop where
  length : t'.slots.length ≤ t.slots.length
  children : ∀ p, (t'.children p).length ≤ (t.children p).length
  same : ∀ f s', t'.at? f = some s' → ∃ s, t.at? f = some s ∧ SameFrame s s' ∧
    (s'.lifecycle = .live ↔ s'.owner.isSome)
  parent : ∀ f s' p, t'.at? f = some s' → s'.parent = some p →
    ∃ sp', t'.at? p = some sp' ∧ sp'.lifecycle = .live

theorem Wf.shrink (hw : t.Wf) (h : Shrinks t t') : t'.Wf where
  length_le := Nat.le_trans h.length hw.length_le
  live_iff f s' hs' := by
    obtain ⟨s, -, -, hlive⟩ := h.same f s' hs'
    exact hlive
  parent f s' p hs' hp := by
    obtain ⟨s, hs, hsame, -⟩ := h.same f s' hs'
    obtain ⟨sp', hsp', hlive⟩ := h.parent f s' p hs' hp
    obtain ⟨sp, hsp, hsame', -⟩ := h.same p sp' hsp'
    obtain ⟨sp'', hsp'', -, hgroup, hdepth⟩ := hw.parent f s p hs (hsame.parent ▸ hp)
    rw [hsp] at hsp''
    cases hsp''
    refine ⟨sp', hsp', hlive, ?_, ?_⟩
    · rw [hsame'.group, hsame.group, hgroup]
    · rw [hsame'.depth, hsame.depth, hdepth]
  depth_le f s' hs' := by
    obtain ⟨s, hs, hsame, -⟩ := h.same f s' hs'
    rw [hsame.depth]
    exact hw.depth_le f s hs
  ordinals f g s' s'' p hs' hs'' hp hp' hordinal := by
    obtain ⟨a, ha, hsame, -⟩ := h.same f s' hs'
    obtain ⟨b, hb, hsame', -⟩ := h.same g s'' hs''
    exact hw.ordinals f g a b p ha hb (hsame.parent ▸ hp) (hsame'.parent ▸ hp')
      (by rw [← hsame.ordinal, ← hsame'.ordinal, hordinal])
  children_le p := Nat.le_trans (h.children p) (hw.children_le p)

/-! ## The operations -/

/-- What a function that makes frames did. -/
inductive Makes (t : FrameTree) (owner : ChannelId) : FrameTree → Option FrameId → Prop where
  | nothing (t' : FrameTree) (h : Retired t t') (hfull : t' = t ∨ 2 ^ 32 ≤ t.slots.length) :
      Makes t owner t' none
  | made (parent : Option FrameId) (depth : UInt8) (ordinal : Option UInt32) (group : GroupId)
      (t' : FrameTree) (f : FrameId) (hplaced : Placed t owner parent depth ordinal group)
      (h : Minted (FrameSlot.new owner parent depth ordinal group) t t' f) : Makes t owner t' (some f)

theorem retired_refl (t : FrameTree) : Retired t t := ⟨forall₂_refl _, rfl⟩

theorem alloc_new (t : FrameTree) (owner : ChannelId) (parent : Option FrameId) (depth : UInt8)
    (ordinal : Option UInt32) (group : GroupId) :
    Alloc (FrameSlot.new owner parent depth ordinal group) t
      (t.alloc (FrameSlot.new owner parent depth ordinal group)) :=
  alloc_spec t (fun _ => rfl) fun _ => rfl

theorem create_spec (t : FrameTree) (owner : ChannelId) :
    Makes t owner (t.create owner).1 (t.create owner).2 := by
  unfold create
  cases succU64 t.nextGroup with
  | none => exact .nothing _ (retired_refl t) (.inl rfl)
  | some next =>
      have halloc := alloc_new t owner none 0 none ⟨t.nextGroup⟩
      generalize t.alloc (FrameSlot.new owner none 0 none ⟨t.nextGroup⟩) = result at halloc
      cases halloc with
      | full t' h hfull => exact .nothing _ h (.inr hfull)
      | minted t' f h =>
          exact .made none 0 none _ _ f (.top _) ⟨h.at?, h.fresh, h.spent, h.length, h.children⟩

theorem createChild_spec (t : FrameTree) (owner : ChannelId) (parent : FrameId) (ordinal : UInt32) :
    Makes t owner (t.createChild owner parent ordinal).1
      (t.createChild owner parent ordinal).2.toOption := by
  unfold createChild
  split
  · exact .nothing _ (retired_refl t) (.inl rfl)
  · rename_i slot hslot
    split
    · exact .nothing _ (retired_refl t) (.inl rfl)
    · rename_i hheld
      split
      · exact .nothing _ (retired_refl t) (.inl rfl)
      · rename_i depth hdepth
        split
        · exact .nothing _ (retired_refl t) (.inl rfl)
        · rename_i hmax
          split
          · exact .nothing _ (retired_refl t) (.inl rfl)
          · rename_i hordinal
            split
            · exact .nothing _ (retired_refl t) (.inl rfl)
            · rename_i hroom
              rw [not_or, not_not, not_not] at hheld
              have hplaced : Placed t owner (some parent) depth (some ordinal) slot.group :=
                .child parent slot depth ordinal hslot hheld.1 hheld.2 (succU8_toNat hdepth)
                  (Nat.not_lt.mp hmax) (by simpa using hordinal) (Nat.not_le.mp hroom)
              have halloc := alloc_new t owner (some parent) depth (some ordinal) slot.group
              generalize t.alloc _ = result at halloc
              cases halloc with
              | full t' h hfull => exact .nothing _ h (.inr hfull)
              | minted t' f h => exact .made _ _ _ _ _ f hplaced h

theorem Wf.makes (hw : t.Wf) {owner : ChannelId} {result : Option FrameId}
    (h : Makes t owner t' result) : t'.Wf := by
  cases h with
  | nothing _ h => exact hw.retired h
  | made parent depth ordinal group _ f hplaced h => exact hw.minted hplaced h

/-- A change in place of one frame that is live before and after. -/
theorem shrinks_modify (hw : t.Wf) {k : FrameSlot → FrameSlot} (hs : t.at? f = some s)
    (hgen : ∀ s, (k s).generation = s.generation) (hlife : ∀ s, (k s).lifecycle = s.lifecycle)
    (hsame : ∀ s, SameFrame s (k s)) (howner : (k s).owner.isSome ↔ s.owner.isSome) :
    Shrinks t (t.modify f k) := by
  have hparent : ∀ s, (k s).parent = s.parent := fun s => (hsame s).parent
  have hup := updated_modify hs hgen hlife hparent
  have hat := at?_modify hs hgen hlife hparent
  refine ⟨Nat.le_of_eq hup.length, hup.children_length_le, fun g s' hs' => ?_, fun g s' p hs' hp => ?_⟩
  · rw [hat] at hs'
    split at hs'
    · rename_i hgf
      cases hs'
      exact ⟨s, hgf ▸ hs, hsame s, by rw [hlife, hw.live_iff f s hs, howner]⟩
    · exact ⟨s', hs', .refl s', hw.live_iff g s' hs'⟩
  · have hold : ∃ sp, t.at? p = some sp ∧ sp.lifecycle = .live := by
      rw [hat] at hs'
      split at hs'
      · cases hs'
        obtain ⟨sp, hsp, hlive, -⟩ := hw.parent f s p hs (hparent s ▸ hp)
        exact ⟨sp, hsp, hlive⟩
      · obtain ⟨sp, hsp, hlive, -⟩ := hw.parent g s' p hs' hp
        exact ⟨sp, hsp, hlive⟩
    obtain ⟨sp, hsp, hlive⟩ := hold
    rw [hat]
    split
    · rename_i hpf
      rw [hpf, hs] at hsp
      cases hsp
      exact ⟨k s, rfl, (hlife s).trans hlive⟩
    · exact ⟨sp, hsp, hlive⟩

/-- What is embedded in one of the frames, or below them, is below them. -/
theorem Wf.below (hw : t.Wf) {seed : Finset Nat} (hs : t.at? f = some s) (hp : s.parent = some p)
    (h : p.index.toNat ∈ seed ∨ p.index.toNat ∈ t.descendants seed) : f.index.toNat ∈ t.descendants seed := by
  obtain ⟨sp, hsp, -⟩ := hw.parent f s p hs hp
  obtain ⟨hslot, -, hfree⟩ := at?_eq_some.mp hs
  have hembeds : t.Embeds p.index.toNat f.index.toNat := ⟨s, hslot, hfree, by
    rw [hp]
    exact resolve_of_at? hsp⟩
  exact mem_descendants.mpr (.of_embeds (h.imp_right mem_descendants.mp) hembeds)

/-- Frames are freed with all that is embedded in them. -/
theorem shrinks_freed (hw : t.Wf) (seed : Finset Nat) : Shrinks t (t.freeIndices (t.descendants seed ∪ seed)) := by
  have hup := updated_freeIndices (t := t) (t.descendants seed ∪ seed)
  refine ⟨Nat.le_of_eq hup.length, hup.children_length_le, fun f s' hs' => ?_, fun f s' p hs' hp => ?_⟩
  · rw [at?_freeIndices] at hs'
    split at hs'
    · cases hs'
    · exact ⟨s', hs', .refl s', hw.live_iff f s' hs'⟩
  · rw [at?_freeIndices] at hs'
    split at hs'
    · cases hs'
    · rename_i hkept
      obtain ⟨sp, hsp, hlive, -⟩ := hw.parent f s' p hs' hp
      refine ⟨sp, ?_, hlive⟩
      rw [at?_freeIndices, if_neg, hsp]
      intro hgone
      rw [Finset.mem_union] at hkept hgone
      exact hkept (.inl (hw.below hs' hp hgone.symm))

theorem shrinks_releaseAll (hw : t.Wf) (c : ChannelId) : Shrinks t (t.releaseAll c) :=
  shrinks_freed hw (t.ownedBy c)

theorem shrinks_crashChannel (hw : t.Wf) (c : ChannelId) : Shrinks t (t.crashChannel c).1 := by
  have hup := (crashChannel_spec hw.linked c).1
  refine ⟨Nat.le_of_eq hup.length, hup.children_length_le, fun f s' hs' => ?_, fun f s' p hs' hp => ?_⟩
  · rw [at?_crashChannel hw.linked] at hs'
    split at hs'
    · cases hs'
    · split at hs'
      · obtain ⟨s, hs, rfl⟩ := Option.map_eq_some_iff.mp hs'
        exact ⟨s, hs, ⟨rfl, rfl, rfl, rfl⟩, by simp [FrameSlot.crash]⟩
      · exact ⟨s', hs', .refl s', hw.live_iff f s' hs'⟩
  · rw [at?_crashChannel hw.linked] at hs'
    split at hs'
    · cases hs'
    · rename_i hkept
      have hold : ∃ s, t.at? f = some s ∧ s.parent = some p := by
        split at hs'
        · obtain ⟨s, hs, rfl⟩ := Option.map_eq_some_iff.mp hs'
          exact ⟨s, hs, hp⟩
        · exact ⟨s', hs', hp⟩
      obtain ⟨s, hs, hp⟩ := hold
      obtain ⟨sp, hsp, hlive, -⟩ := hw.parent f s p hs hp
      refine ⟨sp, ?_, hlive⟩
      rw [at?_crashChannel hw.linked, if_neg fun h => hkept (hw.below hs hp (.inr h)),
        if_neg fun h => hkept (hw.below hs hp (.inl h)), hsp]

end FrameTree

end Pelorus.Broker
