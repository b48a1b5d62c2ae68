import Pelorus.Broker.Commits

/-
  Broker/Sight.lean --- who sees an embedded frame.

  The channel of the embedding frame sees the frame that is embedded, and no channel
  does but that one, the frame's own, and those it was granted to.

  A MOVE of the embedding frame changes the channel that should see, and the sets only of
  the frame that moves.  So sight follows embedding in a run exactly if the frames embedded
  in a frame that moves are seen by the channel it moves to, and belong or were granted to
  the one that it leaves (`sight_iff`).
-/
set_option autoImplicit false
set_option linter.dupNamespace false

namespace Pelorus.Broker.Broker

open Lib Ipc
open Relation (ReflTransGen)

variable {b b' : Broker} {c d : ChannelId} {f p : FrameId} {granted : ChannelId → FrameId → Prop}

/-- Sight follows embedding, but for what was granted. -/
def SightFollows (b : Broker) (granted : ChannelId → FrameId → Prop) : Prop :=
  ∀ f p, b.frames.state f = some .live → b.frames.parent f = some p →
    b.frames.state p = some .live →
    (∀ o, b.frames.owner p = some o → b.canSee o f) ∧
    ∀ c, b.frames.owner f ≠ some c → b.frames.owner p ≠ some c → ¬ granted c f → b.canSee c f = false

theorem canSee_of_live (hw : b.Wf) (h : b.frames.state f = some .live) :
    b.canSee c f = true ↔ b.Seen c f := by
  obtain ⟨o, ho⟩ := live_owner hw h
  rw [canSee_iff, ho]
  exact and_iff_right rfl

/-- The same in terms of the visible sets. -/
theorem sightFollows_iff (hw : b.Wf) : b.SightFollows granted ↔
    ∀ f p, b.frames.state f = some .live → b.frames.parent f = some p → ∀ o, b.frames.owner p = some o →
      b.Seen o f ∧ ∀ c, b.frames.owner f ≠ some c → o ≠ c → b.Seen c f → granted c f := by
  constructor
  · intro h f p hlive hp o ho
    obtain ⟨hsees, hblind⟩ := h f p hlive hp (owner_live hw ho)
    refine ⟨(canSee_of_live hw hlive).mp (hsees o ho), fun c hf hc hseen => ?_⟩
    by_contra hnot
    have hfalse := hblind c hf (fun h => hc (Option.some.inj (ho.symm.trans h))) hnot
    rw [(canSee_of_live hw hlive).mpr hseen] at hfalse
    cases hfalse
  · intro h f p hlive hp hplive
    obtain ⟨o, ho⟩ := live_owner hw hplive
    obtain ⟨hsees, hblind⟩ := h f p hlive hp o ho
    constructor
    · intro o' ho'
      cases ho.symm.trans ho'
      exact (canSee_of_live hw hlive).mpr hsees
    · intro c hf hc hnot
      by_contra hseen
      have hseen := (canSee_of_live hw hlive).mp (by simpa using hseen)
      exact hnot (hblind c hf (fun h => hc (h ▸ ho)) hseen)

/-! ## What the changes do to sight -/

theorem sightFollows_congr (h : SameView b b') : b'.SightFollows granted ↔ b.SightFollows granted := by
  have hcanSee : ∀ c f, b'.canSee c f = b.canSee c f := by
    intro c f
    rw [Bool.eq_iff_iff, canSee_iff, canSee_iff, h.owner, h.seen]
  unfold SightFollows
  simp only [h.owner, h.parent, h.state, hcanSee]

variable {frames : FrameTree} {source target : ChannelId} {op : Op}

theorem seen_made (hw : b.Wf) (hopen : b.isOpen c) (h : FrameTree.Makes b.frames c frames (some f))
    (g : FrameId) :
    ({ b with frames }.withCaps c (.host f)).Seen d g ↔ if g = f then d = c else b.Seen d g := by
  have hfresh := (Wf.born h).fresh
  unfold Seen
  simp only [caps_withCaps, Option.map_eq_some_iff]
  constructor
  · rintro ⟨_, ⟨caps, hcaps, rfl⟩, hmem⟩
    have hold : g ∈ caps.visible → g ≠ f := by
      rintro hold rfl
      have hsome := hw.visible_exists d caps hcaps g hold
      rw [hfresh] at hsome
      cases hsome
    split at hmem
    · rename_i hd
      split
      · exact hd
      · rename_i hne
        exact ⟨caps, hcaps, (Finset.mem_insert.mp hmem).resolve_left hne⟩
    · rw [if_neg (hold hmem)]
      exact ⟨caps, hcaps, hmem⟩
  · intro hseen
    split at hseen
    · rename_i hg
      obtain ⟨caps, hcaps⟩ := isOpen_iff.mp hopen
      refine ⟨_, ⟨caps, hseen ▸ hcaps, rfl⟩, ?_⟩
      rw [if_pos hseen, hg]
      exact Finset.mem_insert_self f _
    · obtain ⟨caps, hcaps, hmem⟩ := hseen
      refine ⟨_, ⟨caps, hcaps, rfl⟩, ?_⟩
      split
      · exact Finset.mem_insert_of_mem hmem
      · exact hmem

/-- A new frame is seen by its owner alone, who owns the embedding frame. -/
theorem sight_made (hw : b.Wf) (hopen : b.isOpen c) (h : FrameTree.Makes b.frames c frames (some f))
    (hb : b.SightFollows granted) :
    ({ b with frames }.withCaps c (.host f)).SightFollows granted := by
  have hw' := hw.made hopen h
  have hborn := Wf.born h
  have hseen := fun d g => seen_made (d := d) hw hopen h g
  have hold := (sightFollows_iff hw).mp hb
  rw [sightFollows_iff hw', frames_withCaps]
  cases h with
  | made parent depth ordinal group _ _ hplaced h =>
      intro g p hlive hp o ho
      have hlive : frames.state g = some .live := hlive
      have hp : frames.parent g = some p := hp
      have ho : frames.owner p = some o := ho
      show _ ∧ ∀ d, frames.owner g ≠ some d → _
      rw [hborn.owner] at ho ⊢
      obtain ⟨s, hs, hsp⟩ := FrameTree.parent_eq_some.mp hp
      obtain ⟨rfl, rfl⟩ | ⟨hne, hs⟩ := h.cases hs
      · -- the new frame: its parent is a frame of the channel
        have hparent : parent = some p := hsp
        cases hplaced with
        | top => cases hparent
        | child q sq depth ordinal hq hqlive hqowner hdepth hmax hordinal hroom =>
            cases hparent
            have hne : p ≠ g := by
              rintro rfl
              exact h.fresh (FrameTree.spent_of_at? hq)
            rw [if_neg hne] at ho
            have hqowner : b.frames.owner p = some c := FrameTree.owner_eq_some.mpr ⟨sq, hq, hqowner⟩
            rw [hqowner] at ho
            cases ho
            refine ⟨(hseen _ _).mpr (by rw [if_pos rfl]), fun d hd hod hsees => ?_⟩
            have hsees := (hseen _ _).mp hsees
            rw [if_pos rfl] at hsees
            exact absurd hsees.symm hod
      · have hlive : b.frames.state g = some .live := by
          obtain ⟨s', hs', hlive⟩ := FrameTree.state_eq_live.mp hlive
          rw [h.at?_other hs] at hs'
          cases hs'
          exact FrameTree.state_eq_live.mpr ⟨s, hs, hlive⟩
        obtain ⟨sp, hsp', -⟩ := hw.frames.parent g s p hs hsp
        have hpne : p ≠ f := by
          rintro rfl
          exact h.fresh (FrameTree.spent_of_at? hsp')
        rw [if_neg hpne] at ho
        rw [if_neg hne]
        obtain ⟨hsees, hblind⟩ := hold g p hlive (FrameTree.parent_eq_some.mpr ⟨s, hs, hsp⟩) o ho
        refine ⟨(hseen _ _).mpr (by rw [if_neg hne]; exact hsees), fun d hd hod hsees => ?_⟩
        have hsees := (hseen _ _).mp hsees
        rw [if_neg hne] at hsees
        exact hblind d hd hod hsees

theorem sight_still (hw : b.Wf) (h : Still b b') (hb : b.SightFollows granted) :
    b'.SightFollows granted := by
  cases h with
  | rests _ h => exact (sightFollows_congr (sameView_rests h)).mpr hb
  | opened next h => exact (sightFollows_congr (sameView_opened hw next)).mpr hb
  | made c frames f hopen h => exact sight_made hw hopen h hb

theorem sight_stills (hw : b.Wf) (h : ReflTransGen Still b b') (hb : b.SightFollows granted) :
    b'.SightFollows granted ∧ b'.Wf := by
  induction h with
  | refl => exact ⟨hb, hw⟩
  | tail _ h ih => exact ⟨sight_still ih.2 h ih.1, ih.2.still h⟩

theorem sight_saw (hw : b.Wf) {viewer : ChannelId} (howner : (b.frames.owner f).isSome)
    (hb : b.SightFollows granted) : (b.withCaps viewer (.see f)).SightFollows fun c g =>
      granted c g ∨ (c = viewer ∧ g = f ∧ b.isOpen viewer) := by
  rw [sightFollows_iff (hw.saw viewer howner), frames_withCaps]
  rw [sightFollows_iff hw] at hb
  intro g p hlive hp o ho
  obtain ⟨hsees, hblind⟩ := hb g p hlive hp o ho
  refine ⟨seen_withCaps (fun caps => Finset.subset_insert f _) hsees, fun c hg hc hseen => ?_⟩
  obtain ⟨caps', hcaps', hmem⟩ := hseen
  rw [caps_withCaps] at hcaps'
  obtain ⟨caps, hcaps, rfl⟩ := Option.map_eq_some_iff.mp hcaps'
  split at hmem
  · rename_i hviewer
    rcases Finset.mem_insert.mp hmem with hgf | hmem
    · exact .inr ⟨hviewer, hgf, hviewer ▸ isOpen_iff.mpr ⟨caps, hcaps⟩⟩
    · exact .inl (hblind c hg hc ⟨caps, hcaps, hmem⟩)
  · exact .inl (hblind c hg hc ⟨caps, hcaps, hmem⟩)

theorem seen_moved (hw : b.Wf) (h : Moves b f source target b') (g : FrameId) : b'.Seen d g ↔
      (g = f ∧ (d = target ∨ (b.frames.parent f).bind b.frames.owner = some d)) ∨
      (b.Seen d g ∧ ¬ (g = f ∧ d = source)) := by
  constructor
  · rintro ⟨caps', hcaps', hmem⟩
    have hmap := h.caps d
    rw [hcaps'] at hmap
    obtain ⟨caps, hcaps, -⟩ := Option.map_eq_some_iff.mp hmap.symm
    obtain ⟨_, hcaps'', hvisible⟩ := h.mem_visible hcaps
    rw [hcaps'] at hcaps''
    cases hcaps''
    exact ((hvisible g).mp hmem).imp_right fun h => ⟨⟨caps, hcaps, h.1⟩, h.2⟩
  · intro hcase
    have hopen : b.isOpen d := by
      obtain ⟨-, rfl | howner⟩ | ⟨⟨caps, hcaps, -⟩, -⟩ := hcase
      · exact h.isOpen
      · obtain ⟨p, -, howner⟩ := Option.bind_eq_some_iff.mp howner
        exact hw.owner_open p d howner
      · exact isOpen_iff.mpr ⟨caps, hcaps⟩
    obtain ⟨caps, hcaps⟩ := isOpen_iff.mp hopen
    obtain ⟨caps', hcaps', hvisible⟩ := h.mem_visible hcaps
    refine ⟨caps', hcaps', (hvisible g).mpr (hcase.imp_right fun hold => ⟨?_, hold.2⟩)⟩
    obtain ⟨caps'', hcaps'', hmem⟩ := hold.1
    rw [hcaps] at hcaps''
    cases hcaps''
    exact hmem

/-- The frames embedded in a frame that moves are seen where it moves to, and belong or were
granted to the channel that it leaves. -/
def MovesWithSight (b : Broker) (granted : ChannelId → FrameId → Prop) (p : FrameId)
    (target : ChannelId) : Prop :=
  ∀ f, b.frames.state f = some .live → b.frames.parent f = some p →
    b.canSee target f ∧ ∀ source, b.frames.owner p = some source →
      b.frames.owner f = some source ∨ granted source f

theorem parent_ne (hw : b.Wf) (h : b.frames.parent f = some p) : f ≠ p := by
  rintro rfl
  obtain ⟨s, hs, hp⟩ := FrameTree.parent_eq_some.mp h
  obtain ⟨sp, hsp, -, -, hdepth⟩ := hw.frames.parent f s f hs hp
  rw [hs] at hsp
  cases hsp
  exact absurd hdepth (Nat.ne_of_lt (Nat.lt_succ_self _))

theorem state_moved (hw : b.Wf) (h : Moves b p source target b') (g : FrameId) :
    b'.frames.state g = some .live ↔ b.frames.state g = some .live := by
  have hw' := hw.moved h
  constructor
  · intro hlive
    obtain ⟨o, ho⟩ := live_owner hw' hlive
    rw [h.owner'] at ho
    split at ho
    · rename_i hg
      exact owner_live hw (hg ▸ h.owner)
    · exact owner_live hw ho
  · intro hlive
    obtain ⟨o, ho⟩ := live_owner hw hlive
    by_cases hg : g = p
    · exact owner_live hw' (o := target) (by rw [h.owner', if_pos hg])
    · exact owner_live hw' (o := o) (by rw [h.owner', if_neg hg, ho])

/-- Sight follows embedding through a move exactly if the frame moves with the sight of the
frames embedded in it. -/
theorem sight_moved (hw : b.Wf) (h : Moves b p source target b') (hb : b.SightFollows granted) :
    b'.SightFollows granted ↔ b.MovesWithSight granted p target := by
  have hw' := hw.moved h
  have hseen := fun d g => seen_moved (d := d) hw h g
  rw [sightFollows_iff hw']
  rw [sightFollows_iff hw] at hb
  constructor
  · intro hafter f hlive hp
    have hfp := parent_ne hw hp
    have howner : b'.frames.owner p = some target := by rw [h.owner', if_pos rfl]
    obtain ⟨hsees, hblind⟩ := hafter f p ((state_moved hw h f).mpr hlive) (by rw [h.parent, hp]) target
      howner
    have hkept : ∀ d, b'.Seen d f ↔ b.Seen d f := by
      intro d
      rw [hseen]
      simp [hfp]
    refine ⟨(canSee_of_live hw hlive).mpr ((hkept target).mp hsees), fun o ho => ?_⟩
    cases h.owner.symm.trans ho
    by_contra hneither
    rw [not_or] at hneither
    refine hneither.2 (hblind source ?_ h.distinct.symm ((hkept source).mpr (hb f p hlive hp _ h.owner).1))
    rw [h.owner', if_neg hfp]
    exact hneither.1
  · intro hcond f q hlive hq o ho
    rw [state_moved hw h] at hlive
    rw [h.parent] at hq
    have hfq := parent_ne hw hq
    rw [h.owner'] at ho
    by_cases hqp : q = p
    · -- the frame is embedded in the one that moved
      subst hqp
      rw [if_pos rfl] at ho
      cases ho
      obtain ⟨hsees, hleft⟩ := hcond f hlive hq
      have hkept : ∀ d, b'.Seen d f ↔ b.Seen d f := by
        intro d
        rw [hseen]
        simp [hfq]
      refine ⟨(hkept _).mpr ((canSee_of_live hw hlive).mp hsees), fun c hf hc hsees => ?_⟩
      rw [h.owner', if_neg hfq] at hf
      have hsees := (hkept c).mp hsees
      by_cases hcs : source = c
      · subst hcs
        exact (hleft source h.owner).resolve_left hf
      · exact (hb f q hlive hq source h.owner).2 c hf hcs hsees
    · rw [if_neg hqp] at ho
      obtain ⟨hsees, hblind⟩ := hb f q hlive hq o ho
      by_cases hfp : f = p
      · -- the frame moved, and the embedding frame did not
        subst hfp
        have hparentOwner : (b.frames.parent f).bind b.frames.owner = some o := by rw [hq]; exact ho
        refine ⟨(hseen o f).mpr (.inl ⟨rfl, .inr hparentOwner⟩), fun c hf hc hsees => ?_⟩
        rw [h.owner', if_pos rfl] at hf
        obtain ⟨-, rfl | howner⟩ | ⟨hsees, hleft⟩ := (hseen c f).mp hsees
        · exact absurd rfl hf
        · rw [hparentOwner] at howner
          exact absurd (Option.some.inj howner) hc
        · refine hblind c (fun howner => hleft ⟨rfl, ?_⟩) hc hsees
          rw [h.owner] at howner
          exact (Option.some.inj howner).symm
      · have hkept : ∀ d, b'.Seen d f ↔ b.Seen d f := by
          intro d
          rw [hseen]
          simp [hfp]
        refine ⟨(hkept o).mpr hsees, fun c hf hc hsees => ?_⟩
        rw [h.owner', if_neg hfp] at hf
        exact hblind c hf hc ((hkept c).mp hsees)

theorem sight_afterEnd (hw : b.Wf) (hshrinks : FrameTree.Shrinks b.frames frames)
    (howner : ∀ f d, frames.owner f = some d → d ≠ c ∧ b.frames.owner f = some d)
    (hb : b.SightFollows granted) : (b.afterEnd c frames).SightFollows granted := by
  have hw' : (b.afterEnd c frames).Wf := hw.ended c (hw.frames.shrink hshrinks) howner
  rw [sightFollows_iff hw']
  rw [sightFollows_iff hw] at hb
  intro f p hlive hp o ho
  obtain ⟨s', hs', hsp'⟩ := FrameTree.parent_eq_some.mp hp
  obtain ⟨s, hs, hsame, -⟩ := hshrinks.same f s' hs'
  have hp : b.frames.parent f = some p := FrameTree.parent_eq_some.mpr ⟨s, hs, hsame.parent ▸ hsp'⟩
  obtain ⟨of, hof'⟩ := live_owner hw' hlive
  have hof := (howner f of hof').2
  obtain ⟨hoc, ho⟩ := howner p o ho
  obtain ⟨hsees, hblind⟩ := hb f p (owner_live hw hof) hp o ho
  have hexists : frames.exists? f = true := by
    rw [FrameTree.exists?_eq]
    exact Option.isSome_iff_exists.mpr ⟨s', hs'⟩
  refine ⟨seen_afterEnd.mpr ⟨hoc, hsees, hexists⟩, fun d hd hod hseen => ?_⟩
  refine hblind d ?_ hod (seen_afterEnd.mp hseen).2.1
  rw [hof]
  rw [hof'] at hd
  exact hd

/-! ## Runs -/

/-- The frame was granted to the channel by `grant_visibility`. -/
def Granted (past : List Op) (viewer : ChannelId) (f : FrameId) : Prop :=
  ∃ pre post, past = pre ++ .grantVisibility viewer f :: post ∧
    ((run pre).grantVisibility viewer f).2 = true

theorem granted_snoc {past : List Op} {viewer : ChannelId} :
    Granted (past ++ [op]) viewer f ↔ Granted past viewer f ∨
      op = .grantVisibility viewer f ∧ ((run past).grantVisibility viewer f).2 = true := by
  constructor
  · rintro ⟨pre, post, heq, hyes⟩
    rcases List.eq_nil_or_concat post with rfl | ⟨post, last, rfl⟩
    · obtain ⟨rfl, hop⟩ := List.append_inj' heq rfl
      exact .inr ⟨(List.cons.inj hop).1, hyes⟩
    · refine .inl ⟨pre, post, ?_, hyes⟩
      have heq : past ++ [op] = (pre ++ .grantVisibility viewer f :: post) ++ [last] := by
        rw [heq]
        simp
      exact (List.append_inj' heq rfl).1
  · rintro (⟨pre, post, rfl, hyes⟩ | ⟨rfl, hyes⟩)
    · exact ⟨pre, post ++ [op], by simp, hyes⟩
    · exact ⟨past, [], rfl, hyes⟩

/-- A frame that the call moves takes the sight of the frames embedded in it along. -/
def KeepsSight (past : List Op) (op : Op) : Prop :=
  ∀ p target, Destined (run past) op p target → (run past).MovesWithSight (Granted past) p target

theorem granted_same {past : List Op} (hop : ∀ viewer f, op ≠ .grantVisibility viewer f) :
    Granted (past ++ [op]) = Granted past := by
  funext viewer f
  exact propext (granted_snoc.trans (or_iff_left fun h => hop viewer f h.1))

theorem sight_moveCases (hw : b.Wf) (h : MoveCases b op b') (hb : b.SightFollows granted) :
    b'.SightFollows granted ↔ ∀ p target, Destined b op p target → b.MovesWithSight granted p target := by
  cases h with
  | stays hno h =>
      refine iff_of_true ((sightFollows_congr h).mpr hb) fun p target hdest => ?_
      exact absurd hdest (hno p target)
  | moves f source target b₁ hdest hunique hview hw₁ h =>
      rw [sight_moved hw₁ h ((sightFollows_congr hview).mpr hb)]
      have hsame : b₁.MovesWithSight granted f target ↔ b.MovesWithSight granted f target := by
        have hcanSee : ∀ c f, b₁.canSee c f = b.canSee c f := by
          intro c f
          rw [Bool.eq_iff_iff, canSee_iff, canSee_iff, hview.owner, hview.seen]
        unfold MovesWithSight
        simp only [hview.owner, hview.parent, hview.state, hcanSee]
      rw [hsame]
      constructor
      · intro hcond p d hdest'
        obtain ⟨rfl, rfl⟩ := hunique p d hdest'
        exact hcond
      · exact fun hcond => hcond f target hdest

theorem sight_step (past : List Op) (op : Op) (hb : (run past).SightFollows (Granted past)) :
    (run (past ++ [op])).SightFollows (Granted (past ++ [op])) ↔ KeepsSight past op := by
  have hw := wf_run past
  have hnever : (∀ p target, ¬ Destined (run past) op p target) → KeepsSight past op :=
    fun hno p target hdest => absurd hdest (hno p target)
  rw [run_snoc]
  cases step_cases hw.owner_open op with
  | closes c =>
      rw [granted_same (by simp)]
      exact iff_of_true (sight_afterEnd hw (FrameTree.shrinks_releaseAll hw.frames c)
        (hw.owner_releaseAll c) hb) (hnever fun _ _ hdest => by cases hdest)
  | dies c =>
      rw [granted_same (by simp)]
      exact iff_of_true (sight_afterEnd hw (FrameTree.shrinks_crashChannel hw.frames c)
        (hw.owner_crashChannel c) hb) (hnever fun _ _ hdest => by cases hdest)
  | commits f origin resolver _ =>
      rw [granted_same (by simp)]
      exact sight_moveCases hw (commit_moveCases hw f origin resolver) hb
  | attaches f key c _ =>
      rw [granted_same (by simp)]
      exact sight_moveCases hw (attach_moveCases hw f key c) hb
  | grants viewer f h =>
      refine iff_of_true ?_ (hnever fun _ _ hdest => by cases hdest)
      show ((run past).grantVisibility viewer f).1.SightFollows _
      obtain ⟨-, h⟩ | ⟨howner, h⟩ := h
      · have hsame : Granted (past ++ [.grantVisibility viewer f]) = Granted past := by
          funext viewer' g
          refine propext (granted_snoc.trans (or_iff_left ?_))
          rintro ⟨heq, hyes⟩
          cases heq
          rw [h] at hyes
          cases hyes
        rw [hsame, h]
        exact hb
      · have hsame : Granted (past ++ [.grantVisibility viewer f]) = fun c g =>
            Granted past c g ∨ (c = viewer ∧ g = f ∧ (run past).isOpen viewer) := by
          funext c g
          refine propext (granted_snoc.trans (or_congr_right ?_))
          constructor
          · rintro ⟨heq, hyes⟩
            cases heq
            rw [h] at hyes
            exact ⟨rfl, rfl, hyes⟩
          · rintro ⟨rfl, rfl, hopen⟩
            exact ⟨rfl, by rw [h]; exact hopen⟩
        rw [hsame, h]
        exact sight_saw hw howner hb
  | rest _ hop h =>
      have hgranted : Granted (past ++ [op]) = Granted past := by
        refine granted_same fun viewer f => ?_
        rintro rfl
        exact hop
      rw [hgranted]
      refine iff_of_true (sight_stills hw h hb).1 (hnever fun p target hdest => ?_)
      cases hdest with
      | commit _ _ _ _ _ _ _ _ _ _ _ _ => exact hop
      | attach _ _ _ _ _ _ _ _ _ _ _ => exact hop

/-- Sight follows embedding in every state of a run exactly if no call of the run moves a frame
without the sight of the frames embedded in it. -/
theorem sight_iff (ops : List Op) :
    (∀ pre post, ops = pre ++ post → (run pre).SightFollows (Granted pre)) ↔
      ∀ pre op post, ops = pre ++ op :: post → KeepsSight pre op := by
  refine prefixes_iff_steps (P := fun pre => (run pre).SightFollows (Granted pre))
    (D := fun _ _ => True) ?_ (fun past op _ hb => sight_step past op hb) fun _ _ _ _ => trivial
  intro f p hlive
  cases hlive

/-! ## A swap of the embedding frame -/

/-- A child in a process of its own, and a parent that then moves to a third one. -/
def swap : List Op :=
  [.openChannel, .createFrame ⟨0⟩, .createChildFrame ⟨0⟩ ⟨0, 0⟩ 0,
    .commitDocument ⟨0, 0⟩ (originOf "a.com") ownSite,
    .openChannel, .commitDocument ⟨1, 0⟩ (originOf "b.com") ownSite,
    .attachProcess ⟨1, 0⟩ ⟨"a.com".toList, originOf "b.com"⟩ ⟨1⟩,
    .openChannel, .commitDocument ⟨0, 0⟩ (originOf "c.com") ownSite,
    .attachProcess ⟨0, 0⟩ ⟨"c.com".toList, originOf "c.com"⟩ ⟨2⟩]

theorem swap_blinds : ¬ (run swap).SightFollows (Granted swap) := by
  intro h
  have hsees := (h ⟨1, 0⟩ ⟨0, 0⟩ (by decide) (by decide) (by decide)).1 ⟨2⟩ (by decide)
  revert hsees
  decide

end Pelorus.Broker.Broker
