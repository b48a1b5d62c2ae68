import Pelorus.Broker.Commits
import Pelorus.Broker.Crashes

/-
  Broker/Isolation.lean --- a process serves the documents of one key.

  The key of a frame's document comes from the frame's own origin and from the origin of
  its top-level frame.  The key of a process is set when it is registered.

  PLACED frames are those that the last commit, or the attachment after it, put in a
  process.  A commit in a top-level frame gives every frame below it another key if the
  new document is of another site, and moves the top-level frame only; so the placed
  frames are in processes of their key throughout a run exactly if no such commit
  happens above a placed frame, and no attachment uses a key that has become old
  (`isolation_iff`).
-/
set_option autoImplicit false
set_option linter.dupNamespace false

namespace Pelorus.Broker

open Lib Websec Ipc
open Relation (ReflTransGen)

namespace FrameTree

variable {t t' : FrameTree} {f g p : FrameId} {R : SiteResolver} {key : ProcessKey}

/-- The last frame that `process_key` reaches on the way to the top-level frame. -/
def rootOf (t : FrameTree) (f : FrameId) : FrameId := t.climb (MAX_FRAME_DEPTH + 1) f

theorem climb_congr {S : FrameId → Prop} (hclosed : ∀ g p, S g → t.parent g = some p → S p)
    (hparent : ∀ g, S g → t'.parent g = t.parent g) : ∀ (n : Nat) {f : FrameId}, S f →
    t'.climb n f = t.climb n f ∧ S (t.climb n f)
  | 0, _, hf => ⟨rfl, hf⟩
  | n + 1, f, hf => by
      unfold climb
      rw [hparent f hf]
      cases hp : t.parent f with
      | none => exact ⟨rfl, hf⟩
      | some p => exact climb_congr hclosed hparent n (hclosed f p hf hp)

theorem processKey_eq_some : t.processKey f R = some key ↔
    t.state f = some .live ∧ t.origin f = some key.origin ∧ t.parent (t.rootOf f) = none ∧
      ∃ top, t.origin (t.rootOf f) = some top ∧ siteOf top R = some key.topLevelSite := by
  unfold processKey rootOf
  cases hstate : t.state f with
  | none => simp
  | some st =>
      cases st with
      | crashed => simp
      | live =>
          cases horigin : t.origin f with
          | none => simp
          | some o =>
              cases hparent : t.parent (t.climb (MAX_FRAME_DEPTH + 1) f) with
              | some p => simp [hparent]
              | none =>
                  cases htop : t.origin (t.climb (MAX_FRAME_DEPTH + 1) f) with
                  | none => simp [hparent, htop]
                  | some top =>
                      cases hsite : siteOf top R with
                      | none => simp [hparent, htop, hsite, ProcessKey.new]
                      | some site =>
                          obtain ⟨topLevelSite, origin⟩ := key
                          simp [hparent, htop, hsite, ProcessKey.new, and_comm]

/-- The key of a frame is read from it and from the frames on the way to its top-level frame. -/
theorem processKey_congr {S : FrameId → Prop} (hclosed : ∀ g p, S g → t.parent g = some p → S p)
    (hat : ∀ g, S g → t'.parent g = t.parent g ∧ t'.origin g = t.origin g ∧ t'.state g = t.state g)
    (hf : S f) : t'.processKey f R = t.processKey f R := by
  obtain ⟨hclimb, hroot⟩ := climb_congr hclosed (fun g hg => (hat g hg).1) (MAX_FRAME_DEPTH + 1) hf
  apply Option.ext
  intro key
  rw [processKey_eq_some, processKey_eq_some]
  unfold rootOf
  rw [hclimb, (hat f hf).2.2, (hat f hf).2.1, (hat _ hroot).1, (hat _ hroot).2.1]

/-- The frames of a tree that are there, unchanged, in another one. -/
theorem processKey_kept (hw : t.Wf) (hat : ∀ g s, t.at? g = some s → t'.at? g = some s)
    (hf : (t.at? f).isSome) : t'.processKey f R = t.processKey f R := by
  refine processKey_congr (S := fun g => (t.at? g).isSome) ?_ (fun g hg => ?_) hf
  · intro g p hg hp
    obtain ⟨s, hs, hsp⟩ := parent_eq_some.mp hp
    obtain ⟨sp, hsp, -⟩ := hw.parent g s p hs hsp
    rw [hsp]
    rfl
  · obtain ⟨s, hs⟩ := Option.isSome_iff_exists.mp hg
    unfold parent origin state
    rw [hs, hat g s hs]
    exact ⟨rfl, rfl, rfl⟩

end FrameTree

namespace Broker

variable {b b' : Broker} {c d : ChannelId} {f g p : FrameId} {R : SiteResolver}

/-! ## Standing -/

/-- What the last commit of a document in a frame left it with. -/
inductive Standing where
  | unplaced
  | awaits (key : ProcessKey)
  | placed
  deriving DecidableEq

/-- The standing that a plan leaves a frame with. -/
def planned : Except DenyReason CommitPlan → Standing
  | .ok .inPlace => .placed
  | .ok (.transferred _) => .placed
  | .ok (.needsProcess key) => .awaits key
  | _ => .unplaced

/-- The standing of a frame after a call. -/
def standingAfter (b : Broker) (f : FrameId) (old : Standing) : Op → Standing
  | .commitDocument g origin resolver =>
      if g = f then planned (b.commitDocument g origin resolver).2 else old
  | .attachProcess g key c =>
      if g = f then
        match (b.attachProcess g key c).2 with
        | .ok _ => .placed
        | .error _ => old
      else old
  | _ => old

/-- The broker and the standing of a frame after a run. -/
def runStanding (f : FrameId) (ops : List Op) : Broker × Standing :=
  runFrom (fun state op => (state.1.step op, state.1.standingAfter f state.2 op)) (new, .unplaced) ops

/-- The standing of a frame after a run. -/
def standing (ops : List Op) (f : FrameId) : Standing := (runStanding f ops).2

theorem runStanding_fst (f : FrameId) (ops : List Op) : (runStanding f ops).1 = run ops := by
  induction ops using List.reverseRecOn with
  | nil => rfl
  | append_singleton ops op ih =>
      unfold runStanding at ih ⊢
      rw [runFrom_snoc, run_snoc, ← ih]

theorem standing_snoc (ops : List Op) (op : Op) (f : FrameId) :
    standing (ops ++ [op]) f = (run ops).standingAfter f (standing ops f) op := by
  unfold standing
  rw [← runStanding_fst f ops]
  unfold runStanding
  rw [runFrom_snoc]

/-- An attachment uses the key that the last plan for the frame named, and every commit the
resolver. -/
def Disciplined (R : SiteResolver) (past : List Op) : Op → Prop
  | .commitDocument _ _ resolver => resolver = R
  | .attachProcess f key _ => standing past f = .awaits key
  | _ => True

/-- The pool has registered the owner of the frame for the frame's group and key. -/
def Isolated (b : Broker) (R : SiteResolver) (f : FrameId) : Prop :=
  ∃ c group key, b.frames.owner f = some c ∧ b.frames.group f = some group ∧
    b.frames.processKey f R = some key ∧ b.pool.keyOf c = some (group, key)

/-- Every live frame that was placed is in a process of its key. -/
def PlacedIsolated (R : SiteResolver) (past : List Op) : Prop :=
  ∀ f, (run past).frames.state f = some .live → standing past f = .placed → (run past).Isolated R f

/-- No call gives a placed frame another key: a commit in its top-level frame is of the same
site, and an attachment that succeeds is for the key that the frame still has. -/
def KeepsKeys (R : SiteResolver) (past : List Op) : Op → Prop
  | .commitDocument g origin _ => (run past).frames.state g = some .live →
      ∀ f, f ≠ g → (run past).frames.state f = some .live → standing past f = .placed →
        (run past).frames.rootOf f = g →
        ∀ old, (run past).frames.origin g = some old → siteOf origin R = siteOf old R
  | .attachProcess f key c => (run past).frames.state f = some .live → (run past).isOpen c →
      (∃ group pool, (run past).frames.group f = some group ∧
        (run past).pool.register group key c = .ok pool) →
      (run past).frames.processKey f R = some key
  | _ => True

/-! ## Placed frames are there -/

theorem isSome_of_live (h : b.frames.state f = some .live) : (b.frames.at? f).isSome := by
  obtain ⟨s, hs, -⟩ := FrameTree.state_eq_live.mp h
  rw [hs]
  rfl

theorem commit_of_plan {origin : Origin} (h : planned (b.commitDocument f origin R).2 ≠ .unplaced) :
    (b.frames.at? f).isSome := by
  cases howner : b.frames.owner f with
  | none =>
      exfalso
      apply h
      unfold commitDocument
      rw [howner]
      rfl
  | some o =>
      obtain ⟨s, hs, -⟩ := FrameTree.owner_eq_some.mp howner
      rw [hs]
      rfl

theorem attach_of_ok {key : ProcessKey} {t : Transfer} (h : (b.attachProcess f key c).2 = .ok t) :
    (b.frames.at? f).isSome := by
  cases hgroup : b.frames.group f with
  | none =>
      unfold attachProcess at h
      rw [hgroup] at h
      cases h
  | some group =>
      obtain ⟨s, hs, -⟩ := group_eq_some.mp hgroup
      rw [hs]
      rfl

/-- A frame with a standing was given out. -/
theorem spent_of_standing : ∀ {past : List Op}, standing past f ≠ .unplaced →
    (run past).frames.Spent f := by
  intro past
  induction past using List.reverseRecOn with
  | nil => exact fun h => absurd rfl h
  | append_singleton past op ih =>
      intro h
      have hlater := (fate_run past [op]).spent f
      rw [standing_snoc] at h
      have hat : ((run past).frames.at? f).isSome → (run (past ++ [op])).frames.Spent f := by
        intro hsome
        obtain ⟨s, hs⟩ := Option.isSome_iff_exists.mp hsome
        exact hlater (FrameTree.spent_of_at? hs)
      cases op with
      | commitDocument g origin resolver =>
          unfold standingAfter at h
          dsimp only at h
          split at h
          · rename_i hg
            subst hg
            exact hat (commit_of_plan h)
          · exact hlater (ih h)
      | attachProcess g key c =>
          unfold standingAfter at h
          dsimp only at h
          split at h
          · rename_i hg
            subst hg
            split at h
            · rename_i t hok
              exact hat (attach_of_ok hok)
            · exact hlater (ih h)
          · exact hlater (ih h)
      | _ => exact hlater (ih h)

/-! ## What a call does to the frames that are isolated -/

theorem Isolated.of_same (h : b.Isolated R f) (howner : b'.frames.owner f = b.frames.owner f)
    (hgroup : b'.frames.group f = b.frames.group f)
    (hkey : b'.frames.processKey f R = b.frames.processKey f R)
    (hpool : ∀ c entry, b.frames.owner f = some c → b.pool.keyOf c = some entry →
      b'.pool.keyOf c = some entry) : b'.Isolated R f := by
  obtain ⟨c, group, key, ho, hg, hk, hp⟩ := h
  exact ⟨c, group, key, howner.trans ho, hgroup.trans hg, hkey.trans hk, hpool c _ ho hp⟩

theorem still_kept (h : Still b b') :
    (∀ g s, b.frames.at? g = some s → b'.frames.at? g = some s) ∧ b'.pool = b.pool := by
  cases h with
  | rests _ h => exact ⟨fun g s hs => by rw [h.frames.at?, hs], h.pool⟩
  | opened next h => exact ⟨fun g s hs => hs, rfl⟩
  | made c frames f hopen h =>
      rw [frames_withCaps, pool_withCaps]
      exact ⟨(Wf.born h).kept, rfl⟩

theorem stills_kept (h : ReflTransGen Still b b') :
    (∀ g s, b.frames.at? g = some s → b'.frames.at? g = some s) ∧ b'.pool = b.pool := by
  induction h with
  | refl => exact ⟨fun g s hs => hs, rfl⟩
  | tail _ h ih =>
      exact ⟨fun g s hs => (still_kept h).1 g s (ih.1 g s hs), (still_kept h).2.trans ih.2⟩

/-- A frame that was there, and that the call left as it was. -/
theorem isolated_kept (hw : b.Wf) (hat : ∀ g s, b.frames.at? g = some s → b'.frames.at? g = some s)
    (hpool : b'.pool = b.pool) (hf : (b.frames.at? f).isSome) (h : b.Isolated R f) :
    b'.Isolated R f := by
  obtain ⟨s, hs⟩ := Option.isSome_iff_exists.mp hf
  refine h.of_same ?_ ?_ (FrameTree.processKey_kept hw.frames hat hf) fun c entry _ hp => ?_
  · unfold FrameTree.owner
    rw [hs, hat f s hs]
  · unfold FrameTree.group
    rw [hs, hat f s hs]
  · rw [hpool, hp]

/-- The end of a channel: the frames that are left are as they were. -/
theorem isolated_afterEnd {frames : FrameTree}
    (hat : ∀ g, ¬ b.frames.Embedded c g → b.frames.owner g ≠ some c → frames.at? g = b.frames.at? g)
    (hgone : ∀ g, b.frames.Embedded c g → frames.at? g = none)
    (hfo : frames.owner f = some d) (hd : d ≠ c ∧ b.frames.owner f = some d) (h : b.Isolated R f) :
    (b.afterEnd c frames).Isolated R f := by
  have hsafe : ¬ b.frames.Embedded c f := by
    intro hembedded
    obtain ⟨s, hs, -⟩ := FrameTree.owner_eq_some.mp hfo
    rw [hgone f hembedded] at hs
    cases hs
  have howner : b.frames.owner f ≠ some c := fun h => hd.1 (Option.some.inj (hd.2.symm.trans h))
  have hself := hat f hsafe howner
  refine h.of_same ?_ ?_ ?_ fun c' entry hc' hp => ?_
  · exact hfo.trans hd.2.symm
  · show frames.group f = _
    unfold FrameTree.group
    rw [hself]
  · refine FrameTree.processKey_congr
      (S := fun g => ¬ b.frames.Embedded c g ∧ b.frames.owner g ≠ some c) ?_ (fun g hg => ?_)
      ⟨hsafe, howner⟩
    · rintro g p ⟨hg, -⟩ hp
      refine ⟨fun ⟨r, hr, hpath⟩ => hg ⟨r, hr, hpath.tail hp⟩, fun ho => hg ⟨p, ho, .single hp⟩⟩
    · show frames.parent g = _ ∧ frames.origin g = _ ∧ frames.state g = _
      unfold FrameTree.parent FrameTree.origin FrameTree.state
      rw [hat g hg.1 hg.2]
      exact ⟨rfl, rfl, rfl⟩
  · show (b.pool.forget c).keyOf c' = some entry
    rw [ProcessPool.keyOf_forget, if_neg, hp]
    rintro rfl
    exact howner hc'

theorem processKey_recorded {s : FrameSlot} (hs : b.frames.at? g = some s) (origin : Origin) (hfg : f ≠ g)
    {key : ProcessKey} (hkey : b.frames.processKey f R = some key) :
    (b.recorded g origin).frames.processKey f R = some key ↔
      (b.frames.rootOf f = g → siteOf origin R = some key.topLevelSite) := by
  have hview := sameView_recorded hs origin
  have hat := at?_recorded hs origin
  have horigin : ∀ h, h ≠ g → (b.recorded g origin).frames.origin h = b.frames.origin h := by
    intro h hne
    unfold FrameTree.origin
    rw [hat, if_neg hne]
  have hself : (b.recorded g origin).frames.origin g = some origin := by
    unfold FrameTree.origin
    rw [hat, if_pos rfl]
    rfl
  have hroot : (b.recorded g origin).frames.rootOf f = b.frames.rootOf f :=
    (FrameTree.climb_congr (S := fun _ => True) (fun _ _ _ _ => trivial) (fun g _ => hview.parent g) _
      trivial).1
  obtain ⟨hstate, hforigin, hparent, top, htop, hsite⟩ := FrameTree.processKey_eq_some.mp hkey
  rw [FrameTree.processKey_eq_some, hview.state, hroot, hview.parent, horigin f hfg]
  by_cases hrg : b.frames.rootOf f = g
  · rw [hrg] at hparent ⊢
    rw [hself]
    constructor
    · rintro ⟨-, -, -, top', htop', hsite'⟩ _
      cases htop'
      exact hsite'
    · intro h
      exact ⟨hstate, hforigin, hparent, origin, rfl, h rfl⟩
  · rw [horigin _ hrg]
    constructor
    · exact fun _ h => absurd h hrg
    · exact fun _ => ⟨hstate, hforigin, hparent, top, htop, hsite⟩

/-- A move leaves the frames as they were, but for one owner. -/
structure OwnerChange (b b' : Broker) (f : FrameId) : Prop where
  owner : ∀ g, g ≠ f → b'.frames.owner g = b.frames.owner g
  group : ∀ g, b'.frames.group g = b.frames.group g
  state : ∀ g, b'.frames.state g = b.frames.state g
  key : ∀ g R, b'.frames.processKey g R = b.frames.processKey g R
  pool : ∀ c entry, b.pool.keyOf c = some entry → b'.pool.keyOf c = some entry

theorem OwnerChange.refl (b : Broker) (f : FrameId) : OwnerChange b b f :=
  ⟨fun _ _ => rfl, fun _ => rfl, fun _ => rfl, fun _ _ => rfl, fun _ _ h => h⟩

theorem OwnerChange.registered {group : GroupId} {key : ProcessKey} {pool : ProcessPool} (f : FrameId)
    (h : b.pool.register group key c = .ok pool) : OwnerChange b { b with pool } f := by
  refine ⟨fun _ _ => rfl, fun _ => rfl, fun _ => rfl, fun _ _ => rfl, fun d entry hd => ?_⟩
  show pool.keyOf d = some entry
  rw [ProcessPool.keyOf_register h, if_neg, hd]
  rintro rfl
  rw [(ProcessPool.register_ok h).1] at hd
  cases hd

theorem OwnerChange.moved {source target : ChannelId} (h : Moves b f source target b') :
    OwnerChange b b' f := by
  obtain ⟨s, hs, -, hat⟩ := h.at?
  have hsame : ∀ g, b'.frames.group g = b.frames.group g ∧ b'.frames.state g = b.frames.state g ∧
      b'.frames.origin g = b.frames.origin g := by
    intro g
    unfold FrameTree.group FrameTree.state FrameTree.origin
    rw [hat]
    split
    · rename_i hg
      rw [hg, hs]
      exact ⟨rfl, rfl, rfl⟩
    · exact ⟨rfl, rfl, rfl⟩
  refine ⟨fun g hg => ?_, fun g => (hsame g).1, fun g => (hsame g).2.1, fun g R => ?_, fun c entry hc => ?_⟩
  · rw [h.owner', if_neg hg]
  · exact FrameTree.processKey_congr (S := fun _ => True) (fun _ _ _ _ => trivial)
      (fun g _ => ⟨h.parent g, (hsame g).2.2, (hsame g).2.1⟩) trivial
  · rw [h.pool, hc]

theorem OwnerChange.trans {b'' : Broker} (h : OwnerChange b b' f) (h' : OwnerChange b' b'' f) :
    OwnerChange b b'' f where
  owner g hg := (h'.owner g hg).trans (h.owner g hg)
  group g := (h'.group g).trans (h.group g)
  state g := (h'.state g).trans (h.state g)
  key g R := (h'.key g R).trans (h.key g R)
  pool c entry hc := h'.pool c entry (h.pool c entry hc)

theorem OwnerChange.isolated (h : OwnerChange b b' f) (hg : g ≠ f) (hb : b.Isolated R g) :
    b'.Isolated R g :=
  hb.of_same (h.owner g hg) (h.group g) (h.key g R) fun c entry _ => h.pool c entry

/-- A commit: the origin is recorded, the owner of the frame may change, and a frame that it
places is isolated. -/
theorem commit_spec (hw : b.Wf) {current : ChannelId} (howner : b.frames.owner g = some current)
    (origin : Origin) (R : SiteResolver) : ∃ s, b.frames.at? g = some s ∧
      OwnerChange (b.recorded g origin) (b.commitDocument g origin R).1 g ∧
      (planned (b.commitDocument g origin R).2 = .placed →
        (b.commitDocument g origin R).1.Isolated R g) := by
  obtain ⟨s, hs, hcommits⟩ := commits hw howner origin R
  refine ⟨s, hs, ?_⟩
  have hgroup : (b.recorded g origin).frames.group g = some s.group := by
    unfold FrameTree.group
    rw [at?_recorded hs, if_pos rfl]
    rfl
  have howner' : (b.recorded g origin).frames.owner g = some current := by
    rw [← howner]
    exact owner_committed hs origin g
  generalize b.commitDocument g origin R = result at hcommits
  cases hcommits with
  | noKey hkey => exact ⟨.refl _ g, fun h => by cases h⟩
  | served key hkey hserved => exact ⟨.refl _ g, fun _ => ⟨current, s.group, key, howner', hgroup, hkey, hserved⟩⟩
  | claimed key pool hkey hreg =>
      have hreg' : (b.recorded g origin).pool.register s.group key current = .ok pool := hreg
      refine ⟨.registered g hreg', fun _ => ⟨current, s.group, key, howner', hgroup, hkey, ?_⟩⟩
      show pool.keyOf current = _
      rw [ProcessPool.keyOf_register hreg, if_pos rfl]
  | shared key target b' hkey hlookup h =>
      have hchange := OwnerChange.moved h
      refine ⟨hchange, fun _ => ⟨target, s.group, key, ?_, (hchange.group g).trans hgroup,
        (hchange.key g R).trans hkey, ?_⟩⟩
      · show b'.frames.owner g = some target
        rw [h.owner', if_pos rfl]
      · show b'.pool.keyOf target = some (s.group, key)
        rw [h.pool]
        exact (hw.pool.inverse _ _).mp hlookup
  | waits key result hkey hlookup hresult =>
      refine ⟨.refl _ g, fun h => ?_⟩
      obtain rfl | rfl | rfl := hresult <;> cases h

theorem attach_spec (hw : b.Wf) (g : FrameId) (key : ProcessKey) (c : ChannelId) :
    OwnerChange b (b.attachProcess g key c).1 g ∧
      ((∃ reason, (b.attachProcess g key c).2 = .error reason ∧
        (b.frames.state g = some .live → ¬ (b.isOpen c ∧ ∃ group pool, b.frames.group g = some group ∧
          b.pool.register group key c = .ok pool)) ∧
        (b.attachProcess g key c).1.frames = b.frames) ∨
      ∃ t group pool, (b.attachProcess g key c).2 = .ok t ∧ b.frames.state g = some .live ∧ b.isOpen c ∧
        b.frames.group g = some group ∧ b.pool.register group key c = .ok pool ∧
        (b.attachProcess g key c).1.frames.owner g = some c ∧
        (b.attachProcess g key c).1.pool.keyOf c = some (group, key)) := by
  have hattaches := attaches hw g key c
  generalize b.attachProcess g key c = result at hattaches
  cases hattaches with
  | refused reason hno =>
      refine ⟨.refl _ g, .inl ⟨reason, rfl, fun _ h => ?_, rfl⟩⟩
      obtain ⟨hopen, group, pool, hgroup, hreg⟩ := h
      obtain ⟨s, hs, rfl⟩ := group_eq_some.mp hgroup
      exact hno s pool hs hopen hreg
  | missed s pool hs howner hopen hreg =>
      refine ⟨.registered g hreg, .inl ⟨_, rfl, fun hlive => ?_, rfl⟩⟩
      obtain ⟨o, ho⟩ := live_owner hw hlive
      rw [howner] at ho
      cases ho
  | already s pool hs howner hopen hreg =>
      refine ⟨.registered g hreg, .inr ⟨_, s.group, pool, rfl, owner_live hw howner, hopen,
        group_eq_some.mpr ⟨s, hs, rfl⟩, hreg, howner, ?_⟩⟩
      show pool.keyOf c = _
      rw [ProcessPool.keyOf_register hreg, if_pos rfl]
  | moved s pool source b' hs hreg h =>
      refine ⟨(OwnerChange.registered g hreg).trans (.moved h), .inr ⟨_, s.group, pool, rfl,
        owner_live hw (o := source) h.owner, h.isOpen, group_eq_some.mpr ⟨s, hs, rfl⟩, hreg, ?_, ?_⟩⟩
      · show b'.frames.owner g = some c
        rw [h.owner', if_pos rfl]
      · show b'.pool.keyOf c = _
        rw [h.pool]
        show pool.keyOf c = _
        rw [ProcessPool.keyOf_register hreg, if_pos rfl]

/-! ## Runs -/

variable {past : List Op} {op : Op}

/-- A call that keeps every standing and isolates the placed frames that are left. -/
theorem placedIsolated_of_kept (hb : PlacedIsolated R past)
    (hstanding : ∀ f, standing (past ++ [op]) f = standing past f)
    (hkept : ∀ f, (run (past ++ [op])).frames.state f = some .live → (run past).frames.Spent f →
      (run past).frames.state f = some .live ∧
        ((run past).Isolated R f → (run (past ++ [op])).Isolated R f)) :
    PlacedIsolated R (past ++ [op]) := by
  intro f hlive hplaced
  rw [hstanding] at hplaced
  have hspent : (run past).frames.Spent f := spent_of_standing (by rw [hplaced]; simp)
  obtain ⟨hlive, hisolated⟩ := hkept f hlive hspent
  exact hisolated (hb f hlive hplaced)

theorem placedIsolated_end (frames : FrameTree) (hb : PlacedIsolated R past)
    (hop : (run past).step op = (run past).afterEnd c frames)
    (hstanding : ∀ f, standing (past ++ [op]) f = standing past f)
    (hwf : ((run past).afterEnd c frames).Wf)
    (howner : ∀ f d, frames.owner f = some d → d ≠ c ∧ (run past).frames.owner f = some d)
    (hat : ∀ g, ¬ (run past).frames.Embedded c g → (run past).frames.owner g ≠ some c →
      frames.at? g = (run past).frames.at? g)
    (hgone : ∀ g, (run past).frames.Embedded c g → frames.at? g = none) :
    PlacedIsolated R (past ++ [op]) := by
  refine placedIsolated_of_kept hb hstanding fun f hlive _ => ?_
  rw [run_snoc, hop] at hlive ⊢
  obtain ⟨d, hd⟩ := live_owner hwf hlive
  exact ⟨owner_live (wf_run past) (howner f d hd).2, isolated_afterEnd hat hgone hd (howner f d hd)⟩

theorem placedIsolated_commit {origin : Origin} (hb : PlacedIsolated R past) :
    PlacedIsolated R (past ++ [.commitDocument g origin R]) ↔
      KeepsKeys R past (.commitDocument g origin R) := by
  have hw := wf_run past
  have hstanding : ∀ f, standing (past ++ [.commitDocument g origin R]) f =
      if g = f then planned ((run past).commitDocument g origin R).2 else standing past f :=
    fun f => standing_snoc past _ f
  have hrun : run (past ++ [.commitDocument g origin R]) = ((run past).commitDocument g origin R).1 :=
    run_snoc past _
  unfold KeepsKeys
  unfold PlacedIsolated at hb ⊢
  simp only [hstanding, hrun]
  cases howner : (run past).frames.owner g with
  | none =>
      have hnothing : (run past).commitDocument g origin R = (run past, .error .noSuchFrame) := by
        unfold commitDocument
        rw [howner]
      rw [hnothing]
      refine iff_of_true (fun f hlive hplaced => ?_) fun hlive => ?_
      · split at hplaced
        · cases hplaced
        · exact hb f hlive hplaced
      · obtain ⟨o, ho⟩ := live_owner hw hlive
        rw [howner] at ho
        cases ho
  | some current =>
      obtain ⟨s, hs, hchange, hself⟩ := commit_spec hw howner origin R
      have hview := sameView_recorded hs origin
      generalize (run past).commitDocument g origin R = result at hchange hself
      have hstate : ∀ f, result.1.frames.state f = (run past).frames.state f :=
        fun f => (hchange.state f).trans (hview.state f)
      -- another placed frame is isolated exactly if its key is the same after the commit
      have hother : ∀ f, f ≠ g → (run past).Isolated R f → (result.1.Isolated R f ↔
          ((run past).frames.rootOf f = g → ∀ old, (run past).frames.origin g = some old →
            siteOf origin R = siteOf old R)) := by
        intro f hfg hisolated
        obtain ⟨c, group, key, ho, hgroup, hkey, hp⟩ := hisolated
        have ho' : result.1.frames.owner f = some c := by rw [hchange.owner f hfg, hview.owner, ho]
        have hp' : result.1.pool.keyOf c = some (group, key) := hchange.pool c _ hp
        have hgroup' : result.1.frames.group f = some group := by
          obtain ⟨s', hs', rfl⟩ := group_eq_some.mp hgroup
          rw [hchange.group]
          refine group_eq_some.mpr ⟨s', ?_, rfl⟩
          rw [at?_recorded hs, if_neg hfg, hs']
        have hsites : ((run past).frames.rootOf f = g → siteOf origin R = some key.topLevelSite) ↔
            ((run past).frames.rootOf f = g → ∀ old, (run past).frames.origin g = some old →
              siteOf origin R = siteOf old R) := by
          obtain ⟨-, -, -, top, htop, hsite⟩ := FrameTree.processKey_eq_some.mp hkey
          constructor
          · intro h hroot old hold
            rw [hroot, hold] at htop
            cases htop
            rw [h hroot, hsite]
          · intro h hroot
            rw [hroot] at htop
            rw [h hroot top htop, hsite]
        rw [← hsites, ← processKey_recorded hs origin hfg hkey]
        constructor
        · rintro ⟨c', group', key', ho'', hgroup'', hkey'', hp''⟩
          rw [ho'] at ho''
          cases ho''
          rw [hp'] at hp''
          cases hp''
          rw [← hchange.key, hkey'']
        · intro hkey'
          exact ⟨c, group, key, ho', hgroup', (hchange.key f R).trans hkey', hp'⟩
      constructor
      · intro hafter _ f hfg hlive hplaced
        have hisolated := hafter f (by rw [hstate, hlive]) (by rw [if_neg (Ne.symm hfg), hplaced])
        exact (hother f hfg (hb f hlive hplaced)).mp hisolated
      · intro hcond f hlive hplaced
        rw [hstate] at hlive
        by_cases hfg : f = g
        · subst hfg
          rw [if_pos rfl] at hplaced
          exact hself hplaced
        · rw [if_neg (Ne.symm hfg)] at hplaced
          exact (hother f hfg (hb f hlive hplaced)).mpr
            (hcond (owner_live hw howner) f hfg hlive hplaced)

theorem placedIsolated_attach {key : ProcessKey}
    (hawaits : standing past g = .awaits key) (hb : PlacedIsolated R past) :
    PlacedIsolated R (past ++ [.attachProcess g key c]) ↔ KeepsKeys R past (.attachProcess g key c) := by
  have hw := wf_run past
  have hstanding := standing_snoc past (.attachProcess g key c)
  have hrun : run (past ++ [.attachProcess g key c]) = ((run past).attachProcess g key c).1 :=
    run_snoc past _
  obtain ⟨hchange, hresult⟩ := attach_spec hw g key c
  unfold standingAfter at hstanding
  dsimp only at hstanding
  unfold KeepsKeys
  unfold PlacedIsolated at hb ⊢
  simp only [hstanding, hrun]
  generalize (run past).attachProcess g key c = result at hchange hresult
  -- a frame that was placed before the call was isolated, and is
  have hother : ∀ f, f ≠ g → result.1.frames.state f = some .live → standing past f = .placed →
      result.1.Isolated R f := fun f hfg hlive hplaced =>
    hchange.isolated hfg (hb f (by rw [← hchange.state, hlive]) hplaced)
  obtain ⟨reason, herror, hno, -⟩ | ⟨t, group, pool, hok, hlive, hopen, hgroup, hreg, howner, hserved⟩ := hresult
  · rw [herror]
    refine iff_of_true (fun f hlive hplaced => ?_) fun hlive hopen hreg => absurd ⟨hopen, hreg⟩ (hno hlive)
    by_cases hfg : f = g
    · subst hfg
      rw [if_pos rfl, hawaits] at hplaced
      cases hplaced
    · rw [if_neg (Ne.symm hfg)] at hplaced
      exact hother f hfg hlive hplaced
  · rw [hok]
    constructor
    · intro hafter _ _ _
      obtain ⟨c', group', key', ho, hg, hk, hp⟩ := hafter g (by rw [hchange.state, hlive]) (if_pos rfl)
      rw [howner] at ho
      cases ho
      rw [hserved] at hp
      cases hp
      rw [← hchange.key, hk]
    · intro hcond f hflive hplaced
      by_cases hfg : f = g
      · subst hfg
        have hkey := hcond hlive hopen ⟨group, pool, hgroup, hreg⟩
        exact ⟨c, group, key, howner, (hchange.group f).trans hgroup, (hchange.key f R).trans hkey, hserved⟩
      · rw [if_neg (Ne.symm hfg)] at hplaced
        exact hother f hfg hflive hplaced

theorem isolation_step (past : List Op) (op : Op) (hd : Disciplined R past op)
    (hb : PlacedIsolated R past) : PlacedIsolated R (past ++ [op]) ↔ KeepsKeys R past op := by
  have hw := wf_run past
  cases step_cases hw.owner_open op with
  | commits f origin resolver _ =>
      have hresolver : resolver = R := hd
      subst hresolver
      exact placedIsolated_commit hb
  | attaches f key c _ => exact placedIsolated_attach hd hb
  | closes c =>
      refine iff_of_true (placedIsolated_end ((run past).frames.releaseAll c) hb rfl
        (standing_snoc past _) (hw.closeChannel c) (hw.owner_releaseAll c) (fun g hg ho => ?_)
        fun g hg => ?_) trivial
      · exact (at?_closeChannel hw c g).2 fun h => h.elim hg ho
      · exact (at?_closeChannel hw c g).1 (.inl hg)
  | dies c =>
      exact iff_of_true (placedIsolated_end ((run past).frames.crashChannel c).1 hb rfl
        (standing_snoc past _) (hw.channelDied c) (hw.owner_crashChannel c)
        (fun g => (at?_channelDied hw c g).2.2) fun g => (at?_channelDied hw c g).1) trivial
  | grants viewer f h =>
      refine iff_of_true (placedIsolated_of_kept hb (standing_snoc past _) fun g hlive _ => ?_) trivial
      rw [run_snoc] at hlive ⊢
      have hsame : ((run past).step (.grantVisibility viewer f)).frames = (run past).frames ∧
          ((run past).step (.grantVisibility viewer f)).pool = (run past).pool := by
        show ((run past).grantVisibility viewer f).1.frames = _ ∧
          ((run past).grantVisibility viewer f).1.pool = _
        obtain ⟨-, h⟩ | ⟨-, h⟩ := h <;> rw [h]
        · exact ⟨rfl, rfl⟩
        · exact ⟨frames_withCaps _, pool_withCaps _⟩
      rw [hsame.1] at hlive
      refine ⟨hlive, isolated_kept hw (fun g s hs => ?_) hsame.2 (isSome_of_live hlive)⟩
      rw [hsame.1, hs]
  | rest _ hop h =>
      obtain ⟨hat, hpool⟩ := stills_kept h
      have hstanding : ∀ f, standing (past ++ [op]) f = standing past f := by
        intro f
        rw [standing_snoc]
        cases op <;> first | rfl | exact absurd hop id
      have htrivial : KeepsKeys R past op := by
        cases op <;> trivial
      refine iff_of_true (placedIsolated_of_kept hb hstanding fun f hlive hspent => ?_) htrivial
      rw [run_snoc] at hlive ⊢
      obtain ⟨s', hs', hlife⟩ := FrameTree.state_eq_live.mp hlive
      obtain ⟨s, hs, -⟩ := (later_step hw op).1.origin f s' hs' hspent
      have hs'' := hat f s hs
      rw [hs'] at hs''
      cases hs''
      refine ⟨FrameTree.state_eq_live.mpr ⟨s', hs, hlife⟩, isolated_kept hw hat hpool ?_⟩
      rw [hs]
      rfl

/-- In a disciplined run every live frame that was placed is in a process of its key, in every
state, exactly if no call of the run gives a placed frame another key. -/
theorem isolation_iff (R : SiteResolver) (ops : List Op)
    (hd : ∀ pre op post, ops = pre ++ op :: post → Disciplined R pre op) :
    (∀ pre post, ops = pre ++ post → PlacedIsolated R pre) ↔
      ∀ pre op post, ops = pre ++ op :: post → KeepsKeys R pre op := by
  refine prefixes_iff_steps (P := PlacedIsolated R) ?_ (fun past op hd hb => isolation_step past op hd hb) hd
  intro f hlive
  cases hlive

/-- A top-level frame is committed. -/
def oneCommit : List Op :=
  [.openChannel, .createFrame ⟨0⟩, .commitDocument ⟨0, 0⟩ (originOf "a.com") ownSite]

theorem oneCommit_disciplined {pre post : List Op} (h : oneCommit = pre ++ op :: post) :
    Disciplined ownSite pre op := by
  have hmem : op ∈ oneCommit := by
    rw [h]
    simp
  simp only [oneCommit, List.mem_cons, List.not_mem_nil, or_false] at hmem
  obtain rfl | rfl | rfl := hmem
  · trivial
  · trivial
  · rfl

theorem isolation_iff_of_one_commit : standing oneCommit ⟨0, 0⟩ = .placed ∧
    ∀ pre post, oneCommit = pre ++ post → PlacedIsolated ownSite pre := by
  refine ⟨by decide, (isolation_iff ownSite _ fun pre op post h => oneCommit_disciplined h).mpr
    fun pre op post h => ?_⟩
  rcases pre with _ | ⟨a, _ | ⟨b, _ | ⟨c, pre⟩⟩⟩
  · cases h
    trivial
  · cases h
    trivial
  · cases h
    intro _ f hne hlive
    -- there is one frame only
    obtain ⟨s, hs, -⟩ := FrameTree.state_eq_live.mp hlive
    obtain ⟨hslot, hgen, -⟩ := FrameTree.at?_eq_some.mp hs
    have hslots : (run [.openChannel, .createFrame ⟨0⟩]).frames.slots =
        [FrameSlot.new ⟨0⟩ none 0 none ⟨0⟩ 0] := rfl
    rw [hslots] at hslot
    have hindex : f.index.toNat = 0 := by
      have hlt := (List.getElem?_eq_some_iff.mp hslot).1
      rw [List.length_singleton] at hlt
      omega
    rw [hindex] at hslot
    cases hslot
    exact absurd (frameId_eq (g := ⟨0, 0⟩) hindex hgen.symm) hne
  · simp [oneCommit] at h

/-- A top-level frame and a frame embedded in it are committed in one process; then the
top-level frame is committed again, with a document of another site. -/
def drift : List Op :=
  [.openChannel, .createFrame ⟨0⟩, .createChildFrame ⟨0⟩ ⟨0, 0⟩ 0,
    .commitDocument ⟨0, 0⟩ (originOf "a.com") ownSite,
    .commitDocument ⟨1, 0⟩ (originOf "a.com") ownSite,
    .commitDocument ⟨0, 0⟩ (originOf "c.com") ownSite]

theorem drift_not_isolated : (∀ pre op post, drift = pre ++ op :: post → Disciplined ownSite pre op) ∧
    ¬ PlacedIsolated ownSite drift := by
  constructor
  · intro pre op post h
    have hmem : op ∈ drift := by
      rw [h]
      simp
    simp only [drift, List.mem_cons, List.not_mem_nil, or_false] at hmem
    obtain rfl | rfl | rfl | rfl | rfl | rfl := hmem
    · trivial
    · trivial
    · trivial
    · rfl
    · rfl
    · rfl
  · intro h
    obtain ⟨c, group, key, ho, -, hk, hp⟩ := h ⟨1, 0⟩ (by decide) (by decide)
    have howner : (run drift).frames.owner ⟨1, 0⟩ = some ⟨0⟩ := by decide
    have hkey : (run drift).frames.processKey ⟨1, 0⟩ ownSite =
        some ⟨"c.com".toList, originOf "a.com"⟩ := by decide
    have hserved : (run drift).pool.keyOf ⟨0⟩ =
        some (⟨0⟩, ⟨"a.com".toList, originOf "a.com"⟩) := by decide
    rw [howner] at ho
    cases ho
    rw [hkey] at hk
    cases hk
    rw [hserved] at hp
    have hsite := congrArg ProcessKey.topLevelSite (Prod.mk.inj (Option.some.inj hp)).2
    revert hsite
    decide

end Broker

end Pelorus.Broker
