import Pelorus.Broker.Wf

/-
  Broker/Handles.lean --- handles over a run: a frame handle is given out once, a channel
  identifier is given out once, and the capability sets agree with the tree throughout.

  A handle that is SPENT stays spent.  A handle that comes to resolve was not spent, so a
  handle that has ceased to resolve never resolves again (`Fate`).
-/
set_option autoImplicit false
set_option linter.dupNamespace false

namespace Pelorus.Broker

open Lib Ipc
open Relation (ReflTransGen)

/-- What may become of handles between two trees. -/
structure FrameTree.Fate (t t' : FrameTree) : Prop where
  spent : ∀ f, t.Spent f → t'.Spent f
  origin : ∀ f s', t'.at? f = some s' → t.Spent f → ∃ s, t.at? f = some s ∧ SameFrame s s'

namespace FrameTree.Fate

variable {t t' t'' : FrameTree}

theorem refl (t : FrameTree) : Fate t t := ⟨fun _ h => h, fun _ s' hs' _ => ⟨s', hs', .refl s'⟩⟩

theorem trans (h : Fate t t') (h' : Fate t' t'') : Fate t t'' where
  spent f hf := h'.spent f (h.spent f hf)
  origin f s'' hs'' hf := by
    obtain ⟨s', hs', hsame'⟩ := h'.origin f s'' hs'' (h.spent f hf)
    obtain ⟨s, hs, hsame⟩ := h.origin f s' hs' hf
    exact ⟨s, hs, hsame.trans hsame'⟩

theorem of_shrinks (h : Shrinks t t') (hspent : ∀ f, t'.Spent f ↔ t.Spent f) : Fate t t' where
  spent f := (hspent f).mpr
  origin f s' hs' _ := by
    obtain ⟨s, hs, hsame, -⟩ := h.same f s' hs'
    exact ⟨s, hs, hsame⟩

theorem makes {c : ChannelId} {result : Option FrameId} (h : Makes t c t' result) : Fate t t' := by
  cases h with
  | nothing _ h =>
      refine ⟨fun f => (h.spent f).mpr, fun f s' hs' _ => ⟨s', ?_, .refl s'⟩⟩
      rw [← h.at?, hs']
  | made parent depth ordinal group _ f hplaced h =>
      refine ⟨h.spent, fun g s' hs' hg => ?_⟩
      obtain ⟨rfl, -⟩ | ⟨-, hold⟩ := h.cases hs'
      · exact absurd hg h.fresh
      · exact ⟨s', hold, .refl s'⟩

end FrameTree.Fate

namespace Broker

variable {b b' : Broker} {c : ChannelId} {f : FrameId}

theorem fate_still (hw : b.Wf) (h : Still b b') : b.frames.Fate b'.frames := by
  cases h with
  | rests _ h =>
      refine ⟨fun f => (h.frames.spent f).mpr, fun f s' hs' _ => ⟨s', ?_, .refl s'⟩⟩
      rw [← h.frames.at?, hs']
  | opened next h => exact .refl _
  | made c frames f hopen h =>
      rw [frames_withCaps]
      exact .makes h

theorem fate_change (hw : b.Wf) (h : Change b b') : b.frames.Fate b'.frames := by
  cases h with
  | still _ h => exact fate_still hw h
  | committed f origin s hs hlive =>
      exact .of_shrinks (FrameTree.shrinks_modify (k := fun s => { s with origin := some origin })
          hw.frames hs (fun _ => rfl) (fun _ => rfl) (fun _ => ⟨rfl, rfl, rfl, rfl⟩) Iff.rfl)
        (FrameTree.updated_modify (k := fun s => { s with origin := some origin }) hs (fun _ => rfl)
          (fun _ => rfl) fun _ => rfl).spent
  | registered group key c pool hopen h => exact .refl _
  | moved f source target _ h =>
      obtain ⟨s, hs, howner, -⟩ := h.at?
      rw [h.frames]
      exact .of_shrinks (FrameTree.shrinks_modify (k := fun s => { s with owner := some target })
          hw.frames hs (fun _ => rfl) (fun _ => rfl) (fun _ => ⟨rfl, rfl, rfl, rfl⟩) (by simp [howner]))
        (FrameTree.updated_modify (k := fun s => { s with owner := some target }) hs (fun _ => rfl)
          (fun _ => rfl) fun _ => rfl).spent
  | saw viewer f howner =>
      rw [frames_withCaps]
      exact .refl _

theorem nextChannel_change (h : Change b b') : b.nextChannel.toNat ≤ b'.nextChannel.toNat := by
  cases h with
  | still _ h =>
      cases h with
      | rests _ h => rw [h.nextChannel]
      | opened next h => exact Nat.le_of_lt (Nat.lt_of_succ_le (Nat.le_of_eq (succU64_toNat h).symm))
      | made c frames f hopen h => rw [nextChannel_withCaps]
  | committed f origin s hs hlive => exact Nat.le_refl _
  | registered group key c pool hopen h => exact Nat.le_refl _
  | moved f source target _ h => rw [h.nextChannel]
  | saw viewer f howner => rw [nextChannel_withCaps]

theorem later_changes (hw : b.Wf) (h : ReflTransGen Change b b') :
    b.frames.Fate b'.frames ∧ b.nextChannel.toNat ≤ b'.nextChannel.toNat := by
  induction h with
  | refl => exact ⟨.refl _, Nat.le_refl _⟩
  | tail hbefore h ih =>
      exact ⟨ih.1.trans (fate_change (hw.changes hbefore) h), Nat.le_trans ih.2 (nextChannel_change h)⟩

theorem later_step (hw : b.Wf) (op : Op) : b.frames.Fate (b.step op).frames ∧
    b.nextChannel.toNat ≤ (b.step op).nextChannel.toNat := by
  obtain ⟨c, rfl | rfl⟩ | ⟨-, h⟩ := step_changes hw.owner_open op
  · exact ⟨.of_shrinks (FrameTree.shrinks_releaseAll hw.frames c)
      (FrameTree.updated_freeIndices _).spent, Nat.le_refl _⟩
  · exact ⟨.of_shrinks (FrameTree.shrinks_crashChannel hw.frames c)
      (FrameTree.crashChannel_spec hw.frames.linked c).1.spent, Nat.le_refl _⟩
  · exact later_changes hw h

theorem later_run (hw : b.Wf) (ops : List Op) : b.frames.Fate (runFrom step b ops).frames ∧
    b.nextChannel.toNat ≤ (runFrom step b ops).nextChannel.toNat := by
  induction ops generalizing b with
  | nil => exact ⟨.refl _, Nat.le_refl _⟩
  | cons op ops ih =>
      have hnow := later_step hw op
      have hlater := ih (hw.step op)
      exact ⟨hnow.1.trans hlater.1, Nat.le_trans hnow.2 hlater.2⟩

theorem run_append (pre post : List Op) : run (pre ++ post) = runFrom step (run pre) post :=
  runFrom_append step new pre post

theorem run_snoc (ops : List Op) (op : Op) : run (ops ++ [op]) = (run ops).step op :=
  runFrom_snoc step new ops op

theorem fate_run (pre post : List Op) : (run pre).frames.Fate (run (pre ++ post)).frames := by
  rw [run_append]
  exact (later_run (wf_run pre) post).1

/-! ## New handles -/

theorem fresh_of_makes {frames : FrameTree} (h : FrameTree.Makes b.frames c frames (some f)) :
    ¬ b.frames.Spent f := by
  cases h with
  | made parent depth ordinal group _ _ hplaced h => exact h.fresh

theorem fresh_createFrame (h : (b.createFrame c).2 = some f) : ¬ b.frames.Spent f := by
  unfold createFrame at h
  split at h
  · have hmakes := FrameTree.create_spec b.frames c
    generalize b.frames.create c = result at h hmakes
    obtain ⟨frames, none | g⟩ := result
    · cases h
    · cases h
      exact fresh_of_makes hmakes
  · cases h

theorem fresh_createChildFrame {parent : FrameId} {ordinal : UInt32}
    (h : (b.createChildFrame c parent ordinal).2 = .ok f) : ¬ b.frames.Spent f := by
  unfold createChildFrame at h
  split at h
  · cases h
  · split at h
    · cases h
    · have hmakes := FrameTree.createChild_spec b.frames c parent ordinal
      generalize b.frames.createChild c parent ordinal = result at h hmakes
      obtain ⟨frames, e | g⟩ := result
      · cases h
      · cases h
        exact fresh_of_makes hmakes

/-- A handle that is not spent resolved in no earlier state. -/
theorem never_resolved {pre post : List Op} (h : ¬ (run (pre ++ post)).frames.Spent f) :
    (run pre).frames.exists? f = false := by
  rw [FrameTree.exists?_eq]
  cases hs : (run pre).frames.at? f with
  | none => rfl
  | some s => exact absurd ((fate_run pre post).spent f (FrameTree.spent_of_at? hs)) h

theorem openChannel_value (h : b.openChannel.2 = some c) : c = ⟨b.nextChannel⟩ := by
  unfold openChannel at h
  split at h
  · cases h
  · cases h
    rfl

/-- A new channel was open in no earlier state. -/
theorem never_open {pre post : List Op} (h : (run (pre ++ post)).openChannel.2 = some c) :
    (run pre).isOpen c = false := by
  by_contra hopen
  have hlt := (wf_run pre).channel_lt c (by simpa using hopen)
  have hle := (later_run (wf_run pre) post).2
  rw [← run_append] at hle
  rw [openChannel_value h] at hlt
  exact absurd hle (Nat.not_le.mpr hlt)

/-! ## Agreement -/

/-- The capability sets, the frame tree and the process pool agree, as the functions of the
broker show them. -/
structure Agrees (b : Broker) : Prop where
  hosts : ∀ c caps, b.capabilities.lookup c = some caps →
    (∀ f, f ∈ caps.hosts ↔ b.frames.state f = some .live ∧ b.frames.owner f = some c) ∧
    caps.hosts ⊆ caps.visible
  live : ∀ f, b.frames.state f = some .live → ∃ c, b.frames.owner f = some c ∧ b.isOpen c
  parent : ∀ f p, b.frames.parent f = some p → b.frames.exists? p ∧
    b.frames.group f = b.frames.group p ∧
    (b.frames.depth f).map UInt8.toNat = (b.frames.depth p).map fun d => d.toNat + 1
  depth : ∀ f d, b.frames.depth f = some d → d.toNat ≤ MAX_FRAME_DEPTH
  siblings : ∀ f g p, b.frames.parent f = some p → b.frames.parent g = some p →
    (b.frames.at? f).map FrameSlot.ordinal = (b.frames.at? g).map FrameSlot.ordinal → f = g
  children : ∀ p, (b.frames.children p).length ≤ MAX_CHILDREN_PER_FRAME
  inverse : ∀ entry c, b.pool.byKey.lookup entry = some c ↔ b.pool.byChannel.lookup c = some entry
  served : ∀ entry c, b.pool.byKey.lookup entry = some c → b.isOpen c
  size : b.pool.byKey.keys.length ≤ MAX_CONTENT_PROCESSES ∧
    b.pool.byChannel.keys.length ≤ MAX_CONTENT_PROCESSES

theorem Wf.agrees (hw : b.Wf) : b.Agrees where
  hosts c caps hc := by
    refine ⟨fun f => ?_, hw.hosts_visible c caps hc⟩
    rw [hw.hosts c caps hc f]
    refine ⟨fun howner => ⟨?_, howner⟩, And.right⟩
    obtain ⟨s, hs, hlive, -⟩ := hw.frames.owner_live howner
    exact FrameTree.state_eq_live.mpr ⟨s, hs, hlive⟩
  live f hlive := by
    obtain ⟨s, hs, hlive⟩ := FrameTree.state_eq_live.mp hlive
    obtain ⟨c, hc⟩ := Option.isSome_iff_exists.mp ((hw.frames.live_iff f s hs).mp hlive)
    have howner : b.frames.owner f = some c := FrameTree.owner_eq_some.mpr ⟨s, hs, hc⟩
    exact ⟨c, howner, hw.owner_open f c howner⟩
  parent f p hp := by
    obtain ⟨s, hs, hp⟩ := FrameTree.parent_eq_some.mp hp
    obtain ⟨sp, hsp, -, hgroup, hdepth⟩ := hw.frames.parent f s p hs hp
    unfold FrameTree.group FrameTree.depth
    rw [FrameTree.exists?_eq, hs, hsp]
    simp [hgroup, hdepth]
  depth f d hd := by
    obtain ⟨s, hs, rfl⟩ := Option.map_eq_some_iff.mp hd
    exact hw.frames.depth_le f s hs
  siblings f g p hf hg hordinal := by
    obtain ⟨s, hs, hp⟩ := FrameTree.parent_eq_some.mp hf
    obtain ⟨s', hs', hp'⟩ := FrameTree.parent_eq_some.mp hg
    rw [hs, hs'] at hordinal
    exact hw.frames.ordinals f g s s' p hs hs' hp hp' (Option.some.inj hordinal)
  children := hw.frames.children_le
  inverse := hw.pool.inverse
  served entry c h := hw.pool_open c entry ((hw.pool.inverse entry c).mp h)
  size := ⟨hw.pool.len_eq ▸ hw.pool.len_le, hw.pool.len_le⟩

/-- A handle names one frame: once it has ceased to resolve it never resolves again, and while
it resolves, the frame keeps its parent, its depth, its ordinal and its group. -/
structure OneFrame (pre mid post : List Op) (f : FrameId) : Prop where
  same : ∀ s s', (run pre).frames.at? f = some s → (run (pre ++ mid)).frames.at? f = some s' →
    SameFrame s s'
  gone : (run pre).frames.exists? f → (run (pre ++ mid)).frames.exists? f = false →
    (run (pre ++ mid ++ post)).frames.exists? f = false

theorem oneFrame (pre mid post : List Op) (f : FrameId) : OneFrame pre mid post f where
  same s s' hs hs' := by
    obtain ⟨s₀, hs₀, hsame⟩ := (fate_run pre mid).origin f s' hs' (FrameTree.spent_of_at? hs)
    rw [hs] at hs₀
    cases hs₀
    exact hsame
  gone hbefore hgone := by
    rw [FrameTree.exists?_eq] at hbefore hgone ⊢
    obtain ⟨s, hs⟩ := Option.isSome_iff_exists.mp hbefore
    have hspent := (fate_run pre mid).spent f (FrameTree.spent_of_at? hs)
    cases hlater : (run (pre ++ mid ++ post)).frames.at? f with
    | none => rfl
    | some s' =>
        obtain ⟨s₀, hs₀, -⟩ := (fate_run (pre ++ mid) post).origin f s' hlater hspent
        rw [hs₀] at hgone
        cases hgone

/-- Nothing that a call gives out after the run was in use in the state. -/
structure Unused (b past : Broker) : Prop where
  channel : ∀ c, b.openChannel.2 = some c → past.isOpen c = false
  frame : ∀ c f, (b.createFrame c).2 = some f → past.frames.exists? f = false
  child : ∀ c parent ordinal f, (b.createChildFrame c parent ordinal).2 = .ok f →
    past.frames.exists? f = false
  created : ∀ c request f, (b.dispatchFrame c request).2.1 = .created f →
    past.frames.exists? f = false

theorem created_of_dispatchFrame {request : FrameRequest}
    (h : (b.dispatchFrame c request).2.1 = .created f) : ∃ parent ordinal,
    request = .createChildFrame parent ordinal ∧ (b.createChildFrame c parent ordinal).2 = .ok f := by
  cases request with
  | createChildFrame parent ordinal =>
      refine ⟨parent, ordinal, rfl, ?_⟩
      have h : (answer c ((b.createChildFrame c parent ordinal).1,
        (b.createChildFrame c parent ordinal).2.map .created)).2.1 = .created f := h
      cases hmade : (b.createChildFrame c parent ordinal).2 with
      | error e => rw [hmade] at h; cases h
      | ok g => rw [hmade] at h; cases h; rfl
  | navigate g url kind =>
      have h : (answer c (b, (b.authoriseNavigation c g url.text).map fun _ =>
        FrameResponse.navigationAuthorised)).2.1 = .created f := h
      cases hallowed : b.authoriseNavigation c g url.text with
      | error e => rw [hallowed] at h; cases h
      | ok u => rw [hallowed] at h; cases h

theorem unused (pre post : List Op) : Unused (run (pre ++ post)) (run pre) where
  channel c h := never_open h
  frame c f h := never_resolved (fresh_createFrame h)
  child c parent ordinal f h := never_resolved (fresh_createChildFrame h)
  created c request f h := by
    obtain ⟨parent, ordinal, -, h⟩ := created_of_dispatchFrame h
    exact never_resolved (fresh_createChildFrame h)

/-- In every state of every run the capability sets, the frame tree and the process pool agree,
a handle names one frame, and neither a handle nor a channel identifier is given out again. -/
theorem agrees_run (ops : List Op) : (run ops).Agrees ∧
    (∀ pre post, ops = pre ++ post → Unused (run ops) (run pre)) ∧
    ∀ pre mid post f, ops = pre ++ mid ++ post → OneFrame pre mid post f := by
  refine ⟨(wf_run ops).agrees, ?_, fun pre mid post f _ => oneFrame pre mid post f⟩
  rintro pre post rfl
  exact unused pre post

end Broker

end Pelorus.Broker
