import Pelorus.Broker.Handles

/-
  Broker/Commits.lean --- what a commit and an attachment do, case by case, in a broker
  whose sets, tree and pool agree.

  DESTINATION.  A call moves a frame at most once, and only to the channel that the pool
  has, or is given, for the frame's group and key.
-/
set_option autoImplicit false
set_option linter.dupNamespace false

namespace Pelorus.Broker.Broker

open Websec Ipc

variable {b b' : Broker} {c d : ChannelId} {f g : FrameId}

/-- The broker after the origin of a frame was recorded. -/
def recorded (b : Broker) (f : FrameId) (origin : Origin) : Broker :=
  { b with frames := b.frames.modify f fun s => { s with origin := some origin } }

/-- The key that a frame has once a document of the origin is committed in it. -/
def keyAfter (b : Broker) (f : FrameId) (origin : Origin) (resolver : SiteResolver) :
    Option ProcessKey :=
  (b.recorded f origin).frames.processKey f resolver

/-- What `commit_document` did in a live frame. -/
inductive Commits (b : Broker) (f : FrameId) (origin : Origin) (resolver : SiteResolver)
    (s : FrameSlot) (current : ChannelId) : Broker × Except DenyReason CommitPlan → Prop where
  | noKey (hkey : b.keyAfter f origin resolver = none) :
      Commits b f origin resolver s current (b.recorded f origin, .error .noProcessKey)
  | served (key : ProcessKey) (hkey : b.keyAfter f origin resolver = some key)
      (hserved : b.pool.keyOf current = some (s.group, key)) :
      Commits b f origin resolver s current (b.recorded f origin, .ok .inPlace)
  | claimed (key : ProcessKey) (pool : ProcessPool) (hkey : b.keyAfter f origin resolver = some key)
      (hreg : b.pool.register s.group key current = .ok pool) :
      Commits b f origin resolver s current ({ b.recorded f origin with pool }, .ok .inPlace)
  | shared (key : ProcessKey) (target : ChannelId) (b' : Broker)
      (hkey : b.keyAfter f origin resolver = some key)
      (hlookup : b.pool.byKey.lookup (s.group, key) = some target)
      (h : Moves (b.recorded f origin) f current target b') :
      Commits b f origin resolver s current
        (b', .ok (.transferred ⟨some (current, .frameReplaced f), target⟩))
  | waits (key : ProcessKey) (result : Except DenyReason CommitPlan)
      (hkey : b.keyAfter f origin resolver = some key)
      (hlookup : b.pool.byKey.lookup (s.group, key) = none)
      (hresult : result = .ok (.needsProcess key) ∨ result = .ok .atCap ∨ result = .error .frameLimit) :
      Commits b f origin resolver s current (b.recorded f origin, result)

variable {s : FrameSlot}

theorem at?_recorded (hs : b.frames.at? f = some s) (origin : Origin) (g : FrameId) :
    (b.recorded f origin).frames.at? g =
      if g = f then some { s with origin := some origin } else b.frames.at? g :=
  at?_committed hs origin g

theorem commitOrigin_eq_recorded (hs : b.frames.at? f = some s) (hlive : s.lifecycle = .live)
    (origin : Origin) : b.frames.commitOrigin f origin = ((b.recorded f origin).frames, true) := by
  unfold FrameTree.commitOrigin
  rw [hs]
  simp only [hlive]
  rfl

theorem group_recorded (hs : b.frames.at? f = some s) (origin : Origin) :
    (b.recorded f origin).frames.group f = some s.group := by
  unfold FrameTree.group
  rw [at?_recorded hs, if_pos rfl]
  rfl

theorem wf_recorded (hw : b.Wf) {s : FrameSlot} (hs : b.frames.at? f = some s) (origin : Origin) :
    (b.recorded f origin).Wf := hw.committed hs origin

theorem transferFrame_shared (hw : b.Wf) {entry : GroupId × ProcessKey} {source target : ChannelId}
    (howner : b.frames.owner f = some source) (hlookup : b.pool.byKey.lookup entry = some target)
    (hne : source ≠ target) :
    ∃ b', Moves b f source target b' ∧
      b.transferFrame f target = (b', .ok ⟨some (source, .frameReplaced f), target⟩) := by
  have hopen : b.isOpen target := hw.pool_open target entry ((hw.pool.inverse entry target).mp hlookup)
  obtain ⟨s, hs, hlive, howner'⟩ := hw.frames.owner_live howner
  have htransfer : b.frames.transfer f source target =
      (b.frames.modify f fun s => { s with owner := some target }, true) := by
    unfold FrameTree.transfer
    rw [hs]
    simp only [hlive, howner']
    rfl
  have hspec := transferFrame_spec b f target
  generalize hresult : b.transferFrame f target = result at hspec
  cases hspec with
  | refused reason =>
      unfold transferFrame at hresult
      rw [howner] at hresult
      simp only [if_neg hne, hopen, htransfer] at hresult
      simp at hresult
  | already h =>
      rw [howner] at h
      exact absurd (Option.some.inj h) hne
  | moved source' b' h =>
      have hsource := h.owner
      rw [howner] at hsource
      cases hsource
      exact ⟨b', h, rfl⟩

theorem commits (hw : b.Wf) {current : ChannelId} (howner : b.frames.owner f = some current)
    (origin : Origin) (resolver : SiteResolver) : ∃ s, b.frames.at? f = some s ∧
      Commits b f origin resolver s current (b.commitDocument f origin resolver) := by
  obtain ⟨s, hs, hlive, howner'⟩ := hw.frames.owner_live howner
  refine ⟨s, hs, ?_⟩
  have hw' := wf_recorded hw hs origin
  have hrecorded := commitOrigin_eq_recorded hs hlive origin
  have hgroup := group_recorded hs origin
  have howner'' : (b.recorded f origin).frames.owner f = some current := by
    rw [← howner]
    exact owner_committed hs origin f
  unfold commitDocument
  rw [howner]
  simp only [hrecorded]
  -- the channel that the pool has for the key is another one unless the current one serves it
  have hother : ∀ key target, b.pool.byKey.lookup (s.group, key) = some target →
      b.pool.keyOf current ≠ some (s.group, key) → current ≠ target := by
    rintro key target hlookup hnot rfl
    exact hnot ((hw.pool.inverse _ _).mp hlookup)
  split
  · rename_i hkey
    exact .noKey hkey
  · rename_i key hkey
    have hkey : b.keyAfter f origin resolver = some key := hkey
    rw [show ({ b with frames := (b.recorded f origin).frames } : Broker) = b.recorded f origin from rfl]
    simp only [hgroup]
    split
    · rename_i served hserved
      have hserved : b.pool.keyOf current = some served := hserved
      split
      · rename_i heq
        exact .served key hkey (hserved.trans (congrArg some heq))
      · rename_i hne
        unfold planOtherProcess ProcessPool.lookup
        cases hlookup : (b.recorded f origin).pool.byKey.lookup (s.group, key) with
        | some target =>
            have hdistinct := hother key target hlookup fun h => hne (Option.some.inj (hserved.symm.trans h))
            obtain ⟨b', hmoves, htransfer⟩ := transferFrame_shared hw' howner'' hlookup hdistinct
            simp only [htransfer]
            exact .shared key target b' hkey hlookup hmoves
        | none =>
            by_cases hcap : MAX_CONTENT_PROCESSES ≤ (b.recorded f origin).pool.len
            · simp only [if_pos hcap]
              exact .waits key _ hkey hlookup (.inr (.inl rfl))
            · simp only [if_neg hcap]
              exact .waits key _ hkey hlookup (.inl rfl)
    · rename_i hfree
      have hfree : b.pool.keyOf current = none := hfree
      unfold ProcessPool.lookup
      cases hlookup : b.pool.byKey.lookup (s.group, key) with
      | some target =>
          have hdistinct := hother key target hlookup (by rw [hfree]; simp)
          obtain ⟨b', hmoves, htransfer⟩ := transferFrame_shared hw' howner'' hlookup hdistinct
          simp only [htransfer]
          exact .shared key target b' hkey hlookup hmoves
      | none =>
          cases hreg : b.pool.register s.group key current with
          | ok pool =>
              have hclaimed : Commits b f origin resolver s current
                  ({ b.recorded f origin with pool }, .ok .inPlace) := .claimed key pool hkey hreg
              by_cases hcap : MAX_CONTENT_PROCESSES ≤ b.pool.len
              · simp only [if_pos hcap]
                exact hclaimed
              · simp only [if_neg hcap]
                exact hclaimed
          | error e =>
              have hwaits : Commits b f origin resolver s current
                  (b.recorded f origin, .error .frameLimit) := .waits key _ hkey hlookup (.inr (.inr rfl))
              by_cases hcap : MAX_CONTENT_PROCESSES ≤ b.pool.len
              · simp only [if_pos hcap]
                exact hwaits
              · simp only [if_neg hcap]
                exact hwaits

/-- What `attach_process` did. -/
inductive Attaches (b : Broker) (f : FrameId) (key : ProcessKey) (c : ChannelId) :
    Broker × Except DenyReason Transfer → Prop where
  | refused (reason : DenyReason) (hno : ∀ s pool, b.frames.at? f = some s → b.isOpen c →
      b.pool.register s.group key c ≠ .ok pool) : Attaches b f key c (b, .error reason)
  | missed (s : FrameSlot) (pool : ProcessPool) (hs : b.frames.at? f = some s)
      (howner : b.frames.owner f = none) (hopen : b.isOpen c)
      (hreg : b.pool.register s.group key c = .ok pool) :
      Attaches b f key c ({ b with pool }, .error .noSuchFrame)
  | already (s : FrameSlot) (pool : ProcessPool) (hs : b.frames.at? f = some s)
      (howner : b.frames.owner f = some c) (hopen : b.isOpen c)
      (hreg : b.pool.register s.group key c = .ok pool) :
      Attaches b f key c ({ b with pool }, .ok ⟨none, c⟩)
  | moved (s : FrameSlot) (pool : ProcessPool) (source : ChannelId) (b' : Broker)
      (hs : b.frames.at? f = some s) (hreg : b.pool.register s.group key c = .ok pool)
      (h : Moves { b with pool } f source c b') :
      Attaches b f key c (b', .ok ⟨some (source, .frameReplaced f), c⟩)

theorem group_eq_some {t : FrameTree} {group : GroupId} :
    t.group f = some group ↔ ∃ s, t.at? f = some s ∧ s.group = group := Option.map_eq_some_iff

theorem attaches (hw : b.Wf) (f : FrameId) (key : ProcessKey) (c : ChannelId) :
    Attaches b f key c (b.attachProcess f key c) := by
  unfold attachProcess
  split
  · rename_i hnone
    refine .refused _ fun s pool hs => ?_
    rw [FrameTree.group, hs] at hnone
    cases hnone
  · rename_i group hgroup
    obtain ⟨s, hs, rfl⟩ := group_eq_some.mp hgroup
    split
    · rename_i hclosed
      refine .refused _ fun s' pool _ hopen => ?_
      simp [hopen] at hclosed
    · rename_i hopen
      have hopen : b.isOpen c := by simpa using hopen
      split
      · rename_i e hreg
        refine .refused _ fun s' pool hs' _ hok => ?_
        rw [hs] at hs'
        cases hs'
        rw [hreg] at hok
        cases hok
      · rename_i pool hreg
        have hentry : pool.byKey.lookup (s.group, key) = some c := by
          rw [(hw.pool.register hreg).inverse, ProcessPool.keyOf_register hreg, if_pos rfl]
        cases howner : b.frames.owner f with
        | none =>
            have hmissed : Broker.transferFrame { b with pool } f c = ({ b with pool }, .error .noSuchFrame) := by
              unfold transferFrame
              simp only [howner]
            rw [hmissed]
            exact .missed s pool hs howner hopen hreg
        | some source =>
            by_cases heq : source = c
            · subst heq
              have halready : Broker.transferFrame { b with pool } f source =
                  ({ b with pool }, .ok ⟨none, source⟩) := by
                unfold transferFrame
                simp only [howner]
                rfl
              rw [halready]
              exact .already s pool hs howner hopen hreg
            · obtain ⟨b', hmoves, htransfer⟩ := transferFrame_shared (b := { b with pool })
                (hw.registered hopen hreg) howner hentry heq
              rw [htransfer]
              exact .moved s pool source b' hs hreg hmoves

/-- A call moves a frame to a channel. -/
inductive Destined (b : Broker) : Op → FrameId → ChannelId → Prop where
  | commit (f : FrameId) (origin : Origin) (resolver : SiteResolver) (s : FrameSlot)
      (current target : ChannelId) (key : ProcessKey) (hs : b.frames.at? f = some s)
      (howner : b.frames.owner f = some current) (hkey : b.keyAfter f origin resolver = some key)
      (hlookup : b.pool.byKey.lookup (s.group, key) = some target) (hne : current ≠ target) :
      Destined b (.commitDocument f origin resolver) f target
  | attach (f : FrameId) (key : ProcessKey) (s : FrameSlot) (source target : ChannelId)
      (pool : ProcessPool) (hs : b.frames.at? f = some s) (howner : b.frames.owner f = some source)
      (hopen : b.isOpen target) (hreg : b.pool.register s.group key target = .ok pool)
      (hne : source ≠ target) : Destined b (.attachProcess f key target) f target

/-- The brokers have the same frames, owners and sight. -/
structure SameView (b b' : Broker) : Prop where
  owner : ∀ f, b'.frames.owner f = b.frames.owner f
  parent : ∀ f, b'.frames.parent f = b.frames.parent f
  state : ∀ f, b'.frames.state f = b.frames.state f
  seen : ∀ d f, b'.Seen d f ↔ b.Seen d f

theorem SameView.refl (b : Broker) : SameView b b :=
  ⟨fun _ => rfl, fun _ => rfl, fun _ => rfl, fun _ _ => Iff.rfl⟩

theorem SameView.of_at? (hat : ∀ f, b'.frames.at? f = b.frames.at? f)
    (hseen : ∀ d f, b'.Seen d f ↔ b.Seen d f) : SameView b b' := by
  refine ⟨fun f => ?_, fun f => ?_, fun f => ?_, hseen⟩
  · unfold FrameTree.owner
    rw [hat]
  · unfold FrameTree.parent
    rw [hat]
  · unfold FrameTree.state
    rw [hat]

theorem sameView_rests (h : Rests b b') : SameView b b' := by
  refine .of_at? h.frames.at? fun d f => ?_
  unfold Seen
  rw [h.capabilities]

theorem sameView_opened (hw : b.Wf) (next : UInt64) :
    SameView b { b with nextChannel := next,
                        capabilities := b.capabilities.insert ⟨b.nextChannel⟩ .empty } := by
  refine .of_at? (fun _ => rfl) fun d f => ?_
  by_cases hd : d = ⟨b.nextChannel⟩
  · subst hd
    refine iff_of_false ?_ ?_
    · rintro ⟨caps, hcaps, hmem⟩
      have hempty : (b.capabilities.insert ⟨b.nextChannel⟩ ChannelCaps.empty).lookup ⟨b.nextChannel⟩ =
          some .empty := AList.lookup_insert _
      have hcaps : (b.capabilities.insert ⟨b.nextChannel⟩ ChannelCaps.empty).lookup ⟨b.nextChannel⟩ =
          some caps := hcaps
      rw [hempty] at hcaps
      cases hcaps
      cases hmem
    · rintro ⟨caps, hcaps, -⟩
      exact absurd (hw.channel_lt _ (isOpen_iff.mpr ⟨caps, hcaps⟩)) (Nat.lt_irrefl _)
  · have hother : (b.capabilities.insert ⟨b.nextChannel⟩ ChannelCaps.empty).lookup d =
        b.capabilities.lookup d := AList.lookup_insert_ne hd
    unfold Seen
    show (∃ caps, (b.capabilities.insert ⟨b.nextChannel⟩ ChannelCaps.empty).lookup d = some caps ∧
      f ∈ caps.visible) ↔ _
    rw [hother]

theorem sameView_recorded (hs : b.frames.at? f = some s) (origin : Origin) :
    SameView b (b.recorded f origin) := by
  have hat := at?_recorded hs origin
  refine ⟨fun g => ?_, fun g => ?_, fun g => ?_, fun _ _ => Iff.rfl⟩
  · exact owner_committed hs origin g
  · unfold FrameTree.parent
    rw [hat]
    split
    · rename_i hg
      rw [hg, hs]
      rfl
    · rfl
  · unfold FrameTree.state
    rw [hat]
    split
    · rename_i hg
      rw [hg, hs]
      rfl
    · rfl

theorem sameView_pool (pool : ProcessPool) : SameView b { b with pool } :=
  .of_at? (fun _ => rfl) fun _ _ => Iff.rfl

/-- A commit or an attachment moves no frame, or the one that is destined to move. -/
inductive MoveCases (b : Broker) (op : Op) (b' : Broker) : Prop where
  | stays (hno : ∀ f target, ¬ Destined b op f target) (h : SameView b b')
  | moves (f : FrameId) (source target : ChannelId) (b₁ : Broker) (hdest : Destined b op f target)
      (hunique : ∀ g d, Destined b op g d → g = f ∧ d = target) (hview : SameView b b₁) (hw₁ : b₁.Wf)
      (h : Moves b₁ f source target b')

theorem commit_moveCases (hw : b.Wf) (f : FrameId) (origin : Origin) (resolver : SiteResolver) :
    MoveCases b (.commitDocument f origin resolver) (b.commitDocument f origin resolver).1 := by
  cases howner : b.frames.owner f with
  | none =>
      have hnothing : b.commitDocument f origin resolver = (b, .error .noSuchFrame) := by
        unfold commitDocument
        rw [howner]
      rw [hnothing]
      refine .stays (fun g target hdest => ?_) (.refl b)
      cases hdest with
      | commit _ _ _ s current target key hs howner' hkey hlookup hne =>
          rw [howner] at howner'
          cases howner'
  | some current =>
      obtain ⟨s, hs, hcommits⟩ := commits hw howner origin resolver
      -- a destined move has the pool's channel for the frame's key
      have hdest : ∀ g target, Destined b (.commitDocument f origin resolver) g target →
          g = f ∧ ∃ key, b.keyAfter f origin resolver = some key ∧
            b.pool.byKey.lookup (s.group, key) = some target ∧ current ≠ target := by
        intro g target hdest
        cases hdest with
        | commit _ _ _ s' current' _ key hs' howner' hkey hlookup hne =>
            rw [hs] at hs'
            rw [howner] at howner'
            cases hs'
            cases howner'
            exact ⟨rfl, key, hkey, hlookup, hne⟩
      have hview := sameView_recorded hs origin
      generalize b.commitDocument f origin resolver = result at hcommits
      cases hcommits with
      | noKey hkey =>
          refine .stays (fun g target h => ?_) hview
          obtain ⟨-, key, hkey', -⟩ := hdest g target h
          rw [hkey] at hkey'
          cases hkey'
      | served key hkey hserved =>
          refine .stays (fun g target h => ?_) hview
          obtain ⟨-, key', hkey', hlookup, hne⟩ := hdest g target h
          rw [hkey] at hkey'
          cases hkey'
          rw [(hw.pool.inverse _ _).mpr hserved] at hlookup
          exact hne (Option.some.inj hlookup)
      | claimed key pool hkey hreg =>
          refine .stays (fun g target h => ?_) ⟨hview.owner, hview.parent, hview.state, hview.seen⟩
          obtain ⟨-, key', hkey', hlookup, hne⟩ := hdest g target h
          rw [hkey] at hkey'
          cases hkey'
          rw [(ProcessPool.register_ok hreg).2.1] at hlookup
          cases hlookup
      | shared key target b' hkey hlookup h =>
          refine .moves f current target _ (.commit f origin resolver s current target key hs howner hkey
            hlookup h.distinct) (fun g d h => ?_) hview (wf_recorded hw hs origin) h
          obtain ⟨hg, key', hkey', hlookup', -⟩ := hdest g d h
          rw [hkey] at hkey'
          cases hkey'
          rw [hlookup] at hlookup'
          exact ⟨hg, (Option.some.inj hlookup').symm⟩
      | waits key result hkey hlookup hresult =>
          refine .stays (fun g target h => ?_) hview
          obtain ⟨-, key', hkey', hlookup', -⟩ := hdest g target h
          rw [hkey] at hkey'
          cases hkey'
          rw [hlookup] at hlookup'
          cases hlookup'

theorem attach_moveCases (hw : b.Wf) (f : FrameId) (key : ProcessKey) (c : ChannelId) :
    MoveCases b (.attachProcess f key c) (b.attachProcess f key c).1 := by
  have hattaches := attaches hw f key c
  generalize b.attachProcess f key c = result at hattaches
  cases hattaches with
  | refused reason hno =>
      refine .stays (fun g target hdest => ?_) (.refl b)
      cases hdest with
      | attach _ _ s source _ pool hs howner hopen hreg hne => exact hno s pool hs hopen hreg
  | missed s pool hs howner hopen hreg =>
      refine .stays (fun g target hdest => ?_) (sameView_pool pool)
      cases hdest with
      | attach _ _ s source _ pool hs howner' hopen hreg hne =>
          rw [howner] at howner'
          cases howner'
  | already s pool hs howner hopen hreg =>
      refine .stays (fun g target hdest => ?_) (sameView_pool pool)
      cases hdest with
      | attach _ _ s source _ pool hs howner' hopen hreg hne =>
          rw [howner] at howner'
          exact hne (Option.some.inj howner').symm
  | moved s pool source b' hs hreg h =>
      have hopen : b.isOpen c := h.isOpen
      refine .moves f source c _ (.attach f key s source c pool hs h.owner hopen hreg h.distinct)
        (fun g d hdest => ?_) (sameView_pool pool) (hw.registered hopen hreg) h
      cases hdest with
      | attach _ _ _ _ _ _ _ _ _ _ _ => exact ⟨rfl, rfl⟩

/-! Origins of runs on fixed inputs. -/

/-- A resolver for which every domain is its own site. -/
def ownSite : SiteResolver := some

def originOf (host : String) : Origin := .tuple "https".toList (.domain host.toList) none

end Pelorus.Broker.Broker
