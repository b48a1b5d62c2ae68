import Pelorus.Broker.Isolation

/-
  Broker/Refusals.lean --- what a commit or an attachment that is refused leaves behind.

  A REFUSED COMMIT has recorded the origin of its document already: it leaves the broker
  as it was only where the frame had this origin before.  It is refused when there is no
  process key, or when the owner serves no key and there is no room to register it.

  A REFUSED ATTACHMENT has registered the process already if the frame is a crashed one.
-/
set_option autoImplicit false
set_option linter.dupNamespace false

namespace Pelorus.Broker

open Lib Websec Ipc

namespace FrameTree

variable {t : FrameTree} {f : FrameId} {s : FrameSlot}

/-- The way up from a frame ends at a top-level frame, as no frame is deeper than the limit. -/
theorem parent_climb (hw : t.Wf) : ∀ {n : Nat} {f : FrameId} {s : FrameSlot}, t.at? f = some s → s.depth.toNat < n →
    t.parent (t.climb n f) = none
  | n + 1, f, s, hs, hdepth => by
      unfold climb
      cases hparent : t.parent f with
      | none => exact hparent
      | some p =>
          obtain ⟨s', hs', hp⟩ := parent_eq_some.mp hparent
          cases hs.symm.trans hs'
          obtain ⟨sp, hsp, -, -, hbelow⟩ := hw.parent f s p hs hp
          exact parent_climb hw hsp (by omega)

theorem parent_rootOf (hw : t.Wf) (hs : t.at? f = some s) : t.parent (t.rootOf f) = none :=
  parent_climb hw hs (Nat.lt_succ_of_le (hw.depth_le f s hs))

theorem modify_eq_self (hs : t.at? f = some s) {k : FrameSlot → FrameSlot} (hk : k s = s) : t.modify f k = t := by
  obtain ⟨index, hindex, hslot⟩ := Option.bind_eq_some_iff.mp hs
  unfold modify
  rw [hindex]
  have hslots : t.slots.modify index k = t.slots := by
    apply List.ext_getElem?
    intro i
    rw [List.getElem?_modify]
    by_cases hi : index = i
    · subst hi
      simp [hslot, hk]
    · simp [hi]
  simp only [hslots]

end FrameTree

namespace Broker

variable {b b' : Broker} {c current : ChannelId} {f : FrameId} {s : FrameSlot} {origin : Origin} {R : SiteResolver}
variable {key : ProcessKey}

/-- The frame tree, the sets of the channels and the pool are the same. -/
structure Unchanged (b b' : Broker) : Prop where
  frames : b'.frames = b.frames
  capabilities : b'.capabilities = b.capabilities
  pool : b'.pool = b.pool

/-- If the call was refused, it left the broker as it was. -/
def CleanRefusal {α : Type} (b : Broker) (result : Broker × Except DenyReason α) : Prop :=
  ∀ reason, result.2 = .error reason → Unchanged b result.1

/-! ## Commits -/

/-- The site of the top-level document once a document of the origin is committed in the frame. -/
def topSite (b : Broker) (f : FrameId) (origin : Origin) (R : SiteResolver) : Option Text :=
  (if b.frames.rootOf f = f then some origin else b.frames.origin (b.frames.rootOf f)).bind fun top => siteOf top R

/-- There is a process for the key, or one can be had. -/
def HasProcess (b : Broker) (current : ChannelId) (group : GroupId) (key : ProcessKey) : Prop :=
  (b.pool.keyOf current).isSome ∨ (b.pool.byKey.lookup (group, key)).isSome ∨ b.pool.len < MAX_CONTENT_PROCESSES

/-- The commit repeats the origin of a frame, or nothing stands in its way. -/
def CommitMeets (b : Broker) (f : FrameId) (origin : Origin) (R : SiteResolver) : Prop :=
  ∀ s current, b.frames.at? f = some s → s.owner = some current →
    s.origin = some origin ∨ ∃ site, b.topSite f origin R = some site ∧ b.HasProcess current s.group ⟨site, origin⟩

theorem unchanged_recorded_iff (hs : b.frames.at? f = some s) :
    Unchanged b (b.recorded f origin) ↔ s.origin = some origin := by
  constructor
  · intro h
    have hat := at?_recorded hs origin f
    rw [h.frames, hs, if_pos rfl, Option.some.injEq] at hat
    rw [hat]
  · intro h
    refine ⟨FrameTree.modify_eq_self hs ?_, rfl, rfl⟩
    rw [← h]

/-- The key of the committed frame is that of its origin and of the site at the top. -/
theorem keyAfter_eq (hw : b.Wf) (hs : b.frames.at? f = some s) (howner : s.owner = some current) :
    b.keyAfter f origin R = (b.topSite f origin R).map fun site => ⟨site, origin⟩ := by
  have hview := sameView_recorded hs origin
  have hat := at?_recorded hs origin
  have hroot : (b.recorded f origin).frames.rootOf f = b.frames.rootOf f :=
    (FrameTree.climb_congr (S := fun _ => True) (fun _ _ _ _ => trivial) (fun g _ => hview.parent g) _
      trivial).1
  have hlive : b.frames.state f = some .live :=
    FrameTree.state_eq_live.mpr ⟨s, hs, (hw.frames.live_iff f s hs).mpr (by rw [howner]; rfl)⟩
  have hself : (b.recorded f origin).frames.origin f = some origin := by
    unfold FrameTree.origin
    rw [hat, if_pos rfl]
    rfl
  have htop : (b.recorded f origin).frames.origin (b.frames.rootOf f) =
      if b.frames.rootOf f = f then some origin else b.frames.origin (b.frames.rootOf f) := by
    split
    · rename_i heq
      rw [heq, hself]
    · rename_i hne
      unfold FrameTree.origin
      rw [hat, if_neg hne]
  apply Option.ext
  intro key
  rw [keyAfter, FrameTree.processKey_eq_some, hview.state, hroot, hview.parent, hself, htop, topSite,
    Option.map_eq_some_iff]
  constructor
  · rintro ⟨-, horigin, -, top, htop, hsite⟩
    refine ⟨key.topLevelSite, ?_, ?_⟩
    · rw [htop]
      exact hsite
    · rw [Option.some.inj horigin]
  · rintro ⟨site, hsite, rfl⟩
    obtain ⟨top, htop, hsite⟩ := Option.bind_eq_some_iff.mp hsite
    exact ⟨hlive, rfl, FrameTree.parent_rootOf hw.frames hs, top, htop, hsite⟩

theorem commitDocument_eq (hw : b.Wf) (hs : b.frames.at? f = some s) (howner : s.owner = some current)
    (hkey : b.keyAfter f origin R = some key) : b.commitDocument f origin R =
      match b.pool.keyOf current with
      | some served =>
          if served = (s.group, key) then (b.recorded f origin, .ok .inPlace)
          else (b.recorded f origin).planOtherProcess f s.group key
      | none =>
          match b.pool.lookup s.group key with
          | .share target => planTransfer ((b.recorded f origin).transferFrame f target)
          | _ =>
              match b.pool.register s.group key current with
              | .ok pool => ({ b.recorded f origin with pool }, .ok .inPlace)
              | .error _ => (b.recorded f origin, .error .frameLimit) := by
  have hlive := (hw.frames.live_iff f s hs).mpr (by rw [howner]; rfl)
  have hrecorded := commitOrigin_eq_recorded hs hlive origin
  have hgroup := group_recorded hs origin
  have hprocess : (b.recorded f origin).frames.processKey f R = some key := hkey
  have howner' : b.frames.owner f = some current := FrameTree.owner_eq_some.mpr ⟨s, hs, howner⟩
  unfold commitDocument
  simp only [howner', hrecorded, hprocess, hgroup]
  rfl

/-- Registration fails for want of room, if the channel serves no key and the key has no process. -/
theorem register_eq_error {p : ProcessPool} {group : GroupId} {e : PoolError} (hchannel : p.keyOf c = none)
    (hkey : p.byKey.lookup (group, key) = none) (h : p.register group key c = .error e) :
    MAX_CONTENT_PROCESSES ≤ p.len := by
  unfold ProcessPool.register at h
  have hchannel : p.byChannel.lookup c = none := hchannel
  rw [hchannel, hkey] at h
  simp only [Option.isSome_none, Bool.false_eq_true, if_false] at h
  by_contra hroom
  rw [if_neg hroom] at h
  cases h

/-- A commit that found no process for its key has the process of the frame itself, is to wait for
one, or is refused for want of room. -/
theorem commit_without_process (hw : b.Wf) (hs : b.frames.at? f = some s) (howner : s.owner = some current)
    (hkey : b.keyAfter f origin R = some key) (hlookup : b.pool.byKey.lookup (s.group, key) = none) :
    ((∃ plan, (b.commitDocument f origin R).2 = .ok plan) ∧ b.HasProcess current s.group key) ∨
      (b.commitDocument f origin R = (b.recorded f origin, .error .frameLimit) ∧
        ¬ b.HasProcess current s.group key) := by
  rw [commitDocument_eq hw hs howner hkey]
  cases hserved : b.pool.keyOf current with
  | some served =>
      refine .inl ⟨?_, .inl (by rw [hserved]; rfl)⟩
      simp only
      split
      · exact ⟨_, rfl⟩
      · have hlookup' : (b.recorded f origin).pool.byKey.lookup (s.group, key) = none := hlookup
        unfold planOtherProcess ProcessPool.lookup
        rw [hlookup']
        by_cases hcap : MAX_CONTENT_PROCESSES ≤ (b.recorded f origin).pool.len
        · simp only [if_pos hcap]
          exact ⟨_, rfl⟩
        · simp only [if_neg hcap]
          exact ⟨_, rfl⟩
  | none =>
      have hplan : b.pool.lookup s.group key = .atCap ∨ b.pool.lookup s.group key = .spawn := by
        unfold ProcessPool.lookup
        rw [hlookup]
        by_cases hcap : MAX_CONTENT_PROCESSES ≤ b.pool.len
        · exact .inl (if_pos hcap)
        · exact .inr (if_neg hcap)
      cases hreg : b.pool.register s.group key current with
      | ok pool =>
          refine .inl ⟨⟨.inPlace, ?_⟩, .inr (.inr (ProcessPool.register_ok hreg).2.2.1)⟩
          rcases hplan with hplan | hplan
          · simp only [hplan]
          · simp only [hplan]
      | error e =>
          refine .inr ⟨?_, ?_⟩
          · rcases hplan with hplan | hplan
            · simp only [hplan]
            · simp only [hplan]
          · rintro (h | h | h)
            · rw [hserved] at h
              cases h
            · rw [hlookup] at h
              cases h
            · exact absurd (register_eq_error hserved hlookup hreg) (Nat.not_le.mpr h)

theorem commit_refused (hw : b.Wf) (hs : b.frames.at? f = some s) (howner : s.owner = some current) :
    ((∃ plan, (b.commitDocument f origin R).2 = .ok plan) ∧
        ∃ site, b.topSite f origin R = some site ∧ b.HasProcess current s.group ⟨site, origin⟩) ∨
      ((∃ reason, b.commitDocument f origin R = (b.recorded f origin, .error reason)) ∧
        ¬ ∃ site, b.topSite f origin R = some site ∧ b.HasProcess current s.group ⟨site, origin⟩) := by
  have hkeyAfter := @keyAfter_eq _ _ _ _ origin R hw hs howner
  obtain ⟨s', hs', hcommits⟩ := commits hw (FrameTree.owner_eq_some.mpr ⟨s, hs, howner⟩) origin R
  cases hs.symm.trans hs'
  cases hsite : b.topSite f origin R with
  | none =>
      rw [hsite, Option.map_none] at hkeyAfter
      refine .inr ⟨?_, fun ⟨_, h, _⟩ => (by cases h)⟩
      generalize b.commitDocument f origin R = result at hcommits
      cases hcommits with
      | noKey _ => exact ⟨_, rfl⟩
      | served _ hkey _ => exact absurd (hkeyAfter.symm.trans hkey) (Option.some_ne_none _).symm
      | claimed _ _ hkey _ => exact absurd (hkeyAfter.symm.trans hkey) (Option.some_ne_none _).symm
      | shared _ _ _ hkey _ _ => exact absurd (hkeyAfter.symm.trans hkey) (Option.some_ne_none _).symm
      | waits _ _ hkey _ _ => exact absurd (hkeyAfter.symm.trans hkey) (Option.some_ne_none _).symm
  | some site =>
      rw [hsite, Option.map_some] at hkeyAfter
      cases hlookup : b.pool.byKey.lookup (s.group, ⟨site, origin⟩) with
      | none =>
          rcases commit_without_process hw hs howner hkeyAfter hlookup with ⟨hok, hprocess⟩ | ⟨hrefused, hprocess⟩
          · exact .inl ⟨hok, site, rfl, hprocess⟩
          · refine .inr ⟨⟨_, hrefused⟩, ?_⟩
            rintro ⟨site', hsite', h⟩
            cases hsite'
            exact hprocess h
      | some target =>
          refine .inl ⟨?_, site, rfl, .inr (.inl (by rw [hlookup]; rfl))⟩
          generalize b.commitDocument f origin R = result at hcommits
          cases hcommits with
          | noKey hkey => exact absurd (hkey.symm.trans hkeyAfter) (Option.some_ne_none _).symm
          | served _ _ _ => exact ⟨_, rfl⟩
          | claimed _ _ _ _ => exact ⟨_, rfl⟩
          | shared _ _ _ _ _ _ => exact ⟨_, rfl⟩
          | waits key result hkey hfree _ =>
              cases hkeyAfter.symm.trans hkey
              rw [hlookup] at hfree
              cases hfree

theorem cleanRefusal_commit_iff (hw : b.Wf) (f : FrameId) (origin : Origin) (R : SiteResolver) :
    CleanRefusal b (b.commitDocument f origin R) ↔ b.CommitMeets f origin R := by
  cases howner : b.frames.owner f with
  | none =>
      -- without an owner nothing is recorded
      have hrefused : b.commitDocument f origin R = (b, .error .noSuchFrame) := by
        unfold commitDocument
        rw [howner]
      rw [hrefused]
      refine ⟨fun _ s current hs hcurrent => ?_, fun _ _ _ => ⟨rfl, rfl, rfl⟩⟩
      rw [FrameTree.owner_eq_some.mpr ⟨s, hs, hcurrent⟩] at howner
      cases howner
  | some current =>
      obtain ⟨s, hs, hcurrent⟩ := FrameTree.owner_eq_some.mp howner
      have hmeets : b.CommitMeets f origin R ↔ s.origin = some origin ∨
          ∃ site, b.topSite f origin R = some site ∧ b.HasProcess current s.group ⟨site, origin⟩ := by
        refine ⟨fun h => h s current hs hcurrent, fun h s' current' hs' hcurrent' => ?_⟩
        cases hs.symm.trans hs'
        cases hcurrent.symm.trans hcurrent'
        exact h
      rw [hmeets]
      rcases @commit_refused _ _ _ _ origin R hw hs hcurrent with ⟨⟨plan, hok⟩, hprocess⟩ | ⟨⟨reason, hrefused⟩, hno⟩
      · refine ⟨fun _ => .inr hprocess, fun _ reason hreason => ?_⟩
        rw [hok] at hreason
        cases hreason
      · rw [hrefused, or_iff_left hno, ← unchanged_recorded_iff hs]
        exact ⟨fun h => h reason rfl, fun h _ _ => h⟩

/-! ## Attachments -/

/-- The frame is not a crashed one, or the process cannot be registered for it. -/
def AttachMeets (b : Broker) (f : FrameId) (key : ProcessKey) (c : ChannelId) : Prop :=
  ∀ s, b.frames.at? f = some s → s.lifecycle = .crashed → b.isOpen c → b.pool.keyOf c = none →
    b.pool.byKey.lookup (s.group, key) = none → MAX_CONTENT_PROCESSES ≤ b.pool.len

theorem cleanRefusal_attach_iff (hw : b.Wf) (f : FrameId) (key : ProcessKey) (c : ChannelId) :
    CleanRefusal b (b.attachProcess f key c) ↔ b.AttachMeets f key c := by
  have hattaches := attaches hw f key c
  generalize b.attachProcess f key c = result at hattaches
  cases hattaches with
  | refused reason hno =>
      refine ⟨fun _ s hs _ hopen hchannel hkey => ?_, fun _ _ _ => ⟨rfl, rfl, rfl⟩⟩
      cases hreg : b.pool.register s.group key c with
      | ok pool => exact absurd hreg (hno s pool hs hopen)
      | error e => exact register_eq_error hchannel hkey hreg
  | missed s pool hs howner hopen hreg =>
      obtain ⟨hchannel, hkey, hroom, -⟩ := ProcessPool.register_ok hreg
      have hcrashed : s.lifecycle = .crashed := by
        cases hlife : s.lifecycle with
        | crashed => rfl
        | free => exact absurd hlife (FrameTree.at?_eq_some.mp hs).2.2
        | live =>
            obtain ⟨o, ho⟩ := Option.isSome_iff_exists.mp ((hw.frames.live_iff f s hs).mp hlife)
            rw [FrameTree.owner_eq_some.mpr ⟨s, hs, ho⟩] at howner
            cases howner
      constructor
      · intro h
        -- the process was registered
        have hpool : pool = b.pool := (h .noSuchFrame rfl).pool
        have hserves := ProcessPool.keyOf_register hreg c
        rw [if_pos rfl, hpool, hchannel] at hserves
        cases hserves
      · intro h
        exact absurd (h s hs hcrashed hopen hchannel hkey) (Nat.not_le.mpr hroom)
  | already s pool hs howner hopen hreg =>
      refine ⟨fun _ s' hs' hcrashed => ?_, fun _ _ hreason => (by cases hreason)⟩
      cases hs.symm.trans hs'
      obtain ⟨s', hs', hlive, -⟩ := hw.frames.owner_live howner
      cases hs.symm.trans hs'
      rw [hlive] at hcrashed
      cases hcrashed
  | moved s pool source b' hs hreg h =>
      refine ⟨fun _ s' hs' hcrashed => ?_, fun _ _ hreason => (by cases hreason)⟩
      cases hs.symm.trans hs'
      obtain ⟨s', hs', hlive, -⟩ := hw.frames.owner_live h.owner
      cases hs.symm.trans hs'
      rw [hlive] at hcrashed
      cases hcrashed

/-- In every reachable broker, a refused commit or attachment leaves it as it was exactly where
the commit repeats the frame's origin or nothing stands in its way, and where the frame of the
attachment is not a crashed one or the process cannot be registered. -/
theorem refused_calls_clean_iff (ops : List Op) :
    (∀ f origin R, CleanRefusal (run ops) ((run ops).commitDocument f origin R) ↔
      (run ops).CommitMeets f origin R) ∧
    (∀ f key c, CleanRefusal (run ops) ((run ops).attachProcess f key c) ↔ (run ops).AttachMeets f key c) :=
  ⟨cleanRefusal_commit_iff (wf_run ops), cleanRefusal_attach_iff (wf_run ops)⟩

/-- A top-level frame, before any commit, and a channel without a frame. -/
def freshFrame : List Op := [.openChannel, .openChannel, .createFrame ⟨0⟩]

/-- The document of an address, which has no site. -/
def addressOrigin : Origin := .tuple "https".toList (.ipv4 ⟨[127, 0, 0, 1], rfl⟩) none

/-- The commit of a document at an address is refused, and the frame has its origin; the attachment
of a process to a crashed frame is refused, and the process serves the key. -/
theorem refused_calls_not_clean :
    ¬ CleanRefusal (run freshFrame) ((run freshFrame).commitDocument ⟨0, 0⟩ addressOrigin ownSite) ∧
    ¬ CleanRefusal (run (freshFrame ++ [.channelDied ⟨0⟩]))
      ((run (freshFrame ++ [.channelDied ⟨0⟩])).attachProcess ⟨0, 0⟩ ⟨"a.com".toList, originOf "a.com"⟩ ⟨1⟩) := by
  constructor
  · intro h
    have horigin := congrArg (fun t => t.origin ⟨0, 0⟩) (h .noProcessKey rfl).frames
    revert horigin
    decide
  · intro h
    have hserved := congrArg (fun p => p.keyOf ⟨1⟩) (h .noSuchFrame rfl).pool
    revert hserved
    decide

end Broker

end Pelorus.Broker
