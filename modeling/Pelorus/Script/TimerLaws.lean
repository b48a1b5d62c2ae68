import Pelorus.Script.TimerRun

/-
  Script/TimerLaws.lean --- the laws of timers, and how far they hold.

  IDS RUN OUT.  `next_id` saturates: the call after the one that hands out the last id
  hands it out again.  On a loop that goes on, the laws hold exactly for the runs that
  add fewer than `2 ^ 64` timers (`timers_sound_iff`), and `ids_reused` is a run that
  adds `2 ^ 64`.
-/
set_option autoImplicit false

namespace Pelorus.Script

open Lib

universe u v

variable {M : Type u} {P : Type v}

/-- The loop after calls on a new one. -/
def after (caps : Caps) (ops : List (Op M P)) : LoopCore M P := (LoopCore.new caps).run ops

/-- The laws of timers in a run. -/
structure TimersSound (caps : Caps) (ops : List (Op M P)) : Prop where
  /-- A pending timer has its arming in the heap. -/
  armed : ∀ pre post, ops = pre ++ post → ∀ a, (after caps pre).IsPending a → a ∈ (after caps pre).heap
  heapLength : ∀ pre post, ops = pre ++ post →
    (after caps pre).heap.length ≤ 3 * caps.timers + 1024
  /-- Promotion queues the due pending timers by due time and arming, as many as there is
  room for, and leaves the others as they are. -/
  promotes : ∀ pre now post, ops = pre ++ .promoteDue now :: post → ∃ due : List Arming,
    (∀ a, a ∈ due ↔ (after caps pre).IsPending a ∧ a.due ≤ now) ∧ due.Nodup ∧
    due.Pairwise Arming.le ∧
    LoopCore.Promotes (after caps pre) (after caps (pre ++ [.promoteDue now]))
      (due.take (caps.tasks - (after caps pre).tasks.length))
  /-- A timer runs only if it was promoted at or after its due time, and queued since. -/
  timely : ∀ pre id post, ops = pre ++ .beginTimerTask id :: post → (after caps pre).Fires id →
    ∃ before now since due seq, pre = before ++ .promoteDue now :: since ∧
      (after caps before).IsPending ⟨due, seq, id⟩ ∧ due ≤ now ∧
      ∀ mid, List.IsPrefix mid since →
        (after caps (before ++ .promoteDue now :: mid)).IsQueued id
  /-- Between two runs of a timer it was armed again. -/
  oncePerArming : ∀ pre id mid post,
    ops = pre ++ .beginTimerTask id :: (mid ++ .beginTimerTask id :: post) →
    (after caps pre).Fires id → (after caps (pre ++ .beginTimerTask id :: mid)).Fires id →
    ∃ before now since due seq, mid = before ++ .finishTimerTask id now :: since ∧
      (after caps (pre ++ .beginTimerTask id :: (before ++ [.finishTimerTask id now]))).IsPending
        ⟨due, seq, id⟩
  /-- A timer that does not repeat runs at most once. -/
  oneShot : ∀ pre now delayMs payload id mid mid' post,
    ops = pre ++ .addTimer now delayMs false payload ::
      (mid ++ .beginTimerTask id :: (mid' ++ .beginTimerTask id :: post)) →
    ((after caps pre).addTimer now delayMs false payload).2 = some id →
    (after caps (pre ++ .addTimer now delayMs false payload :: mid)).Fires id →
    ¬ (after caps (pre ++ .addTimer now delayMs false payload ::
      (mid ++ .beginTimerTask id :: mid'))).Fires id
  /-- A timer that was cleared does not run. -/
  cleared : ∀ pre now delayMs repeats payload id mid mid' post,
    ops = pre ++ .addTimer now delayMs repeats payload ::
      (mid ++ .clearTimer id :: (mid' ++ .beginTimerTask id :: post)) →
    ((after caps pre).addTimer now delayMs repeats payload).2 = some id →
    ¬ (after caps (pre ++ .addTimer now delayMs repeats payload ::
      (mid ++ .clearTimer id :: mid'))).Fires id
  /-- An id is not zero. -/
  nonzero : ∀ pre now delayMs repeats payload id post,
    ops = pre ++ .addTimer now delayMs repeats payload :: post →
    ((after caps pre).addTimer now delayMs repeats payload).2 = some id → id ≠ 0
  /-- An id is not given out again. -/
  fresh : ∀ pre now delayMs repeats payload id mid now' delayMs' repeats' payload' id' post,
    ops = pre ++ .addTimer now delayMs repeats payload ::
      (mid ++ .addTimer now' delayMs' repeats' payload' :: post) →
    ((after caps pre).addTimer now delayMs repeats payload).2 = some id →
    ((after caps (pre ++ .addTimer now delayMs repeats payload :: mid)).addTimer
      now' delayMs' repeats' payload').2 = some id' → id' ≠ id

namespace LoopCore

theorem after_append (caps : Caps) (as bs : List (Op M P)) :
    after caps (as ++ bs) = (after caps as).run bs := run_append _ as bs

theorem after_cons (caps : Caps) (pre : List (Op M P)) (op : Op M P) (mid : List (Op M P)) :
    after caps (pre ++ op :: mid) = ((after caps pre).step op).run mid := by
  rw [after_append, run_cons]

theorem after_within (caps : Caps) (ops : List (Op M P)) :
    (after caps ops : LoopCore M P).Within ∧ (after caps ops : LoopCore M P).caps = caps :=
  run_within (within_new caps) ops

variable {ops : List (Op M P)}

/-- The invariant after a run with ids left. -/
theorem after_wf (caps : Caps) (hk : adds ops ≤ 2 ^ 64 - 1) :
    (after caps ops : LoopCore M P).Wf (adds ops) := by
  have hwf := run_wf (wf_new (M := M) (P := P) caps) (within_new caps) ops (by rwa [Nat.zero_add])
  rw [Nat.zero_add] at hwf
  exact hwf

variable {s : LoopCore M P} {op : Op M P} {now delayMs : UInt64} {repeats : Bool} {payload : P}
  {id : TimerId} {caps : Caps} {pre mid : List (Op M P)}

theorem Outcome.given {s' : LoopCore M P} {out : Out M P} (h : Outcome s op s' out)
    (hop : op = .addTimer now delayMs repeats payload) (hout : out = .timer (some id)) :
    s.terminated = none ∧ s.nextId = id ∧
    ∀ e, s'.timers.lookup id = some e → repeats = false → e.repeatMs = none := by
  cases h with
  | refused =>
      subst hop
      cases hout
  | stopped =>
      subst hop
      cases hout
  | added _ _ _ _ e due hrun hroom hstate hrepeat =>
      cases hop
      cases hout
      refine ⟨hrun, rfl, fun e' he' => ?_⟩
      cases (AList.lookup_insert s.timers).symm.trans he'
      exact hrepeat
  | _ => cases hop

theorem Outcome.not_given {s' : LoopCore M P} {out : Out M P} (h : Outcome s op s' out)
    (hop : op = .addTimer now delayMs repeats payload) (hout : out = .timer none) :
    s'.terminated ≠ none := by
  cases h with
  | refused _ hterm =>
      intro hnone
      rw [hnone] at hterm
      cases hterm
  | stopped _ reason => exact terminate_ne_none s reason
  | added => cases hout
  | _ => cases hop

/-- A timer that was added: its id is the next one, and its kind is what was asked for. -/
theorem addTimer_given (h : (s.addTimer now delayMs repeats payload).2 = some id) :
    s.terminated = none ∧ s.nextId = id ∧
    ∀ e, (s.step (.addTimer now delayMs repeats payload)).timers.lookup id = some e →
      repeats = false → e.repeatMs = none :=
  (call_outcome s (.addTimer now delayMs repeats payload)).given rfl (congrArg Out.timer h)

theorem addTimer_id (hk : adds pre + 1 ≤ 2 ^ 64 - 1)
    (h : ((after caps pre : LoopCore M P).addTimer now delayMs repeats payload).2 = some id) :
    id.toNat = adds pre + 1 := by
  obtain ⟨hrun, rfl, -⟩ := addTimer_given h
  rw [(after_wf caps (by omega)).nextId hrun, Nat.min_eq_left hk]

theorem adds_addTimer (now delayMs : UInt64) (repeats : Bool) (payload : P) :
    (Op.addTimer now delayMs repeats payload : Op M P).adds = 1 := rfl

/-! ## The laws hold while there are ids -/

theorem step_after_wf (caps : Caps) (op : Op M P) (hk : adds pre + op.adds ≤ 2 ^ 64 - 1) :
    ((after caps pre).step op).Wf (adds pre + op.adds) ∧ ((after caps pre).step op).Within :=
  ⟨step_wf (after_wf caps (by omega)) (after_within caps pre).1 hk,
    (call_within (after_within caps pre).1 op).1⟩

/-- A timer that is gone after a call does not run later. -/
theorem not_fires_of_gone (hk : adds pre + op.adds + adds mid ≤ 2 ^ 64 - 1) (hid : id.toNat ≤ adds pre)
    (hgone : ((after caps pre).step op).timers.lookup id = none) :
    ¬ (after caps (pre ++ op :: mid)).Fires id := by
  obtain ⟨hwf, hwithin⟩ := step_after_wf caps op (Nat.le_trans (Nat.le_add_right _ _) hk)
  have hlater : (((after caps pre).step op).run mid).timers.lookup id = none :=
    gone_run hwf hwithin hk (by omega) hgone
  intro hfires
  obtain ⟨e, he, -⟩ := (fires_cases hfires).1
  rw [after_cons, hlater] at he
  cases he

theorem adds_add {pre mid : List (Op M P)} (now delayMs : UInt64) (repeats : Bool) (payload : P) :
    adds (pre ++ .addTimer now delayMs repeats payload :: mid) = adds pre + 1 + adds mid := by
  rw [adds_append, adds_cons, adds_addTimer, Nat.add_assoc]

theorem oneShot_law (mid' : List (Op M P)) (hk : adds pre + 1 + adds mid + adds mid' ≤ 2 ^ 64 - 1)
    (hid : ((after caps pre).addTimer now delayMs false payload).2 = some id)
    (hfires : (after caps (pre ++ .addTimer now delayMs false payload :: mid)).Fires id) :
    ¬ (after caps ((pre ++ .addTimer now delayMs false payload :: mid) ++
      .beginTimerTask id :: mid')).Fires id := by
  have hgiven := addTimer_id (by omega) hid
  have hsum := @adds_add M P pre mid now delayMs false payload
  obtain ⟨hwf, hwithin⟩ := step_after_wf caps (.addTimer now delayMs false payload)
    (show adds pre + 1 ≤ 2 ^ 64 - 1 by omega)
  rw [adds_addTimer] at hwf
  have hkind : ∀ e, (((after caps pre).step (.addTimer now delayMs false payload)).run
      mid).timers.lookup id = some e → e.repeatMs = none :=
    oneShot_run hwf hwithin (by omega) (by omega) fun e he => (addTimer_given hid).2.2 e he rfl
  obtain ⟨e, he, -⟩ := (fires_cases hfires).1
  rw [after_cons] at he
  have hgone := (fires_cases hfires).2.2 e (by rw [after_cons]; exact he) (hkind e he)
  refine not_fires_of_gone ?_ (by omega) hgone
  rw [hsum]
  exact hk

theorem cleared_law (mid mid' : List (Op M P)) (hk : adds pre + 1 + adds mid + adds mid' ≤ 2 ^ 64 - 1)
    (hid : ((after caps pre).addTimer now delayMs repeats payload).2 = some id) :
    ¬ (after caps ((pre ++ .addTimer now delayMs repeats payload :: mid) ++
      .clearTimer id :: mid')).Fires id := by
  have hgiven := addTimer_id (by omega) hid
  have hsum := @adds_add M P pre mid now delayMs repeats payload
  refine not_fires_of_gone ?_ (by omega) ?_
  · rw [hsum]
    exact hk
  · show ((after caps _).clearTimer id).1.timers.lookup id = none
    rw [timers_clearTimer]
    exact AList.lookup_erase id _

theorem oncePerArming_law (hk : adds pre + adds mid ≤ 2 ^ 64 - 1) (hfires : (after caps pre).Fires id)
    (hagain : (after caps (pre ++ .beginTimerTask id :: mid)).Fires id) :
    ∃ before now since due seq, mid = before ++ .finishTimerTask id now :: since ∧
      (after caps (pre ++ .beginTimerTask id :: (before ++ [.finishTimerTask id now]))).IsPending
        ⟨due, seq, id⟩ := by
  have hwf := after_wf caps (show adds pre ≤ 2 ^ 64 - 1 by omega)
  obtain ⟨⟨e, he, -⟩, hnext, -⟩ := fires_cases hfires
  rcases hnext with hrunning | hgone
  · obtain ⟨hwf', hwithin⟩ := step_after_wf caps (.beginTimerTask id)
      (show adds pre + 0 ≤ 2 ^ 64 - 1 by omega)
    have hqueued := (fires_cases hagain).1
    rw [after_cons] at hqueued
    obtain ⟨before, now, since, due, seq, rfl, hpending⟩ :=
      rearmed_between hwf' hwithin hk hrunning hqueued
    refine ⟨before, now, since, due, seq, rfl, ?_⟩
    rw [after_cons, run_append]
    exact hpending
  · exact absurd hagain (not_fires_of_gone hk (hwf.tableIds id e he) hgone)

theorem promotes_law (hk : adds pre ≤ 2 ^ 64 - 1) (now : UInt64) :
    ∃ due : List Arming, (∀ a, a ∈ due ↔ (after caps pre).IsPending a ∧ a.due ≤ now) ∧ due.Nodup ∧
      due.Pairwise Arming.le ∧
      Promotes (after caps pre) (after caps (pre ++ [.promoteDue now]))
        (due.take (caps.tasks - (after caps pre).tasks.length)) := by
  have hwf := after_wf caps hk
  refine ⟨(after caps pre).dueArmings now, fun a => mem_dueArmings hwf, ?_, ?_, ?_⟩
  · exact hwf.distinct.of_map.sublist List.filter_sublist
  · exact hwf.sorted.sublist List.filter_sublist
  · have hspec := promoteLoop_spec now ((after caps pre).heap.length + 1) hwf (Nat.lt_succ_self _)
    rw [(after_within caps pre).2] at hspec
    rw [after_append]
    exact hspec

theorem timely_law (hk : adds pre ≤ 2 ^ 64 - 1) (hfires : (after caps pre).Fires id) :
    ∃ before now since due seq, pre = before ++ .promoteDue now :: since ∧
      (after caps before).IsPending ⟨due, seq, id⟩ ∧ due ≤ now ∧
      ∀ mid, List.IsPrefix mid since →
        (after caps (before ++ .promoteDue now :: mid)).IsQueued id :=
  queued_since hk (fires_cases hfires).1

/-- The laws hold in a run that has an id for every timer it adds. -/
theorem timers_sound (caps : Caps) (hk : adds ops ≤ 2 ^ 64 - 1) : TimersSound caps ops := by
  constructor
  · rintro pre post rfl a ⟨e, he, hstate⟩
    have hsum := adds_append pre post
    exact (after_wf caps (by omega)).armed a.id e a.due a.seq he hstate
  · rintro pre post rfl
    have hsum := adds_append pre post
    have hlen := heap_length_le (after_wf caps (show adds pre ≤ 2 ^ 64 - 1 by omega))
      (after_within caps pre).1
    rwa [(after_within caps pre).2] at hlen
  · rintro pre now post rfl
    have hsum := adds_append pre (.promoteDue now :: post)
    exact promotes_law (by omega) now
  · rintro pre id post rfl hfires
    have hsum := adds_append pre (.beginTimerTask id :: post)
    exact timely_law (by omega) hfires
  · rintro pre id mid post rfl hfires hagain
    rw [adds_append, adds_cons, adds_append] at hk
    exact oncePerArming_law (by omega) hfires hagain
  · rintro pre now delayMs payload id mid mid' post rfl hid hfires
    rw [adds_add, adds_append, adds_cons, adds_append] at hk
    have hnot := oneShot_law mid' (by omega) hid hfires
    rwa [List.append_assoc] at hnot
  · rintro pre now delayMs repeats payload id mid mid' post rfl hid
    rw [adds_add, adds_append, adds_cons, adds_append] at hk
    have hnot := cleared_law mid mid' (by omega) hid
    rwa [List.append_assoc] at hnot
  · rintro pre now delayMs repeats payload id post rfl hid rfl
    rw [adds_add] at hk
    have hgiven := addTimer_id (by omega) hid
    cases hgiven
  · rintro pre now delayMs repeats payload id mid now' delayMs' repeats' payload' id' post rfl hid hid' rfl
    rw [adds_add, adds_add] at hk
    have hgiven := addTimer_id (by omega) hid
    have hgiven' := addTimer_id (by rw [adds_add]; omega) hid'
    rw [adds_add] at hgiven'
    omega

/-! ## They fail when the ids have run out -/

theorem exists_add : ∀ {ops : List (Op M P)} {n : Nat}, n < adds ops →
    ∃ pre now delayMs repeats payload post,
      ops = pre ++ .addTimer now delayMs repeats payload :: post ∧ adds pre = n
  | [], _, h => absurd h (Nat.not_lt_zero _)
  | op :: ops, n, h => by
      rw [adds_cons] at h
      cases hop : op.isAdd with
      | false =>
          have hzero : op.adds = 0 := by rw [Op.adds, hop]; rfl
          rw [hzero, Nat.zero_add] at h
          obtain ⟨pre, now, delayMs, repeats, payload, post, rfl, hcount⟩ := exists_add h
          refine ⟨op :: pre, now, delayMs, repeats, payload, post, rfl, ?_⟩
          rw [adds_cons, hzero, hcount, Nat.zero_add]
      | true =>
          have hone : op.adds = 1 := by rw [Op.adds, hop]; rfl
          cases n with
          | zero =>
              cases op with
              | addTimer now delayMs repeats payload =>
                  exact ⟨[], now, delayMs, repeats, payload, ops, rfl, rfl⟩
              | _ => cases hop
          | succ n =>
              obtain ⟨pre, now, delayMs, repeats, payload, post, rfl, hcount⟩ :=
                exists_add (show n < adds ops by omega)
              refine ⟨op :: pre, now, delayMs, repeats, payload, post, rfl, ?_⟩
              rw [adds_cons, hone, hcount, Nat.add_comm]

theorem addTimer_of_goes (h : (s.step (.addTimer now delayMs repeats payload)).terminated = none) :
    (s.addTimer now delayMs repeats payload).2 = some s.nextId := by
  have h' : (s.addTimer now delayMs repeats payload).1.terminated = none := h
  have hout := outcome_addTimer s now delayMs repeats payload
  generalize s.addTimer now delayMs repeats payload = after at h' hout ⊢
  obtain ⟨s', id?⟩ := after
  cases id? with
  | some id => exact congrArg some (hout.given rfl rfl).2.1.symm
  | none => exact absurd h' (hout.not_given rfl rfl)

/-- The ids of a run on a loop that goes on: the last one is given out again and again. -/
theorem addTimer_next {post : List (Op M P)} (hk : adds pre ≤ 2 ^ 64 - 1)
    (hrun : (after caps (pre ++ .addTimer now delayMs repeats payload :: post)).terminated = none) :
    ∃ id, ((after caps pre).addTimer now delayMs repeats payload).2 = some id ∧
      id.toNat = min (adds pre + 1) (2 ^ 64 - 1) := by
  rw [after_cons] at hrun
  have hstep : ((after caps pre).step (.addTimer now delayMs repeats payload)).terminated = none := by
    cases hterm : ((after caps pre).step (.addTimer now delayMs repeats payload)).terminated with
    | none => rfl
    | some r =>
        rw [run_terminated hterm post] at hrun
        cases hrun
  exact ⟨(after caps pre).nextId, addTimer_of_goes hstep,
    (after_wf caps hk).nextId (not_terminated_of_step hstep)⟩

/-- A run that adds a timer when no id is left gives the last one out again. -/
theorem not_fresh (hrun : (after caps ops).terminated = none) (hk : 2 ^ 64 ≤ adds ops) :
    ¬ TimersSound caps ops := by
  obtain ⟨pre', now', delayMs', repeats', payload', post, rfl, hcount'⟩ :=
    exists_add (show 2 ^ 64 - 1 < adds ops by omega)
  obtain ⟨pre, now, delayMs, repeats, payload, mid, rfl, hcount⟩ :=
    exists_add (show 2 ^ 64 - 2 < adds pre' by omega)
  obtain ⟨id', hid', hnext'⟩ := addTimer_next (by omega) hrun
  rw [List.append_assoc, List.cons_append] at hrun
  obtain ⟨id, hid, hnext⟩ := addTimer_next (by omega) hrun
  intro hsound
  refine hsound.fresh pre now delayMs repeats payload id mid now' delayMs' repeats' payload' id' post
    (by rw [List.append_assoc, List.cons_append]) hid hid' ?_
  rw [← UInt64.toNat_inj, hnext, hnext', hcount, hcount']
  rfl

end LoopCore

/-- On a loop that goes on, the laws of timers hold exactly if the run adds fewer than `2 ^ 64`
timers. -/
theorem timers_sound_iff (caps : Caps) (ops : List (Op M P))
    (hrun : (after caps ops).terminated = none) :
    TimersSound caps ops ↔ LoopCore.adds ops < 2 ^ 64 := by
  constructor
  · intro hsound
    by_contra hmany
    exact LoopCore.not_fresh hrun (Nat.not_lt.mp hmany) hsound
  · intro hfew
    exact LoopCore.timers_sound caps (Nat.le_sub_one_of_lt hfew)

theorem timers_sound_iff_of_one_timer :
    (after ⟨4, 4, 4, 4⟩ [.addTimer 0 1 false (), .promoteDue 1000000, .popTask, .beginTimerTask 1] :
      LoopCore Unit Unit).terminated = none ∧
    TimersSound ⟨4, 4, 4, 4⟩ ([.addTimer 0 1 false (), .promoteDue 1000000, .popTask,
      .beginTimerTask 1] : List (Op Unit Unit)) :=
  ⟨by decide, (timers_sound_iff _ _ (by decide)).mpr (by decide)⟩

/-! ## A run without ids left -/

/-- A timer is added and cleared, for the first `n` ids. -/
def addAndClear (n : Nat) : List (Op Unit Unit) :=
  (List.range n).flatMap fun i => [.addTimer 0 0 false (), .clearTimer (UInt64.ofNat (i + 1))]

theorem addAndClear_succ (n : Nat) : addAndClear (n + 1) =
    addAndClear n ++ [.addTimer 0 0 false (), .clearTimer (UInt64.ofNat (n + 1))] := by
  simp [addAndClear, List.range_succ]

theorem adds_addAndClear (n : Nat) : LoopCore.adds (addAndClear n) = n := by
  induction n with
  | zero => rfl
  | succ n ih =>
      rw [addAndClear_succ, LoopCore.adds_append, ih]
      rfl

/-- A timer is added if there is room for it. -/
theorem step_addTimer {s : LoopCore M P} (hrun : s.terminated = none)
    (hroom : s.timerLen < s.caps.timers) (now delayMs : UInt64) (repeats : Bool) (payload : P) :
    (s.step (.addTimer now delayMs repeats payload)).terminated = none ∧
    ∃ e, (s.step (.addTimer now delayMs repeats payload)).timers = s.timers.insert s.nextId e := by
  show (s.addTimer now delayMs repeats payload).1.terminated = none ∧
    ∃ e, (s.addTimer now delayMs repeats payload).1.timers = s.timers.insert s.nextId e
  unfold LoopCore.addTimer
  rw [if_neg (by rw [hrun]; exact Bool.false_ne_true), if_neg (Nat.not_le.mpr hroom)]
  exact ⟨hrun, _, rfl⟩

theorem erase_insert_empty (id : TimerId) (e : Entry P) :
    ((∅ : Map TimerId (Entry P)).insert id e).erase id = ∅ :=
  AList.ext (List.kerase_cons_eq rfl)

/-- No timer is left after a round, so the loop goes on. -/
theorem after_addAndClear {caps : Caps} (hcaps : 0 < caps.timers) (n : Nat) (hn : n ≤ 2 ^ 64 - 1) :
    (after caps (addAndClear n)).terminated = none ∧ (after caps (addAndClear n)).timers = ∅ := by
  induction n with
  | zero => exact ⟨rfl, rfl⟩
  | succ n ih =>
      obtain ⟨hrun, hempty⟩ := ih (by omega)
      have hid : (after caps (addAndClear n)).nextId = UInt64.ofNat (n + 1) := by
        have hnext := (LoopCore.after_wf caps (by rw [adds_addAndClear]; omega)).nextId hrun
        rw [adds_addAndClear, Nat.min_eq_left hn] at hnext
        rw [← hnext, UInt64.ofNat_toNat]
      have hroom : (after caps (addAndClear n)).timerLen < (after caps (addAndClear n)).caps.timers := by
        rw [(LoopCore.after_within caps _).2, LoopCore.timerLen, hempty]
        exact hcaps
      obtain ⟨hrun', e, htimers⟩ := step_addTimer hrun hroom 0 0 false ()
      rw [addAndClear_succ, LoopCore.after_cons]
      show (LoopCore.clearTimer _ _).1.terminated = none ∧ (LoopCore.clearTimer _ _).1.timers = ∅
      rw [LoopCore.terminated_clearTimer, LoopCore.timers_clearTimer, htimers, hempty, hid]
      exact ⟨hrun', erase_insert_empty _ e⟩

theorem goes_of_empty {caps : Caps} (hcaps : 0 < caps.timers) {pre : List (Op M P)}
    (hrun : (after caps pre).terminated = none) (hempty : (after caps pre).timers = ∅)
    (now delayMs : UInt64) (repeats : Bool) (payload : P) :
    (after caps (pre ++ [.addTimer now delayMs repeats payload])).terminated = none := by
  rw [LoopCore.after_append]
  refine (step_addTimer hrun ?_ now delayMs repeats payload).1
  rw [(LoopCore.after_within _ _).2, LoopCore.timerLen, hempty]
  exact hcaps

/-- The call that adds the timer after the last id gives the last id out again. -/
theorem ids_reused :
    (after Caps.default (addAndClear (2 ^ 64 - 1) ++ [.addTimer 0 0 false ()])).terminated = none ∧
    ¬ TimersSound Caps.default (addAndClear (2 ^ 64 - 1) ++ [.addTimer 0 0 false ()]) := by
  have hcaps : 0 < Caps.default.timers := by decide
  obtain ⟨hrun, hempty⟩ := after_addAndClear hcaps (2 ^ 64 - 1) (Nat.le_refl _)
  have hgoes := goes_of_empty hcaps hrun hempty 0 0 false ()
  refine ⟨hgoes, LoopCore.not_fresh hgoes ?_⟩
  rw [LoopCore.adds_append, adds_addAndClear]
  exact Nat.le_refl _

end Pelorus.Script
