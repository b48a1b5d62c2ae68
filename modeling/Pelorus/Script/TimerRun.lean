import Pelorus.Script.Timers

/-
  Script/TimerRun.lean --- timers over whole runs: none is early, none fires twice, none
  fires after it was cleared, and none is lost.

  ONE CALL.  `step_lookup` says everything a call can do to one timer, and
  `promoteLoop_spec` what promotion does to all of them.

  RUNS.  A timer is queued only since a promotion at or after its due time
  (`queued_since`); a timer that is gone stays gone, because ids are not reused
  (`gone_run`); between two runs of an interval it was armed again (`rearmed_between`).

  The results are about runs that add fewer than `2 ^ 64` timers.
-/
set_option autoImplicit false

namespace Pelorus.Script

open Lib

universe u v

variable {M : Type u} {P : Type v}

namespace LoopCore

/-! ## The length of the heap -/

variable {s : LoopCore M P} {k : Nat}

theorem heap_length_le (h : s.Wf k) (hs : s.Within) : s.heap.length ≤ 3 * s.caps.timers + 1024 := by
  have hsplit := @List.length_eq_countP_add_countP _ (fun a : Arming => (s.timers.lookup a.id).isNone) s.heap
  have hstale := h.stale
  have hlive : s.heap.countP (fun a => ¬ (s.timers.lookup a.id).isNone = true) ≤ s.timerLen := by
    rw [List.countP_eq_length_filter, ← List.length_map Arming.id]
    refine (List.subperm_of_subset ?_ ?_).length_le
    · exact h.distinct.sublist (List.filter_sublist.map _)
    · intro id hid
      obtain ⟨a, ha, rfl⟩ := List.mem_map.mp hid
      have hsome : ¬ (s.timers.lookup a.id).isNone = true := by
        simpa using (List.mem_filter.mp ha).2
      cases he : s.timers.lookup a.id with
      | none =>
          rw [he] at hsome
          exact absurd rfl hsome
      | some e => exact AList.mem_keys.mpr (AList.lookup_isSome.mp (by rw [he]; rfl))
  have htimers := hs.timers
  omega

/-! ## Promotion -/

/-- A timer is pending, with this arming. -/
def IsPending (s : LoopCore M P) (a : Arming) : Prop :=
  ∃ e, s.timers.lookup a.id = some e ∧ e.state = .pending a.due a.seq

variable {a : Arming} {now : UInt64} {rest : List Arming} {op : Op M P} {id : TimerId}
  {ops : List (Op M P)}

theorem isLiveArming_iff : s.isLiveArming a = true ↔ s.IsPending a := by
  unfold isLiveArming IsPending
  cases s.timers.lookup a.id with
  | none => simp
  | some e => simp

/-- The armings of the pending timers that are due, in the order of the heap. -/
def dueArmings (s : LoopCore M P) (now : UInt64) : List Arming :=
  s.heap.filter fun a => s.isLiveArming a && a.due ≤ now

theorem mem_dueArmings (h : s.Wf k) : a ∈ s.dueArmings now ↔ s.IsPending a ∧ a.due ≤ now := by
  rw [dueArmings, List.mem_filter, Bool.and_eq_true, isLiveArming_iff, decide_eq_true_eq]
  refine ⟨fun hmem => hmem.2, fun hdue => ⟨?_, hdue⟩⟩
  obtain ⟨e, he, hstate⟩ := hdue.1
  exact h.armed a.id e a.due a.seq he hstate

/-- A stale arming at the top does not count. -/
theorem dueArmings_stale (hheap : s.heap = a :: rest) (hstale : s.isLiveArming a = false) (now : UInt64) :
    s.dueArmings now = ({ s with heap := rest } : LoopCore M P).dueArmings now := by
  rw [dueArmings, hheap, List.filter_cons_of_neg (by simp [hstale])]
  rfl

/-- If the arming at the top is not due, none is: the others are not before it. -/
theorem dueArmings_late (h : s.Wf k) (hheap : s.heap = a :: rest) (hlate : now < a.due) :
    s.dueArmings now = [] := by
  refine List.filter_eq_nil_iff.mpr fun b hb => ?_
  have hle : a.due.toNat ≤ b.due.toNat := by
    rw [hheap] at hb
    rcases List.mem_cons.mp hb with rfl | hb
    · exact Nat.le_refl _
    · have hsorted := h.sorted
      rw [hheap] at hsorted
      have hab := Arming.le_iff.mp ((List.pairwise_cons.mp hsorted).1 b hb)
      omega
  have hlt := UInt64.lt_iff_toNat_lt.mp hlate
  have hnot : ¬ b.due ≤ now := fun hle' => by
    have := UInt64.le_iff_toNat_le.mp hle'
    omega
  simp [hnot]

theorem dueArmings_promoteOne (h : s.Wf k) (hheap : s.heap = a :: rest)
    (hlive : s.isLiveArming a = true) (hdue : a.due ≤ now) :
    s.dueArmings now = a :: (s.promoteOne a.id rest).dueArmings now := by
  have hdistinct := h.distinct
  rw [hheap] at hdistinct
  have hout := (List.nodup_cons.mp hdistinct).1
  have hrest : (s.promoteOne a.id rest).heap = rest := by rw [promoteOne_eq]
  rw [dueArmings, hheap, List.filter_cons_of_pos (by simp [hlive, hdue]), dueArmings, hrest]
  congr 1
  refine List.filter_congr fun b hb => ?_
  have hne : b.id ≠ a.id := fun heq => hout (heq ▸ List.mem_map.mpr ⟨b, hb, rfl⟩)
  rw [isLiveArming, isLiveArming, lookup_promoteOne, if_neg hne]

/-- What promotion does, with `moved` the timers it takes. -/
structure Promotes (s s' : LoopCore M P) (moved : List Arming) : Prop where
  tasks : s'.tasks = s.tasks ++ moved.map fun a => .timer a.id
  lookup : ∀ id, s'.timers.lookup id =
    if id ∈ moved.map Arming.id then (s.timers.lookup id).map fun e => { e with state := .queued }
    else s.timers.lookup id

theorem Promotes.nothing (s : LoopCore M P) : Promotes s s [] :=
  ⟨by simp, fun id => by simp⟩

/-- One timer is moved, and then others. -/
theorem Promotes.cons {s s' : LoopCore M P} {a : Arming} {rest moved : List Arming}
    (h : Promotes (s.promoteOne a.id rest) s' moved) : Promotes s s' (a :: moved) := by
  constructor
  · rw [h.tasks, promoteOne_eq, List.map_cons, List.append_assoc]
    rfl
  · intro id
    rw [h.lookup, lookup_promoteOne, List.map_cons]
    by_cases hid : id = a.id
    · subst hid
      rw [if_pos rfl, if_pos List.mem_cons_self]
      split
      · rw [Option.map_map]
        rfl
      · rfl
    · rw [if_neg hid]
      simp [hid]

/-- Promotion takes the due timers in order, as many as there is room for. -/
theorem promoteLoop_spec (now : UInt64) : ∀ (fuel : Nat) {k : Nat} {s : LoopCore M P}, s.Wf k →
    s.heap.length < fuel →
    Promotes s (promoteLoop now fuel s) ((s.dueArmings now).take (s.caps.tasks - s.tasks.length))
  | 0, _, _, _, hfuel => absurd hfuel (Nat.not_lt_zero _)
  | fuel + 1, k, s, h, hfuel => by
      rw [promoteLoop_succ]
      split
      · rename_i hstop
        rcases hstop with hterm | hfull
        · have hne : s.terminated ≠ none := fun hnone => by rw [hnone] at hterm; cases hterm
          rw [dueArmings, h.wiped hne, List.filter_nil, List.take_nil]
          exact Promotes.nothing s
        · rw [Nat.sub_eq_zero_of_le hfull, List.take_zero]
          exact Promotes.nothing s
      · rename_i hgo
        have hroom : s.tasks.length < s.caps.tasks := Nat.not_le.mp (not_or.mp hgo).2
        cases hheap : s.heap with
        | nil =>
            rw [dueArmings, hheap, List.filter_nil, List.take_nil]
            exact Promotes.nothing s
        | cons a rest =>
            rw [hheap, List.length_cons] at hfuel
            have ha : a ∈ s.heap := by rw [hheap]; exact List.mem_cons_self
            simp only
            split
            · rename_i hstale
              have ih := promoteLoop_spec now fuel (h.shrink_head hheap hstale) (by
                exact Nat.lt_of_succ_lt_succ hfuel)
              rw [dueArmings_stale hheap hstale]
              exact ⟨ih.tasks, ih.lookup⟩
            · rename_i hlive
              have hlive : s.isLiveArming a = true := by simpa using hlive
              split
              · rename_i hlate
                rw [dueArmings_late h hheap hlate, List.take_nil]
                exact Promotes.nothing s
              · rename_i hdue
                obtain ⟨e, he, -⟩ := isLiveArming_iff.mp hlive
                have hrest : (s.promoteOne a.id rest).heap.length < fuel := by
                  rw [promoteOne_eq]
                  exact Nat.lt_of_succ_lt_succ hfuel
                have ih := promoteLoop_spec now fuel (h.promoteOne hheap he) hrest
                have hleft : s.caps.tasks - s.tasks.length =
                    ((s.promoteOne a.id rest).caps.tasks - (s.promoteOne a.id rest).tasks.length) + 1 := by
                  rw [promoteOne_eq, List.length_append]
                  simp only [List.length_singleton]
                  omega
                rw [dueArmings_promoteOne h hheap hlive (UInt64.not_lt.mp hdue), hleft,
                  List.take_succ_cons]
                exact ih.cons

/-! ## What a call does to one timer -/

/-- The entry of a timer before and after a call. -/
inductive TimerMove (s : LoopCore M P) (op : Op M P) (id : TimerId) :
    Option (Entry P) → Option (Entry P) → Prop
  | same (e : Option (Entry P)) : TimerMove s op id e e
  | gone (e : Option (Entry P)) : TimerMove s op id e none
  | added (e : Option (Entry P)) (e' : Entry P) (hop : op.isAdd = true) (hrun : s.terminated = none)
      (hid : s.nextId = id) (due seq : UInt64) (hstate : e'.state = .pending due seq) :
      TimerMove s op id e (some e')
  | promoted (e : Entry P) (now due seq : UInt64) (hop : op = .promoteDue now)
      (hstate : e.state = .pending due seq) (hdue : due ≤ now) :
      TimerMove s op id (some e) (some { e with state := .queued })
  | begun (e : Entry P) (hop : op = .beginTimerTask id) (hstate : e.state = .queued)
      (hrepeat : e.repeatMs.isSome = true) :
      TimerMove s op id (some e) (some { e with state := .running })
  | rearmed (e e' : Entry P) (now due seq : UInt64) (hop : op = .finishTimerTask id now)
      (hstate : e.state = .running) (hstate' : e'.state = .pending due seq)
      (hrepeat : e'.repeatMs = e.repeatMs) : TimerMove s op id (some e) (some e')

theorem lookup_terminate (s : LoopCore M P) (op : Op M P) (id : TimerId) (reason : TerminateReason) :
    TimerMove s op id (s.timers.lookup id) ((s.terminate reason).timers.lookup id) := by
  unfold terminate
  split
  · exact .same _
  · exact .gone _

theorem timers_clearTimer (s : LoopCore M P) (id : TimerId) :
    (s.clearTimer id).1.timers = s.timers.erase id := by
  unfold clearTimer
  simp only
  split
  · rfl
  · rfl

theorem lookup_erase_move (s : LoopCore M P) (op : Op M P) (id' id : TimerId) :
    TimerMove s op id (s.timers.lookup id) ((s.timers.erase id').lookup id) := by
  rw [lookup_erase_eq]
  split
  · exact .gone _
  · exact .same _

theorem lookup_promoteDue (h : s.Wf k) (now : UInt64) (id : TimerId) :
    TimerMove s (.promoteDue now) id (s.timers.lookup id) ((s.promoteDue now).timers.lookup id) := by
  have hspec := promoteLoop_spec now (s.heap.length + 1) h (Nat.lt_succ_self _)
  rw [promoteDue, hspec.lookup]
  split
  · rename_i hmem
    obtain ⟨a, ha, rfl⟩ := List.mem_map.mp hmem
    obtain ⟨⟨e, he, hstate⟩, hdue⟩ := (mem_dueArmings h).mp (List.mem_of_mem_take ha)
    rw [he]
    exact .promoted e now a.due a.seq rfl hstate hdue
  · exact .same _

theorem Outcome.move {s' : LoopCore M P} {out : Out M P} (h : Outcome s op s' out) (hw : s.Wf k)
    (id : TimerId) :
    TimerMove s op id (s.timers.lookup id) (s'.timers.lookup id) := by
  cases h with
  | stopped _ reason => exact lookup_terminate s _ id reason
  | discarded => exact .gone _
  | added now delayMs repeats payload e due hrun hroom hstate =>
      show TimerMove s _ id _ ((s.timers.insert s.nextId e).lookup id)
      rw [lookup_insert_eq]
      split
      · rename_i hid
        exact .added _ _ rfl hrun hid.symm _ _ hstate
      · exact .same _
  | cleared id' => exact lookup_erase_move s _ id' id
  | compacted id' => exact lookup_erase_move s _ id' id
  | promoted now => exact lookup_promoteDue hw now id
  | ran id' e hrun hentry hstate hrepeat =>
      show TimerMove s _ id _ ((s.timers.insert id' _).lookup id)
      rw [lookup_insert_eq]
      split
      · rename_i hid
        subst hid
        rw [hentry]
        exact .begun e rfl hstate hrepeat
      · exact .same _
  | ranOnce id' => exact lookup_erase_move s _ id' id
  | rearmed id' now e e' due hrun hentry hstate hstate' hrepeat =>
      show TimerMove s _ id _ ((s.timers.insert id' e').lookup id)
      rw [lookup_insert_eq]
      split
      · rename_i hid
        subst hid
        rw [hentry]
        exact .rearmed e e' now _ _ rfl hstate hstate' hrepeat
      · exact .same _
  | _ => exact .same _

/-- Everything that a call can do to a timer. -/
theorem step_lookup (h : s.Wf k) (op : Op M P) (id : TimerId) :
    TimerMove s op id (s.timers.lookup id) ((s.step op).timers.lookup id) :=
  (call_outcome s op).move h id

/-! ## Timers that are gone -/

theorem run_cons (s : LoopCore M P) (op : Op M P) (ops : List (Op M P)) :
    s.run (op :: ops) = (s.step op).run ops := rfl

theorem run_append (s : LoopCore M P) (as bs : List (Op M P)) :
    s.run (as ++ bs) = (s.run as).run bs := runFrom_append step s as bs

theorem adds_cons (op : Op M P) (ops : List (Op M P)) : adds (op :: ops) = op.adds + adds ops := by
  simp [adds]

/-- A call that adds a timer takes an id that was never given out. -/
theorem Wf.lt_nextId (h : s.Wf k) (hrun : s.terminated = none) (hop : op.isAdd = true)
    (hk : k + op.adds ≤ 2 ^ 64 - 1) (hid : id.toNat ≤ k) : s.nextId ≠ id := by
  rintro rfl
  have hone : op.adds = 1 := by rw [Op.adds, if_pos hop]
  rw [h.nextId hrun] at hid
  omega

/-- An id that was given out and has no timer gets none. -/
theorem gone_step (h : s.Wf k) (hk : k + op.adds ≤ 2 ^ 64 - 1) (hid : id.toNat ≤ k)
    (hgone : s.timers.lookup id = none) : (s.step op).timers.lookup id = none := by
  have hmove := step_lookup h op id
  rw [hgone] at hmove
  generalize (s.step op).timers.lookup id = after at hmove ⊢
  cases hmove with
  | same => rfl
  | gone => rfl
  | added e e' hop hrun hnext => exact absurd hnext (h.lt_nextId hrun hop hk hid)

theorem gone_run (h : s.Wf k) (hs : s.Within) (hk : k + adds ops ≤ 2 ^ 64 - 1) (hid : id.toNat ≤ k)
    (hgone : s.timers.lookup id = none) : (s.run ops).timers.lookup id = none := by
  induction ops generalizing s k with
  | nil => exact hgone
  | cons op ops ih =>
      rw [adds_cons] at hk
      have hop : k + op.adds ≤ 2 ^ 64 - 1 := by omega
      exact ih (step_wf h hs hop) (call_within hs op).1 (by omega) (by omega)
        (gone_step h hop hid hgone)

/-! ## Firing -/

/-- A timer is in the task queue. -/
def IsQueued (s : LoopCore M P) (id : TimerId) : Prop :=
  ∃ e, s.timers.lookup id = some e ∧ e.state = .queued

/-- `begin_timer_task` would run this timer. -/
def Fires (s : LoopCore M P) (id : TimerId) : Prop := ∃ f, (s.beginTimerTask id).2 = some f

theorem Outcome.fired {s' : LoopCore M P} {out : Out M P} (h : Outcome s op s' out) {f : Fired P}
    (hop : op = .beginTimerTask id) (hout : out = .fired (some f)) :
    s.IsQueued id ∧
    ((∃ e, s'.timers.lookup id = some e ∧ e.state = .running) ∨ s'.timers.lookup id = none) ∧
    ∀ e, s.timers.lookup id = some e → e.repeatMs = none → s'.timers.lookup id = none := by
  cases h with
  | refused =>
      subst hop
      cases hout
  | stopped =>
      subst hop
      cases hout
  | noTimer => cases hout
  | ran _ e hrun hentry hstate hrepeat =>
      cases hop
      refine ⟨⟨e, hentry, hstate⟩, Or.inl ⟨_, AList.lookup_insert _, rfl⟩, fun e' he' hnone => ?_⟩
      cases hentry.symm.trans he'
      rw [hnone] at hrepeat
      cases hrepeat
  | ranOnce _ e hrun hentry hstate =>
      cases hop
      exact ⟨⟨e, hentry, hstate⟩, Or.inr (AList.lookup_erase _ _), fun _ _ _ => AList.lookup_erase _ _⟩
  | _ => cases hop

/-- A timer that fires is queued; then it is running if it repeats, and gone if not. -/
theorem fires_cases (h : s.Fires id) : s.IsQueued id ∧
    ((∃ e, (s.step (.beginTimerTask id)).timers.lookup id = some e ∧ e.state = .running) ∨
      (s.step (.beginTimerTask id)).timers.lookup id = none) ∧
    ∀ e, s.timers.lookup id = some e → e.repeatMs = none →
      (s.step (.beginTimerTask id)).timers.lookup id = none := by
  obtain ⟨f, hf⟩ := h
  exact (call_outcome s (.beginTimerTask id)).fired rfl (congrArg Out.fired hf)

theorem queued_since {caps : Caps} (hk : adds ops ≤ 2 ^ 64 - 1)
    (h : ((new caps).run ops : LoopCore M P).IsQueued id) :
    ∃ before now since due seq, ops = before ++ .promoteDue now :: since ∧
      ((new caps).run before : LoopCore M P).IsPending ⟨due, seq, id⟩ ∧ due ≤ now ∧
      ∀ mid, List.IsPrefix mid since →
        ((new caps).run (before ++ .promoteDue now :: mid) : LoopCore M P).IsQueued id := by
  have hstart : ¬ (new caps : LoopCore M P).IsQueued id := by
    rintro ⟨e, he, -⟩
    simp [new] at he
  obtain ⟨before, op, since, rfl, hnot, hsince⟩ :=
    @exists_entry _ _ step (fun s => s.IsQueued id) (new caps) ops hstart h
  have hwf := run_wf (wf_new (M := M) (P := P) caps) (within_new caps) before (by
    rw [adds_append] at hk
    omega)
  have hmove := step_lookup hwf op id
  obtain ⟨e', he', hstate'⟩ : (((new caps).run before).step op : LoopCore M P).IsQueued id := by
    have hentry := hsince [] List.nil_prefix
    rw [runFrom_snoc] at hentry
    exact hentry
  have hout : ∀ e, ((new caps).run before : LoopCore M P).timers.lookup id = some e →
      e.state ≠ .queued := fun e he hstate => hnot ⟨e, he, hstate⟩
  rw [he'] at hmove
  generalize hlook : ((new caps).run before : LoopCore M P).timers.lookup id = before? at hmove
  cases hmove with
  | same => exact absurd hstate' (hout e' hlook)
  | added e _ hop hrun hid due seq hstate =>
      rw [hstate] at hstate'
      cases hstate'
  | promoted e now due seq hop hstate hdue =>
      subst hop
      exact ⟨before, now, since, due, seq, rfl, ⟨e, hlook, hstate⟩, hdue, hsince⟩
  | begun e hop hstate => cases hstate'
  | rearmed e _ now due seq hop hstate hstate'' =>
      rw [hstate''] at hstate'
      cases hstate'

theorem rearmed_between (h : s.Wf k) (hs : s.Within) (hk : k + adds ops ≤ 2 ^ 64 - 1)
    (hstart : ∃ e, s.timers.lookup id = some e ∧ e.state = .running) (hend : (s.run ops).IsQueued id) :
    ∃ before now since due seq, ops = before ++ .finishTimerTask id now :: since ∧
      ((s.run before).step (.finishTimerTask id now)).IsPending ⟨due, seq, id⟩ := by
  have hnot : ¬ ∃ e, (s.run ops).timers.lookup id = some e ∧ e.state = .running := by
    rintro ⟨e, he, hstate⟩
    obtain ⟨e', he', hstate'⟩ := hend
    cases he.symm.trans he'
    rw [hstate] at hstate'
    cases hstate'
  obtain ⟨before, op, since, rfl, ⟨e, he, hstate⟩, hexit⟩ :=
    @exists_exit _ _ step (fun s => ∃ e, s.timers.lookup id = some e ∧ e.state = .running) ops s hstart hnot
  have he : (s.run before).timers.lookup id = some e := he
  have hexit : ¬ ∃ e, ((s.run before).step op).timers.lookup id = some e ∧ e.state = .running := hexit
  rw [adds_append, adds_cons] at hk
  have hwf := run_wf h hs before (by omega)
  have hwithin := (run_within hs before).1
  have hop : k + adds before + op.adds ≤ 2 ^ 64 - 1 := by omega
  have hgiven := hwf.tableIds id e he
  have hmove := step_lookup hwf op id
  rw [he] at hmove
  generalize hlook : ((s.run before).step op).timers.lookup id = after at hmove
  cases hmove with
  | same => exact absurd ⟨e, hlook, hstate⟩ hexit
  | gone =>
      have hgone : (((s.run before).step op).run since).timers.lookup id = none :=
        gone_run (step_wf hwf hwithin hop) (call_within hwithin op).1 (by omega)
          (Nat.le_trans hgiven (Nat.le_add_right _ _)) hlook
      obtain ⟨e', he', -⟩ := hend
      rw [run_append, run_cons, hgone] at he'
      cases he'
  | added _ e' hadd hrun hnext => exact absurd hnext (hwf.lt_nextId hrun hadd hop hgiven)
  | promoted _ now due seq hop' hpending =>
      rw [hstate] at hpending
      cases hpending
  | begun _ hop' hqueued =>
      rw [hstate] at hqueued
      cases hqueued
  | rearmed _ e' now due seq hfinish hrunning hpending =>
      subst hfinish
      exact ⟨before, now, since, due, seq, rfl, e', hlook, hpending⟩

/-- A timer that was given out keeps its kind. -/
theorem oneShot_run (h : s.Wf k) (hs : s.Within) (hk : k + adds ops ≤ 2 ^ 64 - 1) (hid : id.toNat ≤ k)
    (hkind : ∀ e, s.timers.lookup id = some e → e.repeatMs = none) :
    ∀ e, (s.run ops).timers.lookup id = some e → e.repeatMs = none := by
  induction ops generalizing s k with
  | nil => exact hkind
  | cons op ops ih =>
      rw [adds_cons] at hk
      have hop : k + op.adds ≤ 2 ^ 64 - 1 := by omega
      refine ih (step_wf h hs hop) (call_within hs op).1 (by omega) (by omega) ?_
      intro e' he'
      have hmove := step_lookup h op id
      rw [he'] at hmove
      generalize hlook : s.timers.lookup id = before at hmove
      cases hmove with
      | same => exact hkind e' hlook
      | added _ _ hadd hrun hnext => exact absurd hnext (h.lt_nextId hrun hadd hop hid)
      | promoted e => exact hkind e hlook
      | begun e => exact hkind e hlook
      | rearmed e _ now due seq hfinish hrunning hpending hrepeat => rw [hrepeat, hkind e hlook]

end LoopCore

end Pelorus.Script
