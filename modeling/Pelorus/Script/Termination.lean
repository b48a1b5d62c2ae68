import Pelorus.Script.Outcome

/-
  Script/Termination.lean --- termination is final, the queues are first in first out,
  and the bounds hold.

  Each result is about ONE call first (`call_terminated`, `call_within`,
  `call_microtasks`, `call_tasks`, `call_budget`) and then about every run.
-/
set_option autoImplicit false

namespace Pelorus.Script

open Lib

universe u v w

variable {M : Type u} {P : Type v}

/-! ## Termination -/

/-- The call handed out work: a microtask, a task, a timer or a fired timer. -/
def Out.yields : Out M P → Bool
  | .microtask m => m.isSome
  | .timer i => i.isSome
  | .task t => t.isSome
  | .fired f => f.isSome
  | _ => false

theorem yields_refusal (op : Op M P) : op.refusal.yields = false := by
  cases op with
  | _ => rfl

namespace LoopCore

theorem terminated_clearTimer (s : LoopCore M P) (id : TimerId) :
    (s.clearTimer id).1.terminated = s.terminated := by
  unfold clearTimer
  simp only
  split
  · rfl
  · rfl

variable {s : LoopCore M P} {op : Op M P}
variable {r : TerminateReason}

theorem Outcome.terminated {s' : LoopCore M P} {out : Out M P} (h : Outcome s op s' out)
    (hr : s.terminated = some r) :
    s'.terminated = some r ∧ out.yields = false := by
  cases h with
  | refused => exact ⟨hr, yields_refusal op⟩
  | discarded => exact ⟨hr, rfl⟩
  | checkpoint => exact ⟨hr, rfl⟩
  | cleared => exact ⟨hr, rfl⟩
  | compacted => exact ⟨hr, rfl⟩
  | peeked => exact ⟨hr, rfl⟩
  | promoted now => exact ⟨(promoted_promoteLoop now _ s).terminated.trans hr, rfl⟩
  | finished => exact ⟨hr, rfl⟩
  | stopped _ _ hrun => cases hrun.symm.trans hr
  | pushed _ hrun => cases hrun.symm.trans hr
  | noMicrotask hrun => cases hrun.symm.trans hr
  | microtask _ _ hrun => cases hrun.symm.trans hr
  | added _ _ _ _ _ _ hrun => cases hrun.symm.trans hr
  | enqueued _ hrun => cases hrun.symm.trans hr
  | noTask hrun => cases hrun.symm.trans hr
  | task _ _ hrun => cases hrun.symm.trans hr
  | noTimer _ hrun => cases hrun.symm.trans hr
  | ran _ _ hrun => cases hrun.symm.trans hr
  | ranOnce _ _ hrun => cases hrun.symm.trans hr
  | rearmed _ _ _ _ _ hrun => cases hrun.symm.trans hr

/-- A terminated loop stays so, for the same reason, and hands out nothing. -/
theorem call_terminated (h : s.terminated = some r) (op : Op M P) :
    (s.step op).terminated = some r ∧ (s.call op).2.yields = false :=
  (call_outcome s op).terminated h

theorem run_terminated (h : s.terminated = some r) (ops : List (Op M P)) :
    (s.run ops).terminated = some r :=
  @run_keeps _ _ step (fun s => s.terminated = some r) (fun _ op h => (call_terminated h op).1) s h ops

/-- A loop that is not terminated was not before. -/
theorem not_terminated_of_step (h : (s.step op).terminated = none) : s.terminated = none := by
  cases hs : s.terminated with
  | none => rfl
  | some r =>
      rw [(call_terminated hs op).1] at h
      cases h

/-! ## Bounds -/

/-- The queues and the table are within their caps. -/
structure Within (s : LoopCore M P) : Prop where
  microtasks : s.microtasks.length ≤ s.caps.microtasks
  tasks : s.tasks.length ≤ s.caps.tasks
  timers : s.timerLen ≤ s.caps.timers

theorem within_new (caps : Caps) : (new caps : LoopCore M P).Within :=
  ⟨Nat.zero_le _, Nat.zero_le _, Nat.zero_le _⟩

theorem within_discard (s : LoopCore M P) : s.discard.Within :=
  ⟨Nat.zero_le _, Nat.zero_le _, Nat.zero_le _⟩

theorem within_terminate (h : s.Within) (reason : TerminateReason) :
    (s.terminate reason).Within ∧ (s.terminate reason).caps = s.caps := by
  unfold terminate
  split
  · exact ⟨h, rfl⟩
  · exact ⟨⟨Nat.zero_le _, Nat.zero_le _, Nat.zero_le _⟩, rfl⟩

theorem Outcome.within {s' : LoopCore M P} {out : Out M P}
    (h : Outcome s op s' out) (hs : s.Within) : s'.Within ∧ s'.caps = s.caps := by
  have herase : ∀ id, (s.timers.erase id).keys.length ≤ s.caps.timers := fun id =>
    Nat.le_trans (length_keys_erase_le s.timers id) hs.timers
  cases h with
  | refused => exact ⟨hs, rfl⟩
  | stopped _ reason => exact within_terminate hs reason
  | discarded => exact ⟨within_discard s, rfl⟩
  | pushed job hrun hroom =>
      refine ⟨⟨?_, hs.tasks, hs.timers⟩, rfl⟩
      rw [List.length_append]
      exact hroom
  | checkpoint => exact ⟨⟨hs.microtasks, hs.tasks, hs.timers⟩, rfl⟩
  | noMicrotask => exact ⟨hs, rfl⟩
  | microtask job rest hrun hqueue =>
      have hlen := hs.microtasks
      rw [hqueue, List.length_cons] at hlen
      exact ⟨⟨Nat.le_of_succ_le hlen, hs.tasks, hs.timers⟩, rfl⟩
  | added _ _ _ _ e _ hrun hroom =>
      exact ⟨⟨hs.microtasks, hs.tasks, Nat.le_trans (length_keys_insert_le _ _ e) hroom⟩, rfl⟩
  | cleared id => exact ⟨⟨hs.microtasks, hs.tasks, herase id⟩, rfl⟩
  | compacted id => exact ⟨⟨hs.microtasks, hs.tasks, herase id⟩, rfl⟩
  | peeked => exact ⟨⟨hs.microtasks, hs.tasks, hs.timers⟩, rfl⟩
  | promoted now =>
      have hp : Promoted s (s.promoteDue now) := promoted_promoteLoop now _ s
      refine ⟨⟨?_, ?_, ?_⟩, hp.caps⟩
      · rw [hp.microtasks, hp.caps]
        exact hs.microtasks
      · rw [hp.caps]
        exact hp.room hs.tasks
      · rw [hp.timerLen, hp.caps]
        exact hs.timers
  | enqueued task hrun hroom =>
      refine ⟨⟨hs.microtasks, ?_, hs.timers⟩, rfl⟩
      rw [List.length_append]
      exact hroom
  | noTask => exact ⟨hs, rfl⟩
  | task task rest hrun hqueue =>
      have hlen := hs.tasks
      rw [hqueue, List.length_cons] at hlen
      exact ⟨⟨hs.microtasks, Nat.le_of_succ_le hlen, hs.timers⟩, rfl⟩
  | noTimer => exact ⟨hs, rfl⟩
  | ran id e hrun hentry =>
      exact ⟨⟨hs.microtasks, hs.tasks, (length_keys_insert hentry _).trans_le hs.timers⟩, rfl⟩
  | ranOnce id => exact ⟨⟨hs.microtasks, hs.tasks, herase id⟩, rfl⟩
  | finished => exact ⟨⟨hs.microtasks, hs.tasks, hs.timers⟩, rfl⟩
  | rearmed id now e e' due hrun hentry =>
      exact ⟨⟨hs.microtasks, hs.tasks, (length_keys_insert hentry e').trans_le hs.timers⟩, rfl⟩

theorem call_within (h : s.Within) (op : Op M P) : (s.step op).Within ∧ (s.step op).caps = s.caps :=
  (call_outcome s op).within h

theorem run_within (h : s.Within) (ops : List (Op M P)) : (s.run ops).Within ∧ (s.run ops).caps = s.caps :=
  @run_keeps _ _ step (fun s' => s'.Within ∧ s'.caps = s.caps) (fun _ op hs =>
    ⟨(call_within hs.1 op).1, (call_within hs.1 op).2.trans hs.2⟩) s ⟨h, rfl⟩ ops

end LoopCore

/-- The call empties the queues by itself. -/
def Op.isDiscard : Op M P → Bool
  | .discard => true
  | _ => false

/-- The call starts a checkpoint. -/
def Op.isCheckpoint : Op M P → Bool
  | .beginCheckpoint => true
  | _ => false

/-- The microtask that a call pushes. -/
def Op.microtasks : Op M P → List M
  | .pushMicrotask job => [job]
  | _ => []

/-- The microtask that a call handed out. -/
def Out.microtasks : Out M P → List M
  | .microtask m => m.toList
  | _ => []

/-- The task that a call handed out. -/
def Out.tasks : Out M P → List Task
  | .task t => t.toList
  | _ => []

namespace LoopCore

/-- The tasks that a call enqueues: its own, or the timers it promotes. -/
def enqueues (s : LoopCore M P) : Op M P → List Task
  | .enqueueTask task => [task]
  | .promoteDue now => (s.promoteDue now).tasks.drop s.tasks.length
  | _ => []

/-- What the calls of a run give, in order. -/
def collect {α : Type w} (f : LoopCore M P → Op M P → List α) : LoopCore M P → List (Op M P) → List α
  | _, [] => []
  | s, op :: ops => f s op ++ collect f (s.step op) ops

/-- The microtasks handed out in a run. -/
def microtasksOut (s : LoopCore M P) (ops : List (Op M P)) : List M :=
  collect (fun s op => (s.call op).2.microtasks) s ops

theorem terminate_ne_none (s : LoopCore M P) (reason : TerminateReason) :
    (s.terminate reason).terminated ≠ none := by
  unfold terminate
  split
  · rename_i h
    intro hnone
    rw [hnone] at h
    cases h
  · exact fun h => by cases h

/-- A queue from which every call takes at the front and to which it adds at the back. -/
theorem collect_fifo {α : Type w} {queue : LoopCore M P → List α}
    {added taken : LoopCore M P → Op M P → List α}
    (hstep : ∀ s op, op.isDiscard = false → (s.step op).terminated = none →
      queue s ++ added s op = taken s op ++ queue (s.step op)) :
    ∀ {ops : List (Op M P)} {s : LoopCore M P}, (∀ op ∈ ops, op.isDiscard = false) →
      (s.run ops).terminated = none →
      queue s ++ collect added s ops = collect taken s ops ++ queue (s.run ops)
  | [], s, _, _ => by simp [collect, run]
  | op :: ops, s, hops, hend => by
      have hnext : (s.step op).terminated = none := by
        cases hs : (s.step op).terminated with
        | none => rfl
        | some r =>
            have hkept : (s.run (op :: ops)).terminated = some r := run_terminated hs ops
            rw [hkept] at hend
            cases hend
      have hfirst := hstep s op (hops op (by simp)) hnext
      have ih := @collect_fifo α queue added taken hstep ops (s.step op)
        (fun o ho => hops o (by simp [ho])) hend
      calc queue s ++ (added s op ++ collect added (s.step op) ops)
          = taken s op ++ (queue (s.step op) ++ collect added (s.step op) ops) := by
            rw [← List.append_assoc, hfirst, List.append_assoc]
        _ = taken s op ++ collect taken (s.step op) ops ++ queue ((s.step op).run ops) := by
            rw [ih, List.append_assoc]

/-- What one call does to the microtasks and to the tasks, if the loop goes on. -/
theorem Outcome.fifo {s s' : LoopCore M P} {op : Op M P} {out : Out M P} (h : Outcome s op s' out)
    (hop : op.isDiscard = false) (hend : s'.terminated = none) :
    s.microtasks ++ op.microtasks = out.microtasks ++ s'.microtasks ∧
    s.tasks ++ s.enqueues op = out.tasks ++ s'.tasks := by
  -- A call that touches neither queue.
  have hsame : s.microtasks ++ [] = [] ++ s.microtasks ∧ s.tasks ++ [] = [] ++ s.tasks := by
    simp
  cases h with
  | refused _ hterm =>
      rw [hend] at hterm
      cases hterm
  | stopped _ reason => exact absurd hend (terminate_ne_none s reason)
  | discarded => cases hop
  | pushed job => exact ⟨rfl, hsame.2⟩
  | checkpoint => exact hsame
  | noMicrotask => exact hsame
  | microtask job rest hrun hqueue =>
      refine ⟨?_, hsame.2⟩
      show s.microtasks ++ [] = [job] ++ rest
      rw [List.append_nil, hqueue]
      rfl
  | added => exact hsame
  | cleared => exact hsame
  | compacted => exact hsame
  | peeked => exact hsame
  | promoted now =>
      have hp : Promoted s (s.promoteDue now) := promoted_promoteLoop now _ s
      obtain ⟨added, hadded⟩ := hp.tasks
      refine ⟨?_, ?_⟩
      · rw [hp.microtasks]
        exact hsame.1
      · show s.tasks ++ (s.promoteDue now).tasks.drop s.tasks.length = [] ++ (s.promoteDue now).tasks
        rw [← hadded, List.drop_left, List.nil_append]
  | enqueued task => exact ⟨hsame.1, rfl⟩
  | noTask => exact hsame
  | task task rest hrun hqueue =>
      refine ⟨hsame.1, ?_⟩
      show s.tasks ++ [] = [task] ++ rest
      rw [List.append_nil, hqueue]
      rfl
  | noTimer => exact hsame
  | ran => exact hsame
  | ranOnce => exact hsame
  | finished => exact hsame
  | rearmed => exact hsame

/-! ## The budget -/

theorem checkpointRun_terminate (s : LoopCore M P) (reason : TerminateReason) :
    (s.terminate reason).checkpointRun = s.checkpointRun := by
  unfold terminate
  split
  · rfl
  · rfl

theorem microtasks_refusal (op : Op M P) : op.refusal.microtasks = [] := by
  cases op with
  | _ => rfl

/-- Outside a new checkpoint, a call hands out nothing and leaves the budget, or hands out
one microtask for one unit of it. -/
theorem Outcome.budget {s s' : LoopCore M P} {op : Op M P} {out : Out M P} (h : Outcome s op s' out)
    (hop : op.isCheckpoint = false) :
    out.microtasks = [] ∧ s'.checkpointRun = s.checkpointRun ∨
    out.microtasks.length = 1 ∧ s.checkpointRun < s.caps.checkpointBudget ∧
      s'.checkpointRun = s.checkpointRun + 1 := by
  cases h with
  | checkpoint => cases hop
  | microtask job rest hrun hqueue hbudget => exact Or.inr ⟨rfl, hbudget, rfl⟩
  | refused => exact Or.inl ⟨microtasks_refusal op, rfl⟩
  | stopped _ reason => exact Or.inl ⟨microtasks_refusal op, checkpointRun_terminate s reason⟩
  | promoted now => exact Or.inl ⟨rfl, (promoted_promoteLoop now _ s).checkpointRun⟩
  | _ => exact Or.inl ⟨rfl, rfl⟩

/-- Without a new checkpoint, a run hands out at most what is left of the budget. -/
theorem length_microtasksOut_le : ∀ {ops : List (Op M P)} {s : LoopCore M P}, s.Within →
    (∀ op ∈ ops, op.isCheckpoint = false) →
    (s.microtasksOut ops).length ≤ s.caps.checkpointBudget - s.checkpointRun
  | [], _, _, _ => Nat.zero_le _
  | op :: ops, s, hs, hops => by
      have hnext := call_within hs op
      have ih := @length_microtasksOut_le ops (s.step op) hnext.1 fun o ho => hops o (by simp [ho])
      have hsplit : s.microtasksOut (op :: ops) =
          (s.call op).2.microtasks ++ (s.step op).microtasksOut ops := rfl
      rw [hnext.2] at ih
      rw [hsplit, List.length_append]
      rcases (call_outcome s op).budget (hops op (by simp)) with ⟨hnone, hrun⟩ | ⟨hone, hlt, hrun⟩
      · rw [hrun] at ih
        rw [hnone, List.length_nil]
        omega
      · rw [hrun] at ih
        omega

end LoopCore

/-- What holds of a loop whatever was called on it. -/
structure LoopCore.Governed (caps : Caps) (s : LoopCore M P) : Prop where
  sameCaps : s.caps = caps
  /-- The queues and the table are within their caps. -/
  within : s.Within
  /-- The first reason stays for ever, and no call hands out work after it. -/
  final : ∀ (r : TerminateReason) (later : List (Op M P)), s.terminated = some r →
    (s.run later).terminated = some r ∧ ∀ op, ((s.run later).call op).2.yields = false
  /-- While the loop goes on, what went in comes out in order, or is still there. -/
  fifo : ∀ later : List (Op M P), (∀ op ∈ later, op.isDiscard = false) →
    (s.run later).terminated = none →
    s.microtasks ++ later.flatMap Op.microtasks = s.microtasksOut later ++ (s.run later).microtasks ∧
    s.tasks ++ LoopCore.collect LoopCore.enqueues s later =
      LoopCore.collect (fun s op => (s.call op).2.tasks) s later ++ (s.run later).tasks
  /-- Without a new checkpoint, no more microtasks come out than the budget has. -/
  budget : ∀ later : List (Op M P), (∀ op ∈ later, op.isCheckpoint = false) →
    (s.microtasksOut later).length ≤ caps.checkpointBudget

theorem collect_microtasks (s : LoopCore M P) (ops : List (Op M P)) :
    LoopCore.collect (fun _ op => op.microtasks) s ops = ops.flatMap Op.microtasks := by
  induction ops generalizing s with
  | nil => rfl
  | cons op ops ih => rw [LoopCore.collect, List.flatMap_cons, ih]

/-- TERMINATION IS FINAL, AND THE BOUNDS HOLD, whatever is called on a new loop. -/
theorem loop_governed (caps : Caps) (ops : List (Op M P)) :
    ((LoopCore.new caps).run ops : LoopCore M P).Governed caps := by
  obtain ⟨hwithin, hcaps⟩ := LoopCore.run_within (LoopCore.within_new (M := M) (P := P) caps) ops
  refine ⟨hcaps, hwithin, fun r later hr => ?_, fun later hlater hend => ⟨?_, ?_⟩, fun later hlater => ?_⟩
  · have hkept := LoopCore.run_terminated hr later
    exact ⟨hkept, fun op => (LoopCore.call_terminated hkept op).2⟩
  · rw [← collect_microtasks ((LoopCore.new caps).run ops) later]
    exact LoopCore.collect_fifo (fun s op hop h => ((LoopCore.call_outcome s op).fifo hop h).1) hlater hend
  · exact LoopCore.collect_fifo (fun s op hop h => ((LoopCore.call_outcome s op).fifo hop h).2) hlater hend
  · have hle := LoopCore.length_microtasksOut_le hwithin hlater
    have hbudget : ((LoopCore.new caps : LoopCore M P).run ops).caps.checkpointBudget =
        caps.checkpointBudget := by rw [hcaps]; rfl
    omega

/-- `discard` drops what is queued, and the loop goes on. -/
theorem discard_drops :
    ((LoopCore.new Caps.default : LoopCore Unit Unit).run
      [.pushMicrotask (), .discard]).terminated = none ∧
    ([.pushMicrotask (), .discard] : List (Op Unit Unit)).flatMap Op.microtasks ≠
      (LoopCore.new Caps.default : LoopCore Unit Unit).microtasksOut [.pushMicrotask (), .discard] ++
        ((LoopCore.new Caps.default : LoopCore Unit Unit).run
          [.pushMicrotask (), .discard]).microtasks := by
  decide

end Pelorus.Script
