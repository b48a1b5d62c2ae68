import Pelorus.Script.Queue

/-
  Script/Outcome.lean --- the timer table, and what promotion leaves alone.

  Promotion is a loop over the heap; one turn is `promoteLoop_succ`, and a turn that
  moves a timer is `promoteOne`.
-/
set_option autoImplicit false

namespace Pelorus.Script

open Lib

universe u v

variable {M : Type u} {P : Type v}

namespace LoopCore

/-! ## The table -/

theorem modifyTimer_eq (s : LoopCore M P) (id : TimerId) (f : Entry P → Entry P) :
    s.modifyTimer id f = { s with timers := (s.modifyTimer id f).timers } := by
  unfold modifyTimer
  cases s.timers.lookup id with
  | none => rfl
  | some e => rfl

theorem lookup_modifyTimer (s : LoopCore M P) (id : TimerId) (f : Entry P → Entry P) (id' : TimerId) :
    (s.modifyTimer id f).timers.lookup id' =
      if id' = id then (s.timers.lookup id).map f else s.timers.lookup id' := by
  unfold modifyTimer
  by_cases h : id' = id
  · subst h
    rw [if_pos rfl]
    cases hid : s.timers.lookup id' with
    | none => exact hid
    | some e => exact AList.lookup_insert _
  · rw [if_neg h]
    cases s.timers.lookup id with
    | none => rfl
    | some e => exact AList.lookup_insert_ne h

theorem length_keys_insert_le (m : Map TimerId (Entry P)) (id : TimerId) (e : Entry P) :
    (m.insert id e).keys.length ≤ m.keys.length + 1 := by
  rw [AList.keys_insert, List.length_cons]
  exact Nat.succ_le_succ (List.length_erase_le)

theorem length_keys_insert {m : Map TimerId (Entry P)} {id : TimerId} {e : Entry P}
    (h : m.lookup id = some e) (e' : Entry P) : (m.insert id e').keys.length = m.keys.length := by
  have hmem : id ∈ m.keys := AList.mem_keys.mpr (AList.lookup_isSome.mp (by rw [h]; rfl))
  have hpos := List.length_pos_of_mem hmem
  rw [AList.keys_insert, List.length_cons, List.length_erase_of_mem hmem]
  omega

theorem length_keys_erase_le (m : Map TimerId (Entry P)) (id : TimerId) :
    (m.erase id).keys.length ≤ m.keys.length := by
  rw [AList.keys_erase]
  exact List.length_erase_le

theorem timerLen_modifyTimer (s : LoopCore M P) (id : TimerId) (f : Entry P → Entry P) :
    (s.modifyTimer id f).timerLen = s.timerLen := by
  unfold modifyTimer
  cases h : s.timers.lookup id with
  | none => rfl
  | some e => exact length_keys_insert h (f e)

/-! ## Promotion -/

theorem enqueueTask_room {s : LoopCore M P} (h : ¬ (s.terminated.isSome = true ∨
    s.caps.tasks ≤ s.tasks.length)) (task : Task) :
    s.enqueueTask task = ({ s with tasks := s.tasks ++ [task] }, true) := by
  obtain ⟨hrun, hroom⟩ := not_or.mp h
  rw [enqueueTask, if_neg hrun, if_neg hroom]

/-- What promotion leaves alone: it only adds to the tasks, as far as there is room. -/
structure Promoted (s s' : LoopCore M P) : Prop where
  caps : s'.caps = s.caps
  microtasks : s'.microtasks = s.microtasks
  checkpointRun : s'.checkpointRun = s.checkpointRun
  terminated : s'.terminated = s.terminated
  nextId : s'.nextId = s.nextId
  timerLen : s'.timerLen = s.timerLen
  tasks : List.IsPrefix s.tasks s'.tasks
  room : s.tasks.length ≤ s.caps.tasks → s'.tasks.length ≤ s.caps.tasks

theorem Promoted.refl (s : LoopCore M P) : Promoted s s :=
  ⟨rfl, rfl, rfl, rfl, rfl, rfl, List.prefix_refl _, fun h => h⟩

theorem Promoted.trans {s s' s'' : LoopCore M P} (h : Promoted s s') (h' : Promoted s' s'') :
    Promoted s s'' where
  caps := h'.caps.trans h.caps
  microtasks := h'.microtasks.trans h.microtasks
  checkpointRun := h'.checkpointRun.trans h.checkpointRun
  terminated := h'.terminated.trans h.terminated
  nextId := h'.nextId.trans h.nextId
  timerLen := h'.timerLen.trans h.timerLen
  tasks := h.tasks.trans h'.tasks
  room := fun hroom => h.caps ▸ h'.room (h.caps ▸ h.room hroom)

/-- The state after one timer was moved into the task queue. -/
def promoteOne (s : LoopCore M P) (id : TimerId) (rest : List Arming) : LoopCore M P :=
  { ({ s with heap := rest }.modifyTimer id fun e => { e with state := .queued }) with
    tasks := s.tasks ++ [.timer id] }

theorem promoteOne_eq (s : LoopCore M P) (id : TimerId) (rest : List Arming) :
    s.promoteOne id rest = { s with
      heap := rest
      tasks := s.tasks ++ [.timer id]
      timers := (s.promoteOne id rest).timers } := by
  unfold promoteOne
  rw [modifyTimer_eq]

theorem lookup_promoteOne (s : LoopCore M P) (id : TimerId) (rest : List Arming) (id' : TimerId) :
    (s.promoteOne id rest).timers.lookup id' =
      if id' = id then (s.timers.lookup id).map fun e => { e with state := .queued }
      else s.timers.lookup id' :=
  lookup_modifyTimer { s with heap := rest } id _ id'

theorem promoted_promoteOne {s : LoopCore M P} (h : ¬ s.caps.tasks ≤ s.tasks.length) (id : TimerId)
    (rest : List Arming) : Promoted s (s.promoteOne id rest) := by
  unfold promoteOne
  have hlen := timerLen_modifyTimer { s with heap := rest } id fun e => { e with state := .queued }
  rw [modifyTimer_eq] at hlen ⊢
  refine ⟨rfl, rfl, rfl, rfl, rfl, hlen, List.prefix_append _ _, fun _ => ?_⟩
  rw [List.length_append]
  exact Nat.not_le.mp h

theorem promoteLoop_succ (now : UInt64) (fuel : Nat) (s : LoopCore M P) :
    promoteLoop now (fuel + 1) s =
      if s.terminated.isSome ∨ s.caps.tasks ≤ s.tasks.length then s
      else
        match s.heap with
        | [] => s
        | a :: rest =>
            if s.isLiveArming a = false then promoteLoop now fuel { s with heap := rest }
            else if now < a.due then s
            else promoteLoop now fuel (s.promoteOne a.id rest) := by
  rw [promoteLoop]
  split
  · rfl
  · rename_i hroom
    cases s.heap with
    | nil => rfl
    | cons a rest =>
        simp only
        split
        · rfl
        · split
          · rfl
          · have hstep : ¬ ((({ s with heap := rest }.modifyTimer a.id
                fun e => { e with state := .queued }).terminated.isSome = true) ∨
                ({ s with heap := rest }.modifyTimer a.id
                  fun e => { e with state := .queued }).caps.tasks ≤
                ({ s with heap := rest }.modifyTimer a.id
                  fun e => { e with state := .queued }).tasks.length) := by
              rw [modifyTimer_eq]
              exact hroom
            rw [enqueueTask_room hstep, promoteOne]
            congr 2
            rw [modifyTimer_eq]

theorem promoted_promoteLoop (now : UInt64) : ∀ (fuel : Nat) (s : LoopCore M P),
    Promoted s (promoteLoop now fuel s)
  | 0, s => Promoted.refl s
  | fuel + 1, s => by
      rw [promoteLoop_succ]
      split
      · exact Promoted.refl s
      · rename_i hroom
        cases s.heap with
        | nil => exact Promoted.refl s
        | cons a rest =>
            simp only
            split
            · have ih := promoted_promoteLoop now fuel { s with heap := rest }
              exact ⟨ih.caps, ih.microtasks, ih.checkpointRun, ih.terminated, ih.nextId, ih.timerLen,
                ih.tasks, ih.room⟩
            · split
              · exact Promoted.refl s
              · exact (promoted_promoteOne (not_or.mp hroom).2 a.id rest).trans
                  (promoted_promoteLoop now fuel _)

end LoopCore

end Pelorus.Script

/-! # What a call can do

Every call comes to one of the outcomes of `Outcome`, with what the loop was like
before it; what is kept by every call is shown by cases on them.  What promotion does
is left to its own lemmas. -/

namespace Pelorus.Script

open Lib

universe u v

variable {M : Type u} {P : Type v}

/-- What a call returns that did nothing. -/
def Op.refusal : Op M P → Out M P
  | .pushMicrotask _ => .pushed false
  | .popMicrotask => .microtask none
  | .addTimer _ _ _ _ => .timer none
  | .clearTimer _ => .cleared false
  | .nextDueNs => .due none
  | .enqueueTask _ => .enqueued false
  | .popTask => .task none
  | .beginTimerTask _ => .fired none
  | _ => .unit

namespace LoopCore

/-- The outcomes of a call: the loop and what was returned. -/
inductive Outcome (s : LoopCore M P) : Op M P → LoopCore M P → Out M P → Prop
  /-- The loop is terminated. -/
  | refused (op : Op M P) (hterm : s.terminated.isSome = true) : Outcome s op s op.refusal
  /-- The call terminates the loop. -/
  | stopped (op : Op M P) (reason : TerminateReason) (hrun : s.terminated = none) :
      Outcome s op (s.terminate reason) op.refusal
  | discarded : Outcome s .discard s.discard .unit
  | pushed (job : M) (hrun : s.terminated = none)
      (hroom : s.microtasks.length < s.caps.microtasks) :
      Outcome s (.pushMicrotask job) { s with microtasks := s.microtasks ++ [job] } (.pushed true)
  | checkpoint : Outcome s .beginCheckpoint { s with checkpointRun := 0 } .unit
  | noMicrotask (hrun : s.terminated = none) (hqueue : s.microtasks = []) :
      Outcome s .popMicrotask s (.microtask none)
  | microtask (job : M) (rest : List M) (hrun : s.terminated = none)
      (hqueue : s.microtasks = job :: rest) (hbudget : s.checkpointRun < s.caps.checkpointBudget) :
      Outcome s .popMicrotask
        { s with checkpointRun := s.checkpointRun + 1, microtasks := rest } (.microtask (some job))
  | added (now delayMs : UInt64) (repeats : Bool) (payload : P) (e : Entry P) (due : UInt64)
      (hrun : s.terminated = none) (hroom : s.timerLen < s.caps.timers)
      (hstate : e.state = .pending due s.nextSeq) (hrepeat : repeats = false → e.repeatMs = none) :
      Outcome s (.addTimer now delayMs repeats payload)
        { s with
          nextId := satAdd s.nextId 1
          nextSeq := satAdd s.nextSeq 1
          timers := s.timers.insert s.nextId e
          heap := s.heap.orderedInsert Arming.le ⟨due, s.nextSeq, s.nextId⟩ }
        (.timer (some s.nextId))
  | cleared (id : TimerId) (hshort : s.heap.length ≤ heapLimit (s.timers.erase id).keys.length) :
      Outcome s (.clearTimer id) { s with timers := s.timers.erase id }
        (.cleared (s.timers.lookup id).isSome)
  | compacted (id : TimerId) :
      Outcome s (.clearTimer id) { s with timers := s.timers.erase id }.compactHeap
        (.cleared (s.timers.lookup id).isSome)
  | peeked : Outcome s .nextDueNs
      { s with heap := s.heap.dropWhile fun a => !s.isLiveArming a } (.due s.nextDueNs.2)
  | promoted (now : UInt64) : Outcome s (.promoteDue now) (s.promoteDue now) .unit
  | enqueued (task : Task) (hrun : s.terminated = none) (hroom : s.tasks.length < s.caps.tasks) :
      Outcome s (.enqueueTask task) { s with tasks := s.tasks ++ [task] } (.enqueued true)
  | noTask (hrun : s.terminated = none) (hqueue : s.tasks = []) : Outcome s .popTask s (.task none)
  | task (task : Task) (rest : List Task) (hrun : s.terminated = none)
      (hqueue : s.tasks = task :: rest) :
      Outcome s .popTask { s with tasks := rest } (.task (some task))
  | noTimer (id : TimerId) (hrun : s.terminated = none)
      (hnone : ∀ e, s.timers.lookup id = some e → e.state ≠ .queued) :
      Outcome s (.beginTimerTask id) s (.fired none)
  | ran (id : TimerId) (e : Entry P) (hrun : s.terminated = none)
      (hentry : s.timers.lookup id = some e) (hstate : e.state = .queued)
      (hrepeat : e.repeatMs.isSome = true) :
      Outcome s (.beginTimerTask id)
        { s with nesting := e.nesting, timers := s.timers.insert id { e with state := .running } }
        (.fired (some ⟨e.payload, e.nesting⟩))
  | ranOnce (id : TimerId) (e : Entry P) (hrun : s.terminated = none)
      (hentry : s.timers.lookup id = some e) (hstate : e.state = .queued) :
      Outcome s (.beginTimerTask id) { s with nesting := e.nesting, timers := s.timers.erase id }
        (.fired (some ⟨e.payload, e.nesting⟩))
  | finished (id : TimerId) (now nextSeq : UInt64) :
      Outcome s (.finishTimerTask id now) { s with nesting := 0, nextSeq := nextSeq } .unit
  | rearmed (id : TimerId) (now : UInt64) (e e' : Entry P) (due : UInt64)
      (hrun : s.terminated = none) (hentry : s.timers.lookup id = some e)
      (hstate : e.state = .running) (hstate' : e'.state = .pending due s.nextSeq)
      (hrepeat : e'.repeatMs = e.repeatMs) :
      Outcome s (.finishTimerTask id now)
        { s with
          nesting := 0
          nextSeq := satAdd s.nextSeq 1
          timers := s.timers.insert id e'
          heap := s.heap.orderedInsert Arming.le ⟨due, s.nextSeq, id⟩ }
        .unit

theorem terminated_eq_none {s : LoopCore M P} (h : ¬ s.terminated.isSome = true) :
    s.terminated = none := by simpa using h

section

variable (s : LoopCore M P)

include s

theorem outcome_pushMicrotask (job : M) :
    Outcome s (.pushMicrotask job) (s.pushMicrotask job).1 (.pushed (s.pushMicrotask job).2) := by
  unfold pushMicrotask
  split
  · rename_i hterm
    exact .refused _ hterm
  · rename_i hrun
    split
    · exact .stopped _ _ (terminated_eq_none hrun)
    · rename_i hroom
      exact .pushed job (terminated_eq_none hrun) (Nat.not_le.mp hroom)

theorem outcome_popMicrotask : Outcome s .popMicrotask s.popMicrotask.1 (.microtask s.popMicrotask.2) := by
  unfold popMicrotask
  split
  · rename_i hterm
    exact .refused _ hterm
  · rename_i hrun
    have hrun := terminated_eq_none hrun
    cases hqueue : s.microtasks with
    | nil => exact .noMicrotask hrun hqueue
    | cons job rest =>
        simp only
        split
        · exact .stopped _ _ hrun
        · rename_i hspent
          exact .microtask job rest hrun hqueue (Nat.not_le.mp hspent)

theorem outcome_addTimer (now delayMs : UInt64) (repeats : Bool) (payload : P) :
    Outcome s (.addTimer now delayMs repeats payload) (s.addTimer now delayMs repeats payload).1
      (.timer (s.addTimer now delayMs repeats payload).2) := by
  unfold addTimer
  split
  · rename_i hterm
    exact .refused _ hterm
  · rename_i hrun
    have hrun := terminated_eq_none hrun
    split
    · exact .stopped _ _ hrun
    · rename_i hroom
      refine .added now delayMs repeats payload _ _ hrun (Nat.not_le.mp hroom) rfl fun honce => ?_
      rw [honce]
      rfl

theorem outcome_clearTimer (id : TimerId) :
    Outcome s (.clearTimer id) (s.clearTimer id).1 (.cleared (s.clearTimer id).2) := by
  unfold clearTimer
  simp only
  split
  · exact .compacted id
  · rename_i hshort
    exact .cleared id (Nat.not_lt.mp hshort)

theorem outcome_enqueueTask (task : Task) :
    Outcome s (.enqueueTask task) (s.enqueueTask task).1 (.enqueued (s.enqueueTask task).2) := by
  unfold enqueueTask
  split
  · rename_i hterm
    exact .refused _ hterm
  · rename_i hrun
    split
    · exact .stopped _ _ (terminated_eq_none hrun)
    · rename_i hroom
      exact .enqueued task (terminated_eq_none hrun) (Nat.not_le.mp hroom)

theorem outcome_popTask : Outcome s .popTask s.popTask.1 (.task s.popTask.2) := by
  unfold popTask
  split
  · rename_i hterm
    exact .refused _ hterm
  · rename_i hrun
    have hrun := terminated_eq_none hrun
    cases hqueue : s.tasks with
    | nil => exact .noTask hrun hqueue
    | cons task rest => exact .task task rest hrun hqueue

theorem outcome_beginTimerTask (id : TimerId) :
    Outcome s (.beginTimerTask id) (s.beginTimerTask id).1 (.fired (s.beginTimerTask id).2) := by
  unfold beginTimerTask
  split
  · rename_i hterm
    exact .refused _ hterm
  · rename_i hrun
    have hrun := terminated_eq_none hrun
    cases hentry : s.timers.lookup id with
    | none => exact .noTimer id hrun fun e he => by cases hentry.symm.trans he
    | some e =>
        simp only
        split
        · rename_i hstate
          refine .noTimer id hrun fun e' he' => ?_
          cases hentry.symm.trans he'
          exact hstate
        · rename_i hstate
          split
          · rename_i hrepeat
            exact .ran id e hrun hentry (not_not.mp hstate) hrepeat
          · exact .ranOnce id e hrun hentry (not_not.mp hstate)

theorem outcome_finishTimerTask (id : TimerId) (now : UInt64) :
    Outcome s (.finishTimerTask id now) (s.finishTimerTask id now) .unit := by
  unfold finishTimerTask
  simp only
  split
  · exact .finished id now s.nextSeq
  · rename_i hrun
    have hrun := terminated_eq_none hrun
    split
    · exact .finished id now _
    · rename_i e hentry
      split
      · exact .finished id now _
      · rename_i hstate
        split
        · exact .finished id now _
        · exact .rearmed id now e _ _ hrun hentry (not_not.mp hstate) rfl rfl

/-- Everything that a call can do. -/
theorem call_outcome (op : Op M P) : Outcome s op (s.step op) (s.call op).2 := by
  cases op with
  | terminate reason =>
      show Outcome s _ (s.terminate reason) .unit
      by_cases hterm : s.terminated.isSome = true
      · rw [terminate, if_pos hterm]
        exact .refused _ hterm
      · exact .stopped _ reason (terminated_eq_none hterm)
  | discard => exact .discarded
  | pushMicrotask job => exact outcome_pushMicrotask s job
  | beginCheckpoint => exact .checkpoint
  | popMicrotask => exact outcome_popMicrotask s
  | addTimer now delayMs repeats payload => exact outcome_addTimer s now delayMs repeats payload
  | clearTimer id => exact outcome_clearTimer s id
  | nextDueNs => exact .peeked
  | promoteDue now => exact .promoted now
  | enqueueTask task => exact outcome_enqueueTask s task
  | popTask => exact outcome_popTask s
  | beginTimerTask id => exact outcome_beginTimerTask s id
  | finishTimerTask id now => exact outcome_finishTimerTask s id now

end

end LoopCore

end Pelorus.Script
