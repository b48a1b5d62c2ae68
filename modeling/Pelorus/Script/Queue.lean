import Pelorus.Lib.Collections
import Pelorus.Lib.Runs

/-
  Script/Queue.lean --- the queues of the event loop (`px-script/src/queue.rs`).

  THE HEAP is a list of armings in the order in which it gives them out, `(due, seq,
  id)` ascending: equal armings cannot be told apart, so this is all that can be seen
  of it.  It may hold armings of timers that were cleared.

  OPERATIONS.  `step` makes one call and returns what the call returned, so that a run
  of calls can be spoken of.
-/
set_option autoImplicit false

namespace Pelorus.Script

open Lib

universe u v

/-! ## Saturating arithmetic -/

/-- `u64::saturating_add`. -/
def satAdd (a b : UInt64) : UInt64 := UInt64.ofNat (min (a.toNat + b.toNat) (2 ^ 64 - 1))

/-- `u64::saturating_mul`. -/
def satMul (a b : UInt64) : UInt64 := UInt64.ofNat (min (a.toNat * b.toNat) (2 ^ 64 - 1))

/-- `u32::saturating_add(1)`. -/
def satSucc (n : UInt32) : UInt32 := UInt32.ofNat (min (n.toNat + 1) (2 ^ 32 - 1))

/-! ## Constants and types -/

abbrev TimerId : Type := UInt64

def NESTING_CLAMP_LEVEL : UInt32 := 5

def NESTED_MIN_DELAY_MS : UInt64 := 4

def MAX_DELAY_MS : UInt64 := 2147483647

def NS_PER_MS : UInt64 := 1000000

structure Caps where
  tasks : Nat
  microtasks : Nat
  timers : Nat
  checkpointBudget : Nat
  deriving DecidableEq, Repr

def Caps.default : Caps where
  tasks := 4096
  microtasks := 65536
  timers := 10000
  checkpointBudget := 1000000

inductive TerminateReason where
  | taskQueueOverflow
  | microtaskQueueOverflow
  | timerOverflow
  | microtaskBudget
  | runtimeLimit
  | enginePanic
  deriving DecidableEq, Repr

/-- A macrotask. -/
inductive Task where
  | timer (id : TimerId)
  deriving DecidableEq, Repr

/-- Where a timer is. -/
inductive TimerState where
  | pending (due seq : UInt64)
  | queued
  | running
  deriving DecidableEq, Repr

/-- A timer of the table. -/
structure Entry (P : Type v) where
  payload : P
  repeatMs : Option UInt64
  nesting : UInt32
  state : TimerState

/-- What a timer task hands the host to run. -/
structure Fired (P : Type v) where
  payload : P
  nesting : UInt32

/-- An entry of the heap. -/
structure Arming where
  due : UInt64
  seq : UInt64
  id : TimerId
  deriving DecidableEq, Repr

/-- The order of the heap, that of `(due, seq, id)`. -/
def Arming.le (a b : Arming) : Prop :=
  a.due < b.due ∨ a.due = b.due ∧ (a.seq < b.seq ∨ a.seq = b.seq ∧ a.id ≤ b.id)

instance : DecidableRel Arming.le := fun a b =>
  inferInstanceAs (Decidable (a.due < b.due ∨ a.due = b.due ∧
    (a.seq < b.seq ∨ a.seq = b.seq ∧ a.id ≤ b.id)))

structure LoopCore (M : Type u) (P : Type v) where
  caps : Caps
  microtasks : List M
  tasks : List Task
  timers : Map TimerId (Entry P)
  heap : List Arming
  nextId : TimerId
  nextSeq : UInt64
  nesting : UInt32
  checkpointRun : Nat
  terminated : Option TerminateReason

def effectiveDelayMs (requestedMs : UInt64) (nesting : UInt32) : UInt64 :=
  let delay := min requestedMs MAX_DELAY_MS
  if NESTING_CLAMP_LEVEL < nesting then max delay NESTED_MIN_DELAY_MS else delay

/-- The due time of a timer armed now. -/
def dueAt (now delayMs : UInt64) : UInt64 := satAdd now (satMul delayMs NS_PER_MS)

namespace LoopCore

variable {M : Type u} {P : Type v}

def new (caps : Caps) : LoopCore M P where
  caps := caps
  microtasks := []
  tasks := []
  timers := ∅
  heap := []
  nextId := 1
  nextSeq := 0
  nesting := 0
  checkpointRun := 0
  terminated := none

/-- The live timers. -/
def timerLen (s : LoopCore M P) : Nat := s.timers.keys.length

def discard (s : LoopCore M P) : LoopCore M P :=
  { s with microtasks := [], tasks := [], timers := ∅, heap := [] }

def terminate (s : LoopCore M P) (reason : TerminateReason) : LoopCore M P :=
  if s.terminated.isSome then s else { s.discard with terminated := some reason }

/-! ## Microtasks -/

def pushMicrotask (s : LoopCore M P) (job : M) : LoopCore M P × Bool :=
  if s.terminated.isSome then (s, false)
  else if s.caps.microtasks ≤ s.microtasks.length then
    (s.terminate .microtaskQueueOverflow, false)
  else ({ s with microtasks := s.microtasks ++ [job] }, true)

def beginCheckpoint (s : LoopCore M P) : LoopCore M P := { s with checkpointRun := 0 }

def popMicrotask (s : LoopCore M P) : LoopCore M P × Option M :=
  if s.terminated.isSome then (s, none)
  else
    match s.microtasks with
    | [] => (s, none)
    | job :: rest =>
        if s.caps.checkpointBudget ≤ s.checkpointRun then (s.terminate .microtaskBudget, none)
        else ({ s with checkpointRun := s.checkpointRun + 1, microtasks := rest }, some job)

/-! ## Tasks -/

def enqueueTask (s : LoopCore M P) (task : Task) : LoopCore M P × Bool :=
  if s.terminated.isSome then (s, false)
  else if s.caps.tasks ≤ s.tasks.length then (s.terminate .taskQueueOverflow, false)
  else ({ s with tasks := s.tasks ++ [task] }, true)

def popTask (s : LoopCore M P) : LoopCore M P × Option Task :=
  if s.terminated.isSome then (s, none)
  else
    match s.tasks with
    | [] => (s, none)
    | task :: rest => ({ s with tasks := rest }, some task)

/-! ## Timers -/

/-- `heap.push`. -/
def pushHeap (s : LoopCore M P) (a : Arming) : LoopCore M P :=
  { s with heap := s.heap.orderedInsert Arming.le a }

/-- `take_seq`: the state after, where the number taken is the one before. -/
def takeSeq (s : LoopCore M P) : LoopCore M P := { s with nextSeq := satAdd s.nextSeq 1 }

/-- `timers.get_mut`: change the entry of a timer, if there is one. -/
def modifyTimer (s : LoopCore M P) (id : TimerId) (f : Entry P → Entry P) : LoopCore M P :=
  match s.timers.lookup id with
  | some e => { s with timers := s.timers.insert id (f e) }
  | none => s

def isLiveArming (s : LoopCore M P) (a : Arming) : Bool :=
  (s.timers.lookup a.id).any fun e => e.state = .pending a.due a.seq

/-- The arming of a timer of the table that is pending. -/
def Entry.arming? (id : TimerId) (e : Entry P) : Option Arming :=
  match e.state with
  | .pending due seq => some { due, seq, id }
  | .queued => none
  | .running => none

/-- `compact_heap`: a heap of the pending timers. -/
def compactHeap (s : LoopCore M P) : LoopCore M P :=
  { s with heap :=
      (s.timers.entries.filterMap fun e => Entry.arming? e.1 e.2).insertionSort Arming.le }

def addTimer (s : LoopCore M P) (now delayMs : UInt64) (repeats : Bool) (payload : P) :
    LoopCore M P × Option TimerId :=
  if s.terminated.isSome then (s, none)
  else if s.caps.timers ≤ s.timerLen then (s.terminate .timerOverflow, none)
  else
    let nesting := satSucc s.nesting
    let delay := effectiveDelayMs delayMs nesting
    let id := s.nextId
    let due := dueAt now delay
    let seq := s.nextSeq
    let s := { s with nextId := satAdd s.nextId 1 }.takeSeq
    let entry : Entry P :=
      { payload
        repeatMs := if repeats then some (min delayMs MAX_DELAY_MS) else none
        nesting
        state := .pending due seq }
    ({ s with timers := s.timers.insert id entry }.pushHeap { due, seq, id }, some id)

/-- The bound of `clear_timer` on the heap, with saturating arithmetic. -/
def heapLimit (timers : Nat) : Nat := min (min (timers * 2) (2 ^ 64 - 1) + 1024) (2 ^ 64 - 1)

def clearTimer (s : LoopCore M P) (id : TimerId) : LoopCore M P × Bool :=
  let existed := (s.timers.lookup id).isSome
  let s := { s with timers := s.timers.erase id }
  if heapLimit s.timerLen < s.heap.length then (s.compactHeap, existed) else (s, existed)

/-- `next_due_ns`: stale armings are dropped on the way. -/
def nextDueNs (s : LoopCore M P) : LoopCore M P × Option UInt64 :=
  let heap := s.heap.dropWhile fun a => !s.isLiveArming a
  ({ s with heap }, heap.head?.map Arming.due)

/-- The loop of `promote_due`, with `fuel` turns. -/
def promoteLoop (now : UInt64) : Nat → LoopCore M P → LoopCore M P
  | 0, s => s
  | fuel + 1, s =>
      if s.terminated.isSome ∨ s.caps.tasks ≤ s.tasks.length then s
      else
        match s.heap with
        | [] => s
        | a :: rest =>
            if s.isLiveArming a = false then promoteLoop now fuel { s with heap := rest }
            else if now < a.due then s
            else
              let s := { s with heap := rest }.modifyTimer a.id fun e => { e with state := .queued }
              promoteLoop now fuel (s.enqueueTask (.timer a.id)).1

/-- `promote_due`: every turn takes an arming off the heap, or is the last. -/
def promoteDue (s : LoopCore M P) (now : UInt64) : LoopCore M P :=
  promoteLoop now (s.heap.length + 1) s

def beginTimerTask (s : LoopCore M P) (id : TimerId) : LoopCore M P × Option (Fired P) :=
  if s.terminated.isSome then (s, none)
  else
    match s.timers.lookup id with
    | none => (s, none)
    | some entry =>
        if entry.state ≠ .queued then (s, none)
        else
          let fired : Fired P := { payload := entry.payload, nesting := entry.nesting }
          let s := { s with nesting := entry.nesting }
          if entry.repeatMs.isSome then
            ({ s with timers := s.timers.insert id { entry with state := .running } }, some fired)
          else ({ s with timers := s.timers.erase id }, some fired)

def finishTimerTask (s : LoopCore M P) (id : TimerId) (now : UInt64) : LoopCore M P :=
  let s := { s with nesting := 0 }
  if s.terminated.isSome then s
  else
    let seq := s.nextSeq
    let s := s.takeSeq
    match s.timers.lookup id with
    | none => s
    | some entry =>
        if entry.state ≠ .running then s
        else
          match entry.repeatMs with
          | none => s
          | some repeatMs =>
              let nesting := satSucc entry.nesting
              let due := dueAt now (effectiveDelayMs repeatMs nesting)
              let entry := { entry with nesting, state := .pending due seq }
              { s with timers := s.timers.insert id entry }.pushHeap { due, seq, id }

end LoopCore

/-! ## Runs -/

/-- A call. -/
inductive Op (M : Type u) (P : Type v) where
  | terminate (reason : TerminateReason)
  | discard
  | pushMicrotask (job : M)
  | beginCheckpoint
  | popMicrotask
  | addTimer (now delayMs : UInt64) (repeats : Bool) (payload : P)
  | clearTimer (id : TimerId)
  | nextDueNs
  | promoteDue (now : UInt64)
  | enqueueTask (task : Task)
  | popTask
  | beginTimerTask (id : TimerId)
  | finishTimerTask (id : TimerId) (now : UInt64)

/-- What a call returned. -/
inductive Out (M : Type u) (P : Type v) where
  | unit
  | pushed (accepted : Bool)
  | microtask (job : Option M)
  | timer (id : Option TimerId)
  | cleared (existed : Bool)
  | due (ns : Option UInt64)
  | enqueued (accepted : Bool)
  | task (task : Option Task)
  | fired (fired : Option (Fired P))

namespace LoopCore

variable {M : Type u} {P : Type v}

/-- One call. -/
def call (s : LoopCore M P) : Op M P → LoopCore M P × Out M P
  | .terminate reason => (s.terminate reason, .unit)
  | .discard => (s.discard, .unit)
  | .pushMicrotask job => ((s.pushMicrotask job).1, .pushed (s.pushMicrotask job).2)
  | .beginCheckpoint => (s.beginCheckpoint, .unit)
  | .popMicrotask => (s.popMicrotask.1, .microtask s.popMicrotask.2)
  | .addTimer now delayMs repeats payload =>
      ((s.addTimer now delayMs repeats payload).1,
        .timer (s.addTimer now delayMs repeats payload).2)
  | .clearTimer id => ((s.clearTimer id).1, .cleared (s.clearTimer id).2)
  | .nextDueNs => (s.nextDueNs.1, .due s.nextDueNs.2)
  | .promoteDue now => (s.promoteDue now, .unit)
  | .enqueueTask task => ((s.enqueueTask task).1, .enqueued (s.enqueueTask task).2)
  | .popTask => (s.popTask.1, .task s.popTask.2)
  | .beginTimerTask id => ((s.beginTimerTask id).1, .fired (s.beginTimerTask id).2)
  | .finishTimerTask id now => (s.finishTimerTask id now, .unit)

/-- The state after a call. -/
def step (s : LoopCore M P) (op : Op M P) : LoopCore M P := (s.call op).1

/-- The state after calls in turn. -/
def run (s : LoopCore M P) (ops : List (Op M P)) : LoopCore M P := runFrom step s ops

end LoopCore

end Pelorus.Script
