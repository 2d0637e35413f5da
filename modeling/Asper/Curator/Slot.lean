import Asper.Lib.Monitor
import Asper.Lib.Runs
import Mathlib.Data.List.Basic

/-! # The cycle slot

The worker thread, flushes and recalls share one slot for what they ask of the model (`worker.c`,
`api.c`). `cycle_busy` and `recall_waiting` change under the mutex `ev_mu` only. The programs of a
caller and of the worker are given a statement at a time, with a place in them for each; what a
thread reads besides the slot (the clock, the queue, the journal) is open, and a thread that waits
on a condition may be woken at any time, by a signal, by its timeout or by nothing. -/

namespace Asper

open Durable

inductive SlotThread where
  | worker
  /-- The call that arrived as number `i`. -/
  | caller (i : Nat)
  /-- A thread whose critical section is about something else. -/
  | other
  deriving DecidableEq

/-- What the threads share. -/
structure SlotShared where
  mutex : Option SlotThread
  busy : Bool
  waiting : Int
  stop : Bool

namespace SlotShared

def init : SlotShared := ⟨none, false, 0, false⟩

/-- Take the mutex and go on at `next`. -/
def lock {α : Type} (s : SlotShared) (me : SlotThread) (next : α) : Option (SlotShared × α) :=
  if s.mutex = none then some ({ s with mutex := some me }, next) else none

def unlock (s : SlotShared) : SlotShared := { s with mutex := none }

end SlotShared

/-! ## A caller -/

/-- What a caller wants the slot for. A recall may have a deadline. -/
inductive Purpose where
  | flush
  | recall (deadline : Option Int)

def Purpose.deadline : Purpose → Option Int
  | .flush => none
  | .recall d => d

inductive CallerAt where
  | calling
  | entered
  | testing
  | parked
  | waking
  | claiming
  | claimed
  | served
  /-- The generation runs, then the mutex is awaited. -/
  | running
  | releasing
  | released
  | late
  | leaving
  | done
  deriving DecidableEq

/-- The next statement of `asper_cycle_slot_acquire`, of what follows it and of
`asper_cycle_slot_release`; with a deadline it is `asper_recall_project`. -/
def callerNext (deadline : Option Int) (me : SlotThread) (now : Int) (s : SlotShared) :
    CallerAt → Option (SlotShared × CallerAt)
  | .calling => s.lock me .entered
  | .entered => some ({ s with waiting := s.waiting + 1 }, .testing)
  | .testing =>
    if s.busy = false then some (s, .claiming)
    else match deadline with
      | none => some (s.unlock, .parked)
      | some d => if d - now ≤ 0 then some (s, .late) else some (s.unlock, .parked)
  | .parked => some (s, .waking)
  | .waking => s.lock me .testing
  | .claiming => some ({ s with busy := true }, .claimed)
  | .claimed => some ({ s with waiting := s.waiting - 1 }, .served)
  | .served => some (s.unlock, .running)
  | .running => s.lock me .releasing
  | .releasing => some ({ s with busy := false }, .released)
  | .released => some (s.unlock, .done)
  | .late => some ({ s with waiting := s.waiting - 1 }, .leaving)
  | .leaving => some (s.unlock, .done)
  | .done => none

/-- A caller waits from its announcement on, and holds the slot until it is given back. -/
def CallerAt.stance : CallerAt → Stance
  | .calling => ⟨false, false, false, false⟩
  | .entered => ⟨true, false, false, false⟩
  | .testing => ⟨true, true, false, false⟩
  | .parked => ⟨false, true, false, false⟩
  | .waking => ⟨false, true, false, false⟩
  | .claiming => ⟨true, true, false, true⟩
  | .claimed => ⟨true, true, true, false⟩
  | .served => ⟨true, false, true, false⟩
  | .running => ⟨false, false, true, false⟩
  | .releasing => ⟨true, false, true, false⟩
  | .released => ⟨true, false, false, false⟩
  | .late => ⟨true, true, false, false⟩
  | .leaving => ⟨true, false, false, false⟩
  | .done => ⟨false, false, false, false⟩

/-! ## The worker -/

/-- What the worker holds the slot for. -/
inductive SlotTask where
  | cycle
  | review
  deriving DecidableEq

inductive WorkerAt where
  | absent
  | starting
  | looping
  | claiming (task : SlotTask)
  | claimed (task : SlotTask)
  | working (task : SlotTask)
  | releasing (task : SlotTask)
  | released (task : SlotTask)
  | compacting (task : SlotTask)
  | settled (task : SlotTask)
  | parked
  | waking
  | ending
  | exited
  deriving DecidableEq

/-- What the worker finds: a batch or an idle queue, a review that is due, a journal that is too
long, a cycle that failed. -/
structure WorkerSees where
  cycleDue : Bool
  reviewDue : Bool
  crowded : Bool
  failed : Bool

/-- The next statement of `asper_worker_main`, with `worker_maybe_compact`. -/
def workerNext (curator : Bool) (sees : WorkerSees) (s : SlotShared) :
    WorkerAt → Option (SlotShared × WorkerAt)
  | .absent => none
  | .starting => s.lock .worker .looping
  | .looping =>
    if s.stop = true then some (s, .ending)
    else if curator = true ∧ s.busy = false ∧ s.waiting = 0 ∧ sees.cycleDue = true then
      some (s, .claiming .cycle)
    else if curator = true ∧ s.busy = false ∧ s.waiting = 0 ∧ sees.reviewDue = true then
      some (s, .claiming .review)
    else some (s.unlock, .parked)
  | .claiming task => some ({ s with busy := true }, .claimed task)
  | .claimed task => some (s.unlock, .working task)
  | .working task => s.lock .worker (.releasing task)
  | .releasing task => some ({ s with busy := false }, .released task)
  | .released task =>
    if sees.crowded = true then some (s.unlock, .compacting task) else some (s, .settled task)
  | .compacting task => s.lock .worker (.settled task)
  | .settled task =>
    -- after a cycle that failed the next try is put off
    if task = .cycle ∧ sees.failed = true ∧ s.stop = false then some (s.unlock, .parked)
    else some (s, .looping)
  | .parked => some (s, .waking)
  | .waking => s.lock .worker .looping
  | .ending => some (s.unlock, .exited)
  | .exited => none

def WorkerAt.stance : WorkerAt → Stance
  | .absent | .starting | .compacting _ | .parked | .waking | .exited =>
    ⟨false, false, false, false⟩
  | .looping | .released _ | .settled _ | .ending => ⟨true, false, false, false⟩
  | .claiming _ => ⟨true, false, false, true⟩
  | .claimed _ | .releasing _ => ⟨true, false, true, false⟩
  | .working _ => ⟨false, false, true, false⟩

/-! ## The system -/

structure Caller where
  purpose : Purpose
  at_ : CallerAt

structure SlotSystem where
  shared : SlotShared
  worker : WorkerAt
  callers : List Caller

def SlotSystem.init : SlotSystem := ⟨.init, .absent, []⟩

/-- What a thread's place in its program says. -/
def SlotSystem.stance (x : SlotSystem) : SlotThread → Stance
  | .worker => x.worker.stance
  | .caller i => match x.callers[i]? with
    | some c => c.at_.stance
    | none => ⟨false, false, false, false⟩
  | .other => ⟨x.shared.mutex = some .other, false, false, false⟩

inductive SlotEvent where
  | called
  | moved (a : SlotThread)
  /-- The worker takes the slot for a cycle or a review. -/
  | started (task : SlotTask)

inductive SlotSystem.Step (curator : Bool) : SlotSystem → SlotEvent → SlotSystem → Prop where
  | call {x : SlotSystem} (p : Purpose) :
      Step curator x .called { x with callers := x.callers ++ [⟨p, .calling⟩] }
  | caller {x : SlotSystem} {s : SlotShared} {at_ : CallerAt} (i : Nat) (now : Int) (c : Caller)
      (hc : x.callers[i]? = some c)
      (h : callerNext c.purpose.deadline (.caller i) now x.shared c.at_ = some (s, at_)) :
      Step curator x (.moved (.caller i))
        { x with shared := s, callers := x.callers.set i { c with at_ } }
  | worker {x : SlotSystem} {s : SlotShared} {at_ : WorkerAt} (sees : WorkerSees)
      (hn : ∀ task, x.worker ≠ .claiming task)
      (h : workerNext curator sees x.shared x.worker = some (s, at_)) :
      Step curator x (.moved .worker) { x with shared := s, worker := at_ }
  | begin {x : SlotSystem} {s : SlotShared} {at_ : WorkerAt} (sees : WorkerSees) (task : SlotTask)
      (hw : x.worker = .claiming task)
      (h : workerNext curator sees x.shared x.worker = some (s, at_)) :
      Step curator x (.started task) { x with shared := s, worker := at_ }
  /-- `asper_worker_start`. -/
  | start {x : SlotSystem} (hw : x.worker = .absent) :
      Step curator x (.moved .other)
        { x with shared := { x.shared with stop := false }, worker := .starting }
  | lock {x : SlotSystem} (hm : x.shared.mutex = none) :
      Step curator x (.moved .other) { x with shared := { x.shared with mutex := some .other } }
  /-- `asper_worker_stop` asks the worker to end. -/
  | stop {x : SlotSystem} (hm : x.shared.mutex = some .other) :
      Step curator x (.moved .other) { x with shared := { x.shared with stop := true } }
  | unlock {x : SlotSystem} (hm : x.shared.mutex = some .other) :
      Step curator x (.moved .other) { x with shared := x.shared.unlock }
  /-- `asper_worker_stop` has waited for the worker. -/
  | join {x : SlotSystem} (hw : x.worker = .exited) :
      Step curator x (.moved .other)
        { x with shared := { x.shared with stop := false }, worker := .absent }

end Asper
