import K2Cache.Lib.Machine
import K2Cache.Lib.TaskQueue

/-!
# ParallelWorkerPool

The workers of a pool and the thread that made it, step by step. A step is what happens under
one lock: a read of `stopped()` under the worker's own mutex, a call of the queue under the
queue's, taking or releasing `shared_mutex`. `add_task` and `stop_all_workers` do not take
`shared_mutex`, so their steps fall between any two of a worker, also between the predicate of
its wait and the moment it sleeps. The field `held` of the queue is the local `task` of `run`.
-/

namespace K2Cache

open Lib

/-- Where a worker is in `ParallelWorker::run`. -/
inductive WorkerPc where
  /-- `!stopped()` of the loop. -/
  | loopStopped
  /-- `!queue.empty()` of the loop. -/
  | loopEmpty
  /-- Wants `shared_mutex`: at its lock, or woken up. -/
  | lock
  /-- `stopped()` of the predicate of the wait. -/
  | waitStopped
  /-- `!queue.empty()` of the predicate. -/
  | waitEmpty
  /-- The predicate was false. -/
  | block
  | asleep
  /-- `stopped()` of the first `if`. -/
  | breakStopped
  /-- `queue.empty()` of the first `if`. -/
  | breakEmpty
  /-- Leaves the loop, with `shared_mutex`. -/
  | breakUnlock
  /-- `queue.empty()` of the second `if`. -/
  | continueEmpty
  /-- Goes back to the loop, with `shared_mutex`. -/
  | continueUnlock
  /-- `queue.pop()`. -/
  | pop
  /-- `ul.unlock()`. -/
  | unlock
  /-- `queue_cv.notify_all()`, with a task. -/
  | notify
  /-- `task()`. -/
  | task
  /-- `queue_cv.notify_all()` behind the loop. -/
  | lastNotify
  | ended
deriving DecidableEq, Repr

/-- What the thread that made the pool does, a lock at a time. -/
inductive MainStep (n : ℕ) (τ : Type) where
  | push (t : τ)
  | notifyAll
  | stop (w : Fin n)
  | join (w : Fin n)

/-- A pool of `n` workers; `main` is what its maker still has to do. -/
structure ParallelWorkerPool (n : ℕ) (τ : Type) where
  tasks : TaskQueue (Fin n) τ
  stopped : Fin n → Bool
  sharedMutex : Option (Fin n)
  pc : Fin n → WorkerPc
  main : List (MainStep n τ)

namespace ParallelWorkerPool

variable {n : ℕ} {τ : Type}

/-- The constructor, before any of its threads has started. -/
def construct (main : List (MainStep n τ)) : ParallelWorkerPool n τ :=
  ⟨.empty, fun _ => false, none, fun _ => .loopStopped, main⟩

/-- `add_task`. -/
def addTask (task : τ) : List (MainStep n τ) := [.push task, .notifyAll]

/-- `stop_all_workers`. -/
def stopAllWorkers : List (MainStep n τ) := (List.finRange n).map .stop ++ [.notifyAll]

/-- `wait_workers`. -/
def waitWorkers : List (MainStep n τ) := (List.finRange n).map .join

/-- What `parallel_sort` does with its pool. -/
def runAll (tasks : List τ) : List (MainStep n τ) := tasks.flatMap addTask ++ stopAllWorkers ++ waitWorkers

def goto (w : Fin n) (pc : WorkerPc) (s : ParallelWorkerPool n τ) : ParallelWorkerPool n τ :=
  { s with pc := Function.update s.pc w pc }

/-- `queue_cv.notify_all()`. -/
def notifyAll (s : ParallelWorkerPool n τ) : ParallelWorkerPool n τ :=
  { s with pc := fun w => if s.pc w = .asleep then .lock else s.pc w }

def release (s : ParallelWorkerPool n τ) : ParallelWorkerPool n τ := { s with sharedMutex := none }

/-- The next step of a worker; `none` where it cannot go on, or is not allowed to: `pop` must
not meet an empty queue. -/
def workerStep (s : ParallelWorkerPool n τ) (w : Fin n) : Option (ParallelWorkerPool n τ) :=
  let stopped := s.stopped w
  let empty := s.tasks.queue.isEmpty
  match s.pc w with
  | .loopStopped => some (s.goto w (if stopped then .loopEmpty else .lock))
  | .loopEmpty => some (s.goto w (if empty then .lastNotify else .lock))
  | .lock => if s.sharedMutex.isNone then some { s.goto w .waitStopped with sharedMutex := some w } else none
  | .waitStopped => some (s.goto w (if stopped then .breakStopped else .waitEmpty))
  | .waitEmpty => some (s.goto w (if empty then .block else .breakStopped))
  | .block => some (s.goto w .asleep).release
  | .asleep => none
  | .breakStopped => some (s.goto w (if stopped then .breakEmpty else .continueEmpty))
  | .breakEmpty => some (s.goto w (if empty then .breakUnlock else .continueEmpty))
  | .breakUnlock => some (s.goto w .lastNotify).release
  | .continueEmpty => some (s.goto w (if empty then .continueUnlock else .pop))
  | .continueUnlock => some (s.goto w .loopStopped).release
  | .pop => (s.tasks.take w).map fun tasks => { s.goto w .unlock with tasks := tasks }
  | .unlock => some (s.goto w .notify).release
  | .notify => some (s.goto w .task).notifyAll
  | .task => some { s.goto w .loopStopped with tasks := s.tasks.finish w }
  | .lastNotify => some (s.goto w .ended).notifyAll
  | .ended => none

/-- The next step of the thread that made the pool; a join waits for the end of the worker. -/
def mainStep (s : ParallelWorkerPool n τ) : Option (ParallelWorkerPool n τ) :=
  match s.main with
  | [] => none
  | .push t :: main => some { s with tasks := s.tasks.push t, main := main }
  | .notifyAll :: main => some { s.notifyAll with main := main }
  | .stop w :: main => some { s with stopped := Function.update s.stopped w true, main := main }
  | .join w :: main => if s.pc w = .ended then some { s with main := main } else none

/-- A wait may also end without a notification. -/
def wakeUp (s : ParallelWorkerPool n τ) (w : Fin n) : Option (ParallelWorkerPool n τ) :=
  if s.pc w = .asleep then some (s.goto w .lock) else none

end ParallelWorkerPool

/-- Who takes the next step. -/
inductive PoolMove (n : ℕ) where
  | main
  | worker (w : Fin n)
  | wakeUp (w : Fin n)

/-- The pool with its threads in any order. -/
def poolMachine (n : ℕ) (τ : Type) : Machine (ParallelWorkerPool n τ) (PoolMove n) where
  step s
    | .main => s.mainStep
    | .worker w => s.workerStep w
    | .wakeUp w => s.wakeUp w

end K2Cache
