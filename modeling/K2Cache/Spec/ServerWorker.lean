import K2Cache.Lib.Machine
import K2Cache.Lib.TaskQueue

/-!
# ServerWorker

The workers of a task processor: those of `CacheServerTaskProcessor`, which takes connections,
and the one of `ReplacementTaskProcessor`. A step is what happens under one lock. A worker has its own
mutex `m` from the start of `main_loop`, except while it sleeps, so `pause` and `stop` get it only
then; `notify` does not take it. The queue is under the processor's mutex, which `notify_workers`
holds over its whole loop. The field `held` of the queue is the local `next_task`.
-/

namespace K2Cache

open Lib

/-- Where a worker is in `ServerWorker::main_loop`. -/
inductive ServerWorkerPc where
  /-- Wants `m`: at the head of `main_loop`, or woken up. -/
  | lock
  /-- `running` of the predicate of the wait. -/
  | waitRunning
  /-- `tasks_available()` of the predicate. -/
  | waitTasks
  /-- The predicate was false. -/
  | block
  | asleep
  /-- `if (stopped)`. -/
  | breakStopped
  /-- `get_server_task()`. -/
  | getTask
  /-- `next_task->process()`. -/
  | process
  | ended
deriving DecidableEq, Repr

/-- `n` workers and their processor; `notifications` counts the requests whose notification is
still to come. -/
structure ServerWorkers (n : ℕ) (τ : Type) where
  tasks : TaskQueue (Fin n) τ
  running : Fin n → Bool
  stopped : Fin n → Bool
  pc : Fin n → ServerWorkerPc
  notifications : ℕ

/-- The places where a worker has not its mutex. -/
def ServerWorkerPc.unlocked : ServerWorkerPc → Bool
  | .lock | .asleep | .ended => true
  | _ => false

namespace ServerWorkers

variable {n : ℕ} {τ : Type}

/-- `start_workers`. -/
def startWorkers : ServerWorkers n τ := ⟨.empty, fun _ => true, fun _ => false, fun _ => .lock, 0⟩

def goto (w : Fin n) (pc : ServerWorkerPc) (s : ServerWorkers n τ) : ServerWorkers n τ :=
  { s with pc := Function.update s.pc w pc }

/-- `process_request`, and `add_task` up to its notification. -/
def processRequest (t : τ) (s : ServerWorkers n τ) : ServerWorkers n τ :=
  { s with tasks := s.tasks.push t, notifications := s.notifications + 1 }

/-- `notify_workers`, behind a request. -/
def notifyWorkers (s : ServerWorkers n τ) : Option (ServerWorkers n τ) :=
  if s.notifications = 0 then none
  else some { s with
    pc := fun w => if s.pc w = .asleep then .lock else s.pc w, notifications := s.notifications - 1 }

/-- `pause`. -/
def pause (w : Fin n) (s : ServerWorkers n τ) : Option (ServerWorkers n τ) :=
  if (s.pc w).unlocked then some { s with running := Function.update s.running w false } else none

/-- `stop`, up to its join. -/
def stop (w : Fin n) (s : ServerWorkers n τ) : Option (ServerWorkers n τ) :=
  if (s.pc w).unlocked then
    some { s.goto w (if s.pc w = .asleep then .lock else s.pc w) with
      running := Function.update s.running w true, stopped := Function.update s.stopped w true }
  else none

/-- The next step of a worker in `main_loop`. -/
def mainLoop (s : ServerWorkers n τ) (w : Fin n) : Option (ServerWorkers n τ) :=
  match s.pc w with
  | .lock => some (s.goto w .waitRunning)
  | .waitRunning => some (s.goto w (if s.running w then .waitTasks else .block))
  | .waitTasks => some (s.goto w (if s.tasks.queue.isEmpty then .block else .breakStopped))
  | .block => some (s.goto w .asleep)
  | .asleep => none
  | .breakStopped => some (s.goto w (if s.stopped w then .ended else .getTask))
  | .getTask => match s.tasks.take w with
    -- `continue`
    | none => some (s.goto w .waitRunning)
    | some tasks => some { s.goto w .process with tasks := tasks }
  | .process => some { s.goto w .waitRunning with tasks := s.tasks.finish w }
  | .ended => none

/-- A wait may also end without a notification. -/
def wakeUp (s : ServerWorkers n τ) (w : Fin n) : Option (ServerWorkers n τ) :=
  if s.pc w = .asleep then some (s.goto w .lock) else none

end ServerWorkers

/-- What happens next. -/
inductive ServerMove (n : ℕ) (τ : Type) where
  | request (t : τ)
  | notify
  | pause (w : Fin n)
  | stop (w : Fin n)
  | worker (w : Fin n)
  | wakeUp (w : Fin n)

/-- The workers, with requests, pauses and stops at any time. -/
def workersMachine (n : ℕ) (τ : Type) : Machine (ServerWorkers n τ) (ServerMove n τ) where
  step s
    | .request t => some (s.processRequest t)
    | .notify => s.notifyWorkers
    | .pause w => s.pause w
    | .stop w => s.stop w
    | .worker w => s.mainLoop w
    | .wakeUp w => s.wakeUp w

/-- The requests of a run. -/
def requests {n : ℕ} {τ : Type} (is : List (ServerMove n τ)) : List τ :=
  is.filterMap fun
    | .request t => some t
    | _ => none

end K2Cache
