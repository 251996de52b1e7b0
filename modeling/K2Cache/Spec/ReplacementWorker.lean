import K2Cache.Spec.PredicateLock

/-!
# The replacement worker

The tasks of the replacement run on a worker of their own, next to the tasks of the clients.
What is done under the replacement mutex is one step: a lock of predicates finds those in
memory and marks them, and the destructor of a streamer marks its own as ready. `hit_key` is
not under that mutex: it asks `is_using` for a key, and drops the key in a step of its own.
-/

namespace K2Cache

open Lib

variable {T σ : Type}

/-- The locals of `hit_key` in its loop, and the predicates of the task behind its key. -/
structure HitLoop where
  key : UInt64
  spaceRequired : UInt64
  it : List UInt64
  nextSize : UInt64
  sizeErased : UInt64
  predicates : List UInt64
deriving DecidableEq

/-- Where the worker is. -/
inductive ReplacementWorker where
  | idle
  /-- In the loop of `ReplacementTask::process`. -/
  | process (predicates : List UInt64)
  /-- At the head of the loop of `hit_key`. -/
  | freeing (hit : HitLoop)
  /-- Behind an `is_using` that returned false. -/
  | dropping (currentKey : UInt64) (hit : HitLoop)
deriving DecidableEq

namespace CacheReplacement

variable (S : CRStrategy σ)

/-- `hit_key`, up to its loop. -/
def startHit (key spaceRequired : UInt64) (predicates : List UInt64) (s : CacheReplacement σ) :
    ReplacementWorker × CacheReplacement σ :=
  if s.maxSizeAllowed < spaceRequired then (.process predicates, s)
  else
    match s.findKey S key with
    | some k =>
      let st := S.hitKey key s.strategy
      (.process predicates, { s with strategy := st, prioritySet := insertKey S st key (s.prioritySet.erase k) })
    | none =>
      let nextSize := spaceRequired + s.sizeUsed
      let r := s.askStrategy S key nextSize
      if r.1 then (.freeing ⟨key, spaceRequired, r.2.prioritySet, nextSize, 0, predicates⟩, r.2)
      else
        (.process predicates,
          if S.shouldHitWithoutRetrieval then { r.2 with strategy := S.hitKey key r.2.strategy } else r.2)

/-- The head of the loop: up to the answer of `is_using`, or to the end of `hit_key`. -/
def freeHead (hit : HitLoop) (s : CacheReplacement σ) : ReplacementWorker × CacheReplacement σ :=
  if s.maxSizeAllowed < hit.nextSize then
    match hit.it with
    | [] => (.process hit.predicates, { s with sizeUsed := s.sizeUsed - hit.sizeErased })
    | currentKey :: it =>
      if s.isUsing currentKey then (.freeing { hit with it := it }, s)
      else (.dropping currentKey { hit with it := it }, s)
  else (.process hit.predicates, s.loadKey S hit.key hit.spaceRequired hit.nextSize)

/-- The rest of a round: the key is dropped. -/
def freeKey (currentKey : UInt64) (hit : HitLoop) (s : CacheReplacement σ) : ReplacementWorker × CacheReplacement σ :=
  let erasingSz := s.sizeOf currentKey
  (.freeing { hit with nextSize := hit.nextSize - erasingSz, sizeErased := hit.sizeErased + erasingSz },
    s.drop S currentKey)

end CacheReplacement

/-- A step of the worker in its task. -/
def ReplacementWorker.next (S : CRStrategy σ) (getPredicateSize : UInt64 → ℕ) (r : CacheReplacement σ) :
    ReplacementWorker → ReplacementWorker × CacheReplacement σ
  | idle => (idle, r)
  | process [] => (idle, r)
  | process (p :: predicates) => r.startHit S p (UInt64.ofNat (getPredicateSize p)) predicates
  | freeing hit => r.freeHead S hit
  | dropping currentKey hit => r.freeKey S currentKey hit

/-- The server with its worker; `taken` are the predicates of the locks whose streamer is not
made yet. -/
structure WorkingServer (T σ : Type) where
  server : CacheServer T σ
  taken : List (List UInt64)
  worker : ReplacementWorker

namespace WorkingServer

variable (P : CacheParams T) (S : CRStrategy σ)

/-- A server that starts. -/
def construct (manager : Manager T) (memoryBudgetBytes : UInt64) : WorkingServer T σ :=
  ⟨.construct S manager memoryBudgetBytes, [], .idle⟩

/-- A call on the server. -/
def onServer {α : Type} (x : Act Exn (CacheServer T σ) α) : Act Exn (WorkingServer T σ) α :=
  Act.focus server (fun c s => { s with server := c }) x

/-- What `process_predicates_lock_for_triple_stream` does under the replacement mutex. -/
def takeLoaded (strategyId : ReplacementStrategyId) (predicatesRequested : List UInt64) :
    Act Exn (WorkingServer T σ) Unit := do
  let loaded ← onServer (CacheServer.takeLoaded strategyId predicatesRequested)
  Act.modify fun s => { s with taken := s.taken ++ [loaded] }

/-- `create_triples_streamer`, by a task that took predicates. -/
def createTriplesStreamer (hasFic : Bool) (i : ℕ) : Act Exn (WorkingServer T σ) Unit := do
  let s ← Act.get
  match s.taken[i]? with
  | none => pure ()
  | some loadedPredicates =>
    let _ ← onServer (CacheServer.createTriplesStreamer P hasFic loadedPredicates)
    Act.modify fun s => { s with taken := s.taken.eraseIdx i }

/-- A step of the worker: it takes a task if it has none, and goes on with it otherwise. -/
def workerStep : Act Exn (WorkingServer T σ) Unit := do
  let s ← Act.get
  match s.worker, s.server.tasks with
  | .idle, [] => pure ()
  | .idle, task :: tasks =>
    Act.modify fun s => { s with server := { s.server with tasks := tasks }, worker := .process task }
  | worker, _ =>
    let r := worker.next S s.server.manager.getPredicateSize s.server.replacement
    Act.modify fun s => { s with server := { s.server with replacement := r.2 }, worker := r.1 }
    onServer (CacheServer.onManager
      (Act.forEach (s.server.replacement.callsSince r.2) (Manager.dataManagerCall P)))

end WorkingServer

/-- The steps of the tasks and of the worker, in any order; `fetchK2tree` is that of a stream
or a BGP. -/
inductive WorkingCmd where
  | takeLoaded (predicatesRequested : List UInt64)
  | createTriplesStreamer (i : ℕ)
  | cleanTripleStreamer (channelId : ℤ)
  | fetchK2tree (p : UInt64)
  | workerStep

/-- What a step does. -/
def WorkingCmd.call (P : CacheParams T) (S : CRStrategy σ) (strategyId : ReplacementStrategyId) (hasFic : Bool) :
    WorkingCmd → Act Exn (WorkingServer T σ) Unit
  | takeLoaded predicatesRequested => WorkingServer.takeLoaded strategyId predicatesRequested
  | createTriplesStreamer i => WorkingServer.createTriplesStreamer P hasFic i
  | cleanTripleStreamer channelId => WorkingServer.onServer (CacheServer.closeStream channelId)
  | fetchK2tree p => do
    let _ ← WorkingServer.onServer (CacheServer.onManager (Manager.fetchK2tree P p))
    pure ()
  | workerStep => WorkingServer.workerStep P S

/-- The machine; an exception ends the run. -/
def workingMachine (P : CacheParams T) (S : CRStrategy σ) (strategyId : ReplacementStrategyId) (hasFic : Bool) :
    Machine (WorkingServer T σ) WorkingCmd where
  step s cmd :=
    match cmd.call P S strategyId hasFic s with
    | (.ok _, s') => some s'
    | (.error _, _) => none

end K2Cache
