import K2Cache.Spec.FullyIndexedCache

/-!
# The memory of the server

The replacement of the main index decides which predicates are in memory, through
`retrieve_key` and `remove_key` of the manager. The requests of the clients reach the index
in three ways: a lock of predicates marks those in memory and hands the others to a
replacement task; a stream of triples and a BGP fetch the trees they need.

Predicates are given by their cache ids. Each task is one step.
-/

namespace K2Cache

open Lib

variable {T σ : Type}

namespace Manager

/-- `get_predicate_size`. -/
def getPredicateSize (s : Manager T) (predicateId : UInt64) : ℕ :=
  ((s.index.metadata.metadataMap.find? predicateId).map PredicateMetadata.treeSizeInMemory).getD 0

/-- A call of the replacement to the manager. -/
def dataManagerCall (P : CacheParams T) : DataManagerCall → Act Exn (Manager T) Unit
  | .retrieveKey key => retrieveKey P key
  | .removeKey key => removeKey key

end Manager

/-- The manager with its indexed cache, the replacement, the queue of its tasks, and the
predicates of the open streams. -/
structure CacheServer (T σ : Type) where
  manager : Manager T
  fullyIndexedCache : FullyIndexedCache
  replacement : CacheReplacement σ
  tasks : List (List UInt64)
  streams : OrdMap ℤ (List UInt64)
  currentChannelId : ℤ

namespace CacheServer

variable (P : CacheParams T) (S : CRStrategy σ)

/-- A server with a budget. -/
def construct (manager : Manager T) (memoryBudgetBytes : UInt64) : CacheServer T σ :=
  ⟨manager, .create, .construct S memoryBudgetBytes, [], ∅, 0⟩

/-- A call of the manager. -/
def onManager {α : Type} (x : Act Exn (Manager T) α) : Act Exn (CacheServer T σ) α :=
  Act.focus manager (fun m s => { s with manager := m }) x

/-- The indexed cache, over the index of the manager. -/
def fic : FicEnv T (CacheServer T σ) where
  cache := fullyIndexedCache
  setCache c s := { s with fullyIndexedCache := c }
  fetchK2tree p := onManager (Manager.fetchK2tree P p)
  fetchK2treeIfLoaded s p := s.manager.fetchK2treeIfLoaded p

/-- `process_predicates_lock_for_triple_stream`: what is under the replacement mutex, then
`create_triples_streamer`. -/
def lockPredicates (requested : List UInt64) : Act Exn (CacheServer T σ) Unit := do
  let s ← Act.get
  let loaded := requested.filter s.manager.index.hasPredicateActive
  Act.modify fun s => { s with replacement := loaded.foldl (fun r p => r.markUsing p) s.replacement }
  if loaded.length < requested.length then
    let requestedSet := (OrdMap.ofList (requested.map fun p => (p, ()))).keys
    Act.modify fun s => { s with tasks := s.tasks ++ [requestedSet.filter fun p => p ∉ loaded] }
  (fic P).initStreamerPredicates P.ops loaded
  Act.modify fun s => { s with
    streams := s.streams.insert s.currentChannelId loaded
    currentChannelId := s.currentChannelId + 1 }

/-- `clean_triple_streamer`: the predicates of the stream are ready. -/
def closeStream (channelId : ℤ) : Act Exn (CacheServer T σ) Unit := Act.modify fun s => { s with
  replacement := ((s.streams.find? channelId).getD []).foldl (fun r p => r.markReady p) s.replacement
  streams := s.streams.erase channelId }

/-- `hit_key`, of a predicate with its size, and the calls it makes. -/
def hitPredicate (p : UInt64) : Act Exn (CacheServer T σ) Unit := do
  let s ← Act.get
  let after := (s.replacement.hitKey S p (UInt64.ofNat (s.manager.getPredicateSize p))).2
  Act.modify fun s => { s with replacement := after }
  onManager (Act.forEach (s.replacement.callsSince after) (Manager.dataManagerCall P))

/-- The worker takes a task: `ReplacementTask::process`. -/
def replacementTask : Act Exn (CacheServer T σ) Unit := do
  let s ← Act.get
  match s.tasks with
  | [] => pure ()
  | task :: tasks =>
    Act.modify fun s => { s with tasks := tasks }
    Act.forEach task (hitPredicate P S)

/-- `start_streaming_matching_triples`: the trees are asked where there is no indexed
predicate. -/
def streamTriplePattern (p : UInt64) : Act Exn (CacheServer T σ) Unit := do
  let s ← Act.get
  match s.fullyIndexedCache.get p with
  | some _ => pure ()
  | none =>
    let _ ← onManager (Manager.fetchK2tree P p)
    pure ()

/-- `do_all_predicates_have_trees`, from a pattern on. -/
def doAllPredicatesHaveTrees : List UInt64 → Act Exn (CacheServer T σ) Bool
  | [] => pure true
  | p :: ps =>
    if p = 0 then pure false
    else do
      let r ← onManager (Manager.fetchK2tree P p)
      if r.doesExist then doAllPredicatesHaveTrees ps else pure false

/-- `BGPProcessor::execute_it`: the fetches of `do_all_predicates_have_trees`, and those of
`build_scanners`. -/
def bgpJoin (ps : List UInt64) : Act Exn (CacheServer T σ) Unit := do
  let all ← doAllPredicatesHaveTrees P ps
  if all then
    Act.forEach ps fun p => do
      let _ ← onManager (Manager.fetchK2tree P p)
      pure ()
  else pure ()

end CacheServer

/-- What reaches the memory. -/
inductive MemoryCmd where
  | lockPredicates (requested : List UInt64)
  | closeStream (channelId : ℤ)
  | replacementTask
  | streamTriplePattern (p : UInt64)
  | bgpJoin (ps : List UInt64)

/-- What the server does. -/
def MemoryCmd.call (P : CacheParams T) (S : CRStrategy σ) : MemoryCmd → Act Exn (CacheServer T σ) Unit
  | lockPredicates requested => CacheServer.lockPredicates P requested
  | closeStream channelId => CacheServer.closeStream channelId
  | replacementTask => CacheServer.replacementTask P S
  | streamTriplePattern p => CacheServer.streamTriplePattern P p
  | bgpJoin ps => CacheServer.bgpJoin P ps

/-- The machine; an exception ends the run. -/
def memoryMachine (P : CacheParams T) (S : CRStrategy σ) : Machine (CacheServer T σ) MemoryCmd where
  step s cmd :=
    match cmd.call P S s with
    | (.ok _, s') => some s'
    | (.error _, _) => none

end K2Cache
