import K2Cache.Lib.Machine
import K2Cache.Spec.FullyIndexedCache

/-!
# PredicatesCacheManagerImpl with a FullyIndexedCacheImpl

`merge_op_tree` syncs the indexed cache after it has merged; nothing else of the manager
writes to it. The calls are those of the manager without an indexed cache, over an index
that has one beside it. Merges look at the index alone: `resync_predicate` fetches a
predicate that was merged, which is in memory, so that `fetch_k2tree` returns at once.
-/

namespace K2Cache

open Lib

variable {T : Type}

/-! ## Merging -/

/-- The index, and the cache of indexed predicates. -/
structure FicIndex (T : Type) where
  index : Index T
  fic : FullyIndexedCache

namespace FicIndex

/-- Runs an action of the index. -/
def onIndex {α : Type} (x : Act Exn (Index T) α) : Act Exn (FicIndex T) α :=
  Act.focus index (fun r s => { s with index := r }) x

/-- The fetcher of a `resync_predicate`, whose predicate is in memory. -/
def mergedFetcher : FicEnv T (FicIndex T) where
  cache := fic
  setCache c s := { s with fic := c }
  fetchK2tree p := fun s => (.ok ⟨true, s.index.predicates.find? p⟩, s)
  fetchK2treeIfLoaded s p := ⟨true, s.index.predicates.find? p⟩

variable (ops : TreeOps T)

/-- `merge_op_tree`. -/
def mergeOpTree (op : T → T → T) (createIfDoesntExist : Bool) (p : UInt64) (toMerge : T) : Act Exn (FicIndex T) Unit := do
  let s ← Act.get
  if !s.index.hasPredicateActive p && !createIfDoesntExist then pure ()
  else
    onIndex (Index.mergeOpTree ops op createIfDoesntExist p toMerge)
    mergedFetcher.resyncPredicate ops p

/-- `merge_add_tree`. -/
def mergeAddTree (p : UInt64) (t : T) : Act Exn (FicIndex T) Unit := mergeOpTree ops ops.insertAll true p t

/-- `merge_delete_tree`. -/
def mergeDeleteTree (p : UInt64) (t : T) : Act Exn (FicIndex T) Unit := mergeOpTree ops ops.removeAll false p t

/-- One round of the loop of `merge_update`. -/
def mergeOneUpdate (u : K2TreeUpdates T) : Act Exn (FicIndex T) Unit := do
  let s ← Act.get
  if s.index.hasPredicateActive u.predicateId then
    Act.forSome u.k2treeAdd (mergeAddTree ops u.predicateId)
    Act.forSome u.k2treeDel (mergeDeleteTree ops u.predicateId)
  else pure ()

/-- `merge_update`. -/
def mergeUpdate (us : List (K2TreeUpdates T)) : Act Exn (FicIndex T) Unit := Act.forEach us (mergeOneUpdate ops)

end FicIndex

/-- The wrapper as a `DataMerger` in front of such an index. -/
def PCMMergerWrapper.ficMerger (ops : TreeOps T) : DataMerger T (PCMMergerWrapper (FicIndex T)) where
  mergeAddTree p t := forward (FicIndex.mergeAddTree ops p t)
  mergeDeleteTree p t := forward (FicIndex.mergeDeleteTree ops p t)
  mergeUpdate us := forward (FicIndex.mergeUpdate ops us)

/-- The logger in front of it. -/
def CacheParams.ficLogger (P : CacheParams T) : LoggerParams T (PCMMergerWrapper (FicIndex T)) :=
  ⟨P.ops, PCMMergerWrapper.ficMerger P.ops, P.logMode⟩

/-! ## The manager -/

/-- The state of a manager with an indexed cache. -/
abbrev FicManager (T : Type) := LogEnv (PCMMergerWrapper (FicIndex T))

namespace FicManager

def index (s : FicManager T) : Index T := s.merger.ref.index

def fic (s : FicManager T) : FullyIndexedCache := s.merger.ref.fic

/-- The manager without its indexed cache. -/
def manager (s : FicManager T) : Manager T := ⟨s.disk, s.logger, ⟨s.merger.refSet, s.index⟩⟩

/-- Another index in the place of this one. -/
def setIndex (s : FicManager T) (x : Index T) : FicManager T :=
  { s with merger := { s.merger with ref := { s.merger.ref with index := x } } }

/-- Another indexed cache in the place of this one. -/
def setFic (s : FicManager T) (c : FullyIndexedCache) : FicManager T :=
  { s with merger := { s.merger with ref := { s.merger.ref with fic := c } } }

/-- Runs an action of the index. -/
def onIndex {α : Type} (x : Act Exn (Index T) α) : Act Exn (FicManager T) α := Act.focus index (fun r s => s.setIndex r) x

variable (P : CacheParams T)

/-- `load_single_predicate`. -/
def loadSinglePredicate (p : UInt64) : Act Exn (FicManager T) Bool := do
  let s ← Act.get
  if s.manager.hasPredicateStored p then
    Act.when (s.index.isStoredInMainIndex p) (onIndex (Index.loadFromMainIndex P.ops p))
    Act.when (s.manager.isStoredInUpdatesLog p) (LogEnv.recoverPredicate P.ficLogger p)
    pure true
  else pure false

/-- The second half of `fetch_k2tree`. -/
def activateFromLog (p : UInt64) : Act Exn (FicManager T) Unit := do
  let s ← Act.get
  if !s.index.hasPredicateActive p && s.manager.isStoredInUpdatesLog p then
    onIndex (Act.modify (fun x => x.addPredicate P.ops p))
    LogEnv.recoverPredicate P.ficLogger p
  else pure ()

/-- `fetch_k2tree`. -/
def fetchK2tree (p : UInt64) : Act Exn (FicManager T) (PredicateFetchResult T) := do
  let s ← Act.get
  let found ← (if s.index.predicates.contains p then pure true else loadSinglePredicate P p)
  if found then
    activateFromLog P p
    let s' ← Act.get
    pure ⟨true, s'.index.predicates.find? p⟩
  else pure ⟨false, none⟩

/-- `remove_key`, `discard_in_memory_predicate`. -/
def removeKey (p : UInt64) : Act Exn (FicManager T) Unit :=
  onIndex (Act.modify (fun x => x.discardInMemoryPredicate p))

/-- `load_all_predicates`. -/
def loadAllPredicates : Act Exn (FicManager T) Unit := do
  onIndex (Index.loadAllFromMainIndex P.ops)
  let s ← Act.get
  Act.when s.index.hasUpdateLogger (LogEnv.recoverAll P.ficLogger)

/-- The indexed cache, over the index of the manager. -/
def fetcher : FicEnv T (FicManager T) where
  cache := fic
  setCache c s := s.setFic c
  fetchK2tree p := fetchK2tree P p
  fetchK2treeIfLoaded s p := s.manager.fetchK2treeIfLoaded p

/-- `PCMFactory::create(CacheArgs)`, with `has_fic`. -/
def create (d : Disk) (uninit : ℤ) : Except Exn (FicManager T) :=
  match UpdatesLogger.construct d uninit with
  | .error e => .error e
  | .ok l =>
    match LogEnv.recoverAll P.ficLogger ⟨d, l, ⟨false, ⟨(Index.construct d).setUpdateLogger, .create⟩⟩⟩ with
    | (.ok (), s) => .ok { s with merger := { s.merger with refSet := true } }
    | (.error e, _) => .error e

end FicManager

/-! ## Runs -/

/-- The calls of a run; `evict` is the `remove_key` of the indexed cache. -/
inductive FicOp (T : Type) where
  | log (us : List (K2TreeUpdates T))
  | fetchK2tree (p : UInt64)
  | discardInMemoryPredicate (p : UInt64)
  | loadAllPredicates
  | initStreamerPredicates (ps : List UInt64)
  | evict (p : UInt64)

/-- The call. -/
def FicOp.call (P : CacheParams T) : FicOp T → Act Exn (FicManager T) Unit
  | log us => LogEnv.log P.ficLogger us
  | fetchK2tree p => do
    let _ ← FicManager.fetchK2tree P p
    pure ()
  | discardInMemoryPredicate p => FicManager.removeKey p
  | loadAllPredicates => FicManager.loadAllPredicates P
  | initStreamerPredicates ps => (FicManager.fetcher P).initStreamerPredicates P.ops ps
  | evict p => Act.modify fun s => s.setFic (s.fic.removeKey p)

/-- The machine of these calls; a call that throws ends the run. -/
def ficMachine (P : CacheParams T) : Machine (FicManager T) (FicOp T) where
  step s op :=
    match op.call P s with
    | (.ok _, s') => some s'
    | (.error _, _) => none

end K2Cache
