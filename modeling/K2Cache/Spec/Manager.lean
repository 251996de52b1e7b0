import K2Cache.Spec.Index
import K2Cache.Spec.Logger

/-!
# PredicatesCacheManagerImpl

The manager owns the index and the update logger; the logger gives back what it
reads, and each new batch, through a `PCMMergerWrapper` whose reference to the
manager is set after the manager is built. The state of the whole is the logger's
(`LogEnv`) over a wrapped index. Without a fully indexed cache `resync_predicate`
does nothing.
-/

namespace K2Cache

open Lib

variable {T : Type}

/-! ## Merging into the index -/

namespace Index

variable (ops : TreeOps T)

/-- `merge_op_tree`: `op` folds the points of the merged tree into the predicate's.
Active predicates are loaded (`newLoaded`), so that `fetch_k2tree` returns the tree
at once. -/
def mergeOpTree (op : T → T → T) (createIfDoesntExist : Bool) (p : UInt64) (toMerge : T) : Act Exn (Index T) Unit :=
  fun x =>
    if !x.hasPredicateActive p && !createIfDoesntExist then (.ok (), x)
    else
      let x₁ := if x.hasPredicateActive p then x else x.addPredicate ops p
      match x₁.predicates.find? p with
      | none => (.error (.runtimeError ("merge_op_tree: k2tree with predicate_id " ++ toString p.toNat ++ " not found")), x₁)
      | some t => (.ok (), (x₁.setTree p (op t toMerge)).markDirty p)

/-- `merge_add_tree`. -/
def mergeAddTree (p : UInt64) (t : T) : Act Exn (Index T) Unit := mergeOpTree ops ops.insertAll true p t

/-- `merge_delete_tree`. -/
def mergeDeleteTree (p : UInt64) (t : T) : Act Exn (Index T) Unit := mergeOpTree ops ops.removeAll false p t

/-- One round of the loop of `merge_update`. -/
def mergeOneUpdate (u : K2TreeUpdates T) : Act Exn (Index T) Unit := do
  let x ← Act.get
  if x.hasPredicateActive u.predicateId then
    Act.forSome u.k2treeAdd (mergeAddTree ops u.predicateId)
    Act.forSome u.k2treeDel (mergeDeleteTree ops u.predicateId)
  else pure ()

/-- `merge_update`. -/
def mergeUpdate (us : List (K2TreeUpdates T)) : Act Exn (Index T) Unit := Act.forEach us (mergeOneUpdate ops)

end Index

/-! ## PCMMergerWrapper -/

/-- The wrapper: whether its reference is set, and the object it refers to. -/
structure PCMMergerWrapper (σ : Type) where
  refSet : Bool
  ref : σ

namespace PCMMergerWrapper

variable {σ : Type}

/-- `no_ref_check`. -/
def noRefCheck : Act Exn (PCMMergerWrapper σ) Unit := fun w =>
  if w.refSet then (.ok (), w)
  else (.error (.noRefException "wrapper doesn't have ref set: on PCMMergerWrapper"), w)

/-- A call that is passed on. -/
def forward (x : Act Exn σ Unit) : Act Exn (PCMMergerWrapper σ) Unit := do
  noRefCheck
  Act.focus PCMMergerWrapper.ref (fun r w => { w with ref := r }) x

/-- The wrapper as a `DataMerger` in front of the index. -/
def merger (ops : TreeOps T) : DataMerger T (PCMMergerWrapper (Index T)) where
  mergeAddTree p t := forward (Index.mergeAddTree ops p t)
  mergeDeleteTree p t := forward (Index.mergeDeleteTree ops p t)
  mergeUpdate us := forward (Index.mergeUpdate ops us)

end PCMMergerWrapper

/-! ## The manager -/

/-- What the manager is built from: the tree library, `md5calc`, and the mode the log
file is opened with. -/
structure CacheParams (T : Type) where
  ops : TreeOps T
  md5calc : Bytes → Md5
  logMode : OpenMode

/-- The logger in front of the manager's index. -/
def CacheParams.logger (P : CacheParams T) : LoggerParams T (PCMMergerWrapper (Index T)) :=
  ⟨P.ops, PCMMergerWrapper.merger P.ops, P.logMode⟩

/-- The state of a manager: the disk, the logger, the wrapped index. -/
abbrev Manager (T : Type) := LogEnv (PCMMergerWrapper (Index T))

/-- `PredicateFetchResult`. -/
structure PredicateFetchResult (T : Type) where
  doesExist : Bool
  result : Option T

/-- `PredicateFetchResult::get`. -/
def PredicateFetchResult.get {σ : Type} (r : PredicateFetchResult T) : Act Exn σ T :=
  match r.result with
  | none => Act.throw .nullDereference
  | some t => pure t

/-- `PredicateFetchResult::loaded`. -/
def PredicateFetchResult.loaded (r : PredicateFetchResult T) : Bool := r.doesExist && r.result.isSome

/-- `K2TreeMixed::size`. -/
def treePointsCount (ops : TreeOps T) (t : T) : UInt64 := UInt64.ofNat (ops.fullScan t).length

namespace Manager

/-- The manager's index. -/
def index (s : Manager T) : Index T := s.merger.ref

/-- Runs an action of the index. -/
def onIndex {α : Type} (x : Act Exn (Index T) α) : Act Exn (Manager T) α :=
  Act.focus index (fun r s => { s with merger := { s.merger with ref := r } }) x

/-- `is_stored_in_updates_log`. -/
def isStoredInUpdatesLog (s : Manager T) (p : UInt64) : Bool :=
  s.index.hasUpdateLogger && s.logger.hasPredicateStored p

/-- `has_predicate_stored`. -/
def hasPredicateStored (s : Manager T) (p : UInt64) : Bool :=
  s.index.isStoredInMainIndex p || s.isStoredInUpdatesLog p

variable (P : CacheParams T)

/-- `load_single_predicate`. -/
def loadSinglePredicate (p : UInt64) : Act Exn (Manager T) Bool := do
  let s ← Act.get
  if hasPredicateStored s p then
    Act.when (s.index.isStoredInMainIndex p) (onIndex (Index.loadFromMainIndex P.ops p))
    Act.when (s.isStoredInUpdatesLog p) (LogEnv.recoverPredicate P.logger p)
    pure true
  else pure false

/-- The second half of `fetch_k2tree`: a predicate the log only removes points from is
stored, and nothing has made its tree yet. -/
def activateFromLog (p : UInt64) : Act Exn (Manager T) Unit := do
  let s ← Act.get
  if !s.index.hasPredicateActive p && s.isStoredInUpdatesLog p then
    onIndex (Act.modify (fun x => x.addPredicate P.ops p))
    LogEnv.recoverPredicate P.logger p
  else pure ()

/-- `fetch_k2tree`. -/
def fetchK2tree (p : UInt64) : Act Exn (Manager T) (PredicateFetchResult T) := do
  let s ← Act.get
  let found ← (if s.index.predicates.contains p then pure true else loadSinglePredicate P p)
  if found then
    activateFromLog P p
    let s' ← Act.get
    pure ⟨true, s'.index.predicates.find? p⟩
  else pure ⟨false, none⟩

/-- `retrieve_key`. -/
def retrieveKey (p : UInt64) : Act Exn (Manager T) Unit := do
  let _ ← loadSinglePredicate P p
  pure ()

/-- `remove_key`, `discard_in_memory_predicate`. -/
def removeKey (p : UInt64) : Act Exn (Manager T) Unit :=
  onIndex (Act.modify (fun x => x.discardInMemoryPredicate p))

/-- `sync_to_persistent`: the new file is written to the temporary name and
committed, and the index reads from it from then on. -/
def syncToPersistent : Act Exn (Manager T) Unit := fun s =>
  let x := s.index
  let d := FileRWHandler.getWriterTemp s.disk .index .binaryTrunc
  let r := Index.syncToStream P.ops P.md5calc x ⟨⟨[], 0⟩, x.is, ∅⟩
  let d₁ := d.append (FileRWHandler.tmp .index) r.2.os.buf
  match r.1 with
  | .error e => (.error e, { s with disk := d₁, merger := { s.merger with ref := { x with is := r.2.is } } })
  | .ok () =>
    let d₂ := FileRWHandler.commitTempWriter d₁ .index
    let x' := { x with
      metadata := ⟨r.2.metadataMap, x.allPredicates, x.k2treeConfig⟩
      is := FileRWHandler.getReader d₂ .index }
    (.ok (), { s with disk := d₂, merger := { s.merger with ref := x' } })

/-- `load_all_predicates`. -/
def loadAllPredicates : Act Exn (Manager T) Unit := do
  onIndex (Index.loadAllFromMainIndex P.ops)
  let s ← Act.get
  Act.when s.index.hasUpdateLogger (LogEnv.recoverAll P.logger)

/-- `add_predicate`. -/
def addPredicate (p : UInt64) : Act Exn (Manager T) Unit := onIndex (Act.modify (fun x => x.addPredicate P.ops p))

/-- What `insert_point` does before it inserts: the predicate is loaded, or added. -/
def activate (p : UInt64) : Act Exn (Manager T) Unit := do
  let s ← Act.get
  let predicateActive := s.index.hasPredicateActive p
  let predicateStored := hasPredicateStored s p
  if predicateStored && !predicateActive then retrieveKey P p
  else if !predicateStored && !predicateActive then addPredicate P p
  else pure ()

/-- `insert_point`. -/
def insertPoint (subject p object : UInt64) : Act Exn (Manager T) Unit := do
  onIndex (Act.modify (fun x => x.markDirty p))
  activate P p
  let s ← Act.get
  match s.index.predicates.find? p with
  | none => Act.throw .nullDereference
  | some t => onIndex (Act.modify (fun x => x.setTree p (P.ops.insert t (subject, object))))

/-! ## Full synchronisation -/

/-- `clean_up_bulk_sync`. -/
def cleanUpBulkSync (loadedPredicates : IdSet) : Act Exn (Manager T) Unit := do
  syncToPersistent P
  Act.forEach loadedPredicates.keys removeKey

/-- 1 GB. -/
def threshold : ℕ := 1000000000

/-- The loop of `sync_logs_to_indexes`: the predicates of the log that are not active are
loaded, and written when there are enough of them. -/
def syncPredicates : List UInt64 → IdSet → ℕ → Act Exn (Manager T) (IdSet × ℕ)
  | [], loaded, total => pure (loaded, total)
  | p :: ps, loaded, total => do
    let s ← Act.get
    if s.index.hasPredicateActive p then syncPredicates ps loaded total
    else
      let fetched ← fetchK2tree P p
      if !fetched.doesExist then syncPredicates ps loaded total
      else
        match fetched.result with
        | none => Act.throw .nullDereference
        | some t =>
          let loaded := loaded.insert p ()
          let total := (total + P.ops.measure t) % 2 ^ 64
          if threshold ≤ total then do
            cleanUpBulkSync P loaded
            syncPredicates ps ∅ 0
          else syncPredicates ps loaded total

/-- `sync_logs_to_indexes`. -/
def syncLogsToIndexes : Act Exn (Manager T) Unit := do
  let s ← Act.get
  if !s.index.hasUpdateLogger then Act.throw (.runtimeError "no update logger available")
  else
    LogEnv.compactLogs P.logger
    let s' ← Act.get
    let r ← syncPredicates P s'.logger.getPredicates ∅ 0
    if 0 < r.2 then cleanUpBulkSync P r.1 else pure ()

/-- `full_sync_logs_and_memory_with_persistent`. -/
def fullSyncLogsAndMemoryWithPersistent : Act Exn (Manager T) Unit := do
  syncToPersistent P
  syncLogsToIndexes P
  Act.modify LogEnv.cleanAppendLog

/-! ## Construction -/

/-- The constructor of the manager, from a logger and an index: the logger replays
all it has. -/
def construct (d : Disk) (l : UpdatesLogger) (x : Index T) : Except Exn Unit × Manager T :=
  LogEnv.recoverAll P.logger ⟨d, l, ⟨false, x.setUpdateLogger⟩⟩

/-- An index of its own, `PredicatesIndexCacheMD(file)`: there is no logger, and the one of
the state is never used. -/
def openIndex (d : Disk) : Manager T := ⟨d, ⟨false, none, openMetadata d, ∅, 0⟩, ⟨false, Index.construct d⟩⟩

/-- `PCMFactory::create(CacheArgs)`, without a fully indexed cache. -/
def create (d : Disk) (uninit : ℤ) : Except Exn (Manager T) :=
  match UpdatesLogger.construct d uninit with
  | .error e => .error e
  | .ok l =>
    match construct P d l (Index.construct d) with
    | (.ok (), s) => .ok { s with merger := { s.merger with refSet := true } }
    | (.error e, _) => .error e

end Manager

end K2Cache
