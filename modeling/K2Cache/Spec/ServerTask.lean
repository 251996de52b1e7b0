import K2Cache.Spec.BgpStreamer
import K2Cache.Spec.Updater

/-!
# ServerTask and CacheServerTaskProcessor

A server task takes the messages of a client one after another, and sends a response to
each. The channels and sessions that a message names by an id are in tables of the task
processor; `map[id]` makes a null pointer where there is nothing.

What the streamers, the sessions and the cache do is a parameter: the tables hold them, and
decide who is asked. An exception is caught nowhere, it ends the server.
`CacheContainerImpl.parts` are those of a server without replacement, without an indexed
cache and without sorting.
-/

namespace K2Cache

open Lib

/-! ## Messages -/

/-- The requests of a client. -/
inductive CacheRequest where
  | connectionEnd
  | cacheRequestSeparatePredicates (predicates : List UInt64)
  | streamRequestTriplePattern (channelId : ℤ) (tripleNode : TripleNodeId)
  | streamContinueTriplePattern (channelId patternChannelId : ℤ)
  | doneWithPredicatesNotify (channelId : ℤ)
  | cacheRequestStartUpdateTriples
  | cacheDoneUpdateTriples (updateId : ℤ)
  | triplesUpdateBatch (updateId : ℤ) (triplesToAdd triplesToDelete : List TripleNodeId)
  | syncLogsWithIndexesRequest
  | requestBgpJoin (variableNames : List String) (triplePatterns : List (NodePattern × NodePattern × NodePattern))
      (firstSmall : Bool)
  | requestMoreBgpJoin (channelId : ℤ)
  | cancelQuery (channelId : ℤ)
  /-- Any other type. -/
  | unknown

/-- The responses. -/
inductive CacheResponse where
  | connectionEnd
  | extractSeparatePredicates (id : ℤ) (availablePredicates : List UInt64)
  | streamOfTriplesMatchingPattern (response : TriplesResponse)
  | ackWithDoneTriplesStream
  | acceptUpdateRequest (updateId : ℤ)
  | ackDoneUpdateTriples
  | batchReceived (updateId : ℤ)
  | syncLogsWithIndexes
  | bgpJoin (response : BGPJoinResponse)
  | badReq
  | ackCancelQuery (channelId : ℤ)
deriving DecidableEq

/-- The `BGPMessage` of a request. -/
def bgpMessageOf (variableNames : List String) (triplePatterns : List (NodePattern × NodePattern × NodePattern))
    (firstSmall : Bool) : BGPMessage :=
  ⟨variableNames, triplePatterns.map fun t => ⟨protoToBgpNode t.1, protoToBgpNode t.2.1, protoToBgpNode t.2.2⟩, firstSmall⟩

/-! ## The tables -/

/-- What the server asks of the cache, the streamers of a pattern, the sessions and the
streamers of a BGP. -/
structure ServerParts (κ Str Ses Bgp : Type) where
  /-- The predicates are translated, and those that are loaded are marked. -/
  lockPredicates : List UInt64 → Act Halt κ (List UInt64)
  initStreamerPredicates : List UInt64 → Act Halt κ Unit
  getRealIds : κ → List UInt64 → List UInt64
  markReady : List UInt64 → κ → κ
  /-- The streamer of a pattern, with its two channels. -/
  streamer : ℤ → ℤ → TripleNodeId → Act Halt κ Str
  getNextResponse : Str → Act Halt κ (TriplesResponse × Str)
  allSent : Str → Bool
  updaterSession : Ses
  addTriple : Ses → TripleNodeId → Act Halt κ Ses
  deleteTriple : Ses → TripleNodeId → Act Halt κ Ses
  commitUpdates : Ses → Act Halt κ Unit
  syncToPersistent : Act Halt κ Unit
  bgpStreamer : ℤ → BGPMessage → κ → Bgp
  getNextMessage : Bgp → Act Halt κ (BGPJoinResponse × Bgp)
  cancelBgpQuery : Bgp → Bgp

structure TripleMatchesPartStreamer (Str : Type) where
  channelId : ℤ
  loadedPredicates : List UInt64
  currentPatternChannelId : ℤ
  triplesStreamersMap : OrdMap ℤ (Option Str)

structure CacheServerTaskProcessor (κ Str Ses Bgp : Type) where
  cache : κ
  triplesStreamerMap : OrdMap ℤ (Option (TripleMatchesPartStreamer Str))
  currentTriplesStreamersChannelId : ℤ
  updatersSessions : OrdMap ℤ (Option Ses)
  currentUpdateSessionId : ℤ
  bgpStreamersMap : OrdMap ℤ Bgp
  currentBgpStreamersChannelId : ℤ

/-- `map[id]`. -/
def subscript {α : Type} (m : OrdMap ℤ (Option α)) (id : ℤ) : Option α × OrdMap ℤ (Option α) :=
  match m.find? id with
  | some v => (v, m)
  | none => (none, m.insert id none)

/-- `*p`. -/
def deref {σ α : Type} : Option α → Act Halt σ α
  | some a => pure a
  | none => Act.throw (.thrown .nullDereference)

variable {κ Str Ses Bgp : Type}

/-- The value of an error code. -/
def NidsErrCode.code : NidsErrCode → ℤ
  | .notFound => -1
  | .success => 0

namespace TripleMatchesPartStreamer

/-- The entry of a loaded predicate: what it is set to, if it is. `uninit` is what `err_code`
holds before `get_real_id`, which may not write to it. -/
def availablePredicate (ids : NodeIds) (uninit : ℤ) (predicate : UInt64) : Option UInt64 :=
  let r := ids.getRealId predicate
  let errCode := (r.2.map NidsErrCode.code).getD uninit
  if errCode ≠ NidsErrCode.success.code then none else some r.1

/-- The entries `get_loaded_predicates_response` adds, one for each loaded predicate. -/
def getLoadedPredicatesResponse (ids : NodeIds) (uninit : ℕ → ℤ) (loadedPredicates : List UInt64) : List (Option UInt64) :=
  loadedPredicates.mapIdx fun i predicate => availablePredicate ids (uninit i) predicate

/-- `clean_pattern_streamer`. -/
def cleanPatternStreamer (t : TripleMatchesPartStreamer Str) (patternChannelId : ℤ) : TripleMatchesPartStreamer Str :=
  { t with triplesStreamersMap := (t.triplesStreamersMap.insert patternChannelId none).erase patternChannelId }

end TripleMatchesPartStreamer

namespace CacheServerTaskProcessor

/-- The constructor. -/
def construct (cache : κ) : CacheServerTaskProcessor κ Str Ses Bgp := ⟨cache, ∅, 0, ∅, 0, ∅, 0⟩

/-- What the cache does. -/
def onCache {α : Type} (x : Act Halt κ α) : Act Halt (CacheServerTaskProcessor κ Str Ses Bgp) α :=
  Act.focus cache (fun c s => { s with cache := c }) x

/-- A streamer of the table is written to. -/
def setStreamer (channelId : ℤ) (t : TripleMatchesPartStreamer Str) (s : CacheServerTaskProcessor κ Str Ses Bgp) :
    CacheServerTaskProcessor κ Str Ses Bgp :=
  { s with triplesStreamerMap := s.triplesStreamerMap.insert channelId (some t) }

/-- `get_triple_streamer`. -/
def getTripleStreamer (channelId : ℤ) : Act Halt (CacheServerTaskProcessor κ Str Ses Bgp) (TripleMatchesPartStreamer Str) :=
  fun s =>
    let r := subscript s.triplesStreamerMap channelId
    deref r.1 { s with triplesStreamerMap := r.2 }

/-- `get_triple_pattern_streamer`, of the streamer of a channel. -/
def getTriplePatternStreamer (channelId : ℤ) (t : TripleMatchesPartStreamer Str) (patternChannelId : ℤ) :
    Act Halt (CacheServerTaskProcessor κ Str Ses Bgp) Str :=
  fun s =>
    let r := subscript t.triplesStreamersMap patternChannelId
    deref r.1 (s.setStreamer channelId { t with triplesStreamersMap := r.2 })

/-- `get_updater`. -/
def getUpdater (updaterId : ℤ) : Act Halt (CacheServerTaskProcessor κ Str Ses Bgp) Ses := fun s =>
  let r := subscript s.updatersSessions updaterId
  deref r.1 { s with updatersSessions := r.2 }

/-- `begin_update_session`. -/
def beginUpdateSession (H : ServerParts κ Str Ses Bgp) :
    Act Halt (CacheServerTaskProcessor κ Str Ses Bgp) ℤ := fun s =>
  (.ok s.currentUpdateSessionId, { s with
    updatersSessions := s.updatersSessions.insert s.currentUpdateSessionId (some H.updaterSession)
    currentUpdateSessionId := s.currentUpdateSessionId + 1 })

/-- `clean_triple_streamer`: the destructor of the streamer marks its predicates as ready. -/
def cleanTripleStreamer (H : ServerParts κ Str Ses Bgp) (channelId : ℤ) (s : CacheServerTaskProcessor κ Str Ses Bgp) :
    CacheServerTaskProcessor κ Str Ses Bgp :=
  { s with
    cache := match (subscript s.triplesStreamerMap channelId).1 with
      | none => s.cache
      | some t => if t.loadedPredicates.isEmpty then s.cache else H.markReady t.loadedPredicates s.cache
    triplesStreamerMap := (s.triplesStreamerMap.insert channelId none).erase channelId }

/-- `clean_bgp_streamer`. -/
def cleanBgpStreamer (channelId : ℤ) (s : CacheServerTaskProcessor κ Str Ses Bgp) : CacheServerTaskProcessor κ Str Ses Bgp :=
  { s with bgpStreamersMap := s.bgpStreamersMap.erase channelId }

end CacheServerTaskProcessor

/-! ## ServerTask -/

namespace ServerTask

open CacheServerTaskProcessor

variable (H : ServerParts κ Str Ses Bgp)

/-- `process_predicates_lock_for_triple_stream`, with `create_triples_streamer`. -/
def processPredicatesLock (predicates : List UInt64) : Act Halt (CacheServerTaskProcessor κ Str Ses Bgp) CacheResponse := do
  let loadedPredicates ← onCache (H.lockPredicates predicates)
  onCache (H.initStreamerPredicates loadedPredicates)
  let s ← Act.get
  let channelId := s.currentTriplesStreamersChannelId
  Act.modify fun s => { s.setStreamer channelId ⟨channelId, loadedPredicates, 0, ∅⟩ with
    currentTriplesStreamersChannelId := channelId + 1 }
  pure (.extractSeparatePredicates channelId (H.getRealIds s.cache loadedPredicates))

/-- The next part is sent; after the last one the streamer of the pattern is cleaned. -/
def sendPart (channelId patternChannelId : ℤ) (t : TripleMatchesPartStreamer Str) (streamer : Str) :
    Act Halt (CacheServerTaskProcessor κ Str Ses Bgp) CacheResponse := do
  let r ← onCache (H.getNextResponse streamer)
  let t := { t with triplesStreamersMap := t.triplesStreamersMap.insert patternChannelId (some r.2) }
  Act.modify (setStreamer channelId (if H.allSent r.2 then t.cleanPatternStreamer patternChannelId else t))
  pure (.streamOfTriplesMatchingPattern r.1)

/-- `process_stream_request_triple_pattern`, with `start_streaming_matching_triples`. -/
def processStreamRequestTriplePattern (channelId : ℤ) (tripleNode : TripleNodeId) :
    Act Halt (CacheServerTaskProcessor κ Str Ses Bgp) CacheResponse := do
  let t ← getTripleStreamer channelId
  let patternChannelId := t.currentPatternChannelId
  let streamer ← onCache (H.streamer t.channelId patternChannelId tripleNode)
  sendPart H channelId patternChannelId { t with currentPatternChannelId := patternChannelId + 1 } streamer

/-- `process_stream_continue_triple_pattern`. -/
def processStreamContinueTriplePattern (channelId patternChannelId : ℤ) :
    Act Halt (CacheServerTaskProcessor κ Str Ses Bgp) CacheResponse := do
  let t ← getTripleStreamer channelId
  let streamer ← getTriplePatternStreamer channelId t patternChannelId
  sendPart H channelId patternChannelId t streamer

/-- `process_done_with_predicates_notify`. -/
def processDoneWithPredicatesNotify (channelId : ℤ) : Act Halt (CacheServerTaskProcessor κ Str Ses Bgp) CacheResponse := do
  Act.modify (cleanTripleStreamer H channelId)
  pure .ackWithDoneTriplesStream

/-- `process_request_start_update_triples`. -/
def processRequestStartUpdateTriples : Act Halt (CacheServerTaskProcessor κ Str Ses Bgp) CacheResponse := do
  let updateId ← beginUpdateSession H
  pure (.acceptUpdateRequest updateId)

/-- `process_done_update_triples`. -/
def processDoneUpdateTriples (updateId : ℤ) : Act Halt (CacheServerTaskProcessor κ Str Ses Bgp) CacheResponse := do
  let updater ← getUpdater updateId
  onCache (H.commitUpdates updater)
  pure .ackDoneUpdateTriples

/-- The loops of `process_update_triples_batch`. -/
def applyTriples (f : Ses → TripleNodeId → Act Halt κ Ses) : List TripleNodeId → Ses → Act Halt κ Ses
  | [], updater => pure updater
  | t :: ts, updater => do
    let updater ← f updater t
    applyTriples f ts updater

/-- `process_update_triples_batch`. -/
def processUpdateTriplesBatch (updateId : ℤ) (triplesToAdd triplesToDelete : List TripleNodeId) :
    Act Halt (CacheServerTaskProcessor κ Str Ses Bgp) CacheResponse := do
  let updater ← getUpdater updateId
  let updater ← onCache (applyTriples H.addTriple triplesToAdd updater)
  let updater ← onCache (applyTriples H.deleteTriple triplesToDelete updater)
  Act.modify fun s => { s with updatersSessions := s.updatersSessions.insert updateId (some updater) }
  pure (.batchReceived updateId)

/-- `process_sync_logs_with_indexes`. -/
def processSyncLogsWithIndexes : Act Halt (CacheServerTaskProcessor κ Str Ses Bgp) CacheResponse := do
  onCache H.syncToPersistent
  pure .syncLogsWithIndexes

/-- The next batch of a BGP streamer is sent; after the last one it is cleaned. -/
def sendBatch (channelId : ℤ) (streamer : Bgp) : Act Halt (CacheServerTaskProcessor κ Str Ses Bgp) CacheResponse := do
  let r ← onCache (H.getNextMessage streamer)
  Act.modify fun s => { s with bgpStreamersMap := s.bgpStreamersMap.insert channelId r.2 }
  Act.modify fun s => if r.1.isLast then s.cleanBgpStreamer channelId else s
  pure (.bgpJoin r.1)

/-- `process_request_bgp_join`, with `get_bgp_streamer`. -/
def processRequestBgpJoin (message : BGPMessage) : Act Halt (CacheServerTaskProcessor κ Str Ses Bgp) CacheResponse := do
  Act.modify fun s => { s with currentBgpStreamersChannelId := s.currentBgpStreamersChannelId + 1 }
  let s ← Act.get
  let channelId := s.currentBgpStreamersChannelId
  sendBatch H channelId (H.bgpStreamer channelId message s.cache)

/-- `process_request_more_bgp_join`, with `get_existing_bgp_streamer`. -/
def processRequestMoreBgpJoin (channelId : ℤ) : Act Halt (CacheServerTaskProcessor κ Str Ses Bgp) CacheResponse := do
  let s ← Act.get
  match s.bgpStreamersMap.find? channelId with
  | none => pure .badReq
  | some streamer => sendBatch H channelId streamer

/-- `process_request_cancel_query`. -/
def processRequestCancelQuery (channelId : ℤ) : Act Halt (CacheServerTaskProcessor κ Str Ses Bgp) CacheResponse := do
  Act.modify fun s => match s.bgpStreamersMap.find? channelId with
    | none => s
    | some streamer => { s with bgpStreamersMap := s.bgpStreamersMap.insert channelId (H.cancelBgpQuery streamer) }
  pure (.ackCancelQuery channelId)

/-- `process_next`: the response that is sent, if one is. -/
def processNext : CacheRequest → Act Halt (CacheServerTaskProcessor κ Str Ses Bgp) (Option CacheResponse)
  | .connectionEnd => pure (some .connectionEnd)
  | .cacheRequestSeparatePredicates predicates => some <$> processPredicatesLock H predicates
  | .streamRequestTriplePattern channelId tripleNode => some <$> processStreamRequestTriplePattern H channelId tripleNode
  | .streamContinueTriplePattern channelId patternChannelId =>
    some <$> processStreamContinueTriplePattern H channelId patternChannelId
  | .doneWithPredicatesNotify channelId => some <$> processDoneWithPredicatesNotify H channelId
  | .cacheRequestStartUpdateTriples => some <$> processRequestStartUpdateTriples H
  | .cacheDoneUpdateTriples updateId => some <$> processDoneUpdateTriples H updateId
  | .triplesUpdateBatch updateId triplesToAdd triplesToDelete =>
    some <$> processUpdateTriplesBatch H updateId triplesToAdd triplesToDelete
  | .syncLogsWithIndexesRequest => some <$> processSyncLogsWithIndexes H
  | .requestBgpJoin variableNames triplePatterns firstSmall =>
    some <$> processRequestBgpJoin H (bgpMessageOf variableNames triplePatterns firstSmall)
  | .requestMoreBgpJoin channelId => some <$> processRequestMoreBgpJoin H channelId
  | .cancelQuery channelId => some <$> processRequestCancelQuery H channelId
  | .unknown => pure none

end ServerTask

/-- The server as a machine that takes messages; an exception ends the run. -/
def messageMachine (H : ServerParts κ Str Ses Bgp) : Machine (CacheServerTaskProcessor κ Str Ses Bgp) CacheRequest where
  step s m :=
    match ServerTask.processNext H m s with
    | (.ok _, s') => some s'
    | (.error _, _) => none

/-! ## The parts of a server without replacement -/

/-- A throw of the cache, in a message. -/
def orHalt {σ α : Type} (x : Act Exn σ α) : Act Halt σ α := fun s => ((x s).1.mapError Halt.thrown, (x s).2)

/-- `force_cancel`, of the time control the streamer shares with its iterator. -/
def BGPStreamer.cancelQuery {T : Type} (s : BGPStreamer T) : BGPStreamer T :=
  { s with
    timeControl := { s.timeControl with clock := fun _ => true }
    queryIterator := s.queryIterator.map fun
      | .empty headers => .empty headers
      | .bgp it => .bgp { it with timeControl := { it.timeControl with clock := fun _ => true } } }

/-- The manager and the node ids. -/
structure CacheContainerImpl (T : Type) where
  manager : Manager T
  nodeIds : NodeIdsEnv

namespace CacheContainerImpl

variable {T : Type} (P : CacheParams T)

/-- A call of the manager. -/
def onManager {α : Type} (x : Act Exn (Manager T) α) : Act Halt (CacheContainerImpl T) α :=
  orHalt (Act.focus manager (fun m c => { c with manager := m }) x)

/-- What the streamers see. -/
def view (c : CacheContainerImpl T) : CacheContainer T where
  nodeIds := c.nodeIds.manager.ids
  fetchK2tree p := match (Manager.fetchK2tree P p c.manager).1 with
    | .ok r => r.result
    | .error _ => none

/-- `DEFAULT_THRESHOLD_PART_SZ`. -/
def defaultThresholdPartSz : UInt64 := 100000000

/-- The trees that `do_all_predicates_have_trees` fetches. -/
def fetchAll : List UInt64 → Act Halt (CacheContainerImpl T) Unit
  | [] => pure ()
  | p :: ps => if p = 0 then pure () else do
    let r ← onManager (Manager.fetchK2tree P p)
    if r.doesExist then fetchAll ps else pure ()

/-- `NO_CACHING`, and streamers over the scanners of the trees. -/
def parts (timeControl : TimeControl) (fuel : ℕ) (uninit : Bool) :
    ServerParts (CacheContainerImpl T) (TriplePatternMatchingStreamer T) (UpdaterSession T) (BGPStreamer T) where
  lockPredicates predicates := fun c => (.ok (predicates.map c.nodeIds.manager.getId), c)
  initStreamerPredicates _ := pure ()
  getRealIds c predicates :=
    (TripleMatchesPartStreamer.getLoadedPredicatesResponse (c.view P).nodeIds (fun _ => 0) predicates).map (·.getD 0)
  markReady _ c := c
  streamer channelId patternChannelId node := do
    let c ← Act.get
    let _ ← onManager (Manager.fetchK2tree P (c.nodeIds.manager.getId node.predicate))
    pure (.construct P.ops (c.view P) channelId patternChannelId node defaultThresholdPartSz)
  getNextResponse streamer := fun c =>
    match TriplePatternMatchingStreamer.getNextResponse P.ops (c.view P) streamer with
    | (.ok r, streamer) => (.ok (r, streamer), c)
    | (.error e, _) => (.error (.thrown e), c)
  allSent := TriplePatternMatchingStreamer.allSent
  updaterSession := .construct
  addTriple updater t := fun c =>
    let r := UpdaterSession.addTriple P.ops (updater, c.nodeIds) t
    (.ok r.1, { c with nodeIds := r.2 })
  deleteTriple updater t := fun c =>
    let r := UpdaterSession.deleteTriple P.ops (updater, c.nodeIds) t
    (.ok r.1, { c with nodeIds := r.2 })
  commitUpdates updater := onManager (LogEnv.log P.logger updater.logUpdates)
  syncToPersistent := onManager (Manager.fullSyncLogsAndMemoryWithPersistent P)
  bgpStreamer channelId message _ := .construct channelId message timeControl uninit
  getNextMessage streamer := do
    let c ← Act.get
    if streamer.queryIterator.isNone then
      fetchAll P (streamer.bgpMessage.patterns.map fun t => (t.resolve c.nodeIds.manager.getId).predicate.cacheNodeId)
    fun c =>
      match BGPStreamer.getNextMessage P.ops (c.view P) fuel streamer with
      | (.ok r, streamer) => (.ok (r, streamer), c)
      | (.error e, _) => (.error e, c)
  cancelBgpQuery := BGPStreamer.cancelQuery

end CacheContainerImpl

end K2Cache
