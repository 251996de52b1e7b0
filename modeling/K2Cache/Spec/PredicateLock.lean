import K2Cache.Spec.MemoryBudget
import K2Cache.Spec.ServerTask

/-!
# The lock of predicates, and its response

`process_predicates_lock_for_triple_stream` as a whole: real ids are translated, the
predicates in memory are taken (all of them where nothing is evicted) and marked, a streamer
is made, and what was taken is translated back for the response.
-/

namespace K2Cache

open Lib

variable {T σ : Type}

/-- `I_CacheReplacement::REPLACEMENT_STRATEGY`. -/
inductive ReplacementStrategyId where
  | noCaching
  | lru
  | frequency
deriving DecidableEq

/-- `has_predicate`. -/
def Manager.hasPredicate (s : Manager T) (p : UInt64) : Bool := s.index.hasPredicateActive p || s.hasPredicateStored p

namespace CacheServer

variable (P : CacheParams T)

/-- The branch on the strategy: the loaded predicates, marked, and a task for the others. -/
def takeLoaded (strategyId : ReplacementStrategyId) (predicatesRequested : List UInt64) :
    Act Exn (CacheServer T σ) (List UInt64) := do
  if strategyId = .noCaching then pure predicatesRequested
  else
    let s ← Act.get
    let loaded := predicatesRequested.filter s.manager.index.hasPredicateActive
    Act.modify fun s => { s with replacement := loaded.foldl (fun r p => r.markUsing p) s.replacement }
    if loaded.length < predicatesRequested.length then
      let requestedSet := (OrdMap.ofList (predicatesRequested.map fun p => (p, ()))).keys
      Act.modify fun s => { s with tasks := s.tasks ++ [requestedSet.filter fun p => p ∉ loaded] }
    pure loaded

/-- `create_triples_streamer`: the new channel. Without an indexed cache nothing is cached. -/
def createTriplesStreamer (hasFic : Bool) (loadedPredicates : List UInt64) : Act Exn (CacheServer T σ) ℤ := do
  if hasFic then (fic P).initStreamerPredicates P.ops loadedPredicates
  let s ← Act.get
  Act.modify fun s => { s with
    streams := s.streams.insert s.currentChannelId loadedPredicates
    currentChannelId := s.currentChannelId + 1 }
  pure s.currentChannelId

/-- `process_predicates_lock_for_triple_stream`: the channel and the entries of the response. -/
def processPredicatesLock (strategyId : ReplacementStrategyId) (hasFic : Bool) (ids : NodeIds) (uninit : ℕ → ℤ)
    (predicates : List UInt64) : Act Exn (CacheServer T σ) (ℤ × List (Option UInt64)) := do
  let loadedPredicates ← takeLoaded strategyId (predicates.map ids.getId)
  let channelId ← createTriplesStreamer P hasFic loadedPredicates
  pure (channelId, TripleMatchesPartStreamer.getLoadedPredicatesResponse ids uninit loadedPredicates)

end CacheServer

end K2Cache
