import K2Cache.Spec.Manager
import K2Cache.Spec.Replacement
import K2Cache.Spec.Streamers

/-!
# FullyIndexedCacheImpl

A second cache in front of the trees: predicates with all their pairs in maps. It has a
replacement of its own, whose data manager reads the trees through the `K2TreeFetcher`
of the main index. `FicEnv` is that fetcher, over a state that the indexed cache is a part
of: a fetch may replay logged updates, which sync the indexed cache.

The calls that a `hit_key` makes to its data manager are made after it, in their order.
-/

namespace K2Cache

open Lib

variable {T σ : Type}

/-- The calls `hit_key` adds to those of before. -/
def CacheReplacement.callsSince {α : Type} (before after : CacheReplacement α) : List DataManagerCall :=
  after.dataManager.drop before.dataManager.length

structure FullyIndexedCache where
  cachedPredicatesSources : OrdMap UInt64 FullyIndexedPredicate
  cacheReplacement : CacheReplacement LRUReplacementStrategy

/-- A state with an indexed cache, and the fetcher it reads from. -/
structure FicEnv (T σ : Type) where
  cache : σ → FullyIndexedCache
  setCache : FullyIndexedCache → σ → σ
  fetchK2tree : UInt64 → Act Exn σ (PredicateFetchResult T)
  fetchK2treeIfLoaded : σ → UInt64 → PredicateFetchResult T

namespace FullyIndexedCache

/-- `FICFactory::create`. -/
def create : FullyIndexedCache := ⟨∅, .construct LRUReplacementStrategy.strategy 1000000000⟩

/-- `cache_map[key] = …`. -/
def setSource (key : UInt64) (source : FullyIndexedPredicate) (c : FullyIndexedCache) : FullyIndexedCache :=
  { c with cachedPredicatesSources := c.cachedPredicatesSources.insert key source }

/-- `CacheDataManager::remove_key`. -/
def removeKey (key : UInt64) (c : FullyIndexedCache) : FullyIndexedCache :=
  { c with cachedPredicatesSources := c.cachedPredicatesSources.erase key }

/-- `get`; none is the response that does not exist. -/
def get (c : FullyIndexedCache) (predicateId : UInt64) : Option FullyIndexedPredicate :=
  c.cachedPredicatesSources.find? predicateId

end FullyIndexedCache

namespace FicEnv

variable (ops : TreeOps T) (F : FicEnv T σ)

/-- The indexed cache is written to. -/
def modifyCache (f : FullyIndexedCache → FullyIndexedCache) : Act Exn σ Unit :=
  Act.modify fun s => F.setCache (f (F.cache s)) s

/-- `CacheDataManager::retrieve_key`. -/
def retrieveKey (key : UInt64) : Act Exn σ Unit := do
  let fetchResult ← F.fetchK2tree key
  let k2tree ← fetchResult.get
  F.modifyCache (FullyIndexedCache.setSource key (.construct ops k2tree))

/-- A call of the replacement to the `CacheDataManager`. -/
def dataManagerCall : DataManagerCall → Act Exn σ Unit
  | .retrieveKey key => F.retrieveKey ops key
  | .removeKey key => F.modifyCache (FullyIndexedCache.removeKey key)

/-- `cache_replacement->hit_key`, with its calls. -/
def hitKey (key spaceRequired : UInt64) : Act Exn σ Unit := do
  let s ← Act.get
  let before := (F.cache s).cacheReplacement
  let after := (before.hitKey LRUReplacementStrategy.strategy key spaceRequired).2
  F.modifyCache fun c => { c with cacheReplacement := after }
  Act.forEach (before.callsSince after) (F.dataManagerCall ops)

/-- `max_to_cache_sz`. -/
def maxToCacheSz : UInt64 := 10000000

/-- `should_cache`. -/
def shouldCache (s : σ) (predicate : UInt64) : Bool :=
  let fetchResult := F.fetchK2treeIfLoaded s predicate
  match fetchResult.loaded, fetchResult.result with
  | true, some t => treePointsCount ops t < maxToCacheSz
  | _, _ => false

/-- A round of the loop of `init_streamer_predicates`. -/
def initPredicate (predicate : UInt64) : Act Exn σ Unit := do
  let s ← Act.get
  if F.shouldCache ops s predicate then
    let fetched ← F.fetchK2tree predicate
    let k2tree ← fetched.get
    F.hitKey ops predicate (treePointsCount ops k2tree * 25)
  else pure ()

/-- `init_streamer_predicates`. -/
def initStreamerPredicates (streamerPredicates : List UInt64) : Act Exn σ Unit :=
  Act.forEach streamerPredicates (F.initPredicate ops)

/-- `resync_predicate`. -/
def resyncPredicate (predicateId : UInt64) : Act Exn σ Unit := do
  let s ← Act.get
  if (F.cache s).cachedPredicatesSources.contains predicateId then F.retrieveKey ops predicateId else pure ()

end FicEnv

/-- `fetch_k2tree_if_loaded`. -/
def Manager.fetchK2treeIfLoaded (s : Manager T) (p : UInt64) : PredicateFetchResult T :=
  match s.index.predicates.find? p with
  | some t => ⟨true, some t⟩
  | none => ⟨s.hasPredicateStored p, none⟩

end K2Cache
