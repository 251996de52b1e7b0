import K2Cache.Lib.OrdMap
import Mathlib

/-!
# CacheReplacement

The keys in memory are kept in a set ordered by what a strategy says they cost; a key that
does not fit drops the cheapest ones that nobody uses. The data manager loads and discards
what the keys stand for: the calls it gets are listed.

A `std::set` is the list of its keys in order. The order is that of the costs at the time;
the cost of a key changes while the key is not in the set, so it stays the order of the list
(`prioritySet_sorted`). Costs are `long`, integers here.
-/

namespace K2Cache

open Lib

/-! ## Strategies -/

/-- `get_key_size`, which is `space_map[key]`. -/
def getKeySize (spaceMap : OrdMap UInt64 UInt64) (key : UInt64) : UInt64 × OrdMap UInt64 UInt64 :=
  match spaceMap.find? key with
  | some size => (size, spaceMap)
  | none => (0, spaceMap.insert key 0)

/-- What the template needs of a strategy. The priority queue it is given is the priority set,
and the space map, to which `get_key_size` writes. -/
structure CRStrategy (σ : Type) where
  construct : σ
  costFunction : σ → UInt64 → ℤ
  hitKey : UInt64 → σ → σ
  removeKey : UInt64 → σ → σ
  shouldDiscardOthersForKey : σ → UInt64 → List UInt64 → OrdMap UInt64 UInt64 → Bool × OrdMap UInt64 UInt64
  shouldHitWithoutRetrieval : Bool

structure LRUReplacementStrategy where
  low : ℤ
  high : ℤ
  keyMappingToLruValue : OrdMap UInt64 ℤ

namespace LRUReplacementStrategy

/-- `remove_key`; the next entry of the map is the one with the next key. -/
def removeKey (key : UInt64) (s : LRUReplacementStrategy) : LRUReplacementStrategy :=
  match s.keyMappingToLruValue.find? key with
  | none => s
  | some lruValue =>
    let erased := s.keyMappingToLruValue.erase key
    if lruValue = s.low then
      match s.keyMappingToLruValue.entries.find? fun e => key < e.1 with
      | some next => ⟨next.2, s.high, erased⟩
      | none => ⟨0, 0, erased⟩
    else ⟨s.low, s.high, erased⟩

/-- `hit_key`. -/
def hitKey (key : UInt64) (s : LRUReplacementStrategy) : LRUReplacementStrategy :=
  let nextKeyValue := s.high
  let s := removeKey key { s with high := s.high + 1 }
  { s with keyMappingToLruValue := s.keyMappingToLruValue.insert key nextKeyValue }

/-- `cost_function`. -/
def costFunction (s : LRUReplacementStrategy) (key : UInt64) : ℤ := (s.keyMappingToLruValue.find? key).getD s.high - s.low

/-- `LRUReplacementStrategy`, as the parameter of the template. -/
def strategy : CRStrategy LRUReplacementStrategy where
  construct := ⟨0, 0, ∅⟩
  costFunction := costFunction
  hitKey := hitKey
  removeKey := removeKey
  shouldDiscardOthersForKey _ _ _ spaceMap := (true, spaceMap)
  shouldHitWithoutRetrieval := false

end LRUReplacementStrategy

structure FrequencyReplacementStrategy where
  frequencyMap : OrdMap UInt64 ℤ

namespace FrequencyReplacementStrategy

/-- `hit_key`. -/
def hitKey (key : UInt64) (s : FrequencyReplacementStrategy) : FrequencyReplacementStrategy :=
  ⟨s.frequencyMap.insert key ((s.frequencyMap.find? key).elim 1 (· + 1))⟩

/-- `cost_function`. -/
def costFunction (s : FrequencyReplacementStrategy) (key : UInt64) : ℤ := (s.frequencyMap.find? key).getD 0

/-- The traversal of `should_discard_others_for_key`. -/
def discardLoop (s : FrequencyReplacementStrategy) (keyCost : ℤ) (requiredSize : UInt64) :
    List UInt64 → UInt64 → OrdMap UInt64 UInt64 → Bool × OrdMap UInt64 UInt64
  | [], _, spaceMap => (false, spaceMap)
  | currentKey :: keys, accumulated, spaceMap =>
    let size := getKeySize spaceMap currentKey
    let accumulated := accumulated + size.1
    if keyCost < s.costFunction currentKey then (false, size.2)
    else if requiredSize ≤ accumulated then (true, size.2)
    else discardLoop s keyCost requiredSize keys accumulated size.2

/-- `should_discard_others_for_key`. -/
def shouldDiscardOthersForKey (s : FrequencyReplacementStrategy) (key : UInt64) (pq : List UInt64)
    (spaceMap : OrdMap UInt64 UInt64) : Bool × OrdMap UInt64 UInt64 :=
  if pq.isEmpty then (false, spaceMap)
  else
    let requiredSize := getKeySize spaceMap key
    discardLoop s (s.costFunction key) requiredSize.1 pq 0 requiredSize.2

/-- `FrequencyReplacementStrategy`, as the parameter of the template. -/
def strategy : CRStrategy FrequencyReplacementStrategy where
  construct := ⟨∅⟩
  costFunction := costFunction
  hitKey := hitKey
  removeKey _ s := s
  shouldDiscardOthersForKey := shouldDiscardOthersForKey
  shouldHitWithoutRetrieval := true

end FrequencyReplacementStrategy

/-! ## CacheReplacement -/

/-- The calls of a `DataManager`. -/
inductive DataManagerCall where
  | retrieveKey (key : UInt64)
  | removeKey (key : UInt64)
deriving DecidableEq, Repr

structure CacheReplacement (σ : Type) where
  strategy : σ
  prioritySet : List UInt64
  spaceMap : OrdMap UInt64 UInt64
  maxSizeAllowed : UInt64
  sizeUsed : UInt64
  inUse : OrdMap UInt64 ℤ
  /-- The calls of the data manager so far. -/
  dataManager : List DataManagerCall

namespace CacheReplacement

variable {σ : Type} (S : CRStrategy σ)

/-- The constructor. -/
def construct (maxSizeAllowed : UInt64) : CacheReplacement σ := ⟨S.construct, [], ∅, maxSizeAllowed, 0, ∅, []⟩

/-- `StrategyWrapper`: the order of the set. -/
def less (st : σ) (lhs rhs : UInt64) : Bool :=
  let left := S.costFunction st lhs
  let right := S.costFunction st rhs
  if left = right then lhs < rhs else left < right

/-- `priority_set.insert(key)`. -/
def insertKey (st : σ) (key : UInt64) : List UInt64 → List UInt64
  | [] => [key]
  | k :: keys =>
    if less S st k key then k :: insertKey st key keys
    else if less S st key k then key :: k :: keys
    else k :: keys

/-- `priority_set.find(key)`: the key that is neither before nor behind it. -/
def findKey (s : CacheReplacement σ) (key : UInt64) : Option UInt64 :=
  s.prioritySet.find? fun k => !less S s.strategy k key && !less S s.strategy key k

/-- `is_using`. -/
def isUsing (s : CacheReplacement σ) (key : UInt64) : Bool := s.inUse.contains key

/-- `space_map[key]`. -/
def sizeOf (s : CacheReplacement σ) (key : UInt64) : UInt64 := (s.spaceMap.find? key).getD 0

/-- A key is dropped. -/
def drop (key : UInt64) (s : CacheReplacement σ) : CacheReplacement σ :=
  { s with
    spaceMap := s.spaceMap.erase key
    prioritySet := s.prioritySet.erase key
    strategy := S.removeKey key s.strategy
    dataManager := s.dataManager ++ [.removeKey key] }

/-- The loop of `hit_key`, from the iterator on: the `next_size` it ends with, or none if the
end was reached. -/
def freeSpace : List UInt64 → UInt64 → UInt64 → CacheReplacement σ → Option UInt64 × CacheReplacement σ
  | [], nextSize, sizeErased, s =>
    if s.maxSizeAllowed < nextSize then (none, { s with sizeUsed := s.sizeUsed - sizeErased }) else (some nextSize, s)
  | currentKey :: it, nextSize, sizeErased, s =>
    if s.maxSizeAllowed < nextSize then
      if s.isUsing currentKey then freeSpace it nextSize sizeErased s
      else
        let erasingSz := s.sizeOf currentKey
        freeSpace it (nextSize - erasingSz) (sizeErased + erasingSz) (s.drop S currentKey)
    else (some nextSize, s)

/-- The key is loaded, and joins the set. -/
def loadKey (key spaceRequired nextSize : UInt64) (s : CacheReplacement σ) : CacheReplacement σ :=
  let st := S.hitKey key s.strategy
  { s with
    sizeUsed := nextSize
    spaceMap := s.spaceMap.insert key spaceRequired
    dataManager := s.dataManager ++ [.retrieveKey key]
    strategy := st
    prioritySet := insertKey S st key s.prioritySet }

/-- The strategy is asked if others are to go, which it may note in the space map. -/
def askStrategy (key nextSize : UInt64) (s : CacheReplacement σ) : Bool × CacheReplacement σ :=
  if s.maxSizeAllowed < nextSize then
    let r := S.shouldDiscardOthersForKey s.strategy key s.prioritySet s.spaceMap
    (r.1, { s with spaceMap := r.2 })
  else (true, s)

/-- `hit_key`. -/
def hitKey (key spaceRequired : UInt64) (s : CacheReplacement σ) : Bool × CacheReplacement σ :=
  if s.maxSizeAllowed < spaceRequired then (false, s)
  else
    match s.findKey S key with
    | some k =>
      let st := S.hitKey key s.strategy
      (true, { s with strategy := st, prioritySet := insertKey S st key (s.prioritySet.erase k) })
    | none =>
      let nextSize := spaceRequired + s.sizeUsed
      let r := s.askStrategy S key nextSize
      if r.1 then
        match freeSpace S r.2.prioritySet nextSize 0 r.2 with
        | (none, s) => (false, s)
        | (some nextSize, s) => (true, s.loadKey S key spaceRequired nextSize)
      else (false, if S.shouldHitWithoutRetrieval then { r.2 with strategy := S.hitKey key r.2.strategy } else r.2)

/-- `mark_using`. -/
def markUsing (key : UInt64) (s : CacheReplacement σ) : CacheReplacement σ :=
  { s with inUse := s.inUse.insert key ((s.inUse.find? key).elim 1 (· + 1)) }

/-- `mark_ready`. -/
def markReady (key : UInt64) (s : CacheReplacement σ) : CacheReplacement σ :=
  match s.inUse.find? key with
  | none => s
  | some n =>
    let n := if 0 < n then n - 1 else 0
    { s with inUse := if n ≤ 0 then s.inUse.erase key else s.inUse.insert key n }

end CacheReplacement

/-! ## The accesses of the set -/

/-- What `hit_key` does with the set; `traverse` is a step of an iterator, or several with
nothing done between them. -/
inductive SetOp where
  | find (key : UInt64)
  | erase (key : UInt64)
  | insert (key : UInt64)
  | traverse
deriving DecidableEq, Repr

/-- An access: the strategy the comparison reads, and the set, before it. -/
structure SetAccess (σ : Type) where
  op : SetOp
  strategy : σ
  keys : List UInt64

namespace CacheReplacement

variable {σ : Type} (S : CRStrategy σ)

/-- The accesses of the loop of `hit_key`. -/
def freeSpaceAccesses : List UInt64 → UInt64 → CacheReplacement σ → List (SetAccess σ)
  | [], _, _ => []
  | currentKey :: it, nextSize, s =>
    if s.maxSizeAllowed < nextSize then
      if s.isUsing currentKey then ⟨.traverse, s.strategy, s.prioritySet⟩ :: freeSpaceAccesses it nextSize s
      else
        ⟨.traverse, s.strategy, s.prioritySet⟩ :: ⟨.erase currentKey, s.strategy, s.prioritySet⟩ ::
          freeSpaceAccesses it (nextSize - s.sizeOf currentKey) (s.drop S currentKey)
    else []

/-- The accesses of `hit_key`, in their order. -/
def hitKeyAccesses (key spaceRequired : UInt64) (s : CacheReplacement σ) : List (SetAccess σ) :=
  if s.maxSizeAllowed < spaceRequired then []
  else
    ⟨.find key, s.strategy, s.prioritySet⟩ ::
      match s.findKey S key with
      | some k =>
        [⟨.erase k, s.strategy, s.prioritySet⟩, ⟨.insert key, S.hitKey key s.strategy, s.prioritySet.erase k⟩]
      | none =>
        let nextSize := spaceRequired + s.sizeUsed
        let r := s.askStrategy S key nextSize
        -- `should_discard_others_for_key` may go through the set
        (if s.maxSizeAllowed < nextSize then [⟨.traverse, s.strategy, s.prioritySet⟩] else []) ++
          if r.1 then
            freeSpaceAccesses S r.2.prioritySet nextSize r.2 ++
              match freeSpace S r.2.prioritySet nextSize 0 r.2 with
              | (none, _) => []
              | (some _, s) => [⟨.insert key, S.hitKey key s.strategy, s.prioritySet⟩]
          else []

end CacheReplacement

/-- What is called on a `CacheReplacement`. -/
inductive ReplacementCmd where
  | hitKey (key spaceRequired : UInt64)
  | markUsing (key : UInt64)
  | markReady (key : UInt64)
deriving DecidableEq, Repr

/-- The state after a call. -/
def ReplacementCmd.call {σ : Type} (S : CRStrategy σ) (s : CacheReplacement σ) : ReplacementCmd → CacheReplacement σ
  | hitKey key spaceRequired => (s.hitKey S key spaceRequired).2
  | markUsing key => s.markUsing key
  | markReady key => s.markReady key

end K2Cache
