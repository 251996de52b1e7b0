import K2Cache.Spec.BgpProcessor
import K2Cache.Spec.Streamers

/-!
# BGPStreamer

A streamer runs the query of a message at the first call of `get_next_message`, and sends the
rows in batches. A row is sent through the permutation of the names the client asked for,
with real ids.
-/

namespace K2Cache

open Lib

variable {T : Type}

/-- `NodePattern`, of a message. -/
inductive NodePattern where
  | variableName (name : String)
  | concreteNodeId (id : UInt64)
deriving DecidableEq, Repr

/-- `proto_to_bgp_node`: the cache id is not found yet; the real id of a variable is not set. -/
def protoToBgpNode : NodePattern → BGPNode
  | .variableName name => ⟨false, name, 0, -1⟩
  | .concreteNodeId id => ⟨true, "", id, -1⟩

structure BGPMessage where
  varNames : List String
  patterns : List BGPTriple
  firstBatchSmall : Bool

/-- `BGPProcessor::get_permutation_vec`, after `find_headers`: a name without an index has 0,
an index without a position has 0. -/
def getPermutationVec (h : Headers) (varNames : List String) : List ℕ := varNames.map h.pos

namespace QueryIterator

/-- `has_next`. -/
def hasNext : QueryIterator T → Bool
  | .empty _ => false
  | .bgp it => it.hasNext

/-- `next`. -/
def next (ops : TreeOps T) (fuel : ℕ) : QueryIterator T → Except Halt Row × QueryIterator T
  | .empty headers => (.error (.thrown (.runtimeError "calling next on EmptyIterator is not allowed")), .empty headers)
  | .bgp it => ((BGPIterator.next ops fuel it).1, .bgp (BGPIterator.next ops fuel it).2)

end QueryIterator

/-- `BGPJoinResponse`. -/
structure BGPJoinResponse where
  channelId : ℤ
  bgpResponseRow : List (List UInt64)
  isLast : Bool
deriving DecidableEq, Repr

structure BGPStreamer (T : Type) where
  channelId : ℤ
  firstBatchSmall : Bool
  varIndexManager : VarIndexManager
  timeControl : TimeControl
  bgpMessage : BGPMessage
  queryIterator : Option (QueryIterator T)
  permutationVec : List ℕ
  sentFirstBatch : Bool

namespace BGPStreamer

/-- The constructor; `sent_first_batch` is not initialised. -/
def construct (channelId : ℤ) (message : BGPMessage) (timeControl : TimeControl) (uninit : Bool) : BGPStreamer T :=
  ⟨channelId, message.firstBatchSmall, .construct, timeControl, message, none, [], uninit⟩

/-- The round of the loop over a row, for the position `i`. -/
def cellValue (cache : CacheContainer T) (permutationVec : List ℕ) (row : Row) (i : ℕ) : Except Exn UInt64 :=
  match permutationVec[i]? with
  | none => .error .outOfRange
  | some p =>
    match row[p]? with
    | none => .error .outOfRange
    | some cacheValue =>
      let r := cache.nodeIds.getRealId cacheValue
      if r.2.getD .success ≠ .success then
        .error (.runtimeError ("ERROR: NOT FOUND REAL ID FOR CACHE VALUE" ++ toString cacheValue))
      else .ok r.1

/-- The rounds for some positions. -/
def valuesAt (cache : CacheContainer T) (permutationVec : List ℕ) (row : Row) : List ℕ → Except Exn (List UInt64)
  | [] => .ok []
  | i :: is =>
    match cellValue cache permutationVec row i with
    | .error e => .error e
    | .ok v =>
      match valuesAt cache permutationVec row is with
      | .error e => .error e
      | .ok vs => .ok (v :: vs)

/-- The loop over a row. -/
def rowValues (cache : CacheContainer T) (permutationVec : List ℕ) (row : Row) : Except Exn (List UInt64) :=
  valuesAt cache permutationVec row (List.range row.length)

/-- `max_batch_count`. -/
def maxBatchCount : ℕ := 10000000

/-- The loop over the rows: those it adds, and the iterator it leaves. -/
def fillBatch (ops : TreeOps T) (cache : CacheContainer T) (permutationVec : List ℕ) (small : Bool) (nextFuel : ℕ) :
    ℕ → ℕ → QueryIterator T → Except Halt (List (List UInt64) × QueryIterator T)
  | 0, _, _ => .error .outOfFuel
  | fuel + 1, batchCount, it =>
    if it.hasNext then
      match it.next ops nextFuel with
      | (.error e, _) => .error e
      | (.ok row, it) =>
        match rowValues cache permutationVec row with
        | .error e => .error (.thrown e)
        | .ok values =>
          let batchCount := batchCount + 1
          if small && 100 ≤ batchCount || maxBatchCount ≤ batchCount then .ok ([values], it)
          else
            match fillBatch ops cache permutationVec small nextFuel fuel batchCount it with
            | .error e => .error e
            | .ok r => .ok (values :: r.1, r.2)
    else .ok ([], it)

/-- The query is run once. -/
def start (ops : TreeOps T) (cache : CacheContainer T) (fuel : ℕ) (s : BGPStreamer T) : Except Halt (BGPStreamer T) :=
  match s.queryIterator with
  | some _ => .ok s
  | none =>
    match executeIt ops cache.fetchK2tree cache.nodeIds.getId s.varIndexManager s.timeControl s.bgpMessage.patterns fuel with
    | .error e => .error e
    | .ok it =>
      let h := findHeaders s.varIndexManager (s.bgpMessage.patterns.map (BGPTriple.resolve cache.nodeIds.getId))
      .ok { s with
        queryIterator := some it
        varIndexManager := h.vim
        permutationVec := getPermutationVec h s.bgpMessage.varNames }

/-- `get_next_message`. -/
def getNextMessage (ops : TreeOps T) (cache : CacheContainer T) (fuel : ℕ) : Act Halt (BGPStreamer T) BGPJoinResponse :=
  fun s =>
    match s.start ops cache fuel with
    | .error e => (.error e, s)
    | .ok s =>
      match s.queryIterator with
      | none => (.error (.thrown .nullDereference), s)
      | some it =>
        match fillBatch ops cache s.permutationVec (!s.sentFirstBatch && s.firstBatchSmall) fuel fuel 0 it with
        | .error e => (.error e, s)
        | .ok (rows, it) =>
          (.ok ⟨s.channelId, rows, !it.hasNext⟩, { s with queryIterator := some it, sentFirstBatch := true })

/-- No row remains. -/
def exhausted (s : BGPStreamer T) : Bool :=
  match s.queryIterator with
  | none => false
  | some it => !it.hasNext

end BGPStreamer

end K2Cache
