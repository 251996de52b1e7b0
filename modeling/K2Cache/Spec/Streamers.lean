import K2Cache.Spec.Bgp
import K2Cache.Spec.NodeIds
import K2Cache.Spec.Logger

/-!
# Streams of triples matching a pattern

The three streamers of `start_streaming_matching_triples`: from the scanner of a tree, from
an indexed predicate, and from a sorted copy of the result. A response holds matching
values, real ids, up to a size; a pattern without variables gets an exact response.

A `TripleNodeId` is held by value here; `TPMSortedStreamer` holds a reference to one.
-/

namespace K2Cache

open Lib

variable {T : Type}

/-! ## Patterns -/

/-- `NodeId::NODE_ANY`. -/
def nodeAny : UInt64 := -9

/-- `NodeId::is_any`. -/
def isAny (node : UInt64) : Bool := node = nodeAny

/-! ## What a streamer asks of the cache -/

/-- `NodeIdsManager`: the cache id of a real id, and the real id of a cache id, with what is
written to `err_code`. -/
structure NodeIds where
  getId : UInt64 → UInt64
  getRealId : UInt64 → UInt64 × Option NidsErrCode

/-- `NodeIdsManagerImpl`. -/
def NodeIdsManager.ids (m : NodeIdsManager) : NodeIds := ⟨m.getId, m.getRealId⟩

/-- `NodeIdsManagerIdentity`. -/
def NodeIds.identity : NodeIds := ⟨id, fun mappedId => (mappedId, none)⟩

/-- The node ids manager, and `fetch_k2tree` of the main index. -/
structure CacheContainer (T : Type) where
  nodeIds : NodeIds
  fetchK2tree : UInt64 → Option T

/-- `add_real_value`: what it adds to `data`. -/
def CacheContainer.addRealValue (cache : CacheContainer T) (mappedValue : UInt64) : List UInt64 :=
  let r := cache.nodeIds.getRealId mappedValue
  if r.2.getD .success = .success then [r.1] else []

/-- `StreamOfTriplesMatchingPatternResponse`, with its defaults. -/
structure TriplesResponse where
  channelId : ℤ
  patternChannelId : ℤ
  lastResult : Bool
  hasExactResponse : Bool
  exactResponse : Bool
  matchingValues : List (List UInt64)
deriving DecidableEq, Repr

/-! ## Scanners of trees -/

/-- The kind of scanner a pattern needs. -/
def patternKind (cache : CacheContainer T) (node : TripleNodeId) : ScannerKind :=
  match isAny node.subject, isAny node.object with
  | true, true => .full
  | true, false => .band (cache.nodeIds.getId node.object) .row
  | false, true => .band (cache.nodeIds.getId node.subject) .column
  | false, false => .empty

/-- `initialize_scanner`: the scanner of the tree of the predicate; without a tree it is a
`NullScanner`. -/
def initializeScanner (ops : TreeOps T) (cache : CacheContainer T) (node : TripleNodeId) : Option (K2TreeScanner T) :=
  (cache.fetchK2tree (cache.nodeIds.getId node.predicate)).map fun tree => .create ops tree (patternKind cache node)

/-- What a scanner has not visited; a `NullScanner` has nothing. -/
def scannerAhead : Option (K2TreeScanner T) → List Point
  | none => []
  | some s => s.ahead

/-! ## TriplePatternMatchingStreamer -/

structure TriplePatternMatchingStreamer (T : Type) where
  channelId : ℤ
  patternChannelId : ℤ
  triplePatternNode : TripleNodeId
  thresholdPartSize : UInt64
  k2treeScanner : Option (K2TreeScanner T)
  subjectVariable : Bool
  objectVariable : Bool
  finished : Bool

namespace TriplePatternMatchingStreamer

/-- The constructor. -/
def construct (ops : TreeOps T) (cache : CacheContainer T) (channelId patternChannelId : ℤ) (node : TripleNodeId)
    (thresholdPartSize : UInt64) : TriplePatternMatchingStreamer T :=
  ⟨channelId, patternChannelId, node, thresholdPartSize, initializeScanner ops cache node, isAny node.subject,
    isAny node.object, false⟩

/-- The values of a match: those that have real ids. -/
def matchData (cache : CacheContainer T) (subjectVariable objectVariable : Bool) (x : Point) : List UInt64 :=
  (if subjectVariable then cache.addRealValue x.1 else []) ++ (if objectVariable then cache.addRealValue x.2 else [])

/-- The loop of `get_next_response`, over what the scanner has not visited: the matching
values, and what is left. -/
def fillPart (cache : CacheContainer T) (subjectVariable objectVariable : Bool) (thresholdPartSize : UInt64) :
    UInt64 → List Point → List (List UInt64) × List Point
  | _, [] => ([], [])
  | accSize, x :: l =>
    let data := matchData cache subjectVariable objectVariable x
    let accSize := accSize + 8 * UInt64.ofNat data.length
    if thresholdPartSize < accSize then ([data], l)
    else
      let r := fillPart cache subjectVariable objectVariable thresholdPartSize accSize l
      (data :: r.1, r.2)

/-- `all_sent`. -/
def allSent (s : TriplePatternMatchingStreamer T) : Bool := s.finished

/-- `get_next_response`; `NullScanner::get_tree` throws. -/
def getNextResponse (ops : TreeOps T) (cache : CacheContainer T) :
    Act Exn (TriplePatternMatchingStreamer T) TriplesResponse := fun s =>
  if !s.subjectVariable && !s.objectVariable then
    let s := { s with finished := true }
    match s.k2treeScanner with
    | none => (.error (.runtimeError "empty scanner"), s)
    | some scanner =>
      (.ok ⟨s.channelId, s.patternChannelId, true, true,
        ops.has scanner.tree (s.triplePatternNode.subject, s.triplePatternNode.object), []⟩, s)
  else
    let part := fillPart cache s.subjectVariable s.objectVariable s.thresholdPartSize 0 (scannerAhead s.k2treeScanner)
    let s := { s with k2treeScanner := s.k2treeScanner.map fun scanner => { scanner with ahead := part.2 } }
    if part.2.isEmpty then
      (.ok ⟨s.channelId, s.patternChannelId, true, false, false, part.1⟩, { s with finished := true })
    else (.ok ⟨s.channelId, s.patternChannelId, false, false, false, part.1⟩, s)

end TriplePatternMatchingStreamer

/-! ## FullyIndexedPredicate -/

structure FullyIndexedPredicate where
  subjectToObject : OrdMap UInt64 (List UInt64)
  objectToSubject : OrdMap UInt64 (List UInt64)
  subjects : OrdMap UInt64 Unit
  objects : OrdMap UInt64 Unit

/-- `map[key]` of a map to vectors: an empty one where there is none. -/
def vectorAt (m : OrdMap UInt64 (List UInt64)) (key : UInt64) : List UInt64 := (m.find? key).getD []

namespace FullyIndexedPredicate

/-- What the constructor does with a point. -/
def addPoint (p : FullyIndexedPredicate) (x : Point) : FullyIndexedPredicate :=
  ⟨p.subjectToObject.insert x.1 (vectorAt p.subjectToObject x.1 ++ [x.2]),
    p.objectToSubject.insert x.2 (vectorAt p.objectToSubject x.2 ++ [x.1]),
    p.subjects.insert x.1 (), p.objects.insert x.2 ()⟩

/-- The constructor. -/
def construct (ops : TreeOps T) (k2tree : T) : FullyIndexedPredicate :=
  (ops.fullScan k2tree).foldl addPoint ⟨∅, ∅, ∅, ∅⟩

/-- `get_objects`. -/
def getObjects (p : FullyIndexedPredicate) (subjectValue : UInt64) : List UInt64 := vectorAt p.subjectToObject subjectValue

/-- `get_subjects`. -/
def getSubjects (p : FullyIndexedPredicate) (objectValue : UInt64) : List UInt64 := vectorAt p.objectToSubject objectValue

/-- `has`. -/
def has (p : FullyIndexedPredicate) (subjectId objectId : UInt64) : Bool :=
  let so := p.getObjects subjectId
  let os := p.getSubjects objectId
  if so.length ≤ os.length then so.contains objectId else os.contains subjectId

end FullyIndexedPredicate

/-! ## Scanners of indexed predicates -/

/-- `CachedSubjectObjectScanner`. `baseSetIt` is the base set from the iterator on;
`pastEnd` is what reading the iterator past the end gives. -/
structure CachedSubjectObjectScanner where
  cachedSource : FullyIndexedPredicate
  leftRightDir : Bool
  baseSetIt : List UInt64
  activeRightElements : List UInt64
  currentBaseElement : UInt64
  currentActiveElementPosition : ℕ
  pastEnd : UInt64

namespace CachedSubjectObjectScanner

/-- `get_active_elements`. -/
def getActiveElements (cachedSource : FullyIndexedPredicate) (leftRightDir : Bool) (element : UInt64) : List UInt64 :=
  if leftRightDir then cachedSource.getObjects element else cachedSource.getSubjects element

/-- The base element is read through an iterator, and its elements are fetched. -/
def moveTo (s : CachedSubjectObjectScanner) (it : List UInt64) : CachedSubjectObjectScanner :=
  let element := it.headD s.pastEnd
  { s with
    baseSetIt := it
    currentBaseElement := element
    activeRightElements := getActiveElements s.cachedSource s.leftRightDir element
    currentActiveElementPosition := 0 }

/-- The constructor. -/
def construct (cachedSource : FullyIndexedPredicate) (pastEnd : UInt64) : CachedSubjectObjectScanner :=
  let leftRightDir : Bool := cachedSource.subjects.size ≤ cachedSource.objects.size
  let baseSet := if leftRightDir then cachedSource.subjects.keys else cachedSource.objects.keys
  moveTo ⟨cachedSource, leftRightDir, baseSet, [], 0, 0, pastEnd⟩ baseSet

/-- The loop of `has_next`, with the iterator. -/
def skip : List UInt64 → CachedSubjectObjectScanner → CachedSubjectObjectScanner
  | [], s => s
  | _ :: it, s => if s.activeRightElements.length ≤ s.currentActiveElementPosition then skip it (s.moveTo it) else s

/-- `has_next`. -/
def hasNext (s : CachedSubjectObjectScanner) : Bool × CachedSubjectObjectScanner :=
  let s := skip s.baseSetIt s
  (!s.baseSetIt.isEmpty, s)

/-- `next`; `at` throws where there is no element. -/
def next (s : CachedSubjectObjectScanner) : Except Exn (Point × CachedSubjectObjectScanner) :=
  match s.activeRightElements[s.currentActiveElementPosition]? with
  | none => .error .outOfRange
  | some nextActive =>
    .ok (if s.leftRightDir then (s.currentBaseElement, nextActive) else (nextActive, s.currentBaseElement),
      { s with currentActiveElementPosition := s.currentActiveElementPosition + 1 })

end CachedSubjectObjectScanner

/-- `CachedSourceScanner`: `CachedObjectScanner` and `CachedSubjectScanner` walk a vector with
an `int`. -/
inductive CachedSourceScanner where
  | subjectObject (s : CachedSubjectObjectScanner)
  | object (objects : List UInt64) (currentPosition : ℕ) (subjectValue : UInt64)
  | subject (subjects : List UInt64) (currentPosition : ℕ) (objectValue : UInt64)

namespace CachedSourceScanner

/-- `has_next`. -/
def hasNext : CachedSourceScanner → Bool × CachedSourceScanner
  | .subjectObject s => (s.hasNext.1, .subjectObject s.hasNext.2)
  | .object objects pos v => ((pos : ℤ) < wrapInt objects.length, .object objects pos v)
  | .subject subjects pos v => ((pos : ℤ) < wrapInt subjects.length, .subject subjects pos v)

/-- `next`. -/
def next : CachedSourceScanner → Except Exn (Point × CachedSourceScanner)
  | .subjectObject s => s.next.map fun r => (r.1, .subjectObject r.2)
  | .object objects pos v =>
    match objects[pos]? with
    | none => .error .outOfRange
    | some o => .ok ((v, o), .object objects (pos + 1) v)
  | .subject subjects pos v =>
    match subjects[pos]? with
    | none => .error .outOfRange
    | some s => .ok ((s, v), .subject subjects (pos + 1) v)

end CachedSourceScanner

/-! ## StreamerFromCachedSource -/

structure StreamerFromCachedSource where
  cachedSource : FullyIndexedPredicate
  channelId : ℤ
  patternChannelId : ℤ
  triplePatternNode : TripleNodeId
  thresholdPartSize : UInt64
  finished : Bool
  subjectVariable : Bool
  objectVariable : Bool
  cachedSourceScanner : Option CachedSourceScanner

namespace StreamerFromCachedSource

/-- The constructor; there is no scanner for a pattern without variables. -/
def construct (cachedSource : FullyIndexedPredicate) (channelId patternChannelId : ℤ) (node : TripleNodeId)
    (cache : CacheContainer T) (thresholdPartSize pastEnd : UInt64) : StreamerFromCachedSource :=
  let subjectVariable := isAny node.subject
  let objectVariable := isAny node.object
  let translatedSubject := if subjectVariable then -1 else cache.nodeIds.getId node.subject
  let translatedObject := if objectVariable then -1 else cache.nodeIds.getId node.object
  let scanner := match subjectVariable, objectVariable with
    | true, true => some (.subjectObject (.construct cachedSource pastEnd))
    | false, false => none
    | false, true => some (.object (cachedSource.getObjects translatedSubject) 0 translatedSubject)
    | true, false => some (.subject (cachedSource.getSubjects translatedObject) 0 translatedObject)
  ⟨cachedSource, channelId, patternChannelId, node, thresholdPartSize, false, subjectVariable, objectVariable, scanner⟩

/-- The values of a match, if they all have real ids. -/
def matchData (cache : CacheContainer T) (subjectVariable objectVariable : Bool) (x : Point) : Option (List UInt64) :=
  let subject := cache.addRealValue x.1
  let object := cache.addRealValue x.2
  if subjectVariable && subject.isEmpty || objectVariable && object.isEmpty then none
  else some ((if subjectVariable then subject else []) ++ (if objectVariable then object else []))

/-- The loop of `get_next_response`. -/
def fillPart (cache : CacheContainer T) (subjectVariable objectVariable : Bool) (thresholdPartSize : UInt64) :
    ℕ → UInt64 → CachedSourceScanner → Except Halt (List (List UInt64) × CachedSourceScanner)
  | 0, _, _ => .error .outOfFuel
  | fuel + 1, accSize, s =>
    let h := s.hasNext
    if !h.1 then .ok ([], h.2)
    else
      match h.2.next with
      | .error e => .error (.thrown e)
      | .ok (x, s) =>
        match matchData cache subjectVariable objectVariable x with
        | none => fillPart cache subjectVariable objectVariable thresholdPartSize fuel accSize s
        | some data =>
          let accSize := accSize + 8 * UInt64.ofNat data.length
          if thresholdPartSize < accSize then .ok ([data], s)
          else
            match fillPart cache subjectVariable objectVariable thresholdPartSize fuel accSize s with
            | .error e => .error e
            | .ok r => .ok (data :: r.1, r.2)

/-- `all_sent`. -/
def allSent (s : StreamerFromCachedSource) : Bool := s.finished

/-- `get_next_response`. -/
def getNextResponse (cache : CacheContainer T) (fuel : ℕ) : Act Halt StreamerFromCachedSource TriplesResponse := fun s =>
  if !s.subjectVariable && !s.objectVariable then
    (.ok ⟨s.channelId, s.patternChannelId, true, true,
      s.cachedSource.has s.triplePatternNode.subject s.triplePatternNode.object, []⟩, { s with finished := true })
  else
    match s.cachedSourceScanner with
    | none => (.error (.thrown .nullDereference), s)
    | some scanner =>
      match fillPart cache s.subjectVariable s.objectVariable s.thresholdPartSize fuel 0 scanner with
      | .error e => (.error e, s)
      | .ok part =>
        let h := part.2.hasNext
        let s := { s with cachedSourceScanner := some h.2 }
        if !h.1 then (.ok ⟨s.channelId, s.patternChannelId, true, false, false, part.1⟩, { s with finished := true })
        else (.ok ⟨s.channelId, s.patternChannelId, false, false, false, part.1⟩, s)

end StreamerFromCachedSource

/-! ## TPMSortedStreamer -/

structure TPMSortedStreamer where
  channelId : ℤ
  patternChannelId : ℤ
  triplePatternNode : TripleNodeId
  thresholdPartSize : UInt64
  pairResults : List (UInt64 × UInt64)
  singleResults : List UInt64
  currentSent : ℕ

namespace TPMSortedStreamer

/-- `nis.get_real_id`, which leaves `err_code` as it is where it does not write it. -/
def realId (cache : CacheContainer T) (v : UInt64) (errCode : NidsErrCode) : UInt64 × NidsErrCode :=
  let r := cache.nodeIds.getRealId v
  (r.1, r.2.getD errCode)

/-- The loop of `get_all_data`, with its `err_code`: the single and the pair results. -/
def getAllData (cache : CacheContainer T) (subjectVariable objectVariable : Bool) :
    NidsErrCode → List Point → List UInt64 × List (UInt64 × UInt64)
  | _, [] => ([], [])
  | err, x :: l =>
    let s := realId cache x.1 err
    if subjectVariable && objectVariable then
      let o := realId cache x.2 s.2
      if s.2 ≠ .success then getAllData cache subjectVariable objectVariable s.2 l
      else if o.2 ≠ .success then getAllData cache subjectVariable objectVariable o.2 l
      else
        let r := getAllData cache subjectVariable objectVariable o.2 l
        (r.1, (s.1, o.1) :: r.2)
    else
      let v := if subjectVariable then s else realId cache x.2 err
      let r := getAllData cache subjectVariable objectVariable v.2 l
      if v.2 ≠ .success then r else (v.1 :: r.1, r.2)

/-- The order of pairs. -/
def PairLe (a b : UInt64 × UInt64) : Prop := a.1 < b.1 ∨ a.1 = b.1 ∧ a.2 ≤ b.2

instance : DecidableRel PairLe := fun a b => inferInstanceAs (Decidable (a.1 < b.1 ∨ a.1 = b.1 ∧ a.2 ≤ b.2))

/-- The constructor: `initialize`, `get_all_data` and `sort_data`. -/
def construct (ops : TreeOps T) (cache : CacheContainer T) (channelId patternChannelId : ℤ) (node : TripleNodeId)
    (thresholdPartSize : UInt64) : TPMSortedStreamer :=
  match initializeScanner ops cache node with
  | none => ⟨channelId, patternChannelId, node, thresholdPartSize, [], [], 0⟩
  | some scanner =>
    let data := getAllData cache (isAny node.subject) (isAny node.object) .success scanner.ahead
    ⟨channelId, patternChannelId, node, thresholdPartSize, data.2.insertionSort PairLe, data.1.insertionSort (· ≤ ·), 0⟩

/-- `all_sent`. -/
def allSent (s : TPMSortedStreamer) : Bool :=
  !s.pairResults.isEmpty && s.pairResults.length ≤ s.currentSent ||
    !s.singleResults.isEmpty && s.singleResults.length ≤ s.currentSent

/-- The loops of the two response builders: the results that are sent, each of some bytes,
and those behind them. -/
def fillPart {α : Type} (thresholdPartSize bytes : UInt64) : UInt64 → List α → List α × List α
  | _, [] => ([], [])
  | accSize, x :: l =>
    if accSize < thresholdPartSize then
      let r := fillPart thresholdPartSize bytes (accSize + bytes) l
      (x :: r.1, r.2)
    else ([], x :: l)

/-- `get_next_pairs_response`. -/
def getNextPairsResponse (s : TPMSortedStreamer) : TriplesResponse :=
  let part := fillPart s.thresholdPartSize 16 0 (s.pairResults.drop s.currentSent)
  ⟨s.channelId, s.patternChannelId, part.2.isEmpty, false, false, part.1.map fun p => [p.1, p.2]⟩

/-- `get_next_single_response`. -/
def getNextSingleResponse (s : TPMSortedStreamer) : TriplesResponse :=
  let part := fillPart s.thresholdPartSize 8 0 (s.singleResults.drop s.currentSent)
  ⟨s.channelId, s.patternChannelId, part.2.isEmpty, false, false, part.1.map fun v => [v]⟩

/-- `get_empty_response`. -/
def getEmptyResponse (ops : TreeOps T) (cache : CacheContainer T) (s : TPMSortedStreamer) : Except Exn TriplesResponse :=
  match cache.fetchK2tree (cache.nodeIds.getId s.triplePatternNode.predicate) with
  | none => .error .nullDereference
  | some k2tree => .ok ⟨s.channelId, s.patternChannelId, true, true,
      ops.has k2tree (s.triplePatternNode.subject, s.triplePatternNode.object), []⟩

/-- `get_next_response`: none of the builders writes to the streamer. -/
def getNextResponse (ops : TreeOps T) (cache : CacheContainer T) : Act Exn TPMSortedStreamer TriplesResponse := fun s =>
  if !s.pairResults.isEmpty then (.ok s.getNextPairsResponse, s)
  else if !s.singleResults.isEmpty then (.ok s.getNextSingleResponse, s)
  else (s.getEmptyResponse ops cache, s)

end TPMSortedStreamer

end K2Cache
