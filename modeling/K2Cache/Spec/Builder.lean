import K2Cache.Spec.Index

/-!
# PredicatesIndexFileBuilder

`build` makes an index file of the triples of an input stream. The triples are fed one by
one; consecutive ones with the same predicate make a tree (`K2TreesFeedFromSortedTriplesFeed`),
each tree goes to a temporary stream with its sizes and its digest, and is copied from there
behind the header. The output and the temporary stream are empty at the start; the fuel of
the loops is the number of triples, of which every round takes at least one.
-/

namespace K2Cache

open Lib

structure RDFTriple where
  subject : UInt64
  predicate : UInt64
  object : UInt64
deriving DecidableEq, Repr

/-! ## Feeding triples -/

structure TriplesFeedSBPFromIstream where
  is : IStream
  triplesNumber : UInt64
  cnt : UInt64

namespace TriplesFeedSBPFromIstream

/-- The constructor. -/
def construct (s : IStream) : TriplesFeedSBPFromIstream := ⟨s.readU64.2, s.readU64.1, 0⟩

/-- `has_next`. -/
def hasNext (f : TriplesFeedSBPFromIstream) : Bool := f.cnt < f.triplesNumber

/-- The three reads of `get_next`. -/
def readTriple (s : IStream) : RDFTriple × IStream :=
  let subject := s.readU64
  let predicate := subject.2.readU64
  let object := predicate.2.readU64
  (⟨subject.1, predicate.1, object.1⟩, object.2)

/-- `get_next`. -/
def getNext (f : TriplesFeedSBPFromIstream) : RDFTriple × TriplesFeedSBPFromIstream :=
  ((readTriple f.is).1, { f with is := (readTriple f.is).2, cnt := f.cnt + 1 })

end TriplesFeedSBPFromIstream

/-! ## Feeding trees -/

/-- A predicate and its tree, which an empty container does not have. -/
structure K2TreeContainer (T : Type) where
  predicate : UInt64
  tree : Option T

structure K2TreesFeedFromSortedTriplesFeed where
  feed : TriplesFeedSBPFromIstream
  config : K2TreeConfig
  carryTriple : Option RDFTriple
  tripleCnt : UInt64

namespace K2TreesFeedFromSortedTriplesFeed

variable {T : Type} (ops : TreeOps T)

/-- The constructor. -/
def construct (feed : TriplesFeedSBPFromIstream) (config : K2TreeConfig) : K2TreesFeedFromSortedTriplesFeed :=
  ⟨feed, config, none, 0⟩

/-- `has_next`. -/
def hasNext (f : K2TreesFeedFromSortedTriplesFeed) : Bool := f.tripleCnt < f.feed.triplesNumber

/-- The loop of `get_next`: `last` is the predicate of the tree, if it has one already. -/
def takeTriples : ℕ → Option UInt64 → UInt64 → T → K2TreesFeedFromSortedTriplesFeed →
    (UInt64 × T) × K2TreesFeedFromSortedTriplesFeed
  | 0, _, predicate, tree, f => ((predicate, tree), f)
  | fuel + 1, last, predicate, tree, f =>
    if f.feed.hasNext then
      let next := f.feed.getNext
      let triple := next.1
      if last.any (· ≠ triple.predicate) then
        ((predicate, tree), { f with feed := next.2, carryTriple := some triple })
      else
        takeTriples fuel (some triple.predicate) triple.predicate (ops.insert tree (triple.subject, triple.object))
          { f with feed := next.2, tripleCnt := f.tripleCnt + 1 }
    else ((predicate, tree), f)

/-- `get_next`. -/
def getNext (f : K2TreesFeedFromSortedTriplesFeed) : K2TreeContainer T × K2TreesFeedFromSortedTriplesFeed :=
  if f.hasNext then
    let fuel := f.feed.triplesNumber.toNat
    let tree := ops.empty f.config
    let r := match f.carryTriple with
      | none => takeTriples ops fuel none 0 tree f
      | some carry =>
        takeTriples ops fuel (some carry.predicate) carry.predicate (ops.insert tree (carry.subject, carry.object))
          { f with tripleCnt := f.tripleCnt + 1 }
    (⟨r.1.1, some r.1.2⟩, r.2)
  else (⟨0, none⟩, f)

end K2TreesFeedFromSortedTriplesFeed

/-! ## The builder -/

namespace PredicatesIndexFileBuilder

variable {T : Type} (ops : TreeOps T) (md5calc : Bytes → Md5)

/-- `write_ktree_with_size`. -/
def writeKtreeWithSize (tmp : OStream) (k2tree : T) : OStream :=
  let out := ops.writeToOstream k2tree
  (((tmp.write (u64Bytes (UInt64.ofNat (ops.measure k2tree)))).write (u64Bytes (UInt64.ofNat out.length))).write
    (md5calc out).1).write out

/-- The first loop of `build_with_k2tree_feed`: the trees go to the temporary stream. -/
def writeTrees : ℕ → K2TreesFeedFromSortedTriplesFeed → OStream → List UInt64 → Except Exn (OStream × List UInt64)
  | 0, _, tmp, ids => .ok (tmp, ids)
  | fuel + 1, feed, tmp, ids =>
    if feed.hasNext then
      let r := K2TreesFeedFromSortedTriplesFeed.getNext ops feed
      match r.1.tree with
      | none => .error .nullDereference
      | some tree => writeTrees fuel r.2 (writeKtreeWithSize ops md5calc tmp tree) (ids ++ [r.1.predicate])
    else .ok (tmp, ids)

/-- What the second loop works on. -/
structure CopyState where
  tmp : IStream
  outputFile : OStream
  metadataMap : OrdMap UInt64 PredicateMetadata
  i : ℕ

/-- The second loop: a tree is copied from the temporary stream, and its metadata filled. -/
def copyTree (predicateId : UInt64) : Act Exn CopyState Unit := fun s =>
  let totalBytes := s.tmp.readU64
  let serializedSize := totalBytes.2.readU64
  let md5Read := PredicateMetadata.readHash serializedSize.2
  let buf := md5Read.2.read serializedSize.1.toNat
  if buf.2.fail then
    (.error (.runtimeError ("Error while reading " ++ toString serializedSize.1.toNat ++ " bytes from tmp file")),
      { s with tmp := buf.2 })
  else if md5Read.1 ≠ md5calc buf.1 then
    (.error (.runtimeError ("Hash between read k2tree and stored value differ at i = " ++ toString s.i)),
      { s with tmp := buf.2 })
  else
    (.ok (), {
      tmp := buf.2
      outputFile := s.outputFile.write buf.1
      metadataMap := s.metadataMap.insert predicateId
        ⟨predicateId, s.outputFile.tellp, serializedSize.1.toNat, totalBytes.1.toNat, 0, md5calc buf.1⟩
      i := s.i + 1 })

/-- The rest of `build_with_k2tree_feed`: the header, the trees, and the header again. -/
def writeIndex (tmp : OStream) (ids : List UInt64) (config : K2TreeConfig) :
    Except Exn (PredicatesCacheMetadata × OStream) :=
  let out := ((⟨[], 0⟩ : OStream).write (u64Bytes (UInt64.ofNat ids.length))).write config.toBytes
  let metadataStart := out.tellp
  let start : CopyState :=
    ⟨.ofBytes tmp.buf, Index.writeMetadata ∅ ids out, ids.foldl (fun m p => m.insert p .zero) ∅, 0⟩
  match Act.forEach ids (copyTree md5calc) start with
  | (.error e, _) => .error e
  | (.ok (), s) =>
    .ok (⟨s.metadataMap, ids, config⟩,
      (Index.writeMetadata s.metadataMap ids (s.outputFile.seekp metadataStart)).seekp s.outputFile.tellp)

/-- `build_with_k2tree_feed`. -/
def buildWithK2treeFeed (feed : K2TreesFeedFromSortedTriplesFeed) (config : K2TreeConfig) :
    Except Exn (PredicatesCacheMetadata × OStream) :=
  match writeTrees ops md5calc feed.feed.triplesNumber.toNat feed ⟨[], 0⟩ [] with
  | .error e => .error e
  | .ok (tmp, ids) => writeIndex md5calc tmp ids config

/-- `build`, `build_with_feed`. -/
def build (inputFile : IStream) (config : K2TreeConfig) : Except Exn (PredicatesCacheMetadata × OStream) :=
  let feed := TriplesFeedSBPFromIstream.construct inputFile
  buildWithK2treeFeed ops md5calc (K2TreesFeedFromSortedTriplesFeed.construct feed config) config

end PredicatesIndexFileBuilder

/-! ## The original builder -/

structure TripleValue where
  first : UInt64
  second : UInt64
  third : UInt64
deriving DecidableEq, Repr

/-- `read_from_file`. -/
def TripleValue.readFromFile (s : IStream) : TripleValue × IStream :=
  let first := s.readU64
  let second := first.2.readU64
  let third := second.2.readU64
  (⟨first.1, second.1, third.1⟩, third.2)

structure FileData where
  size : UInt64
  currentTriple : UInt64

/-- `finished`. -/
def FileData.finished (f : FileData) : Bool := f.currentTriple ≥ f.size

namespace PredicatesIndexFileBuilder

variable {T : Type} (ops : TreeOps T) (md5calc : Bytes → Md5)

/-- The variables of the first loop of `build_orig`. -/
structure OrigState (T : Type) where
  filedata : FileData
  inputFile : IStream
  tmp : OStream
  currentK2tree : Option T
  predicatesIds : List UInt64
  currentPredicate : UInt64
  first : Bool

namespace OrigState

/-- `if (current_k2tree) write_ktree_with_size(...)`. -/
def writeCurrent (s : OrigState T) : OStream := s.currentK2tree.elim s.tmp (writeKtreeWithSize ops md5calc s.tmp)

/-- A triple of another predicate than the current one writes the tree and starts a new one. -/
def startTree (config : K2TreeConfig) (predicate : UInt64) (s : OrigState T) : OrigState T :=
  { s with
    tmp := s.writeCurrent ops md5calc
    currentK2tree := some (ops.empty config)
    predicatesIds := s.predicatesIds ++ [predicate]
    currentPredicate := predicate
    first := false }

/-- The first loop. -/
def readTriples (config : K2TreeConfig) : ℕ → OrigState T → OrigState T
  | 0, s => s
  | fuel + 1, s =>
    if s.filedata.finished then s
    else
      let r := TripleValue.readFromFile s.inputFile
      let triple := r.1
      let s := { s with inputFile := r.2, filedata := { s.filedata with currentTriple := s.filedata.currentTriple + 1 } }
      let s := if triple.second ≠ s.currentPredicate || s.first then s.startTree ops md5calc config triple.second else s
      readTriples config fuel { s with currentK2tree := s.currentK2tree.map (ops.insert · (triple.first, triple.third)) }

end OrigState

/-- `build_orig`; what follows its first loop is line by line what follows that of
`build_with_k2tree_feed`. -/
def buildOrig (inputFile : IStream) (config : K2TreeConfig) : Except Exn (PredicatesCacheMetadata × OStream) :=
  let size := inputFile.readU64
  let s := OrigState.readTriples ops md5calc config size.1.toNat ⟨⟨size.1, 0⟩, size.2, ⟨[], 0⟩, none, [], 0, true⟩
  writeIndex md5calc (s.writeCurrent ops md5calc) s.predicatesIds config

end PredicatesIndexFileBuilder

end K2Cache
