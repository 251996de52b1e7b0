import K2Cache.Lib.Act
import K2Cache.Lib.OrdMap
import K2Cache.Spec.Files
import K2Cache.Spec.Updates

/-!
# PredicatesIndexCacheMD, without its update logger

The index file holds a header (number of predicates, tree configuration, one
52-byte entry per predicate) and the serialized trees the entries point to. The
index keeps the header in memory, loads trees on demand, and remembers which of them
are new and which have changed. `syncToStream` writes a new file: trees that did not
change are copied, the header is written twice, the second time over the first.

Unordered maps are ordered ones here: the source iterates over one of them only to
sort what it finds. Offsets and sizes are natural numbers in memory and 64-bit integers in
the file. The mutexes are left out.
-/

namespace K2Cache

open Lib

/-! ## MemoryManager -/

/-- The registered segments with their sizes; a segment's identity is its number. -/
structure MemoryManager where
  next : ℕ
  segments : List (ℕ × ℕ)

namespace MemoryManager

/-- `new_memory_segment`. -/
def newMemorySegment (m : MemoryManager) (size : ℕ) : ℕ × MemoryManager :=
  (m.next, ⟨m.next + 1, m.segments ++ [(m.next, size)]⟩)

/-- `free_segment`. -/
def freeSegment (m : MemoryManager) (segment : ℕ) : MemoryManager :=
  { m with segments := m.segments.filter (fun s => s.1 ≠ segment) }

end MemoryManager

/-! ## Metadata -/

/-- The digest `md5calc` returns: 16 bytes. -/
abbrev Md5 := {bs : Bytes // bs.length = 16}

structure PredicateMetadata where
  predicateId : UInt64
  treeOffset : ℕ
  treeSize : ℕ
  treeSizeInMemory : ℕ
  priority : UInt32
  k2treeHash : Md5
deriving DecidableEq

namespace PredicateMetadata

/-- `PredicateMetadata{}`. -/
def zero : PredicateMetadata := ⟨0, 0, 0, 0, 0, ⟨List.replicate 16 0, by simp⟩⟩

/-- `write_to_ostream`. -/
def toBytes (m : PredicateMetadata) : Bytes :=
  u64Bytes m.predicateId ++ (u64Bytes (UInt64.ofNat m.treeOffset) ++ (u64Bytes (UInt64.ofNat m.treeSize) ++
    (u64Bytes (UInt64.ofNat m.treeSizeInMemory) ++ (u32Bytes m.priority ++ m.k2treeHash.1))))

@[simp] theorem toBytes_length (m : PredicateMetadata) : m.toBytes.length = 52 := by
  simp [toBytes, m.k2treeHash.2]

/-- A digest read from a stream; bytes that are not there are zero. -/
def readHash (s : IStream) : Md5 × IStream :=
  let r := s.read 16
  (⟨(r.1 ++ List.replicate 16 0).take 16, by simp⟩, r.2)

/-- `read_from_istream`. -/
def readFromIstream (s : IStream) : PredicateMetadata × IStream :=
  let id := s.readU64
  let off := id.2.readU64
  let size := off.2.readU64
  let mem := size.2.readU64
  let prio := mem.2.readU32
  let hash := readHash prio.2
  (⟨id.1, off.1.toNat, size.1.toNat, mem.1.toNat, prio.1, hash.1⟩, hash.2)

end PredicateMetadata

structure PredicatesCacheMetadata where
  metadataMap : OrdMap UInt64 PredicateMetadata
  predicatesIds : List UInt64
  config : K2TreeConfig

namespace PredicatesCacheMetadata

/-- The loop of the reading constructor. -/
def readEntries : ℕ → OrdMap UInt64 PredicateMetadata → List UInt64 → IStream →
    (OrdMap UInt64 PredicateMetadata × List UInt64) × IStream
  | 0, m, ids, s => ((m, ids), s)
  | n + 1, m, ids, s =>
    let current := PredicateMetadata.readFromIstream s
    readEntries n (m.insert current.1.predicateId current.1) (ids ++ [current.1.predicateId]) current.2

/-- `PredicatesCacheMetadata(std::istream &)`. -/
def ofIstream (s : IStream) : PredicatesCacheMetadata × IStream :=
  let count := s.readU64
  let config := K2TreeConfig.readFromIstream count.2
  let entries := readEntries count.1.toNat ∅ [] config.2
  (⟨entries.1.1, entries.1.2, config.1⟩, entries.2)

end PredicatesCacheMetadata

/-! ## The index -/

/-- A `std::set<uint64_t>`. -/
abbrev IdSet := OrdMap UInt64 Unit

/-- The fields of `PredicatesIndexCacheMD`, and the memory manager it uses. A new
predicate is always loaded: `add_predicate` makes both, a discard ends both. -/
structure Index (T : Type) where
  is : IStream
  metadata : PredicatesCacheMetadata
  predicates : OrdMap UInt64 T
  dirtyPredicates : IdSet
  newPredicates : IdSet
  k2treeConfig : K2TreeConfig
  memorySegmentsMap : OrdMap UInt64 ℕ
  fullMemorySegment : Option ℕ
  memory : MemoryManager
  /-- `update_logger` is set. -/
  hasUpdateLogger : Bool
  newLoaded : ∀ p, newPredicates.contains p = true → predicates.contains p = true

namespace Index

variable {T : Type} (ops : TreeOps T)

/-- The constructor, on the index file of `d`. -/
def construct (d : Disk) : Index T :=
  let r := PredicatesCacheMetadata.ofIstream (FileRWHandler.getReader d .index)
  { is := r.2, metadata := r.1, predicates := ∅, dirtyPredicates := ∅, newPredicates := ∅,
    k2treeConfig := r.1.config, memorySegmentsMap := ∅, fullMemorySegment := none, memory := ⟨0, []⟩,
    hasUpdateLogger := false, newLoaded := fun p h => by simp [OrdMap.contains] at h }

/-- `set_update_logger` with a logger. -/
def setUpdateLogger (x : Index T) : Index T := { x with hasUpdateLogger := true }

/-- `is_stored_in_main_index`. -/
def isStoredInMainIndex (x : Index T) (p : UInt64) : Bool := x.metadata.metadataMap.contains p

/-- `has_predicate_active`. -/
def hasPredicateActive (x : Index T) (p : UInt64) : Bool := x.predicates.contains p || x.newPredicates.contains p

/-- `predicates[p] = t`. -/
def setTree (x : Index T) (p : UInt64) (t : T) : Index T :=
  { x with
    predicates := x.predicates.insert p t
    newLoaded := by
      intro q hq
      by_cases hqp : q = p
      · simp [OrdMap.contains, hqp]
      · simpa [OrdMap.contains, OrdMap.find?_insert, hqp] using x.newLoaded q hq }

/-- `mark_dirty`. -/
def markDirty (x : Index T) (p : UInt64) : Index T := { x with dirtyPredicates := x.dirtyPredicates.insert p () }

/-- `add_predicate`. -/
def addPredicate (x : Index T) (p : UInt64) : Index T :=
  { x.setTree p (ops.empty x.k2treeConfig) with
    dirtyPredicates := x.dirtyPredicates.insert p ()
    newPredicates := x.newPredicates.insert p ()
    newLoaded := by
      intro q hq
      by_cases hqp : q = p
      · simp [setTree, OrdMap.contains, hqp]
      · exact (x.setTree p _).newLoaded q (by simpa [setTree, OrdMap.contains, OrdMap.find?_insert, hqp] using hq) }

/-- `discard_in_memory_predicate`. -/
def discardInMemoryPredicate (x : Index T) (p : UInt64) : Index T :=
  { x with
    predicates := x.predicates.erase p
    memory := (x.memorySegmentsMap.find? p).elim x.memory x.memory.freeSegment
    memorySegmentsMap := x.memorySegmentsMap.erase p
    newPredicates := x.newPredicates.erase p
    dirtyPredicates := x.dirtyPredicates.erase p
    newLoaded := by
      intro q hq
      by_cases hqp : q = p
      · simp [OrdMap.contains, OrdMap.find?_erase, hqp] at hq
      · simpa [OrdMap.contains, OrdMap.find?_erase, hqp] using
          x.newLoaded q (by simpa [OrdMap.contains, OrdMap.find?_erase, hqp] using hq) }

/-- The first half of `load_single_predicate`: the tree of the main index is read into
a new segment; the stream returns to where it was. -/
def loadFromMainIndex (p : UInt64) : Act Exn (Index T) Unit := fun x =>
  match x.metadata.metadataMap.find? p with
  | none => (.error .outOfRange, x)
  | some md =>
    let segment := x.memory.newMemorySegment md.treeSizeInMemory
    let x₁ := { x with
      memory := segment.2
      memorySegmentsMap := x.memorySegmentsMap.insert md.predicateId segment.1 }
    match ops.readIntoSegment md.treeSizeInMemory (x.is.seekg md.treeOffset) with
    | (.ok t, s) => (.ok (), { x₁.setTree md.predicateId t with is := s.seekg x.is.pos })
    | (.error e, s) => (.error e, { x₁ with is := s })

/-- The loop of `load_all_predicates`: the trees are read one after another into the
segment, in which each takes up its measured size. -/
def loadTrees : List UInt64 → ℕ → Act Exn (Index T) Unit
  | [], _ => pure ()
  | p :: ps, room => fun x =>
    match ops.readIntoSegment room x.is with
    | (.ok t, s) => loadTrees ps (room - ops.measure t) { x.setTree p t with is := s }
    | (.error e, s) => (.error e, { x with is := s })

/-- The first half of `load_all_predicates`: one segment for all trees, which are read
from where the first of the ids has its tree. -/
def loadAllFromMainIndex : Act Exn (Index T) Unit := fun x =>
  match x.metadata.predicatesIds.mapM x.metadata.metadataMap.find? with
  | none => (.error .outOfRange, x)
  | some mds =>
    let totalBytes := (mds.map PredicateMetadata.treeSizeInMemory).sum
    let segment := x.memory.newMemorySegment totalBytes
    let x₁ := { x with
      memory := segment.2
      fullMemorySegment := some segment.1
      is := (mds.head?).elim x.is (fun first => x.is.seekg first.treeOffset) }
    loadTrees ops x.metadata.predicatesIds totalBytes x₁

/-! ## sync_to_stream -/

/-- What `sync_to_stream` works on: the new file, the old one, the new metadata. -/
structure SyncState where
  os : OStream
  is : IStream
  metadataMap : OrdMap UInt64 PredicateMetadata

/-- `all_predicates`; a predicate that is new and already in the file is there twice. -/
def allPredicates (x : Index T) : List UInt64 :=
  (x.newPredicates.keys ++ x.metadata.metadataMap.keys).insertionSort (· ≤ ·)

/-- Writes what is to be written of one predicate, and fills its metadata. -/
def syncPredicate (md5calc : Bytes → Md5) (x : Index T) (p : UInt64) : Act Exn SyncState Unit := fun s =>
  let old := (s.metadataMap.find? p).getD .zero
  let meta' := { old with predicateId := p, treeOffset := s.os.tellp }
  if x.dirtyPredicates.contains p then
    match x.predicates.find? p with
    | none => (.error .nullDereference, s)
    | some t =>
      let bs := ops.writeToOstream t
      let filled := { meta' with
        treeSize := bs.length
        treeSizeInMemory := ops.measure t
        k2treeHash := md5calc bs }
      (.ok (), { s with os := s.os.write bs, metadataMap := s.metadataMap.insert p filled })
  else
    match x.metadata.metadataMap.find? p with
    | none => (.error .outOfRange, s)
    | some current =>
      let filled := { meta' with
        treeSize := current.treeSize
        k2treeHash := current.k2treeHash
        treeSizeInMemory := current.treeSizeInMemory }
      let r := (s.is.seekg current.treeOffset).read current.treeSize
      let buf := r.1 ++ List.replicate (current.treeSize - r.1.length) 0
      (.ok (), ⟨s.os.write buf, r.2, s.metadataMap.insert p filled⟩)

/-- The metadata entries of some predicates, one after another. -/
def writeMetadata (m : OrdMap UInt64 PredicateMetadata) (ps : List UInt64) (os : OStream) : OStream :=
  ps.foldl (fun os p => os.write ((m.find? p).getD .zero).toBytes) os

/-- `sync_to_stream`, on an empty output stream. -/
def syncToStream (md5calc : Bytes → Md5) (x : Index T) : Act Exn SyncState Unit := do
  let all := x.allPredicates
  Act.modify (fun s => { s with os := (s.os.write (u64Bytes (UInt64.ofNat all.length))).write x.k2treeConfig.toBytes })
  let metadataStart ← (fun s => (.ok s.os.tellp, s) : Act Exn SyncState ℕ)
  Act.modify (fun s => { s with
    metadataMap := all.foldl (fun m p => m.insert p .zero) ∅
    os := writeMetadata ∅ all s.os })
  Act.forEach all (syncPredicate ops md5calc x)
  Act.modify (fun s => { s with os := (writeMetadata s.metadataMap all (s.os.seekp metadataStart)).seekp s.os.tellp })

end Index

end K2Cache
