import K2Cache.Lib.Act
import K2Cache.Lib.OrdMap
import K2Cache.Spec.Files
import K2Cache.Spec.Updates

/-!
# UpdatesLoggerImpl

The log file holds batches of update records; `offsetsMap` keeps, per predicate, the
file positions of its records, and is written to a second file after every batch; a
third file holds the number of batches. The logger closes its writer whenever it
reads, and opens it again for the next batch with `FileRWHandler::get_writer`;
`LoggerParams.logMode` is the mode of that handler's writer: `OpenMode.binary` is what
the source passes, `OpenMode.binaryApp` is a log file that keeps what it has.

The applied updates go to a `DataMerger`, here with a state of its own.
-/

namespace K2Cache

open Lib

/-- `std::map<uint64_t, std::unique_ptr<std::vector<long>>>`. -/
abbrev OffsetsMap := OrdMap UInt64 (List ℕ)

/-- The `DataMerger` interface, over the state of the object behind it. -/
structure DataMerger (T μ : Type) where
  mergeAddTree : UInt64 → T → Act Exn μ Unit
  mergeDeleteTree : UInt64 → T → Act Exn μ Unit
  mergeUpdate : List (K2TreeUpdates T) → Act Exn μ Unit

/-- An `int` after arithmetic modulo `2^32`. -/
def wrapInt (n : ℤ) : ℤ := n.bmod (2 ^ 32)

theorem wrapInt_of_lt {n : ℕ} (h : n < 2 ^ 31) : wrapInt n = n := by
  unfold wrapInt
  apply Int.bmod_eq_of_le_mul_two
  · omega
  · omega

theorem wrapInt_le (n : ℕ) : wrapInt n ≤ n := by
  unfold wrapInt
  rw [Int.bmod_def]
  split <;> omega

/-- The `std::fstream` of the batch counter: whether it still writes to the file of
that name, whether it has failed, and its position. -/
structure MetaStream where
  bound : Bool
  fail : Bool
  pos : ℕ
deriving DecidableEq, Repr

/-- The fields of `UpdatesLoggerImpl`. -/
structure UpdatesLogger where
  /-- `current_file_writer` is set. -/
  writerOpen : Bool
  /-- `current_file_reader`. -/
  reader : Option IStream
  metadataFileRw : MetaStream
  offsetsMap : OffsetsMap
  totalUpdates : ℤ

/-- A logger, the disk its handlers work on, and the state of its `DataMerger`. -/
structure LogEnv (μ : Type) where
  disk : Disk
  logger : UpdatesLogger
  merger : μ

structure LoggerParams (T μ : Type) where
  ops : TreeOps T
  merger : DataMerger T μ
  logMode : OpenMode

/-- The error of `read_tree_from_istream` on a stream without blocks. -/
def zeroBlocks : Exn := .runtimeError "K2Tree::read_from_istream: input stream has zero blocks"

/-! ## Records and batches -/

section Format

variable {T : Type} (ops : TreeOps T)

/-- A record of the log: predicate, kind, and the trees the kind calls for. -/
def recordBytes (u : K2TreeUpdates T) : Bytes :=
  u64Bytes u.predicateId ++ u32Bytes u.getKind.code ++
    (u.k2treeAdd.elim [] ops.writeToOstream ++ u.k2treeDel.elim [] ops.writeToOstream)

/-- `register_update_offset`. -/
def registerUpdateOffset (offsets : OffsetsMap) (predicateId : UInt64) (offset : ℕ) : OffsetsMap :=
  match offsets.find? predicateId with
  | none => offsets.insert predicateId [offset]
  | some l => offsets.insert predicateId (l ++ [offset])

/-- The loop of the static `log`, for a writer at position `pos`: the offsets with
the new records registered, and what is written. -/
def logRecords : List (K2TreeUpdates T) → OffsetsMap → ℕ → OffsetsMap × Bytes
  | [], offsets, _ => (offsets, [])
  | u :: us, offsets, pos =>
    if u.getKind = .noUpdate then logRecords us offsets pos
    else
      let rest := logRecords us (registerUpdateOffset offsets u.predicateId pos)
        (pos + (recordBytes ops u).length)
      (rest.1, recordBytes ops u ++ rest.2)

/-- The static `log(k2tree_updates, offsets, trees_writer)`: the number of updates,
then a record for each that has a tree. -/
def logBatch (us : List (K2TreeUpdates T)) (offsets : OffsetsMap) (pos : ℕ) : OffsetsMap × Bytes :=
  let count := u32Bytes (UInt32.ofNat us.length)
  let rest := logRecords ops us offsets (pos + count.length)
  (rest.1, count ++ rest.2)

/-- `recover_single_predicate_update`. -/
def recoverSinglePredicateUpdate (s : IStream) : Except Exn (PredicateUpdate T) × IStream :=
  let pid := s.readU64
  let kind := pid.2.readU32
  if kind.1 = UpdateKind.insertUpdate.code then
    match ops.readFromIstream kind.2 with
    | (.ok a, s') => (.ok ⟨pid.1, some a, none⟩, s')
    | (.error e, s') => (.error e, s')
  else if kind.1 = UpdateKind.deleteUpdate.code then
    match ops.readFromIstream kind.2 with
    | (.ok d, s') => (.ok ⟨pid.1, none, some d⟩, s')
    | (.error e, s') => (.error e, s')
  else if kind.1 = UpdateKind.bothUpdate.code then
    match ops.readFromIstream kind.2 with
    | (.error e, s') => (.error e, s')
    | (.ok a, s') =>
      match ops.readFromIstream s' with
      | (.ok d, s'') => (.ok ⟨pid.1, some a, some d⟩, s'')
      | (.error e, s'') => (.error e, s'')
  else (.ok ⟨pid.1, none, none⟩, kind.2)

end Format

/-! ## The offsets file -/

/-- One entry of `dump_offsets_map`. -/
def offsetsEntryBytes (e : UInt64 × List ℕ) : Bytes :=
  u64Bytes e.1 ++ (u32Bytes (UInt32.ofNat e.2.length) ++ e.2.flatMap (fun o => u64Bytes (UInt64.ofNat o)))

/-- The static `dump_offsets_map`. -/
def dumpOffsetsMap (m : OffsetsMap) : Bytes :=
  if m.entries = [] then []
  else u32Bytes (UInt32.ofNat m.size) ++ m.entries.flatMap offsetsEntryBytes

/-- How often `for (int i = 0; i < n; i++)` runs for `n = (int)v`. -/
def intLoopCount (v : UInt32) : ℕ := if v.toNat < 2 ^ 31 then v.toNat else 0

/-- One entry of `retrieve_offsets_map`. A count that is negative as an `int` makes
`reserve` throw. -/
def readOffsetsEntry (s : IStream) : Except Exn (UInt64 × List ℕ) × IStream :=
  let pid := s.readU64
  let count := pid.2.readU32
  if 2 ^ 31 ≤ count.1.toNat then (.error (.runtimeError "vector::reserve"), count.2)
  else
    let offs := IStream.readMany (fun s => ((s.readU64).1.toNat, (s.readU64).2)) count.1.toNat count.2
    (.ok (pid.1, offs.1), offs.2)

/-- The loop of `retrieve_offsets_map`. -/
def readOffsetsEntries : ℕ → OffsetsMap → IStream → Except Exn OffsetsMap
  | 0, m, _ => .ok m
  | n + 1, m, s =>
    match readOffsetsEntry s with
    | (.ok e, s') => readOffsetsEntries n (m.insert e.1 e.2) s'
    | (.error e, _) => .error e

/-- `retrieve_offsets_map`, for the freshly constructed logger. -/
def retrieveOffsetsMap (d : Disk) : Except Exn OffsetsMap :=
  if FileRWHandler.fileExists d .updateLogOffsets then
    let s := FileRWHandler.getReader d .updateLogOffsets
    readOffsetsEntries (intLoopCount s.readU32.1) ∅ s.readU32.2
  else .ok ∅

/-! ## The batch counter -/

/-- `get_reader_writer`: a missing file makes the stream fail. -/
def openMetadata (d : Disk) : MetaStream := ⟨true, !FileRWHandler.fileExists d .updateLogMeta, 0⟩

/-- `read_total_updates`, on a stream that is bound to its file. -/
def readTotalUpdates (d : Disk) (m : MetaStream) : ℤ × MetaStream :=
  let r := IStream.readU32 ⟨d.bytes (FileRWHandler.file .updateLogMeta), 0, m.fail⟩
  (wrapInt r.1.toNat, { m with fail := r.2.fail, pos := if m.pos ≠ 0 then m.pos else r.2.pos })

/-- `commit_total_updates`; a failed stream writes nothing. -/
def commitTotalUpdates (d : Disk) (m : MetaStream) (total : ℤ) : Disk × MetaStream :=
  if m.fail then (d, m)
  else
    (if m.bound then d.writeAt (FileRWHandler.file .updateLogMeta) 0 (u32Bytes (UInt32.ofInt total)) else d,
      { m with pos := if m.pos ≠ 0 then m.pos else 4 })

namespace UpdatesLogger

variable {T μ : Type} (P : LoggerParams T μ)

/-- The constructor, on the files of `d`. Without a counter file `total_updates` is
never assigned: `uninit` is what that memory holds. -/
def construct (d : Disk) (uninit : ℤ) : Except Exn UpdatesLogger :=
  match retrieveOffsetsMap d with
  | .error e => .error e
  | .ok offsets =>
    let m := openMetadata d
    if FileRWHandler.fileExists d .updateLogMeta then
      let r := readTotalUpdates d m
      .ok ⟨false, none, r.2, offsets, r.1⟩
    else .ok ⟨false, none, m, offsets, uninit⟩

/-- `has_predicate_stored`. -/
def hasPredicateStored (l : UpdatesLogger) (predicateId : UInt64) : Bool := l.offsetsMap.contains predicateId

/-- `get_predicates`. -/
def getPredicates (l : UpdatesLogger) : List UInt64 := l.offsetsMap.keys

/-- `logs_number`. -/
def logsNumber (l : UpdatesLogger) : ℤ := l.totalUpdates

end UpdatesLogger

namespace LogEnv

variable {T μ : Type} (P : LoggerParams T μ)

/-- `current_file_writer = get_writer(binary)` unless there is one, and no reader. -/
def openWriter (e : LogEnv μ) : LogEnv μ :=
  { e with
    disk := if e.logger.writerOpen then e.disk else FileRWHandler.getWriter e.disk .updateLog P.logMode
    logger := { e.logger with reader := none, writerOpen := true } }

/-- Writes a batch at the end of the log file and registers its records. -/
def appendBatch (us : List (K2TreeUpdates T)) (e : LogEnv μ) : LogEnv μ :=
  let log := FileRWHandler.file .updateLog
  let r := logBatch P.ops us e.logger.offsetsMap (e.disk.bytes log).length
  { e with disk := e.disk.append log r.2, logger := { e.logger with offsetsMap := r.1 } }

/-- "offsets sync". -/
def syncOffsets (e : LogEnv μ) : LogEnv μ :=
  { e with disk := FileRWHandler.replaceFile e.disk .updateLogOffsets .binaryTrunc (dumpOffsetsMap e.logger.offsetsMap) }

/-- `total_updates++` and `commit_total_updates`. -/
def countUpdate (e : LogEnv μ) : LogEnv μ :=
  let total := wrapInt (e.logger.totalUpdates + 1)
  let r := commitTotalUpdates e.disk e.logger.metadataFileRw total
  { e with disk := r.1, logger := { e.logger with totalUpdates := total, metadataFileRw := r.2 } }

/-- Runs an action of the `DataMerger`. -/
def onMerger {α : Type} (x : Act Exn μ α) : Act Exn (LogEnv μ) α :=
  Act.focus LogEnv.merger (fun m e => { e with merger := m }) x

/-- `log(k2tree_updates)`. -/
def log (us : List (K2TreeUpdates T)) : Act Exn (LogEnv μ) Unit := do
  Act.modify (openWriter P)
  Act.modify (appendBatch P us)
  Act.modify syncOffsets
  onMerger (P.merger.mergeUpdate us)
  Act.modify countUpdate

/-- `log` called with one batch after another; a call that throws leaves its state too. -/
def logAll (batches : List (List (K2TreeUpdates T))) (e : LogEnv μ) : LogEnv μ :=
  batches.foldl (fun e us => (log P us e).2) e

/-- `merge_update(predicate_update)`. -/
def mergeUpdate (u : PredicateUpdate T) : Act Exn (LogEnv μ) Unit := do
  Act.forSome u.addUpdate (fun a => onMerger (P.merger.mergeAddTree u.predicateId a))
  Act.forSome u.delUpdate (fun d => onMerger (P.merger.mergeDeleteTree u.predicateId d))

/-- The writer is flushed and closed. -/
def closeWriter (e : LogEnv μ) : LogEnv μ := { e with logger := { e.logger with writerOpen := false } }

/-- The writer is flushed and closed, and a reader opened unless there is one. -/
def openReader (e : LogEnv μ) : LogEnv μ :=
  { e with logger := { e.logger with
      writerOpen := false
      reader := some (e.logger.reader.getD (FileRWHandler.getReader e.disk .updateLog)) } }

/-- Reads with `current_file_reader`, which keeps its new position. -/
def withReader {α : Type} (f : IStream → Except Exn α × IStream) : Act Exn (LogEnv μ) α := fun e =>
  let r := f (e.logger.reader.getD (FileRWHandler.getReader e.disk .updateLog))
  (r.1, { e with logger := { e.logger with reader := some r.2 } })

/-- One round of the loop of `recover_predicate`. -/
def recoverAt (offset : ℕ) : Act Exn (LogEnv μ) Unit := do
  let u ← withReader (fun s => recoverSinglePredicateUpdate P.ops (s.seekg offset))
  mergeUpdate P u

/-- `recover_predicate`. For a predicate without offsets, `offsets_map[predicate_id]`
creates a null vector and the loop dereferences it. -/
def recoverPredicate (predicateId : UInt64) : Act Exn (LogEnv μ) Unit := do
  let e ← Act.get
  if FileRWHandler.fileExists e.disk .updateLog then
    Act.modify openReader
    match e.logger.offsetsMap.find? predicateId with
    | none => Act.throw .nullDereference
    | some offsets => Act.forEach offsets (recoverAt P)
  else pure ()

/-- A round of the outer loop of `recover_data`. -/
def recoverDataOf (predicateId : UInt64) : Act Exn (LogEnv μ) Unit := do
  let e ← Act.get
  match e.logger.offsetsMap.find? predicateId with
  | none => Act.throw .nullDereference
  | some offsets => Act.forEach offsets (recoverAt P)

/-- `recover`, with `recover_data`. -/
def recover (predicates : List UInt64) : Act Exn (LogEnv μ) Unit := do
  Act.modify closeWriter
  let e ← Act.get
  if FileRWHandler.fileExists e.disk .updateLog then
    Act.modify openReader
    Act.forEach predicates (recoverDataOf P)
  else pure ()

/-- The reads of one batch in `recover_single_update`. -/
def recoverRecords : ℕ → Act Exn (LogEnv μ) Unit
  | 0 => pure ()
  | n + 1 => do
    let u ← withReader (recoverSinglePredicateUpdate P.ops)
    mergeUpdate P u
    recoverRecords n

/-- `recover_single_update`. -/
def recoverSingleUpdate : Act Exn (LogEnv μ) Unit := do
  let count ← withReader (fun s => (.ok s.readU32.1, s.readU32.2))
  recoverRecords P count.toNat

/-- The loop of `recover_all_data`. -/
def recoverUpdates : ℕ → Act Exn (LogEnv μ) Unit
  | 0 => pure ()
  | n + 1 => do
    recoverSingleUpdate P
    recoverUpdates n

/-- `recover_all`; the reader goes on from where it stands. -/
def recoverAll : Act Exn (LogEnv μ) Unit := do
  Act.modify closeWriter
  let e ← Act.get
  if FileRWHandler.fileExists e.disk .updateLog then
    Act.modify openReader
    recoverUpdates P e.logger.totalUpdates.toNat
  else pure ()

/-! ## Compaction -/

/-- The error of `compact_predicate` on a record of another predicate. -/
def predicateMismatch (actual expected : UInt64) : Exn :=
  .runtimeError ("predicate id doesn't match the expected: actual = " ++ toString actual.toNat ++
    ", expected = " ++ toString expected.toNat)

/-- The loop of `compact_predicate`: each record is merged into those before it. -/
def compactRecords (predicateId : UInt64) :
    List ℕ → Option (PredicateUpdate T) → Act Exn (LogEnv μ) (Option (PredicateUpdate T))
  | [], merged => pure merged
  | offset :: offsets, merged => do
    let u ← withReader (fun s => recoverSinglePredicateUpdate P.ops (s.seekg offset))
    if u.predicateId ≠ predicateId then Act.throw (predicateMismatch u.predicateId predicateId)
    else
      match merged with
      | none => compactRecords predicateId offsets (some u)
      | some m => compactRecords predicateId offsets (some (m.mergeWith P.ops u))

/-- `compact_predicate`; `none` is the null pointer. A predicate registered without
offsets gives a record without trees. -/
def compactPredicate (predicateId : UInt64) : Act Exn (LogEnv μ) (Option (PredicateUpdate T)) := do
  let e ← Act.get
  match e.logger.offsetsMap.find? predicateId with
  | none => pure none
  | some offsets =>
    let merged ← compactRecords P predicateId offsets none
    pure (some (merged.getD ⟨0, none, none⟩))

/-- The loop of `compact_logs` over the predicates: each compacted record is a batch
of its own in the temporary log file. -/
def compactAll : List UInt64 → OffsetsMap → Act Exn (LogEnv μ) OffsetsMap
  | [], newOffsets => pure newOffsets
  | p :: ps, newOffsets => do
    let compacted ← compactPredicate P p
    match compacted with
    | none => Act.throw .nullDereference
    | some c =>
      let e ← Act.get
      let tmp := FileRWHandler.tmp .updateLog
      let r := logBatch P.ops [⟨c.predicateId, c.addUpdate, c.delUpdate⟩] newOffsets (e.disk.bytes tmp).length
      Act.modify (fun e => { e with disk := e.disk.append tmp r.2 })
      compactAll ps r.1

/-- `current_file_reader = nullptr; current_file_writer = nullptr`. -/
def closeStreams (e : LogEnv μ) : LogEnv μ :=
  { e with logger := { e.logger with reader := none, writerOpen := false } }

/-- The three syncs at the end of `compact_logs`. The counter file is replaced under
the open `metadata_file_rw`, which from then on writes to the deleted file. -/
def commitCompaction (newOffsets : OffsetsMap) (e : LogEnv μ) : LogEnv μ :=
  let total : ℤ := wrapInt newOffsets.size
  let d₁ := FileRWHandler.replaceFile e.disk .updateLogOffsets .binary (dumpOffsetsMap newOffsets)
  let d₂ := FileRWHandler.replaceFile d₁ .updateLogMeta .binary (u32Bytes (UInt32.ofInt total))
  { e with
    disk := FileRWHandler.commitTempWriter d₂ .updateLog
    logger := { e.logger with
      offsetsMap := newOffsets
      totalUpdates := total
      metadataFileRw := { e.logger.metadataFileRw with bound := false } } }

/-- `compact_logs`. -/
def compactLogs : Act Exn (LogEnv μ) Unit := do
  Act.modify closeStreams
  Act.modify (fun e => { e with disk := FileRWHandler.getWriterTemp e.disk .updateLog .binary })
  let e ← Act.get
  let newOffsets ← compactAll P e.logger.getPredicates ∅
  Act.modify closeStreams
  Act.modify (commitCompaction newOffsets)

/-- `clean_append_log`. -/
def cleanAppendLog (e : LogEnv μ) : LogEnv μ :=
  let d₁ := FileRWHandler.clean e.disk .updateLog
  let d₂ := FileRWHandler.clean d₁ .updateLogMeta
  let d₃ := FileRWHandler.clean d₂ .updateLogOffsets
  { e with disk := d₃, logger := ⟨false, none, openMetadata d₃, ∅, 0⟩ }

/-! ## The file operations of a call -/

/-- Those of `commit_total_updates`. -/
def counterOps (m : MetaStream) (total : ℤ) : List FileOp :=
  if !m.fail && m.bound then [.writeAt (FileRWHandler.file .updateLogMeta) 0 (u32Bytes (UInt32.ofInt total))] else []

/-- Those of `log`. -/
def logOps (us : List (K2TreeUpdates T)) (e : LogEnv μ) : List FileOp :=
  let log := FileRWHandler.file .updateLog
  let r := logBatch P.ops us e.logger.offsetsMap ((openWriter P e).disk.bytes log).length
  (if e.logger.writerOpen then [] else [.openOut log P.logMode]) ++
    (.append log r.2 :: FileRWHandler.replaceOps .updateLogOffsets .binaryTrunc (dumpOffsetsMap r.1)) ++
    if (P.merger.mergeUpdate us e.merger).1.isOk then
      counterOps e.logger.metadataFileRw (wrapInt (e.logger.totalUpdates + 1))
    else []

/-- Those of `compactAll`. -/
def compactAllOps : List UInt64 → OffsetsMap → LogEnv μ → List FileOp
  | [], _, _ => []
  | p :: ps, newOffsets, e =>
    match compactPredicate P p e with
    | (.ok (some c), e') =>
      let tmp := FileRWHandler.tmp .updateLog
      let r := logBatch P.ops [⟨c.predicateId, c.addUpdate, c.delUpdate⟩] newOffsets (e'.disk.bytes tmp).length
      .append tmp r.2 :: compactAllOps ps r.1 { e' with disk := e'.disk.append tmp r.2 }
    | _ => []

/-- The three syncs. -/
def commitCompactionOps (newOffsets : OffsetsMap) : List FileOp :=
  FileRWHandler.replaceOps .updateLogOffsets .binary (dumpOffsetsMap newOffsets) ++
    (FileRWHandler.replaceOps .updateLogMeta .binary (u32Bytes (UInt32.ofInt (wrapInt newOffsets.size))) ++
      FileRWHandler.commitOps .updateLog)

/-- Those of `compact_logs`. -/
def compactOps (e : LogEnv μ) : List FileOp :=
  let e₁ := { closeStreams e with disk := FileRWHandler.getWriterTemp e.disk .updateLog .binary }
  .openOut (FileRWHandler.tmp .updateLog) .binary :: (compactAllOps P e.logger.getPredicates ∅ e₁ ++
    match (compactAll P e.logger.getPredicates ∅ e₁).1 with
    | .ok newOffsets => commitCompactionOps newOffsets
    | .error _ => [])

end LogEnv

end K2Cache
