import K2Cache.Lib.BinaryHeap
import K2Cache.Spec.Builder
import K2Cache.Spec.WorkerPool

/-!
# The external sort

`external_sort_triples` cuts a file of triples into sorted parts that fit the memory budget,
and merges them, a number of files at a time, until one is left. A result of `none` is one the
source gives no meaning to: a division by zero, an index past the end of a vector; or a loop that
has not ended within the fuel. The order in which the tasks of a pool end is a parameter.
-/

namespace K2Cache

open Lib

/-- `sizeof(TripleValue)`. -/
def tripleSize : UInt64 := 24

/-- `write_to_file`. -/
def TripleValue.writeToFile (t : TripleValue) : Bytes := u64Bytes t.first ++ u64Bytes t.second ++ u64Bytes t.third

/-- `PairComp`: the negated comparator, which is true of equal triples. -/
def pairComp (comparator : Comparator TripleValue) (lhs rhs : TripleValue × ℕ) : Bool := !comparator.lt lhs.1 rhs.1

/-- What the sort works with: the comparator, the library, and for every number of workers and
of parts the order in which a pool ends the tasks that sort them. -/
structure SortParams where
  comparator : Comparator TripleValue
  stdSort : StdSort comparator
  pqueue : PriorityQueue (TripleValue × ℕ) (pairComp comparator)
  poolOrder : ℕ → ℕ → List ℕ

open ParallelWorkerPool in
/-- Every pool comes to its end: its tasks end in the order of some run in which all its workers are joined. -/
def SortParams.PoolsEnd (P : SortParams) : Prop :=
  ∀ workers parts, 0 < workers → ∃ (is : List (PoolMove workers)) (s : ParallelWorkerPool workers ℕ),
    (poolMachine workers ℕ).run is (construct (runAll (List.range parts))) = some s ∧ s.main = [] ∧
      s.tasks.finished = P.poolOrder workers parts

/-- The other arguments of `external_sort_triples`; `workers` as `(uint64_t)max_workers`. -/
structure SortArgs where
  workers : UInt64
  maxFiles : ℕ
  memoryBudget : UInt64
  blockSize : UInt64
  segmentSize : UInt64

/-! ## Sorting in memory -/

namespace ParallelSort

variable (P : SortParams)

/-- The loop that finds where the parts start: the index and the size accumulated so far. -/
def findOffsets (segmentSize : UInt64) : ℕ → ℕ → UInt64 → List ℕ
  | 0, _, _ => []
  | n + 1, i, accSize =>
    let accSize := accSize + tripleSize
    if accSize ≥ segmentSize then i :: findOffsets segmentSize n (i + 1) 0
    else findOffsets segmentSize n (i + 1) accSize

/-- `offsets_set`. -/
def offsetsSet (segmentSize : UInt64) (size : ℕ) : List ℕ := findOffsets segmentSize (size - 1) 1 tripleSize ++ [size]

/-- `offsets`. -/
def offsets (segmentSize : UInt64) (size : ℕ) : List ℕ := 0 :: offsetsSet segmentSize size

/-- The task of a part: `std::sort` from one offset to the next. -/
def sortPart (offsets : List ℕ) (data : List TripleValue) (i : ℕ) : List TripleValue :=
  let start := offsets.getD i 0
  let stop := offsets.getD (i + 1) 0
  data.take start ++ P.stdSort.sort ((data.take stop).drop start) ++ data.drop stop

/-- The loop that merges the parts. -/
def mergeParts (offsetsSet : List ℕ) (data : List TripleValue) : ℕ → P.pqueue.Queue → Option (List TripleValue)
  | fuel, pqueue =>
    match P.pqueue.pop pqueue, fuel with
    | none, _ => some []
    | some _, 0 => none
    | some (current, pqueue), fuel + 1 =>
      let next := current.2 + 1
      if next ∈ offsetsSet then (mergeParts offsetsSet data fuel pqueue).map (current.1 :: ·)
      else
        match data[next]? with
        | none => none
        | some triple => (mergeParts offsetsSet data fuel (P.pqueue.push pqueue (triple, next))).map (current.1 :: ·)

/-- The first triple of every part. -/
def pushFirst (data : List TripleValue) : List ℕ → P.pqueue.Queue → Option P.pqueue.Queue
  | [], pqueue => some pqueue
  | offset :: offsets, pqueue =>
    match data[offset]? with
    | none => none
    | some triple => pushFirst data offsets (P.pqueue.push pqueue (triple, offset))

end ParallelSort

open ParallelSort in
/-- `parallel_sort`. -/
def parallelSort (P : SortParams) (data : List TripleValue) (maxWorkers segmentSize : UInt64) :
    Option (List TripleValue) :=
  if segmentSize / tripleSize = 0 then none
  else
    let offs := offsets segmentSize data.length
    let parts := offs.length - 1
    let workers := min maxWorkers.toNat parts
    if workers = 1 then some (P.stdSort.sort data)
    else
      let sorted := (P.poolOrder workers parts).foldl (sortPart P offs) data
      match pushFirst P sorted (offs.take parts) P.pqueue.empty with
      | none => none
      | some pqueue => mergeParts P (offsetsSet segmentSize data.length) sorted data.length pqueue

/-! ## Files -/

/-- The files of a sort: those named by the caller, the parts of the input, and those of `mkstemp`. -/
inductive SortFile where
  | named (name : String)
  | part (index : ℕ)
  | temp (k : ℕ)
deriving DecidableEq, Repr

/-- The contents of the files that exist, and how many temporary files there have been. -/
structure SortDisk where
  files : SortFile → Option Bytes
  temps : ℕ

namespace SortDisk

def set (d : SortDisk) (f : SortFile) (bs : Option Bytes) : SortDisk := { d with files := Function.update d.files f bs }

/-- An input stream on a file. -/
def openIn (d : SortDisk) (f : SortFile) : IStream :=
  match d.files f with
  | some bs => .ofBytes bs
  | none => ⟨[], 0, true⟩

/-- `fs::rename`. -/
def rename (d : SortDisk) (old new : SortFile) : SortDisk :=
  if old = new then d else (d.set new (d.files old)).set old none

end SortDisk

/-- A file of triples. -/
def tripleFile (size : UInt64) (l : List TripleValue) : Bytes := u64Bytes size ++ l.flatMap TripleValue.writeToFile

/-! ## Splitting the input -/

/-- The variables of `split_file` in its loop. -/
structure SplitState where
  disk : SortDisk
  accumulatedSize : UInt64
  data : List TripleValue
  currentFileIndex : ℕ
  filenames : List SortFile

variable (P : SortParams) (args : SortArgs)

/-- `create_file_part`. -/
def createFilePart (s : SplitState) : Option SplitState :=
  match parallelSort P s.data args.workers args.segmentSize with
  | none => none
  | some data => some {
      disk := s.disk.set (.part s.currentFileIndex) (some (tripleFile (UInt64.ofNat data.length) data))
      accumulatedSize := 0
      data := []
      currentFileIndex := s.currentFileIndex + 1
      filenames := s.filenames ++ [.part s.currentFileIndex] }

/-- `extra_structs_budget`. -/
def extraStructsBudget : UInt64 :=
  let offsetsUpperBoundQty := args.memoryBudget / args.segmentSize + 1
  offsetsUpperBoundQty * 8 + offsetsUpperBoundQty * (8 + 8)

/-- `mem_budget_bound`. -/
def memBudgetBound : UInt64 :=
  if args.memoryBudget > extraStructsBudget args then args.memoryBudget - extraStructsBudget args
  else extraStructsBudget args

/-- The loop of `split_file`. -/
def splitLoop : ℕ → FileData → IStream → SplitState → Option SplitState
  | fuel, filedata, inputFile, s =>
    if filedata.finished then some s
    else
      match fuel with
      | 0 => none
      | fuel + 1 =>
        let triple := TripleValue.readFromFile inputFile
        match if s.accumulatedSize ≥ memBudgetBound args then createFilePart P args s else some s with
        | none => none
        | some s =>
          splitLoop fuel { filedata with currentTriple := filedata.currentTriple + 1 } triple.2
            { s with data := s.data ++ [triple.1], accumulatedSize := s.accumulatedSize + tripleSize }

/-- A file in a merge: the block in memory, the stream, which is gone once the file is read, and
the counts. -/
structure BlockSource where
  dataBlock : List TripleValue
  openedFile : Option IStream
  fileData : FileData

namespace BlockSource

/-- The loop that fills a block, of `fill_with_file` and of the start of `merge_pass`. -/
def fill (blockSize : UInt64) : ℕ → UInt64 → BlockSource → BlockSource
  | 0, _, b => b
  | fuel + 1, accumulatedSize, b =>
    match b.openedFile with
    | none => b
    | some file =>
      if accumulatedSize < blockSize then
        if b.fileData.finished then { b with openedFile := none }
        else
          let triple := TripleValue.readFromFile file
          fill blockSize fuel (accumulatedSize + tripleSize) {
            dataBlock := b.dataBlock ++ [triple.1]
            openedFile := some triple.2
            fileData := { b.fileData with currentTriple := b.fileData.currentTriple + 1 } }
      else b

/-- `fill_with_file`; a round reads a triple or is the last. -/
def fillWithFile (blockSize : UInt64) (b : BlockSource) : BlockSource :=
  fill blockSize ((b.fileData.size - b.fileData.currentTriple).toNat + 1) 0 b

/-- `data[index].front()` and `pop_front()`. -/
def popFront (b : BlockSource) : Option TripleValue × BlockSource :=
  match b.dataBlock with
  | [] => (none, b)
  | front :: dataBlock => (some front, { b with dataBlock := dataBlock })

/-- `block_update`, up to the push: the next triple of the file, if there is one. -/
def next (blockSize : UInt64) (b : BlockSource) : Option TripleValue × BlockSource :=
  if b.dataBlock.isEmpty && b.openedFile.isSome then (b.fillWithFile blockSize).popFront else b.popFront

/-- A file opened by `merge_pass`, with its first block. -/
def openFile (blockSize : UInt64) (file : IStream) : BlockSource :=
  fillWithFile blockSize ⟨[], some file.readU64.2, ⟨file.readU64.1, 0⟩⟩

end BlockSource

/-- `block_update`. -/
def blockUpdate (index : ℕ) (data : List BlockSource) (pqueue : P.pqueue.Queue) : List BlockSource × P.pqueue.Queue :=
  match data[index]? with
  | none => (data, pqueue)
  | some b =>
    let r := b.next args.blockSize
    (data.set index r.2, match r.1 with
      | none => pqueue
      | some current => P.pqueue.push pqueue (current, index))

/-- The loop of `merge_pass`: the triples in the order in which they are written. -/
def mergeFiles : ℕ → List BlockSource → P.pqueue.Queue → Option (List TripleValue)
  | fuel, data, pqueue =>
    match P.pqueue.pop pqueue, fuel with
    | none, _ => some []
    | some _, 0 => none
    | some (current, pqueue), fuel + 1 =>
      let r := blockUpdate P args current.2 data pqueue
      (mergeFiles fuel r.1 r.2).map (current.1 :: ·)

/-- `merge_pass`, for the files from `start` to `end`. -/
def mergePass (disk : SortDisk) (filenames : List SortFile) : Option (SortDisk × SortFile) :=
  let result := SortFile.temp disk.temps
  let data := filenames.map fun f => BlockSource.openFile args.blockSize (disk.openIn f)
  let totalSize := data.foldl (fun size b => size + b.fileData.size) 0
  let start := (List.range data.length).foldl (fun r i => blockUpdate P args i r.1 r.2) (data, P.pqueue.empty)
  match mergeFiles P args (data.map fun b => b.fileData.size.toNat).sum start.1 start.2 with
  | none => none
  | some out =>
    let disk := { disk with temps := disk.temps + 1 }
    some (filenames.foldl (fun d f => d.set f none) (disk.set result (some (tripleFile totalSize out))), result)

/-- The passes of `merge_bottom_up`, from one of them on. -/
def mergePasses (filenames : List SortFile) : ℕ → ℕ → SortDisk → Option (SortDisk × List SortFile)
  | 0, _, disk => some (disk, [])
  | passes + 1, currentPass, disk =>
    let start := currentPass * args.maxFiles
    let stop := min ((currentPass + 1) * args.maxFiles) filenames.length
    match mergePass P args disk ((filenames.take stop).drop start) with
    | none => none
    | some (disk, passFile) =>
      (mergePasses filenames passes (currentPass + 1) disk).map fun r => (r.1, passFile :: r.2)

/-- `merge_bottom_up`. -/
def mergeBottomUp (disk : SortDisk) (filenames : List SortFile) : Option (SortDisk × List SortFile) :=
  if args.maxFiles = 0 then none
  else
    let levelPasses := filenames.length / args.maxFiles + if filenames.length % args.maxFiles ≠ 0 then 1 else 0
    mergePasses P args filenames levelPasses 0 disk

/-- The loop of `external_sort_triples`. -/
def mergeLevels : ℕ → SortDisk → List SortFile → Option (SortDisk × List SortFile)
  | fuel, disk, currentFilenames =>
    if currentFilenames.length > 1 then
      match fuel with
      | 0 => none
      | fuel + 1 =>
        match mergeBottomUp P args disk currentFilenames with
        | none => none
        | some r => mergeLevels fuel r.1 r.2
    else some (disk, currentFilenames)

end K2Cache
