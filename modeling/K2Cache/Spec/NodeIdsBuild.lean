import K2Cache.Spec.ExternalSort
import K2Cache.Spec.NodeIds

/-!
# Node ids of a dataset

`triples_to_sorted_node_ids` makes the file of the node sequence from a file of triples of real
ids, and a script writes the triples again, with the places of their real ids in it. An output
file is emptied before an input file is read from.
-/

namespace K2Cache

open Lib

/-- `ExternalSort::sort` of a file of a count and values, without duplicates. -/
structure UniqueSort where
  sort : Bytes → Bytes
  sorted : ∀ s : NodesSequence, s.values.length < 2 ^ 64 → ∃ s' : NodesSequence,
    sort s.serialize = s'.serialize ∧ s'.values.Pairwise (· < ·) ∧ ∀ v, v ∈ s'.values ↔ v ∈ s.values

/-- The name of the sorted file. -/
def tmpSorted (outputFile : String) : String := outputFile ++ "-sorted"

/-- `triples_to_sorted_node_ids`: its error code, and the files behind it. -/
def triplesToSortedNodeIds (X : UniqueSort) (inputFile outputFile : String) (disk : SortDisk) : ℤ × SortDisk :=
  if (disk.files (.named inputFile)).isNone then (1, disk)
  else
    let disk := disk.set (.named outputFile) (some [])
    let size := (disk.openIn (.named inputFile)).readU64
    let totalNodes := size.1 * 3
    let triples := (IStream.readMany TripleValue.readFromFile size.1.toNat size.2).1
    let nodes := u64Bytes totalNodes ++ triples.flatMap fun t => u64Bytes t.first ++ u64Bytes t.second ++ u64Bytes t.third
    let disk := disk.set (.named outputFile) (some nodes)
    let disk := disk.set (.named (tmpSorted outputFile)) (some (X.sort nodes))
    let disk := disk.set (.named outputFile) none
    (0, disk.rename (.named (tmpSorted outputFile)) (.named outputFile))

end K2Cache
