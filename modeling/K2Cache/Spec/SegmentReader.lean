import K2Cache.Spec.K2TreeMixed
import K2Cache.Spec.MemoryManager

/-!
# K2TreeMixed, read into a memory segment

The overloads of the readers that take a segment: every node, block and array is put into
bytes required of it. They are the readers of `Spec.K2TreeMixed` a second time, written apart
from them. What the segment hands out is listed, which nothing reads.
-/

namespace K2Cache

open Lib Memory

/-- The sizes of the types that are put into a segment. -/
structure SizeOf where
  k2node : ℕ
  block : ℕ
  nodesBvT : ℕ
  bvctype : ℕ
  k2node_pos : 0 < k2node
  block_pos : 0 < block
  nodesBvT_pos : 0 < nodesBvT
  bvctype_pos : 0 < bvctype

/-- What a reader works on: the stream, the segment, and the ranges it was given, each as its
address and its length. -/
structure SegmentReader where
  is : IStream
  segment : MemorySegment
  handed : List (ℕ × ℕ)

namespace SegmentReader

open MemorySegment

/-- `memory_segment->require_bytes`. -/
def require (neededBytes : ℕ) : Act Thrown SegmentReader (Option ℕ) := fun r =>
  match requireBytes neededBytes r.segment with
  | (.error e, segment) => (.error e, { r with segment := segment })
  | (.ok none, segment) => (.ok none, { r with segment := segment })
  | (.ok (some ptr), segment) => (.ok (some ptr), ⟨r.is, segment, (ptr, neededBytes) :: r.handed⟩)

/-- A read of the stream. -/
def read {α : Type} (f : IStream → α × IStream) : Act Thrown SegmentReader α := fun r =>
  (.ok (f r.is).1, { r with is := (f r.is).2 })

end SegmentReader

open SegmentReader MemorySegment

namespace Block

/-- What follows an allocation that must not fail. -/
def allocated {α : Type} (count : ℕ) (ptr : Option ℕ) (what : String) (x : Act Thrown SegmentReader α) :
    Act Thrown SegmentReader α :=
  if 0 < count && ptr.isNone then Act.throw (.exn (.runtimeError what)) else x

/-- `read_block_from_istream`, with a segment. -/
def readFieldsSegment (size : SizeOf) : Act Thrown SegmentReader Fields := do
  let nodesCount ← read IStream.readU16
  let children ← read IStream.readU16
  let containerSize ← read IStream.readU16
  let preorders ← require (size.nodesBvT * children.toNat)
  let childrenBlocks ← require (size.block * children.toNat)
  allocated children.toNat preorders "Couldn't allocate preorders" <|
    allocated children.toNat childrenBlocks "Couldn't allocate children blocks" do
      let p ← read (IStream.readMany IStream.readU16 children.toNat)
      let container ← require (containerSize.toNat * size.bvctype)
      allocated containerSize.toNat container "Couldn't allocate container" do
        let w ← read (IStream.readMany IStream.readU32 containerSize.toNat)
        pure ⟨nodesCount, p, w⟩

/-- The loop of `read_tree_from_istream`, with a segment. -/
def readBlocksSegment (size : SizeOf) : ℕ → List Block → Act Thrown SegmentReader (List Block)
  | 0, blocks => pure blocks
  | n + 1, blocks => do
    let f ← readFieldsSegment size
    match adjustBlocks f blocks with
    | .error e => Act.throw (.exn e)
    | .ok blocks => readBlocksSegment size n blocks

/-- `read_tree_from_istream`, with a segment. -/
def readTreeSegment (size : SizeOf) : Act Thrown SegmentReader Block := do
  let _ ← read IStream.readU16
  let _ ← read IStream.readU16
  let blocksCount ← read IStream.readU32
  if blocksCount = 0 then Act.throw (.exn zeroBlocks)
  else do
    let blocks ← readBlocksSegment size blocksCount.toNat []
    match blocks.head? with
    | none => Act.throw (.exn .nullDereference)
    | some root => pure root

end Block

namespace K2Node

/-- The loop over the children of a node, of either reader. -/
def readChildren {ε σ : Type} {d : ℕ} (containers : List UInt32) (loc : ℕ) (child : ℕ → Act ε σ (K2Node d × ℕ)) :
    List (Fin 4) → K2Node (d + 1) × ℕ → Act ε σ (K2Node (d + 1) × ℕ)
  | [], r => pure r
  | i :: is, r =>
    if childBit containers loc i then do
      let c ← child r.2
      readChildren containers loc child is (r.1.setChild i c.1, c.2)
    else readChildren containers loc child is r

/-- `deserialize_k2node_tree`, with a segment. -/
def deserializeSegment (size : SizeOf) (containers : List UInt32) :
    (d : ℕ) → ℕ → Act Thrown SegmentReader (K2Node d × ℕ)
  | 0, loc => do
    let _ ← require size.k2node
    let b ← Block.readTreeSegment size
    let _ ← require size.block
    pure (ofBlock b, loc)
  | d + 1, loc => do
    let _ ← require size.k2node
    readChildren containers loc (deserializeSegment size containers d) order (noChildren, loc + 1)

end K2Node

namespace K2TreeMixed

/-- `read_from_istream`, with a segment. -/
def readFromIstreamSegment (size : SizeOf) : Act Thrown SegmentReader K2TreeMixed := do
  let pointsCount ← read IStream.readU64
  let treeDepth ← read IStream.readU32
  let cutDepth ← read IStream.readU32
  let maxNodesCount ← read IStream.readU32
  let containersCount ← read IStream.readU32
  let containers ← read (IStream.readMany IStream.readU32 containersCount.toNat)
  let root ← K2Node.deserializeSegment size containers cutDepth.toNat 0
  pure ⟨pointsCount, treeDepth, cutDepth, maxNodesCount, root.1⟩

end K2TreeMixed

/-! ## The bytes of a tree -/

namespace Block

mutual

/-- The bytes of the arrays of a block tree. -/
def memory (size : SizeOf) : Block → ℕ
  | ⟨_, p, c, children⟩ =>
    p.length * (size.nodesBvT + size.block) + c.length * size.bvctype + memoryAll size children

def memoryAll (size : SizeOf) : List Block → ℕ
  | [] => 0
  | b :: bs => b.memory size + memoryAll size bs

end

end Block

namespace K2Node

/-- A `k2node` for each node, and at the cut depth the root block and the arrays of its tree. -/
def memory (size : SizeOf) : (d : ℕ) → K2Node d → ℕ
  | 0, node => size.k2node + (node.blockChild.map fun b => size.block + b.memory size).getD 0
  | d + 1, node => size.k2node + (order.map fun i => ((node.child i).map (memory size d)).getD 0).sum

end K2Node

/-- The bytes of a tree in a segment. -/
def K2TreeMixed.memory (size : SizeOf) (t : K2TreeMixed) : ℕ := t.root.memory size t.cutDepth.toNat

end K2Cache
