import K2Cache.Lib.Bitmap
import K2Cache.Spec.Logger

/-!
# K2TreeMixed: the tree and its serialization

Down to the cut depth a tree is made of `k2node`s with four children each; below every
node at the cut depth is a tree of blocks. The stream has a header, the bitmap of the
children of the inner nodes in pre-order, and the block trees of the leaves in the order
they are met. A block tree has its blocks in post-order behind their number, for which
room is left and which is written when they are counted.
-/

namespace K2Cache

open Lib

/-! ## Blocks -/

/-- `struct block`, of `lib/c-k2tree-dyn`: its topology, and where its children hang. -/
inductive Block where
  | mk (nodesCount : UInt16) (preorders : List UInt16) (container : List UInt32) (childrenBlocks : List Block)

namespace Block

def nodesCount : Block → UInt16 | ⟨n, _, _, _⟩ => n
def preorders : Block → List UInt16 | ⟨_, p, _, _⟩ => p
def container : Block → List UInt32 | ⟨_, _, c, _⟩ => c
def childrenBlocks : Block → List Block | ⟨_, _, _, l⟩ => l

/-- `write_block_to_ostream`, of the fields of a block; the children are counted by their
preorders. -/
def writeFields (nodesCount : UInt16) (preorders : List UInt16) (container : List UInt32) (os : OStream) :
    UInt64 × OStream :=
  let os := os.write (u16Bytes nodesCount)
  let os := os.write (u16Bytes (UInt16.ofNat preorders.length))
  let os := os.write (u16Bytes (UInt16.ofNat container.length))
  let r := preorders.foldl (fun (r : UInt64 × OStream) p => (r.1 + 2, r.2.write (u16Bytes p))) (6, os)
  container.foldl (fun (r : UInt64 × OStream) c => (r.1 + 4, r.2.write (u32Bytes c))) r

mutual

/-- `traverse_tree_write_to_ostream`: the number of blocks, and the bytes written added up. -/
def traverseWrite : Block → UInt64 × OStream → UInt32 × (UInt64 × OStream)
  | ⟨n, p, c, children⟩, st =>
    let r := traverseWriteAll children 1 st
    let w := writeFields n p c r.2.2
    (r.1, (r.2.1 + w.1, w.2))

/-- The loop over the children. -/
def traverseWriteAll : List Block → UInt32 → UInt64 × OStream → UInt32 × (UInt64 × OStream)
  | [], count, st => (count, st)
  | b :: bs, count, st =>
    let r := traverseWrite b st
    traverseWriteAll bs (count + r.1) r.2

end

/-- `write_tree_to_ostream`. -/
def writeTree (maxNodeCount treedepth : UInt32) (root : Block) (os : OStream) : UInt64 × OStream :=
  let os := os.write (u16Bytes maxNodeCount.toUInt16)
  let os := os.write (u16Bytes treedepth.toUInt16)
  let startPos := os.tellp
  let os := os.write (u32Bytes 0)
  let r := root.traverseWrite (8, os)
  let currPos := r.2.2.tellp
  let os := (r.2.2.seekp startPos).write (u32Bytes r.1)
  (r.2.1, os.seekp currPos)

/-- A block as `read_block_from_istream` returns it: its children are not there yet. -/
structure Fields where
  nodesCount : UInt16
  preorders : List UInt16
  container : List UInt32

/-- `read_block_from_istream`. -/
def readFields (s : IStream) : Fields × IStream :=
  let a := s.readU16
  let b := a.2.readU16
  let c := b.2.readU16
  let p := IStream.readMany IStream.readU16 b.1.toNat c.2
  let w := IStream.readMany IStream.readU32 c.1.toNat p.2
  (⟨a.1, p.1, w.1⟩, w.2)

/-- `adjust_blocks`: the last blocks read become the children of the new one. -/
def adjustBlocks (f : Fields) (blocks : List Block) : Except Exn (List Block) :=
  let n := f.preorders.length
  if n ≤ blocks.length then .ok (⟨f.nodesCount, f.preorders, f.container, (blocks.take n).reverse⟩ :: blocks.drop n)
  else .error .nullDereference

/-- The loop of `read_tree_from_istream`, with `blocks_to_adjust` from its end. -/
def readBlocks : ℕ → List Block → IStream → Except Exn (List Block) × IStream
  | 0, blocks, s => (.ok blocks, s)
  | n + 1, blocks, s =>
    let f := readFields s
    match adjustBlocks f.1 blocks with
    | .error e => (.error e, f.2)
    | .ok blocks => readBlocks n blocks f.2

/-- `read_tree_from_istream`: the root is the last block. -/
def readTree (s : IStream) : Except Exn Block × IStream :=
  let a := s.readU16
  let b := a.2.readU16
  let c := b.2.readU32
  if c.1 = 0 then (.error zeroBlocks, c.2)
  else
    match readBlocks c.1.toNat [] c.2 with
    | (.error e, s) => (.error e, s)
    | (.ok blocks, s) =>
      match blocks.head? with
      | none => (.error .nullDereference, s)
      | some root => (.ok root, s)

end Block

/-! ## Nodes -/

/-- `struct k2node` with this many levels to the cut depth; at the cut depth, its block. -/
def K2Node : ℕ → Type
  | 0 => Option Block
  | d + 1 => Fin 4 → Option (K2Node d)

namespace K2Node

/-- `block_child`, at the cut depth. -/
def blockChild (node : K2Node 0) : Option Block := node

/-- `children[i]`, above it. -/
def child {d : ℕ} (node : K2Node (d + 1)) (i : Fin 4) : Option (K2Node d) := node i

/-- A node without children, as `create_k2node` makes it. -/
def noChildren {d : ℕ} : K2Node (d + 1) := fun _ => none

def setChild {d : ℕ} (node : K2Node (d + 1)) (i : Fin 4) (c : K2Node d) : K2Node (d + 1) :=
  fun j => if j = i then some c else node.child j

/-- A node with a block. -/
def ofBlock (b : Block) : K2Node 0 := some b

@[simp] theorem child_noChildren {d : ℕ} (i : Fin 4) : (noChildren : K2Node (d + 1)).child i = none := rfl

theorem child_setChild {d : ℕ} (node : K2Node (d + 1)) (i j : Fin 4) (c : K2Node d) :
    (node.setChild i c).child j = if j = i then some c else node.child j := rfl

theorem ext_child {d : ℕ} {a b : K2Node (d + 1)} (h : ∀ i, a.child i = b.child i) : a = b := funext h

instance instNeZeroFour : NeZero 4 := inferInstance

/-- The children, in the order of the loops. -/
def order : List (Fin 4) := [0, 1, 2, 3]

/-- `count_k2nodes_wchildren`. -/
def countWchildren : (d : ℕ) → K2Node d → ℕ
  | 0, _ => 0
  | d + 1, node => (order.map fun i => ((node.child i).map (countWchildren d)).getD 0).sum + 1

/-- The bits of the children of the node at a location. -/
def markChildren {d : ℕ} (node : K2Node (d + 1)) (loc : ℕ) (data : List UInt32) : List UInt32 :=
  let containerPos := 4 * loc / 32
  let subposBitsStart := 4 * loc % 32
  order.foldl (fun data i =>
    if (node.child i).isSome then data.modify containerPos (· ||| Bitmap.mask (31 - (subposBitsStart + i))) else data) data

/-- `serialize_to_vec_with_k2node_ptrs`. -/
def serialize : (d : ℕ) → K2Node d → List UInt32 × ℕ → List UInt32 × ℕ
  | 0, _, st => st
  | d + 1, node, st =>
    order.foldl (fun st i =>
      match node.child i with
      | none => st
      | some child => serialize d child st) (markChildren node st.2 st.1, st.2 + 1)

/-- `write_blocks_from_k2nodes`. -/
def writeBlocks (maxNodesCount treeDepth : UInt32) : (d : ℕ) → K2Node d → OStream → Except Exn UInt64 × OStream
  | 0, node, os =>
    match node.blockChild with
    | none => (.error .nullDereference, os)
    | some b =>
      let r := b.writeTree maxNodesCount treeDepth os
      (.ok r.1, r.2)
  | d + 1, node, os =>
    order.foldl (fun (r : Except Exn UInt64 × OStream) i =>
      match r.1, node.child i with
      | .ok bytesWritten, some child =>
        let w := writeBlocks maxNodesCount treeDepth d child r.2
        (w.1.map (bytesWritten + ·), w.2)
      | _, _ => r) (.ok 0, os)

/-- `container & (1U << (31 - (subpos_bits_start + i)))`. -/
def childBit (containers : List UInt32) (loc : ℕ) (i : Fin 4) : Bool :=
  Bitmap.hasBit (containers.getD (4 * loc / 32) 0) (31 - (4 * loc % 32 + i))

/-- `deserialize_k2node_tree`. -/
def deserialize (containers : List UInt32) : (d : ℕ) → ℕ → IStream → Except Exn (K2Node d × ℕ) × IStream
  | 0, loc, s =>
    match Block.readTree s with
    | (.error e, s) => (.error e, s)
    | (.ok b, s) => (.ok (ofBlock b, loc), s)
  | d + 1, loc, s =>
    order.foldl (fun (r : Except Exn (K2Node (d + 1) × ℕ) × IStream) i =>
      match r.1 with
      | .error _ => r
      | .ok (node, next) =>
        if childBit containers loc i then
          match deserialize containers d next r.2 with
          | (.error e, s) => (.error e, s)
          | (.ok (child, next), s) => (.ok (node.setChild i child, next), s)
        else r) (.ok (noChildren, loc + 1), s)

end K2Node

/-! ## The tree -/

structure K2TreeMixed where
  pointsCount : UInt64
  treeDepth : UInt32
  cutDepth : UInt32
  maxNodesCount : UInt32
  root : K2Node cutDepth.toNat

namespace K2TreeMixed

/-- `containers_count`, in the `int`s of the source. -/
def containersCount (k2nodesCount : ℕ) : ℤ :=
  let bitsCount := wrapInt (wrapInt k2nodesCount * 4)
  bitsCount / 32 + if bitsCount % 32 = 0 then 0 else 1

/-- `write_to_ostream`. -/
def writeToOstream (t : K2TreeMixed) (os : OStream) : Except Exn UInt64 × OStream :=
  let count := containersCount (t.root.countWchildren t.cutDepth.toNat)
  let containers := (t.root.serialize t.cutDepth.toNat (List.replicate count.toNat 0, 0)).1
  let os := os.write (u64Bytes t.pointsCount)
  let os := os.write (u32Bytes t.treeDepth)
  let os := os.write (u32Bytes t.cutDepth)
  let os := os.write (u32Bytes t.maxNodesCount)
  let os := os.write (u32Bytes (UInt32.ofInt count))
  let r := containers.foldl (fun (r : UInt64 × OStream) c => (r.1 + 4, r.2.write (u32Bytes c))) (24, os)
  let w := t.root.writeBlocks t.maxNodesCount t.treeDepth t.cutDepth.toNat r.2
  (w.1.map (r.1 + ·), w.2)

/-- `read_from_istream`, behind the bitmap. -/
def readRoot (pointsCount : UInt64) (treeDepth cutDepth maxNodesCount : UInt32) (containers : List UInt32)
    (s : IStream) : Except Exn K2TreeMixed × IStream :=
  match K2Node.deserialize containers cutDepth.toNat 0 s with
  | (.error x, s) => (.error x, s)
  | (.ok (root, _), s) => (.ok ⟨pointsCount, treeDepth, cutDepth, maxNodesCount, root⟩, s)

/-- `read_from_istream`. -/
def readFromIstream (s : IStream) : Except Exn K2TreeMixed × IStream :=
  let a := s.readU64
  let b := a.2.readU32
  let c := b.2.readU32
  let d := c.2.readU32
  let e := d.2.readU32
  let f := IStream.readMany IStream.readU32 e.1.toNat e.2
  readRoot a.1 b.1 c.1 d.1 f.1 f.2

end K2TreeMixed

end K2Cache
