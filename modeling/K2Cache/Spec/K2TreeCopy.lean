import K2Cache.Spec.K2TreeMixed

/-!
# K2TreeMixed: how trees come about, and how they are compared

The insertion of a point is `lib/c-k2tree-dyn`'s. Of it is assumed what `InsertsPath` says: it
makes the nodes that are missing on the way to the block the point goes to, and that block.

`copy_tree` has the cut depth in an `int`, `same_k2node` the cut depth of one tree for both.
A node that is taken for one of the other kind has its children or its block in the place
of what is read: that is undefined, but for a new node, which has neither.
-/

namespace K2Cache

open Lib

/-! ## Blocks -/

namespace Block

mutual

/-- `copy_block_tree`. -/
def copyBlockTree : Block → Block
  | ⟨n, p, c, children⟩ => ⟨n, p, c, copyAll children⟩

/-- The loop over the children. -/
def copyAll : List Block → List Block
  | [] => []
  | b :: bs => b.copyBlockTree :: copyAll bs

end

mutual

/-- `same_blocks`: the frontiers, with the blocks below, and the topologies. -/
def sameBlocks : Block → Block → Bool
  | ⟨n, p, c, children⟩, ⟨n', p', c', children'⟩ =>
    (decide (p = p') && sameAll children children') && (decide (n = n') && decide (c = c'))

/-- The loop over the children. -/
def sameAll : List Block → List Block → Bool
  | [], [] => true
  | b :: bs, b' :: bs' => b.sameBlocks b' && sameAll bs bs'
  | _, _ => false

end

end Block

/-! ## Nodes -/

namespace K2Node

/-- `create_k2node`: no children, no block. -/
def createK2node : (d : ℕ) → K2Node d
  | 0 => none
  | _ + 1 => noChildren

/-- The loop of `copy_tree` over the children. -/
def copyChildren {d : ℕ} (copyChild : K2Node d → Except Exn (K2Node d)) (node : K2Node (d + 1)) :
    List (Fin 4) → K2Node (d + 1) → Except Exn (K2Node (d + 1))
  | [], copy => .ok copy
  | i :: is, copy =>
    match node.child i with
    | none => copyChildren copyChild node is copy
    | some child =>
      match copyChild child with
      | .error e => .error e
      | .ok c => copyChildren copyChild node is (copy.setChild i c)

/-- `copy_tree`, of a node this far above the cut depth of its tree, at `currentDepth`. -/
def copyTree (cutDepth : ℤ) : (d : ℕ) → ℤ → K2Node d → Except Exn (K2Node d)
  | 0, currentDepth, node =>
    if currentDepth < cutDepth then .error .nullDereference
    else
      match node.blockChild with
      | none => .ok (createK2node 0)
      | some b => .ok (ofBlock b.copyBlockTree)
  | d + 1, currentDepth, node =>
    if currentDepth < cutDepth then
      copyChildren (copyTree cutDepth d (currentDepth + 1)) node order (createK2node (d + 1))
    else if order.all fun i => (node.child i).isNone then .ok (createK2node (d + 1))
    else .error .nullDereference

end K2Node

/-! ## Trees -/

/-- `k2node_insert_point`: the node with the point, and if the point was there. -/
abbrev InsertPoint := (d : ℕ) → K2Node d → Point → K2Node d × Bool

namespace K2TreeMixed

/-- The constructor. -/
def construct (treeDepth maxNodesCount cutDepth : UInt32) : K2TreeMixed :=
  ⟨0, treeDepth, cutDepth, maxNodesCount, K2Node.createK2node cutDepth.toNat⟩

/-- `insert`. -/
def insert (insertPoint : InsertPoint) (t : K2TreeMixed) (x : Point) : K2TreeMixed :=
  let r := insertPoint t.cutDepth.toNat t.root x
  { t with root := r.1, pointsCount := if r.2 then t.pointsCount else t.pointsCount + 1 }

/-- The copy constructor. -/
def copy (t : K2TreeMixed) : Except Exn K2TreeMixed :=
  (t.root.copyTree (wrapInt t.cutDepth.toNat) t.cutDepth.toNat 0).map fun root => { t with root := root }

end K2TreeMixed

end K2Cache
