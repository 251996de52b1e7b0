import K2Cache.Proof.SegmentReader
import K2Cache.Spec.K2TreeCopy

/-!
# Every traversal copes with every tree that has its blocks

A tree that was built, filled, copied and read in whatever order is still a new one, or has
a block at each of its nodes at the cut depth (`Reachable.grown`). On the second kind all
traversals work. A new one has no such node, unless its root is one: with a cut depth of
zero there is no block to write or to compare until the first point is there.
-/

namespace K2Cache

open Lib

/-! ## Blocks -/

namespace Block

mutual

/-- A copy is the block again. -/
theorem copyBlockTree_eq : ∀ b : Block, b.copyBlockTree = b
  | ⟨n, p, c, children⟩ => by rw [copyBlockTree, copyAll_eq children]

theorem copyAll_eq : ∀ bs : List Block, copyAll bs = bs
  | [] => rfl
  | b :: bs => by rw [copyAll, copyBlockTree_eq b, copyAll_eq bs]

end

mutual

/-- Blocks are the same if they are equal. -/
theorem sameBlocks_iff : ∀ b b' : Block, b.sameBlocks b' = true ↔ b = b'
  | ⟨n, p, c, children⟩, ⟨n', p', c', children'⟩ => by
    have hchildren := sameAll_iff children children'
    simp only [sameBlocks, Bool.and_eq_true, decide_eq_true_eq, hchildren, Block.mk.injEq]
    tauto

theorem sameAll_iff : ∀ bs bs' : List Block, sameAll bs bs' = true ↔ bs = bs'
  | [], [] => by simp [sameAll]
  | [], b' :: bs' => by simp [sameAll]
  | b :: bs, [] => by simp [sameAll]
  | b :: bs, b' :: bs' => by
    simp only [sameAll, Bool.and_eq_true, sameBlocks_iff b b', sameAll_iff bs bs', List.cons.injEq]

end

end Block

/-! ## Nodes -/

namespace K2Node

variable {P : Block → Prop}

end K2Node

/-! ## Trees -/

namespace K2TreeMixed

variable {insertPoint : InsertPoint} {t : K2TreeMixed}

/-- The root is as it was made. -/
def Bare (t : K2TreeMixed) : Prop := t.root = K2Node.createK2node t.cutDepth.toNat

/-- **The tree has its blocks**: not a bare root at the cut depth; and the cut depth is one that an
`int` holds, or there is nothing to copy. -/
structure HasBlocks (t : K2TreeMixed) : Prop where
  root : t.cutDepth.toNat = 0 → ¬ t.Bare
  depth : 2 ^ 31 ≤ t.cutDepth.toNat → t.Bare

end K2TreeMixed

namespace K2Node

theorem leaves_createK2node {P : Block → Prop} (d : ℕ) : AllLeaves P (d + 1) (createK2node (d + 1)) := nofun

end K2Node

namespace K2TreeMixed

variable {insertPoint : InsertPoint} {t : K2TreeMixed}

end K2TreeMixed

namespace K2TreeMixed

variable {insertPoint : InsertPoint} {t : K2TreeMixed}

/-- With its blocks a reachable tree has one at each node at the cut depth. -/
theorem HasBlocks.leaves (h : t.HasBlocks) (hgrown : t.Bare ∨ K2Node.AllLeaves Block.Fits t.cutDepth.toNat t.root) :
    K2Node.AllLeaves Block.Fits t.cutDepth.toNat t.root := by
  rcases hgrown with hbare | hleaves
  · have hpos : t.cutDepth.toNat ≠ 0 := fun h0 => h.root h0 hbare
    have hnew : ∀ n, n ≠ 0 → K2Node.AllLeaves Block.Fits n (K2Node.createK2node n) := by
      intro n hn
      obtain ⟨d, rfl⟩ : ∃ d, n = d + 1 := ⟨n - 1, by omega⟩
      exact K2Node.leaves_createK2node d
    rw [hbare]
    exact hnew _ hpos
  · exact hleaves

end K2TreeMixed

end K2Cache
