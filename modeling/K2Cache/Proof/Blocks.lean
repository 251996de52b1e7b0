import K2Cache.Spec.K2TreeMixed

/-!
# Block trees are read back

The blocks of a tree are written in post-order. The reader keeps the blocks that have no
parent yet on a stack: after the bytes of a block tree, that tree is on top of it
(`readBlocks_spec`). So a tree of fewer than `2 ^ 32` blocks is read back
(`readTree_reads`); the number of blocks is written in 32 bits.
-/

namespace K2Cache

open Lib

namespace Block

/-! ## What is written -/

mutual

/-- The number of blocks of a tree. -/
def count : Block → ℕ
  | ⟨_, _, _, children⟩ => countAll children + 1

def countAll : List Block → ℕ
  | [] => 0
  | b :: bs => b.count + countAll bs

end

/-- The bytes of one block. -/
def fieldsBytes (nodesCount : UInt16) (preorders : List UInt16) (container : List UInt32) : Bytes :=
  u16Bytes nodesCount ++ (u16Bytes (UInt16.ofNat preorders.length) ++ (u16Bytes (UInt16.ofNat container.length) ++
    (preorders.flatMap u16Bytes ++ container.flatMap u32Bytes)))

mutual

/-- The bytes of the blocks of a tree, in post-order. -/
def postBytes : Block → Bytes
  | ⟨n, p, c, children⟩ => postBytesAll children ++ fieldsBytes n p c

def postBytesAll : List Block → Bytes
  | [] => []
  | b :: bs => b.postBytes ++ postBytesAll bs

end

mutual

/-- **The fields of a block fit their encodings**, and it has a preorder per child. -/
def Fits : Block → Prop
  | ⟨_, p, c, children⟩ => p.length = children.length ∧ p.length < 2 ^ 16 ∧ c.length < 2 ^ 16 ∧ AllFit children

def AllFit : List Block → Prop
  | [] => True
  | b :: bs => b.Fits ∧ AllFit bs

end

/-- The bytes of a block tree. -/
def treeBytes (maxNodeCount treedepth : UInt32) (b : Block) : Bytes :=
  u16Bytes maxNodeCount.toUInt16 ++ (u16Bytes treedepth.toUInt16 ++ (u32Bytes (UInt32.ofNat b.count) ++ b.postBytes))

/-! ## Writing -/

/-- A loop that writes and counts. -/
theorem foldl_write {α : Type} (enc : α → Bytes) (k : UInt64) (hk : ∀ a, UInt64.ofNat (enc a).length = k) (l : List α)
    (w : UInt64) (pre : Bytes) :
    l.foldl (fun (r : UInt64 × OStream) a => (r.1 + k, r.2.write (enc a))) (w, .atEnd pre) =
      (w + UInt64.ofNat (l.flatMap enc).length, .atEnd (pre ++ l.flatMap enc)) := by
  induction l generalizing w pre with
  | nil => simp
  | cons a l ih =>
    rw [List.foldl_cons, OStream.atEnd_write, ih, List.flatMap_cons, List.length_append, UInt64.ofNat_add, hk,
      UInt64.add_assoc, List.append_assoc]

theorem writeFields_spec (n : UInt16) (p : List UInt16) (c : List UInt32) (pre : Bytes) :
    writeFields n p c (.atEnd pre) = (UInt64.ofNat (fieldsBytes n p c).length, .atEnd (pre ++ fieldsBytes n p c)) := by
  unfold writeFields
  simp only [OStream.atEnd_write]
  rw [foldl_write u16Bytes 2 (by simp), foldl_write u32Bytes 4 (by simp)]
  refine Prod.ext ?_ (by simp [fieldsBytes])
  have hlen : (fieldsBytes n p c).length = 6 + (p.flatMap u16Bytes).length + (c.flatMap u32Bytes).length := by
    simp only [fieldsBytes, List.length_append, u16Bytes_length]
    ring
  rw [hlen, UInt64.ofNat_add, UInt64.ofNat_add]
  rfl

mutual

theorem traverseWrite_spec : ∀ (b : Block) (w : UInt64) (pre : Bytes), b.traverseWrite (w, .atEnd pre) =
    (UInt32.ofNat b.count, (w + UInt64.ofNat b.postBytes.length, .atEnd (pre ++ b.postBytes)))
  | ⟨n, p, c, children⟩, w, pre => by
    simp only [traverseWrite, traverseWriteAll_spec children, writeFields_spec, postBytes, count, List.length_append,
      List.append_assoc, UInt64.ofNat_add, UInt32.ofNat_add, UInt64.add_assoc]
    rw [UInt32.add_comm]
    rfl

theorem traverseWriteAll_spec : ∀ (bs : List Block) (k : UInt32) (w : UInt64) (pre : Bytes),
    traverseWriteAll bs k (w, .atEnd pre) = (k + UInt32.ofNat (countAll bs),
      (w + UInt64.ofNat (postBytesAll bs).length, .atEnd (pre ++ postBytesAll bs)))
  | [], k, w, pre => by simp [traverseWriteAll, countAll, postBytesAll]
  | b :: bs, k, w, pre => by
    simp only [traverseWriteAll, traverseWrite_spec b, traverseWriteAll_spec bs, countAll, postBytesAll,
      List.length_append, List.append_assoc, UInt64.ofNat_add, UInt32.ofNat_add, UInt64.add_assoc, UInt32.add_assoc]

end

/-- **`write_tree_to_ostream`**: the number of blocks is written over the room left for it. -/
theorem writeTree_spec (m t : UInt32) (b : Block) (pre : Bytes) :
    b.writeTree m t (.atEnd pre) = (UInt64.ofNat (b.treeBytes m t).length, .atEnd (pre ++ b.treeBytes m t)) := by
  unfold writeTree
  simp only [OStream.atEnd_write, OStream.atEnd_tellp, traverseWrite_spec]
  set head := pre ++ u16Bytes m.toUInt16 ++ u16Bytes t.toUInt16 with hhead
  have hover := OStream.write_over head (u32Bytes 0) (u32Bytes (UInt32.ofNat b.count)) b.postBytes (by simp)
  refine Prod.ext ?_ ?_
  · have hlen : (b.treeBytes m t).length = 8 + b.postBytes.length := by
      simp only [treeBytes, List.length_append, u16Bytes_length, u32Bytes_length]
      ring
    rw [hlen, UInt64.ofNat_add]
    rfl
  · have hback : (OStream.atEnd (head ++ u32Bytes 0 ++ b.postBytes)).seekp head.length =
        ⟨head ++ u32Bytes 0 ++ b.postBytes, head.length⟩ := rfl
    rw [hback, hover]
    simp [OStream.seekp, OStream.atEnd, treeBytes, hhead]

/-! ## Reading -/

theorem readFields_reads (n : UInt16) {p : List UInt16} {c : List UInt32} (hp : p.length < 2 ^ 16)
    (hc : c.length < 2 ^ 16) : IStream.Reads readFields (fieldsBytes n p c) ⟨n, p, c⟩ := by
  intro s h
  have hp' : (UInt16.ofNat p.length).toNat = p.length := UInt16.toNat_ofNat_of_lt' (by rw [UInt16.size]; omega)
  have hc' : (UInt16.ofNat c.length).toNat = c.length := UInt16.toNat_ofNat_of_lt' (by rw [UInt16.size]; omega)
  unfold fieldsBytes at h
  have h1 := IStream.reads_readU16 n s h.left
  have h2 := IStream.reads_readU16 (UInt16.ofNat p.length) _ h.right.left
  have h3 := IStream.reads_readU16 (UInt16.ofNat c.length) _ h.right.right.left
  have h4 := IStream.Reads.many (l := p) (fun a _ => IStream.reads_readU16 a) _ h.right.right.right.left
  have h5 := IStream.Reads.many (l := c) (fun a _ => IStream.reads_readU32 a) _ h.right.right.right.right
  simp only [IStream.skip_skip] at h2 h3 h4 h5
  simp only [readFields, h1, h2, hp', h3, hc', h4, h5]
  simp only [fieldsBytes, List.length_append, Nat.add_assoc]

mutual

/-- **After the bytes of a block tree, the tree is on the stack.** -/
theorem readBlocks_spec : ∀ (b : Block), b.Fits → ∀ (k : ℕ) (blocks : List Block) (s : IStream),
    s.Ahead b.postBytes → readBlocks (b.count + k) blocks s = readBlocks k (b :: blocks) (s.skip b.postBytes.length)
  | ⟨n, p, c, children⟩, hfit, k, blocks, s, h => by
    obtain ⟨hlen, hp, hc, hall⟩ := hfit
    rw [postBytes] at h
    have hchildren := readBlocksAll_spec children hall (1 + k) blocks s h.left
    have hfields := readFields_reads n hp hc _ h.right
    have hadjust : adjustBlocks ⟨n, p, c⟩ (children.reverse ++ blocks) = .ok (⟨n, p, c, children⟩ :: blocks) := by
      have htake : (children.reverse ++ blocks).take p.length = children.reverse :=
        List.take_left' (by rw [List.length_reverse, hlen])
      have hdrop : (children.reverse ++ blocks).drop p.length = blocks :=
        List.drop_left' (by rw [List.length_reverse, hlen])
      simp only [adjustBlocks, htake, hdrop, List.reverse_reverse]
      rw [if_pos]
      simp [hlen]
    rw [count, Nat.add_assoc, hchildren, Nat.add_comm 1 k, readBlocks]
    simp only [hfields, hadjust, IStream.skip_skip, postBytes, List.length_append]

theorem readBlocksAll_spec : ∀ (bs : List Block), AllFit bs → ∀ (k : ℕ) (blocks : List Block) (s : IStream),
    s.Ahead (postBytesAll bs) → readBlocks (countAll bs + k) blocks s =
      readBlocks k (bs.reverse ++ blocks) (s.skip (postBytesAll bs).length)
  | [], _, k, blocks, s, _ => by simp [countAll, postBytesAll]
  | b :: bs, hfit, k, blocks, s, h => by
    rw [postBytesAll] at h
    have h1 := readBlocks_spec b hfit.1 (countAll bs + k) blocks s h.left
    have h2 := readBlocksAll_spec bs hfit.2 k (b :: blocks) _ h.right
    rw [countAll, Nat.add_assoc, h1, h2]
    simp [postBytesAll, List.reverse_cons, List.append_assoc]

end

theorem count_pos (b : Block) : 0 < b.count := by
  obtain ⟨n, p, c, children⟩ := b
  rw [count]
  omega

/-- **A block tree is read back**, if its number of blocks fits. -/
theorem readTree_reads (m t : UInt32) {b : Block} (hfit : b.Fits) (hcount : b.count < 2 ^ 32) :
    IStream.Reads readTree (b.treeBytes m t) (.ok b) := by
  intro s h
  unfold treeBytes at h
  have hn : (UInt32.ofNat b.count).toNat = b.count := UInt32.toNat_ofNat_of_lt' (by rw [UInt32.size]; omega)
  have hne : UInt32.ofNat b.count ≠ 0 := by
    intro h0
    have := count_pos b
    rw [h0] at hn
    simp at hn
    omega
  have h1 := IStream.reads_readU16 _ s h.left
  have h2 := IStream.reads_readU16 _ _ h.right.left
  have h3 := IStream.reads_readU32 _ _ h.right.right.left
  have h4 := readBlocks_spec b hfit 0 [] _ h.right.right.right
  simp only [IStream.skip_skip] at h2 h3 h4
  rw [Nat.add_zero, readBlocks] at h4
  simp only [readTree, h1, h2, h3, hn, h4, if_neg hne, List.head?_cons]
  simp only [treeBytes, List.length_append, Nat.add_assoc]

/-- A tree of a multiple of `2 ^ 32` blocks is not: its number is written as zero. -/
theorem readTree_zero (m t : UInt32) {b : Block} (hcount : UInt32.ofNat b.count = 0) {s : IStream}
    (h : s.Ahead (b.treeBytes m t)) : (readTree s).1 = .error zeroBlocks := by
  unfold treeBytes at h
  have h1 := IStream.reads_readU16 _ s h.left
  have h2 := IStream.reads_readU16 _ _ h.right.left
  have h3 := IStream.reads_readU32 _ _ h.right.right.left
  simp only [IStream.skip_skip] at h2 h3
  simp only [readTree, h1, h2, h3, hcount, if_true]

end Block

end K2Cache
