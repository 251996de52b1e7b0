import K2Cache.Proof.Serialize
import K2Cache.Spec.SegmentReader

/-!
# The segment reader follows the heap reader

The two readers are set side by side, piece by piece: a piece of the segment reader requires
a number of bytes that depends on the stream alone; with that room it does what its
counterpart does, without it runs out of memory (`Metered`). For a tree the number is its
`memory` and that of the blocks read that no block took up (`metered_deserialize`), of which
a written tree has none. What is handed out lies in the segment, piece behind piece
(`Lays`).
-/

namespace K2Cache

open Lib Memory MemorySegment SegmentReader

/-! ## One piece and its counterpart -/

/-- The segment after bytes were handed out. -/
def Memory.MemorySegment.advance (g : MemorySegment) (n : ℕ) : MemorySegment := { g with bytePosition := g.bytePosition + n }

/-- With `n` bytes of room the piece does what its counterpart does with the stream, and takes
them; with less it runs out of memory. -/
structure MeteredAt {α : Type} (x : Act Exn IStream α) (y : Act Thrown SegmentReader α) (s : IStream) (n : ℕ) : Prop where
  fits : ∀ r : SegmentReader, r.is = s → r.segment.bytePosition + n ≤ r.segment.sizeBytes →
    ∃ handed, y r = ((x s).1.mapError .exn, ⟨(x s).2, r.segment.advance n, handed⟩)
  fails : ∀ r : SegmentReader, r.is = s → r.segment.bytePosition ≤ r.segment.sizeBytes →
    r.segment.sizeBytes < r.segment.bytePosition + n →
      ∃ needed r', y r = (.error (.outOfMemory needed r.segment.sizeBytes), r')

/-- **The piece is metered**: it follows its counterpart at a cost that is known when that
returns. -/
def Metered {α : Type} (x : Act Exn IStream α) (y : Act Thrown SegmentReader α) (Costs : α → ℕ → Prop) (s : IStream) : Prop :=
  ∃ n, (∀ a s', x s = (.ok a, s') → Costs a n) ∧ MeteredAt x y s n

/-- A read of the stream, on the heap's side. -/
def reading {α : Type} (f : IStream → α × IStream) : Act Exn IStream α := fun s => (.ok (f s).1, (f s).2)

/-- A reader of the stream as an action. -/
def onHeap {α : Type} (f : IStream → Except Exn α × IStream) : Act Exn IStream α := f

section Metered

variable {α β : Type} {x : Act Exn IStream α} {y : Act Thrown SegmentReader α} {s : IStream}

theorem Metered.mono {C C' : α → ℕ → Prop} (h : Metered x y C s) (hC : ∀ a s' n, x s = (.ok a, s') → C a n → C' a n) :
    Metered x y C' s := by
  obtain ⟨n, hn, hat⟩ := h
  exact ⟨n, fun a s' hx => hC a s' n hx (hn a s' hx), hat⟩

theorem metered_pure {C : α → ℕ → Prop} {a : α} (h : C a 0) : Metered (pure a) (pure a) C s := by
  refine ⟨0, ?_, ?_, ?_⟩
  · rintro a' s' ha
    obtain rfl := Except.ok.inj (Prod.mk.inj ha).1
    exact h
  · rintro r rfl -
    exact ⟨r.handed, rfl⟩
  · intro r _ hle hlt
    omega

theorem metered_throw {C : α → ℕ → Prop} (e : Exn) : Metered (Act.throw e) (Act.throw (.exn e)) C s := by
  refine ⟨0, ?_, ?_, ?_⟩
  · rintro a s' ha
    cases (Prod.mk.inj ha).1
  · rintro r rfl -
    exact ⟨r.handed, rfl⟩
  · intro r _ hle hlt
    omega

theorem metered_read {C : α → ℕ → Prop} {f : IStream → α × IStream} (h : C (f s).1 0) :
    Metered (reading f) (read f) C s := by
  refine ⟨0, ?_, ?_, ?_⟩
  · rintro a s' ha
    obtain rfl := Except.ok.inj (Prod.mk.inj ha).1
    exact h
  · rintro r rfl -
    exact ⟨r.handed, rfl⟩
  · intro r _ hle hlt
    omega

/-- Two pieces in a row cost what each of them costs. -/
theorem Metered.bind {f : α → Act Exn IStream β} {g : α → Act Thrown SegmentReader β} {C : α → ℕ → Prop} {C' : β → ℕ → Prop}
    (h : Metered x y C s)
    (hf : ∀ a s' m, x s = (.ok a, s') → C a m → Metered (f a) (g a) (fun b n => C' b (m + n)) s') :
    Metered (x >>= f) (y >>= g) C' s := by
  obtain ⟨m, hm, hat⟩ := h
  rcases hx : x s with ⟨_ | a, s'⟩
  · rename_i e
    refine ⟨m, ?_, ?_, ?_⟩
    · intro b t hb
      rw [Act.bind_error hx] at hb
      cases (Prod.mk.inj hb).1
    · intro r hr hfits
      obtain ⟨handed, hy⟩ := hat.fits r hr hfits
      rw [hx] at hy
      rw [Act.bind_error hx]
      exact ⟨handed, Act.bind_error hy⟩
    · intro r hr hle hlt
      obtain ⟨needed, r', hy⟩ := hat.fails r hr hle hlt
      exact ⟨needed, r', Act.bind_error hy⟩
  · obtain ⟨n, hn, hat'⟩ := hf a s' m hx (hm a s' hx)
    refine ⟨m + n, ?_, ?_, ?_⟩
    · intro b t hb
      rw [Act.bind_ok hx] at hb
      exact hn b t hb
    · intro r hr hfits
      obtain ⟨handed, hy⟩ := hat.fits r hr (by omega)
      rw [hx] at hy
      rw [Act.bind_ok hx, Act.bind_ok hy]
      obtain ⟨handed', hy'⟩ := hat'.fits ⟨s', r.segment.advance m, handed⟩ rfl (by simp only [advance]; omega)
      refine ⟨handed', hy'.trans ?_⟩
      simp only [advance, Nat.add_assoc]
    · intro r hr hle hlt
      by_cases hfits : r.segment.bytePosition + m ≤ r.segment.sizeBytes
      · obtain ⟨handed, hy⟩ := hat.fits r hr hfits
        rw [hx] at hy
        rw [Act.bind_ok hy]
        exact hat'.fails ⟨s', r.segment.advance m, handed⟩ rfl hfits (by simp only [advance]; omega)
      · obtain ⟨needed, r', hy⟩ := hat.fails r hr hle (by omega)
        exact ⟨needed, r', Act.bind_error hy⟩

theorem require_zero (r : SegmentReader) : require 0 r = (.ok none, r) := rfl

theorem require_fits {k : ℕ} (hk : 0 < k) {r : SegmentReader} (h : r.segment.bytePosition + k ≤ r.segment.sizeBytes) :
    require k r = (.ok (some (r.segment.data + r.segment.bytePosition)),
      ⟨r.is, r.segment.advance k, (r.segment.data + r.segment.bytePosition, k) :: r.handed⟩) := by
  unfold require requireBytes
  rw [if_neg (by omega), if_neg (by omega)]
  rfl

theorem require_fails {k : ℕ} (hk : 0 < k) {r : SegmentReader} (h : r.segment.sizeBytes < r.segment.bytePosition + k) :
    require k r = (.error (.outOfMemory k r.segment.sizeBytes), r) := by
  unfold require requireBytes
  rw [if_neg (by omega), if_pos (by omega)]

/-- Bytes that are required cost what they are; what follows may ask only if there are any. -/
theorem Metered.require {k : ℕ} {C : α → ℕ → Prop} {g : Option ℕ → Act Thrown SegmentReader α}
    (hg : ∀ ptr : Option ℕ, (0 < k → ptr.isNone = false) → g ptr = y) (h : Metered x y (fun a n => C a (k + n)) s) :
    Metered x (SegmentReader.require k >>= g) C s := by
  obtain ⟨n, hn, hat⟩ := h
  refine ⟨k + n, hn, ?_, ?_⟩
  · intro r hr hfits
    rcases Nat.eq_zero_or_pos k with rfl | hk
    · rw [Act.bind_ok (require_zero r), hg none fun h => absurd h (lt_irrefl 0)]
      obtain ⟨handed, hy⟩ := hat.fits r hr (by omega)
      rw [Nat.zero_add]
      exact ⟨handed, hy⟩
    · rw [Act.bind_ok (require_fits hk (by omega)), hg _ fun _ => rfl]
      obtain ⟨handed, hy⟩ := hat.fits ⟨r.is, r.segment.advance k, (r.segment.data + r.segment.bytePosition, k) :: r.handed⟩
        hr (by simp only [advance]; omega)
      refine ⟨handed, hy.trans ?_⟩
      simp only [advance, Nat.add_assoc]
  · intro r hr hle hlt
    rcases Nat.eq_zero_or_pos k with rfl | hk
    · rw [Act.bind_ok (require_zero r), hg none fun h => absurd h (lt_irrefl 0)]
      exact hat.fails r hr hle (by omega)
    · by_cases hfits : r.segment.bytePosition + k ≤ r.segment.sizeBytes
      · rw [Act.bind_ok (require_fits hk hfits), hg _ fun _ => rfl]
        exact hat.fails ⟨r.is, r.segment.advance k, (r.segment.data + r.segment.bytePosition, k) :: r.handed⟩ hr hfits
          (by simp only [advance]; omega)
      · exact ⟨k, r, Act.bind_error (require_fails hk (by omega))⟩

end Metered

/-! ## Blocks -/

namespace Block

variable (size : SizeOf)

/-- The arrays of a block that was read. -/
def Fields.memory (f : Fields) : ℕ :=
  f.preorders.length * (size.nodesBvT + size.block) + f.container.length * size.bvctype

theorem memoryAll_append (as bs : List Block) : memoryAll size (as ++ bs) = memoryAll size as + memoryAll size bs := by
  induction as with
  | nil => simp [memoryAll]
  | cons a as ih => rw [List.cons_append, memoryAll, memoryAll, ih, Nat.add_assoc]

theorem memoryAll_reverse (as : List Block) : memoryAll size as.reverse = memoryAll size as := by
  induction as with
  | nil => rfl
  | cons a as ih =>
    rw [List.reverse_cons, memoryAll_append, ih, memoryAll, memoryAll, memoryAll]
    omega

/-- A new block takes up the last ones. -/
theorem memoryAll_adjustBlocks {f : Fields} {blocks blocks' : List Block} (h : adjustBlocks f blocks = .ok blocks') :
    memoryAll size blocks' = f.memory size + memoryAll size blocks := by
  unfold adjustBlocks at h
  dsimp only at h
  split at h
  · obtain rfl := Except.ok.inj h
    have hsplit := memoryAll_append size (blocks.take f.preorders.length) (blocks.drop f.preorders.length)
    rw [List.take_append_drop] at hsplit
    rw [memoryAll, memory, memoryAll_reverse, Fields.memory]
    omega
  · cases h

variable {size}

theorem allocated_eq {α : Type} {count : ℕ} {ptr : Option ℕ} {what : String} {y : Act Thrown SegmentReader α}
    (h : 0 < count → ptr.isNone = false) : allocated count ptr what y = y := by
  unfold allocated
  rw [if_neg]
  simp only [Bool.and_eq_true, decide_eq_true_eq, not_and]
  intro hc
  simp [h hc]

theorem metered_readFields (s : IStream) :
    Metered (reading readFields) (readFieldsSegment size) (fun f n => n = f.memory size) s := by
  have heq : reading readFields = (do
      let nodesCount ← reading IStream.readU16
      let children ← reading IStream.readU16
      let containerSize ← reading IStream.readU16
      let p ← reading (IStream.readMany IStream.readU16 children.toNat)
      let w ← reading (IStream.readMany IStream.readU32 containerSize.toNat)
      pure ⟨nodesCount, p, w⟩ : Act Exn IStream Fields) := rfl
  rw [heq]
  unfold readFieldsSegment
  refine (metered_read (C := fun _ n => n = 0) rfl).bind fun nodesCount s₁ m₁ _ h₁ => ?_
  refine (metered_read (C := fun _ n => n = 0) rfl).bind fun children s₂ m₂ _ h₂ => ?_
  refine (metered_read (C := fun _ n => n = 0) rfl).bind fun containerSize s₃ m₃ _ h₃ => ?_
  have hbvt := size.nodesBvT_pos
  have hblock := size.block_pos
  have hbvc := size.bvctype_pos
  let rest : Act Thrown SegmentReader Fields := do
    let p ← read (IStream.readMany IStream.readU16 children.toNat)
    let container ← require (containerSize.toNat * size.bvctype)
    allocated containerSize.toNat container "Couldn't allocate container" do
      let w ← read (IStream.readMany IStream.readU32 containerSize.toNat)
      pure ⟨nodesCount, p, w⟩
  refine Metered.require (y := require (size.block * children.toNat) >>= fun childrenBlocks =>
    allocated children.toNat childrenBlocks "Couldn't allocate children blocks" rest) (fun preorders hp => ?_) ?_
  · -- the arrays are null only if there are no children
    exact congrArg _ (funext fun childrenBlocks => allocated_eq fun hc => hp (Nat.mul_pos hbvt hc))
  refine Metered.require (y := rest) (fun childrenBlocks hb => allocated_eq fun hc => hb (Nat.mul_pos hblock hc)) ?_
  refine (metered_read (C := fun (p : List UInt16) n => n = 0 ∧ p.length = children.toNat)
    ⟨rfl, IStream.readMany_length _ _ _⟩).bind fun p s₄ m₄ _ h₄ => ?_
  refine Metered.require (fun container hc => allocated_eq fun hcount => hc (Nat.mul_pos hcount hbvc)) ?_
  refine (metered_read (C := fun (w : List UInt32) n => n = 0 ∧ w.length = containerSize.toNat)
    ⟨rfl, IStream.readMany_length _ _ _⟩).bind fun w s₅ m₅ _ h₅ => ?_
  refine metered_pure ?_
  rw [Fields.memory, h₁, h₂, h₃, h₄.1, h₅.1, h₄.2, h₅.2]
  ring

/-- What a round of `readBlocks` goes on with. -/
def readAdjusted (n : ℕ) (f : Fields) (blocks : List Block) : Act Exn IStream (List Block) :=
  match adjustBlocks f blocks with
  | .error e => Act.throw e
  | .ok blocks => onHeap (readBlocks n blocks)

/-- What `readTree` ends with. -/
def firstBlock (blocks : List Block) : Act Exn IStream Block :=
  match blocks.head? with
  | none => Act.throw .nullDereference
  | some root => pure root

/-- **The loop over the blocks**: what it costs joins the blocks that have no parent yet. -/
theorem metered_readBlocks (n : ℕ) (blocks : List Block) (s : IStream) :
    Metered (onHeap (readBlocks n blocks)) (readBlocksSegment size n blocks)
      (fun blocks' m => memoryAll size blocks' = memoryAll size blocks + m) s := by
  induction n generalizing blocks s with
  | zero => exact metered_pure rfl
  | succ n ih =>
    have heq : onHeap (readBlocks (n + 1) blocks) = (do
        let f ← reading readFields
        readAdjusted n f blocks : Act Exn IStream (List Block)) := by
      funext s
      show readBlocks (n + 1) blocks s = _
      have hread : reading readFields s = (.ok (readFields s).1, (readFields s).2) := rfl
      rw [Act.bind_ok hread, readAdjusted]
      cases hadjust : adjustBlocks (readFields s).1 blocks with
      | error e =>
        simp only [readBlocks, hadjust]
        rfl
      | ok blocks₁ =>
        simp only [readBlocks, hadjust]
        rfl
    rw [heq]
    unfold readBlocksSegment
    refine (metered_readFields s).bind fun f s₁ m hf hm => ?_
    rw [readAdjusted]
    cases hadjust : adjustBlocks f blocks with
    | error e => exact metered_throw e
    | ok blocks₁ =>
      refine (ih blocks₁ s₁).mono fun blocks' s' k _ hk => ?_
      rw [hk, memoryAll_adjustBlocks size hadjust, hm]
      omega

/-- What is read with a block tree that no block of it took up; a tree that was written
has nothing of the kind. -/
def LeftAlone (size : SizeOf) (Written : Prop) (memory n : ℕ) : Prop :=
  ∃ left : List Block, n = memory + memoryAll size left ∧ (Written → left = [])

theorem metered_readTree (s : IStream) (m t : UInt32) :
    Metered (onHeap readTree) (readTreeSegment size)
      (fun b n => LeftAlone size (∃ b' : Block, b'.Fits ∧ b'.count < 2 ^ 32 ∧ s.Ahead (b'.treeBytes m t)) (b.memory size) n) s := by
  have heq : onHeap readTree = (do
      let _ ← reading IStream.readU16
      let _ ← reading IStream.readU16
      let blocksCount ← reading IStream.readU32
      if blocksCount = 0 then Act.throw zeroBlocks
      else do
        let blocks ← onHeap (readBlocks blocksCount.toNat [])
        firstBlock blocks : Act Exn IStream Block) := by
    funext s
    show readTree s = _
    have h1 : reading IStream.readU16 s = (.ok s.readU16.1, s.readU16.2) := rfl
    have h2 : reading IStream.readU16 s.readU16.2 = (.ok s.readU16.2.readU16.1, s.readU16.2.readU16.2) := rfl
    have h3 : reading IStream.readU32 s.readU16.2.readU16.2 =
      (.ok s.readU16.2.readU16.2.readU32.1, s.readU16.2.readU16.2.readU32.2) := rfl
    rw [Act.bind_ok h1, Act.bind_ok h2, Act.bind_ok h3]
    split
    · rename_i hc
      simp only [readTree, hc, if_true]
      rfl
    · rename_i hc
      rcases hb : readBlocks s.readU16.2.readU16.2.readU32.1.toNat [] s.readU16.2.readU16.2.readU32.2 with ⟨_ | blocks, s'⟩
      · have hb' : onHeap (readBlocks s.readU16.2.readU16.2.readU32.1.toNat []) s.readU16.2.readU16.2.readU32.2 =
          (.error _, s') := hb
        rw [Act.bind_error hb']
        simp only [readTree, if_neg hc, hb]
      · have hb' : onHeap (readBlocks s.readU16.2.readU16.2.readU32.1.toNat []) s.readU16.2.readU16.2.readU32.2 =
          (.ok blocks, s') := hb
        rw [Act.bind_ok hb', firstBlock]
        cases hh : blocks.head? with
        | none =>
          simp only [readTree, if_neg hc, hb, hh]
          rfl
        | some root =>
          simp only [readTree, if_neg hc, hb, hh]
          rfl
  rw [heq]
  unfold readTreeSegment
  refine (metered_read (C := fun _ n => n = 0) rfl).bind fun a₁ s₁ m₁ e₁ h₁ => ?_
  refine (metered_read (C := fun _ n => n = 0) rfl).bind fun a₂ s₂ m₂ e₂ h₂ => ?_
  refine (metered_read (C := fun _ n => n = 0) rfl).bind fun blocksCount s₃ m₃ e₃ h₃ => ?_
  split
  · exact metered_throw _
  · rename_i hne
    refine (metered_readBlocks _ _ _).bind fun blocks s₄ m₄ hread h₄ => ?_
    rw [firstBlock]
    cases hhead : blocks.head? with
    | none => exact metered_throw _
    | some root =>
      refine metered_pure ⟨blocks.tail, ?_, ?_⟩
      · obtain ⟨l, rfl⟩ := List.head?_eq_some_iff.1 hhead
        rw [memoryAll, memoryAll] at h₄
        rw [List.tail_cons]
        omega
      · rintro ⟨b', hfit, hcount, hs⟩
        -- the blocks are those of one tree
        obtain rfl : s.readU16.2 = s₁ := (Prod.mk.inj e₁).2
        obtain rfl : s.readU16.2.readU16.2 = s₂ := (Prod.mk.inj e₂).2
        obtain rfl : s.readU16.2.readU16.2.readU32.1 = blocksCount := Except.ok.inj (Prod.mk.inj e₃).1
        obtain rfl : s.readU16.2.readU16.2.readU32.2 = s₃ := (Prod.mk.inj e₃).2
        unfold treeBytes at hs
        have hn : (UInt32.ofNat b'.count).toNat = b'.count := UInt32.toNat_ofNat_of_lt' (by rw [UInt32.size]; omega)
        have r1 := IStream.reads_readU16 _ s hs.left
        have r2 := IStream.reads_readU16 _ _ hs.right.left
        have r3 := IStream.reads_readU32 _ _ hs.right.right.left
        have r4 := readBlocks_spec b' hfit 0 [] _ hs.right.right.right
        rw [Nat.add_zero, readBlocks] at r4
        rw [r1, r2, r3, hn] at hread
        obtain rfl := Except.ok.inj (Prod.mk.inj (r4.symm.trans hread)).1
        rfl

end Block

/-! ## Nodes -/

namespace K2Node

variable {size : SizeOf} {containers : List UInt32}

theorem readChildren_skip {ε σ : Type} {d loc : ℕ} {child : ℕ → Act ε σ (K2Node d × ℕ)} {i : Fin 4} {is : List (Fin 4)}
    {r : K2Node (d + 1) × ℕ} (h : childBit containers loc i = false) :
    readChildren containers loc child (i :: is) r = readChildren containers loc child is r := by
  simp [readChildren, h]

theorem readChildren_read {ε σ : Type} {d loc : ℕ} {child : ℕ → Act ε σ (K2Node d × ℕ)} {i : Fin 4} {is : List (Fin 4)}
    {r : K2Node (d + 1) × ℕ} (h : childBit containers loc i = true) :
    readChildren containers loc child (i :: is) r =
      (child r.2 >>= fun c => readChildren containers loc child is (r.1.setChild i c.1, c.2)) := by
  simp [readChildren, h]

/-- The loop of the heap reader is the loop of both. -/
theorem deserialize_succ (d loc : ℕ) : onHeap (deserialize containers (d + 1) loc) =
    readChildren containers loc (fun next => onHeap (deserialize containers d next)) order (noChildren, loc + 1) := by
  have herror : ∀ (is : List (Fin 4)) (e : Exn) (s : IStream),
      is.foldl (deserializeChild containers loc (d := d)) (.error e, s) = (.error e, s) := by
    intro is e s
    induction is with
    | nil => rfl
    | cons i is ih => exact ih
  have key : ∀ (is : List (Fin 4)) (r : K2Node (d + 1) × ℕ) (s : IStream),
      is.foldl (deserializeChild containers loc) (.ok r, s) =
        readChildren containers loc (fun next => onHeap (deserialize containers d next)) is r s := by
    intro is
    induction is with
    | nil => exact fun r s => rfl
    | cons i is ih =>
      intro r s
      rw [List.foldl_cons, deserializeChild]
      cases hbit : childBit containers loc i with
      | false =>
        rw [readChildren_skip hbit]
        simp only [Bool.false_eq_true, if_false]
        exact ih r s
      | true =>
        rw [readChildren_read hbit]
        simp only [if_true]
        rcases hc : deserialize containers d r.2 s with ⟨_ | c, s'⟩
        · have hc' : onHeap (deserialize containers d r.2) s = (.error _, s') := hc
          rw [Act.bind_error hc']
          exact herror is _ s'
        · have hc' : onHeap (deserialize containers d r.2) s = (.ok c, s') := hc
          rw [Act.bind_ok hc']
          exact ih _ s'
  funext s
  exact key order (noChildren, loc + 1) s

/-- The bytes of a node whose children are being read. -/
theorem memory_setChild {d : ℕ} {node : K2Node (d + 1)} {i : Fin 4} (h : node.child i = none) (c : K2Node d) :
    (node.setChild i c).memory size (d + 1) = node.memory size (d + 1) + c.memory size d := by
  have hcases : ∀ j : Fin 4, j = 0 ∨ j = 1 ∨ j = 2 ∨ j = 3 := by decide
  obtain rfl | rfl | rfl | rfl := hcases i
  all_goals
    simp [memory, order, child_setChild, h]
    omega

/-- What was written is ahead, and the bitmap shows it. -/
def Written (containers : List UInt32) (m t : UInt32) (d loc : ℕ) (s : IStream) (node : K2Node d) : Prop :=
  AllLeaves (fun b => b.Fits ∧ b.count < 2 ^ 32) d node ∧ Shown containers loc (masks d node) ∧ s.Ahead (leafBytes m t d node)

/-- **The readers of the nodes in step.** -/
theorem metered_deserialize (m t : UInt32) (d loc : ℕ) (s : IStream) :
    Metered (onHeap (deserialize containers d loc)) (deserializeSegment size containers d loc)
      (fun c n => Block.LeftAlone size (∃ node, Written containers m t d loc s node) (c.1.memory size d) n) s := by
  induction d generalizing loc s with
  | zero =>
    have heq : onHeap (deserialize containers 0 loc) = (do
        let b ← onHeap Block.readTree
        pure (ofBlock b, loc) : Act Exn IStream (K2Node 0 × ℕ)) := by
      funext s
      show deserialize containers 0 loc s = _
      rcases hb : Block.readTree s with ⟨_ | b, s'⟩
      · have hb' : onHeap Block.readTree s = (.error _, s') := hb
        rw [Act.bind_error hb']
        simp only [deserialize, hb]
      · have hb' : onHeap Block.readTree s = (.ok b, s') := hb
        rw [Act.bind_ok hb']
        simp only [deserialize, hb]
        rfl
    rw [heq]
    unfold deserializeSegment
    refine Metered.require (fun _ _ => rfl) ?_
    refine (Block.metered_readTree s m t).bind fun b s₁ n₁ hread h₁ => ?_
    refine Metered.require (fun _ _ => rfl) (metered_pure ?_)
    obtain ⟨left, hn, hleft⟩ := h₁
    refine ⟨left, ?_, ?_⟩
    · show _ = size.k2node + (size.block + b.memory size) + _
      omega
    · rintro ⟨node, hfull, -, hs⟩
      obtain ⟨b', rfl, hfit, hcount⟩ := hfull
      exact hleft ⟨b', hfit, hcount, hs⟩
  | succ d ih =>
    -- what is left of a written node while its children are read
    let Rest (is : List (Fin 4)) (r : K2Node (d + 1) × ℕ) (s : IStream) (node : K2Node (d + 1)) : Prop :=
      AllLeaves (fun b => b.Fits ∧ b.count < 2 ^ 32) (d + 1) node ∧
        (∀ i, childBit containers loc i = (node.child i).isSome) ∧
        Shown containers r.2 (is.flatMap fun i => ((node.child i).map (masks d)).getD []) ∧
        s.Ahead (is.flatMap fun i => ((node.child i).map (leafBytes m t d)).getD [])
    have key : ∀ (is : List (Fin 4)) (r : K2Node (d + 1) × ℕ) (s : IStream), is.Nodup → (∀ i ∈ is, r.1.child i = none) →
        Metered (readChildren containers loc (fun next => onHeap (deserialize containers d next)) is r)
          (readChildren containers loc (deserializeSegment size containers d) is r)
          (fun r' n => ∃ left : List Block, r'.1.memory size (d + 1) + Block.memoryAll size left =
            r.1.memory size (d + 1) + n ∧ ((∃ node, Rest is r s node) → left = [])) s := by
      intro is
      induction is with
      | nil => exact fun r s _ _ => metered_pure ⟨[], rfl, fun _ => rfl⟩
      | cons i is ihis =>
        intro r s hnodup hnone
        obtain ⟨hi, hnodup⟩ := List.nodup_cons.1 hnodup
        cases hbit : childBit containers loc i with
        | false =>
          rw [readChildren_skip hbit, readChildren_skip hbit]
          refine (ihis r s hnodup fun j hj => hnone j (List.mem_cons_of_mem _ hj)).mono fun r' s' n _ hn => ?_
          obtain ⟨left, hmem, hleft⟩ := hn
          refine ⟨left, hmem, ?_⟩
          rintro ⟨node, hfull, hmask, hshown, hs⟩
          have hnode : node.child i = none := by
            rw [hmask] at hbit
            simpa using hbit
          rw [List.flatMap_cons, hnode] at hshown hs
          exact hleft ⟨node, hfull, hmask, hshown, hs⟩
        | true =>
          rw [readChildren_read hbit, readChildren_read hbit]
          refine (ih r.2 s).bind fun c s₁ n₁ hread h₁ => ?_
          have hnone' : ∀ j ∈ is, (r.1.setChild i c.1).child j = none := by
            intro j hj
            rw [child_setChild, if_neg (by rintro rfl; exact hi hj)]
            exact hnone j (List.mem_cons_of_mem _ hj)
          refine (ihis (r.1.setChild i c.1, c.2) s₁ hnodup hnone').mono fun r' s' n _ hn => ?_
          obtain ⟨left₁, hmem₁, hleft₁⟩ := h₁
          obtain ⟨left, hmem, hleft⟩ := hn
          rw [memory_setChild (hnone i List.mem_cons_self)] at hmem
          refine ⟨left₁ ++ left, ?_, ?_⟩
          · rw [Block.memoryAll_append]
            omega
          · rintro ⟨node, hfull, hmask, hshown, hs⟩
            obtain ⟨child, hnode⟩ : ∃ child, node.child i = some child := by
              rw [hmask] at hbit
              exact Option.isSome_iff_exists.1 hbit
            rw [List.flatMap_cons, hnode] at hshown hs
            have hchild := deserialize_spec m t d child (hfull i child hnode) r.2 s hshown.left hs.left
            obtain ⟨hc, rfl⟩ := Prod.mk.inj (hchild.symm.trans hread)
            obtain rfl := Except.ok.inj hc
            rw [hleft₁ ⟨child, hfull i child hnode, hshown.left, hs.left⟩,
              hleft ⟨node, hfull, hmask, hshown.right, hs.right⟩]
            rfl
    rw [deserialize_succ]
    unfold deserializeSegment
    refine Metered.require (fun _ _ => rfl) ?_
    refine (key order (noChildren, loc + 1) s (by decide) fun _ _ => rfl).mono fun r' s' n _ hn => ?_
    obtain ⟨left, hmem, hleft⟩ := hn
    have hnew : (noChildren : K2Node (d + 1)).memory size (d + 1) = size.k2node := by
      simp [memory, order]
    refine ⟨left, by dsimp only at hmem; omega, ?_⟩
    rintro ⟨node, hfull, hshown, hs⟩
    refine hleft ⟨node, hfull, fun i => hshown 0 (by simp [masks]) i, ?_, hs⟩
    have hcons : Shown containers loc ([fun i => (node.child i).isSome] ++
        order.flatMap fun i => ((node.child i).map (masks d)).getD []) := hshown
    exact hcons.right

end K2Node

/-! ## What is handed out -/

/-- **The ranges lie in the segment**, from where it stood, piece behind piece. -/
structure Lays (g : MemorySegment) (r : SegmentReader) : Prop where
  data : r.segment.data = g.data
  size : r.segment.sizeBytes = g.sizeBytes
  bounded : r.segment.bytePosition ≤ g.sizeBytes
  total : g.bytePosition + (r.handed.map Prod.snd).sum = r.segment.bytePosition
  inside : ∀ h ∈ r.handed, g.data + g.bytePosition ≤ h.1 ∧ h.1 + h.2 ≤ g.data + r.segment.bytePosition
  apart : r.handed.Pairwise fun h h' => h'.1 + h'.2 ≤ h.1

section Lays

variable {g : MemorySegment} {size : SizeOf}

theorem Lays.start {s : IStream} (hg : g.bytePosition ≤ g.sizeBytes) : Lays g ⟨s, g, []⟩ :=
  ⟨rfl, rfl, hg, rfl, nofun, List.Pairwise.nil⟩

theorem keeps_require (n : ℕ) : Act.Keeps (Lays g) (SegmentReader.require n) := by
  intro r h
  rcases Nat.eq_zero_or_pos n with rfl | hn
  · exact h
  by_cases hfits : r.segment.bytePosition + n ≤ r.segment.sizeBytes
  · rw [require_fits hn hfits]
    obtain ⟨h1, h2, h3, h4, h5, h6⟩ := h
    rw [h1]
    refine ⟨h1, h2, ?_, ?_, ?_, ?_⟩
    · show r.segment.bytePosition + n ≤ g.sizeBytes
      omega
    · simp only [List.map_cons, List.sum_cons, advance]
      omega
    · intro range hr
      simp only [advance]
      rcases List.mem_cons.1 hr with rfl | hr
      · dsimp only
        omega
      · have hin := h5 range hr
        omega
    · exact List.pairwise_cons.2 ⟨fun range hr => (h5 range hr).2, h6⟩
  · rw [require_fails hn (by omega)]
    exact h

theorem keeps_read {α : Type} (f : IStream → α × IStream) : Act.Keeps (Lays g) (read f) :=
  fun _ h => ⟨h.data, h.size, h.bounded, h.total, h.inside, h.apart⟩

theorem keeps_allocated {α : Type} {count : ℕ} {ptr : Option ℕ} {what : String} {y : Act Thrown SegmentReader α}
    (hy : Act.Keeps (Lays g) y) : Act.Keeps (Lays g) (Block.allocated count ptr what y) := by
  unfold Block.allocated
  split
  · exact Act.keeps_throw _
  · exact hy

theorem keeps_readFieldsSegment : Act.Keeps (Lays g) (Block.readFieldsSegment size) := by
  unfold Block.readFieldsSegment
  refine (keeps_read _).bind fun _ => (keeps_read _).bind fun _ => (keeps_read _).bind fun _ => ?_
  refine (keeps_require _).bind fun _ => (keeps_require _).bind fun _ => keeps_allocated (keeps_allocated ?_)
  refine (keeps_read _).bind fun _ => (keeps_require _).bind fun _ => keeps_allocated ?_
  exact (keeps_read _).bind fun _ => Act.keeps_pure _

theorem keeps_readBlocksSegment (n : ℕ) (blocks : List Block) :
    Act.Keeps (Lays g) (Block.readBlocksSegment size n blocks) := by
  induction n generalizing blocks with
  | zero => exact Act.keeps_pure _
  | succ n ih =>
    unfold Block.readBlocksSegment
    refine keeps_readFieldsSegment.bind fun f => ?_
    split
    · exact Act.keeps_throw _
    · exact ih _

theorem keeps_readTreeSegment : Act.Keeps (Lays g) (Block.readTreeSegment size) := by
  unfold Block.readTreeSegment
  refine (keeps_read _).bind fun _ => (keeps_read _).bind fun _ => (keeps_read _).bind fun _ => ?_
  split
  · exact Act.keeps_throw _
  · refine (keeps_readBlocksSegment _ _).bind fun blocks => ?_
    split
    · exact Act.keeps_throw _
    · exact Act.keeps_pure _

theorem keeps_readChildren {d : ℕ} {containers : List UInt32} {loc : ℕ}
    {child : ℕ → Act Thrown SegmentReader (K2Node d × ℕ)} (hchild : ∀ next, Act.Keeps (Lays g) (child next))
    (is : List (Fin 4)) (r : K2Node (d + 1) × ℕ) : Act.Keeps (Lays g) (K2Node.readChildren containers loc child is r) := by
  induction is generalizing r with
  | nil => exact Act.keeps_pure _
  | cons i is ih =>
    unfold K2Node.readChildren
    split
    · exact (hchild _).bind fun _ => ih _
    · exact ih _

theorem keeps_deserializeSegment (containers : List UInt32) (d loc : ℕ) :
    Act.Keeps (Lays g) (K2Node.deserializeSegment size containers d loc) := by
  induction d generalizing loc with
  | zero =>
    unfold K2Node.deserializeSegment
    exact (keeps_require _).bind fun _ => keeps_readTreeSegment.bind fun _ => (keeps_require _).bind fun _ => Act.keeps_pure _
  | succ d ih =>
    unfold K2Node.deserializeSegment
    exact (keeps_require _).bind fun _ => keeps_readChildren ih _ _

theorem keeps_readFromIstreamSegment : Act.Keeps (Lays g) (K2TreeMixed.readFromIstreamSegment size) := by
  unfold K2TreeMixed.readFromIstreamSegment
  refine (keeps_read _).bind fun _ => (keeps_read _).bind fun _ => (keeps_read _).bind fun _ => ?_
  refine (keeps_read _).bind fun _ => (keeps_read _).bind fun _ => (keeps_read _).bind fun _ => ?_
  exact (keeps_deserializeSegment _ _ _).bind fun _ => Act.keeps_pure _

end Lays

/-! ## Trees -/

namespace K2TreeMixed

variable {size : SizeOf}

/-- A tree whose numbers fit their encodings. -/
def Encodable (t : K2TreeMixed) : Prop :=
  t.Writable ∧ K2Node.AllLeaves (fun b => b.count < 2 ^ 32) t.cutDepth.toNat t.root

theorem metered_readFromIstream (size : SizeOf) (s : IStream) :
    Metered (onHeap readFromIstream) (readFromIstreamSegment size)
      (fun t n => Block.LeftAlone size (∃ t' : K2TreeMixed, t'.Encodable ∧ s.Ahead t'.toBytes) (t.memory size) n) s := by
  have heq : onHeap readFromIstream = (do
      let pointsCount ← reading IStream.readU64
      let treeDepth ← reading IStream.readU32
      let cutDepth ← reading IStream.readU32
      let maxNodesCount ← reading IStream.readU32
      let containersCount ← reading IStream.readU32
      let containers ← reading (IStream.readMany IStream.readU32 containersCount.toNat)
      let root ← onHeap (K2Node.deserialize containers cutDepth.toNat 0)
      pure ⟨pointsCount, treeDepth, cutDepth, maxNodesCount, root.1⟩ : Act Exn IStream K2TreeMixed) := by
    funext s
    show readFromIstream s = _
    set s₁ := s.readU64.2 with hs₁
    set s₂ := s₁.readU32.2 with hs₂
    set s₃ := s₂.readU32.2 with hs₃
    set s₄ := s₃.readU32.2 with hs₄
    set s₅ := s₄.readU32.2 with hs₅
    have e₁ : reading IStream.readU64 s = (.ok s.readU64.1, s₁) := rfl
    have e₂ : reading IStream.readU32 s₁ = (.ok s₁.readU32.1, s₂) := rfl
    have e₃ : reading IStream.readU32 s₂ = (.ok s₂.readU32.1, s₃) := rfl
    have e₄ : reading IStream.readU32 s₃ = (.ok s₃.readU32.1, s₄) := rfl
    have e₅ : reading IStream.readU32 s₄ = (.ok s₄.readU32.1, s₅) := rfl
    have e₆ : reading (IStream.readMany IStream.readU32 s₄.readU32.1.toNat) s₅ =
      (.ok (IStream.readMany IStream.readU32 s₄.readU32.1.toNat s₅).1,
        (IStream.readMany IStream.readU32 s₄.readU32.1.toNat s₅).2) := rfl
    rw [Act.bind_ok e₁, Act.bind_ok e₂, Act.bind_ok e₃, Act.bind_ok e₄, Act.bind_ok e₅, Act.bind_ok e₆]
    have hread : readFromIstream s = readRoot s.readU64.1 s₁.readU32.1 s₂.readU32.1 s₃.readU32.1
      (IStream.readMany IStream.readU32 s₄.readU32.1.toNat s₅).1
      (IStream.readMany IStream.readU32 s₄.readU32.1.toNat s₅).2 := rfl
    rw [hread]
    generalize IStream.readMany IStream.readU32 s₄.readU32.1.toNat s₅ = f
    unfold readRoot
    rcases hd : K2Node.deserialize f.1 s₂.readU32.1.toNat 0 f.2 with ⟨_ | root, s'⟩
    · have hd' : onHeap (K2Node.deserialize f.1 s₂.readU32.1.toNat 0) f.2 = (.error _, s') := hd
      rw [Act.bind_error hd']
    · have hd' : onHeap (K2Node.deserialize f.1 s₂.readU32.1.toNat 0) f.2 = (.ok root, s') := hd
      rw [Act.bind_ok hd']
      rfl
  rw [heq]
  unfold readFromIstreamSegment
  refine (metered_read (C := fun _ n => n = 0) rfl).bind fun pointsCount s₁ n₁ e₁ h₁ => ?_
  refine (metered_read (C := fun _ n => n = 0) rfl).bind fun treeDepth s₂ n₂ e₂ h₂ => ?_
  refine (metered_read (C := fun _ n => n = 0) rfl).bind fun cutDepth s₃ n₃ e₃ h₃ => ?_
  refine (metered_read (C := fun _ n => n = 0) rfl).bind fun maxNodesCount s₄ n₄ e₄ h₄ => ?_
  refine (metered_read (C := fun _ n => n = 0) rfl).bind fun containersCount s₅ n₅ e₅ h₅ => ?_
  refine (metered_read (C := fun _ n => n = 0) rfl).bind fun containers s₆ n₆ e₆ h₆ => ?_
  refine (K2Node.metered_deserialize maxNodesCount treeDepth cutDepth.toNat 0 s₆).bind fun root s₇ n₇ _ h₇ => metered_pure ?_
  obtain ⟨left, hn, hleft⟩ := h₇
  refine ⟨left, ?_, ?_⟩
  · show _ = root.1.memory size cutDepth.toNat + _
    omega
  rintro ⟨t, ⟨hw, hcounts⟩, hs⟩
  -- the header is that of the tree
  unfold toBytes at hs
  obtain ⟨-, hsmall, hshown⟩ := containers_spec hw.nodes
  have hlen : (UInt32.ofNat t.containers.length).toNat = t.containers.length :=
    UInt32.toNat_ofNat_of_lt' (by rw [UInt32.size]; omega)
  have r₁ := IStream.reads_readU64 _ s hs.left
  have r₂ := IStream.reads_readU32 _ _ hs.right.left
  have r₃ := IStream.reads_readU32 _ _ hs.right.right.left
  have r₄ := IStream.reads_readU32 _ _ hs.right.right.right.left
  have r₅ := IStream.reads_readU32 _ _ hs.right.right.right.right.left
  have r₆ := IStream.Reads.many (fun a _ => IStream.reads_readU32 a) _ hs.right.right.right.right.right.left
  have hleaves := hs.right.right.right.right.right.right
  obtain rfl := (Prod.mk.inj e₁).2
  rw [r₁] at e₂
  obtain ⟨hd, rfl⟩ := Prod.mk.inj e₂
  rw [r₂] at e₃ hd
  obtain ⟨hc, rfl⟩ := Prod.mk.inj e₃
  rw [r₃] at e₄ hc
  obtain ⟨hm, rfl⟩ := Prod.mk.inj e₄
  rw [r₄] at e₅ hm
  obtain ⟨hk, rfl⟩ := Prod.mk.inj e₅
  rw [r₅] at e₆ hk
  obtain rfl := Except.ok.inj hk
  obtain ⟨hb, rfl⟩ := Prod.mk.inj e₆
  obtain rfl : treeDepth = t.treeDepth := (Except.ok.inj hd).symm
  obtain rfl : cutDepth = t.cutDepth := (Except.ok.inj hc).symm
  obtain rfl : maxNodesCount = t.maxNodesCount := (Except.ok.inj hm).symm
  simp only [hlen] at hb hleft
  rw [r₆] at hb hleft
  obtain rfl : containers = t.containers := (Except.ok.inj hb).symm
  exact hleft ⟨t.root, hw.leaves.and hcounts, hshown, hleaves⟩

/-- **The segment reader makes this tree**, and leaves the stream there, for this many bytes: it
takes them if the segment has them, and else runs out of memory. -/
structure Takes (size : SizeOf) (r : SegmentReader) (t : K2TreeMixed) (s' : IStream) (total : ℕ) : Prop where
  fits : r.segment.bytePosition + total ≤ r.segment.sizeBytes →
    ∃ handed, readFromIstreamSegment size r = (.ok t, ⟨s', r.segment.advance total, handed⟩)
  fails : r.segment.sizeBytes < r.segment.bytePosition + total →
    ∃ needed r', readFromIstreamSegment size r = (.error (.outOfMemory needed r.segment.sizeBytes), r')

/-- **The heap reader and the segment reader agree.** For a tree that was written both make the
tree and stop behind its bytes, and the segment reader takes its `memory`. On any other
stream they agree as well; what it takes on top is for blocks that no block took up. The
ranges it is given lie in the segment, piece behind piece, whatever comes of the call. -/
theorem segment_reader_agrees (size : SizeOf) (g : MemorySegment) (hg : g.bytePosition ≤ g.sizeBytes) (s : IStream) :
    (∀ (t : K2TreeMixed) (written : UInt64) (bytes : Bytes), t.Encodable →
      t.writeToOstream (.atEnd []) = (.ok written, .atEnd bytes) → s.Ahead bytes →
        readFromIstream s = (.ok t, s.skip bytes.length) ∧ Takes size ⟨s, g, []⟩ t (s.skip bytes.length) (t.memory size)) ∧
    (∀ t s', readFromIstream s = (.ok t, s') →
      ∃ left, Takes size ⟨s, g, []⟩ t s' (t.memory size + Block.memoryAll size left)) ∧
    (∀ e s', readFromIstream s = (.error e, s') →
      (readFromIstreamSegment size ⟨s, g, []⟩).1 = .error (.exn e) ∨
        ∃ needed, (readFromIstreamSegment size ⟨s, g, []⟩).1 = .error (.outOfMemory needed g.sizeBytes)) ∧
    Lays g (readFromIstreamSegment size ⟨s, g, []⟩).2 := by
  obtain ⟨n, hn, hat⟩ := metered_readFromIstream size s
  have htakes : ∀ t s', readFromIstream s = (.ok t, s') → Takes size ⟨s, g, []⟩ t s' n := by
    intro t s' hread
    have hheap : onHeap readFromIstream s = (.ok t, s') := hread
    refine ⟨fun hfits => ?_, fun hlt => hat.fails ⟨s, g, []⟩ rfl hg hlt⟩
    obtain ⟨handed, hy⟩ := hat.fits ⟨s, g, []⟩ rfl hfits
    rw [hheap] at hy
    exact ⟨handed, hy⟩
  refine ⟨fun t written bytes ht hwrite hs => ?_, fun t s' hread => ?_, fun e s' hread => ?_,
    keeps_readFromIstreamSegment _ (.start hg)⟩
  · obtain rfl : bytes = t.toBytes := by
      have hspec := hwrite.symm.trans (writeToOstream_spec ht.1 [])
      exact congrArg (fun r : Except Exn UInt64 × OStream => r.2.buf) hspec
    have hread := readFromIstream_toBytes ht.1 ht.2 s hs
    obtain ⟨left, hleft, hwritten⟩ := hn t _ hread
    rw [hwritten ⟨t, ht, hs⟩] at hleft
    obtain rfl : n = t.memory size := hleft
    exact ⟨hread, htakes t _ hread⟩
  · obtain ⟨left, rfl, -⟩ := hn t s' hread
    exact ⟨left, htakes t s' hread⟩
  · have hheap : onHeap readFromIstream s = (.error e, s') := hread
    by_cases hfits : g.bytePosition + n ≤ g.sizeBytes
    · obtain ⟨handed, hy⟩ := hat.fits ⟨s, g, []⟩ rfl hfits
      rw [hheap] at hy
      exact .inl (by rw [hy]; rfl)
    · obtain ⟨needed, r', hy⟩ := hat.fails ⟨s, g, []⟩ rfl hg (by dsimp only; omega)
      exact .inr ⟨needed, by rw [hy]⟩

/-- The sizes of a machine with 8-byte pointers. -/
def wordSizes : SizeOf := ⟨32, 40, 2, 4, by decide, by decide, by decide, by decide⟩

/-- The tree of two levels: two nodes, a root block, and the arrays of a chain of four blocks. -/
theorem segment_reader_agrees_twoLevels :
    (MemorySegment.construct 4096 246).bytePosition ≤ (MemorySegment.construct 4096 246).sizeBytes ∧
      Takes wordSizes ⟨.ofBytes twoLevels.toBytes, .construct 4096 246, []⟩ twoLevels
        ((IStream.ofBytes twoLevels.toBytes).skip twoLevels.toBytes.length) (twoLevels.memory wordSizes) ∧
      twoLevels.memory wordSizes = 246 :=
  ⟨by decide,
    ((segment_reader_agrees wordSizes (.construct 4096 246) (by decide) (.ofBytes twoLevels.toBytes)).1 twoLevels _ _
      ⟨twoLevels_writable, twoLevels_counts⟩ (writeToOstream_spec twoLevels_writable []) (IStream.ahead_self _)).2,
    by decide⟩

end K2TreeMixed

end K2Cache
