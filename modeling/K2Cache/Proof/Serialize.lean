import K2Cache.Proof.Blocks

/-!
# Trees are read back

The bitmap has, in pre-order, four bits per inner node (`masks`); the writer sets them
location by location, over words that are zero (`serialize_spec`), and the reader, which
meets the nodes in the same order, finds them (`deserialize_spec`). Between the nodes it
reads the block trees of the leaves, in the order they were written.

`readFromIstream_writeToOstream`: a tree is read back, from whatever follows its bytes.
-/

namespace K2Cache

open Lib

namespace K2Node

/-! ## What is written -/

/-- The children of the inner nodes, in pre-order. -/
def masks : (d : ℕ) → K2Node d → List (Fin 4 → Bool)
  | 0, _ => []
  | d + 1, node => (fun i => (node.child i).isSome) :: order.flatMap fun i => ((node.child i).map (masks d)).getD []

/-- The block trees of the leaves. -/
def leafBytes (m t : UInt32) : (d : ℕ) → K2Node d → Bytes
  | 0, node => (node.blockChild.map (Block.treeBytes m t)).getD []
  | d + 1, node => order.flatMap fun i => ((node.child i).map (leafBytes m t d)).getD []

/-- **Every leaf at the cut depth holds a block tree**, one that `P` holds of. -/
def AllLeaves (P : Block → Prop) : (d : ℕ) → K2Node d → Prop
  | 0, node => ∃ b, node = ofBlock b ∧ P b
  | d + 1, node => ∀ i child, node.child i = some child → AllLeaves P d child

theorem AllLeaves.and {P Q : Block → Prop} {d : ℕ} {node : K2Node d} (hP : AllLeaves P d node)
    (hQ : AllLeaves Q d node) : AllLeaves (fun b => P b ∧ Q b) d node := by
  induction d with
  | zero =>
    obtain ⟨b, rfl, hb⟩ := hP
    obtain ⟨b', heq, hb'⟩ := hQ
    cases heq
    exact ⟨b, rfl, hb, hb'⟩
  | succ d ih =>
    intro i child hchild
    exact ih (hP i child hchild) (hQ i child hchild)

theorem countWchildren_eq (d : ℕ) (node : K2Node d) : node.countWchildren d = (masks d node).length := by
  induction d with
  | zero => rfl
  | succ d ih =>
    rw [countWchildren, masks, List.length_cons, List.length_flatMap]
    congr 2
    refine List.map_congr_left fun i _ => ?_
    cases node.child i with
    | none => rfl
    | some child => exact ih child

/-! ## The bitmap -/

theorem childBit_eq (data : List UInt32) (loc : ℕ) (i : Fin 4) : childBit data loc i = Bitmap.bit data (4 * loc + i) := by
  have hi := i.isLt
  have hw : (4 * loc + i) / 32 = 4 * loc / 32 := by omega
  have hb : (4 * loc + i) % 32 = 4 * loc % 32 + i := by omega
  rw [childBit, Bitmap.bit, hw, hb]

/-- The bits after those of one node are set. -/
theorem markChildren_spec {d : ℕ} (node : K2Node (d + 1)) {loc : ℕ} {data : List UInt32}
    (hroom : 4 * (loc + 1) ≤ 32 * data.length) :
    (markChildren node loc data).length = data.length ∧ ∀ l i, childBit (markChildren node loc data) l i =
      ((decide (l = loc) && (node.child i).isSome) || childBit data l i) := by
  have key : ∀ (is : List (Fin 4)) (data : List UInt32), 4 * (loc + 1) ≤ 32 * data.length →
      (is.foldl (fun data i => if (node.child i).isSome then
          data.modify (4 * loc / 32) (· ||| Bitmap.mask (31 - (4 * loc % 32 + i))) else data) data).length = data.length ∧
      ∀ l i, childBit (is.foldl (fun data i => if (node.child i).isSome then
          data.modify (4 * loc / 32) (· ||| Bitmap.mask (31 - (4 * loc % 32 + i))) else data) data) l i =
        ((decide (l = loc) && (decide (i ∈ is) && (node.child i).isSome)) || childBit data l i) := by
    intro is
    induction is with
    | nil => intro data _; simp
    | cons j is ih =>
      intro data hroom
      have hj := j.isLt
      -- one bit is set, at the place of the child
      have hset : data.modify (4 * loc / 32) (· ||| Bitmap.mask (31 - (4 * loc % 32 + j))) =
          Bitmap.setBit data (4 * loc + j) := by
        have hw : (4 * loc + j) / 32 = 4 * loc / 32 := by omega
        have hb : (4 * loc + j) % 32 = 4 * loc % 32 + j := by omega
        rw [Bitmap.setBit, hw, hb]
      rw [List.foldl_cons, hset]
      cases hsome : (node.child j).isSome with
      | false =>
        obtain ⟨h1, h2⟩ := ih data hroom
        refine ⟨by simpa using h1, fun l i => ?_⟩
        have h3 := h2 l i
        simp only [Bool.false_eq_true, if_false]
        rw [h3]
        by_cases hij : i = j
        · subst hij
          simp [hsome]
        · simp [hij]
      | true =>
        obtain ⟨h1, h2⟩ := ih (Bitmap.setBit data (4 * loc + j)) (by simpa using hroom)
        refine ⟨by simpa using h1, fun l i => ?_⟩
        have h3 := h2 l i
        simp only [if_true]
        rw [h3, childBit_eq, childBit_eq, Bitmap.bit_setBit (by omega)]
        have hi := i.isLt
        have hsame : decide (4 * l + (i : ℕ) = 4 * loc + j) = (decide (l = loc) && decide (i = j)) := by
          rw [← Bool.decide_and]
          apply decide_eq_decide.2
          constructor
          · intro h
            exact ⟨by omega, Fin.ext (by omega)⟩
          · rintro ⟨rfl, rfl⟩
            rfl
        rw [hsame]
        by_cases hij : i = j
        · subst hij
          cases decide (l = loc) <;> simp [hsome]
        · simp [hij]
  obtain ⟨h1, h2⟩ := key order data hroom
  refine ⟨h1, fun l i => ?_⟩
  have hmem : i ∈ order := by
    fin_cases i <;> decide
  have h3 := h2 l i
  simp only [hmem, decide_true, Bool.true_and] at h3
  exact h3

/-- The masks of some nodes, laid down from a location on. -/
structure Laid (data data' : List UInt32) (loc : ℕ) (ms : List (Fin 4 → Bool)) : Prop where
  length : data'.length = data.length
  before : ∀ l < loc, ∀ i, childBit data' l i = childBit data l i
  here : ∀ k (h : k < ms.length) i, childBit data' (loc + k) i = ms[k] i
  after : ∀ l, loc + ms.length ≤ l → ∀ i, childBit data' l i = false

theorem Laid.trans {data data₁ data₂ : List UInt32} {loc : ℕ} {ms ms' : List (Fin 4 → Bool)} (h : Laid data data₁ loc ms)
    (h' : Laid data₁ data₂ (loc + ms.length) ms') : Laid data data₂ loc (ms ++ ms') := by
  refine ⟨h'.length.trans h.length, fun l hl i => ?_, fun k hk i => ?_, fun l hl i => ?_⟩
  · rw [h'.before l (by omega), h.before l hl]
  · by_cases hkm : k < ms.length
    · rw [h'.before _ (by omega), h.here k hkm, List.getElem_append_left hkm]
    · have := h'.here (k - ms.length) (by rw [List.length_append] at hk; omega) i
      rw [show loc + ms.length + (k - ms.length) = loc + k by omega] at this
      rw [this, List.getElem_append_right (by omega)]
  · exact h'.after l (by rw [List.length_append] at hl; omega) i

/-- A round of the loop of `serialize`. -/
def serializeChild {d : ℕ} (node : K2Node (d + 1)) (st : List UInt32 × ℕ) (i : Fin 4) : List UInt32 × ℕ :=
  match node.child i with
  | none => st
  | some child => serialize d child st

/-- **The writer lays down the masks of a tree.** -/
theorem serialize_spec (d : ℕ) (node : K2Node d) (data : List UInt32) (loc : ℕ)
    (hroom : 4 * (loc + (masks d node).length) ≤ 32 * data.length)
    (hclean : ∀ l, loc ≤ l → ∀ i, childBit data l i = false) :
    (serialize d node (data, loc)).2 = loc + (masks d node).length ∧
      Laid data (serialize d node (data, loc)).1 loc (masks d node) := by
  induction d generalizing data loc with
  | zero => exact ⟨rfl, rfl, fun _ _ _ => rfl, fun k hk => absurd hk (by simp [masks]), fun l hl i => hclean l hl i⟩
  | succ d ih =>
    -- the children that follow lay down theirs one after the other
    have key : ∀ (is : List (Fin 4)) (data : List UInt32) (loc : ℕ),
        4 * (loc + (is.flatMap fun i => ((node.child i).map (masks d)).getD []).length) ≤ 32 * data.length →
        (∀ l, loc ≤ l → ∀ i, childBit data l i = false) →
        (is.foldl (serializeChild node) (data, loc)).2 =
            loc + (is.flatMap fun i => ((node.child i).map (masks d)).getD []).length ∧
        Laid data (is.foldl (serializeChild node) (data, loc)).1 loc
            (is.flatMap fun i => ((node.child i).map (masks d)).getD []) := by
      intro is
      induction is with
      | nil =>
        intro data loc _ hclean
        exact ⟨rfl, rfl, fun _ _ _ => rfl, fun k hk => absurd hk (by simp), fun l hl i => hclean l hl i⟩
      | cons j is ihis =>
        intro data loc hroom hclean
        rw [List.foldl_cons, serializeChild]
        cases hj : node.child j with
        | none =>
          have hnil : ((j :: is).flatMap fun i => ((node.child i).map (masks d)).getD []) =
              is.flatMap fun i => ((node.child i).map (masks d)).getD [] := by
            rw [List.flatMap_cons, hj]
            rfl
          rw [hnil] at hroom ⊢
          exact ihis data loc hroom hclean
        | some child =>
          have hcons : ((j :: is).flatMap fun i => ((node.child i).map (masks d)).getD []) =
              masks d child ++ is.flatMap fun i => ((node.child i).map (masks d)).getD [] := by
            rw [List.flatMap_cons, hj]
            rfl
          rw [hcons, List.length_append] at hroom
          rw [hcons, List.length_append]
          obtain ⟨h1, h2⟩ := ih child data loc (by omega) hclean
          simp only
          generalize serialize d child (data, loc) = r at h1 h2 ⊢
          obtain ⟨data₁, loc₁⟩ := r
          obtain rfl : loc₁ = loc + (masks d child).length := h1
          obtain ⟨h3, h4⟩ := ihis data₁ (loc + (masks d child).length) (by rw [h2.length]; omega) h2.after
          exact ⟨h3.trans (Nat.add_assoc _ _ _), h2.trans h4⟩
    rw [masks, List.length_cons] at hroom
    obtain ⟨h1, h2⟩ := markChildren_spec node (show 4 * (loc + 1) ≤ 32 * data.length by omega)
    have hlaid : Laid data (markChildren node loc data) loc [fun i => (node.child i).isSome] := by
      refine ⟨h1, fun l hl i => ?_, fun k hk i => ?_, fun l hl i => ?_⟩
      · rw [h2, decide_eq_false (by omega)]
        rfl
      · obtain rfl : k = 0 := by simpa using hk
        rw [h2, Nat.add_zero, hclean loc le_rfl]
        simp
      · rw [List.length_singleton] at hl
        rw [h2, decide_eq_false (by omega), hclean l (by omega)]
        rfl
    obtain ⟨h3, h4⟩ := key order (markChildren node loc data) (loc + 1) (by rw [h1]; omega)
      (fun l hl i => hlaid.after l hl i)
    have hser : serialize (d + 1) node (data, loc) =
      order.foldl (serializeChild node) (markChildren node loc data, loc + 1) := rfl
    rw [hser, masks]
    refine ⟨?_, hlaid.trans h4⟩
    rw [h3, List.length_cons]
    omega

/-! ## Writing the leaves -/

/-- A round of the loop of `writeBlocks`. -/
def writeChild (m t : UInt32) {d : ℕ} (node : K2Node (d + 1)) (r : Except Exn UInt64 × OStream) (i : Fin 4) :
    Except Exn UInt64 × OStream :=
  match r.1, node.child i with
  | .ok bytesWritten, some child =>
    let w := writeBlocks m t d child r.2
    (w.1.map (bytesWritten + ·), w.2)
  | _, _ => r

theorem writeBlocks_spec (m t : UInt32) {P : Block → Prop} (d : ℕ) (node : K2Node d) (h : AllLeaves P d node)
    (pre : Bytes) : writeBlocks m t d node (.atEnd pre) =
      (.ok (UInt64.ofNat (leafBytes m t d node).length), .atEnd (pre ++ leafBytes m t d node)) := by
  induction d generalizing pre with
  | zero =>
    obtain ⟨b, rfl, -⟩ := h
    simp only [writeBlocks, Block.writeTree_spec, leafBytes]
    rfl
  | succ d ih =>
    have key : ∀ (is : List (Fin 4)) (w : UInt64) (pre : Bytes),
        is.foldl (writeChild m t node) (.ok w, .atEnd pre) =
        (.ok (w + UInt64.ofNat (is.flatMap fun i => ((node.child i).map (leafBytes m t d)).getD []).length),
          .atEnd (pre ++ is.flatMap fun i => ((node.child i).map (leafBytes m t d)).getD [])) := by
      intro is
      induction is with
      | nil => intro w pre; simp
      | cons j is ihis =>
        intro w pre
        rw [List.foldl_cons, writeChild]
        cases hj : node.child j with
        | none =>
          simp only [List.flatMap_cons, hj, Option.map_none, Option.getD_none, List.nil_append]
          exact ihis w pre
        | some child =>
          simp only [List.flatMap_cons, hj, Option.map_some, Option.getD_some, ih child (h j child hj) pre]
          rw [Except.map, ihis, List.length_append, UInt64.ofNat_add, UInt64.add_assoc, List.append_assoc]
    refine (key order 0 pre).trans ?_
    simp [leafBytes]

/-! ## Reading -/

/-- The bitmap shows these masks from a location on. -/
def Shown (containers : List UInt32) (loc : ℕ) (ms : List (Fin 4 → Bool)) : Prop :=
  ∀ k (h : k < ms.length) i, childBit containers (loc + k) i = ms[k] i

theorem Shown.left {containers : List UInt32} {loc : ℕ} {ms ms' : List (Fin 4 → Bool)}
    (h : Shown containers loc (ms ++ ms')) : Shown containers loc ms := by
  intro k hk i
  rw [h k (by rw [List.length_append]; omega), List.getElem_append_left hk]

theorem Shown.right {containers : List UInt32} {loc : ℕ} {ms ms' : List (Fin 4 → Bool)}
    (h : Shown containers loc (ms ++ ms')) : Shown containers (loc + ms.length) ms' := by
  intro k hk i
  have := h (ms.length + k) (by rw [List.length_append]; omega) i
  rw [← Nat.add_assoc] at this
  rw [this, List.getElem_append_right (by omega)]
  exact congrFun (getElem_congr_idx (by omega)) i

/-- A round of the loop of `deserialize`. -/
def deserializeChild (containers : List UInt32) (loc : ℕ) {d : ℕ} (r : Except Exn (K2Node (d + 1) × ℕ) × IStream) (i : Fin 4) :
    Except Exn (K2Node (d + 1) × ℕ) × IStream :=
  match r.1 with
  | .error _ => r
  | .ok (node, next) =>
    if childBit containers loc i then
      match deserialize containers d next r.2 with
      | (.error e, s) => (.error e, s)
      | (.ok (child, next), s) => (.ok (node.setChild i child, next), s)
    else r

/-- **The reader finds the tree.** -/
theorem deserialize_spec (m t : UInt32) {containers : List UInt32} (d : ℕ) (node : K2Node d)
    (hfull : AllLeaves (fun b => b.Fits ∧ b.count < 2 ^ 32) d node) (loc : ℕ) (s : IStream)
    (hshown : Shown containers loc (masks d node)) (hs : s.Ahead (leafBytes m t d node)) :
    deserialize containers d loc s =
      (.ok (node, loc + (masks d node).length), s.skip (leafBytes m t d node).length) := by
  induction d generalizing loc s with
  | zero =>
    obtain ⟨b, rfl, hfit, hcount⟩ := hfull
    have hread := Block.readTree_reads m t hfit hcount s hs
    simp only [deserialize, hread, masks]
    rfl
  | succ d ih =>
    have hmask : ∀ i, childBit containers loc i = (node.child i).isSome := by
      intro i
      exact hshown 0 (by simp [masks]) i
    -- the children that are still to be read
    have key : ∀ (is : List (Fin 4)) (acc : K2Node (d + 1)) (next : ℕ) (s : IStream), is.Nodup →
        (∀ j ∈ is, acc.child j = none) → (∀ j, j ∉ is → acc.child j = node.child j) →
        Shown containers next (is.flatMap fun i => ((node.child i).map (masks d)).getD []) →
        s.Ahead (is.flatMap fun i => ((node.child i).map (leafBytes m t d)).getD []) →
        is.foldl (deserializeChild containers loc) (.ok (acc, next), s) =
        (.ok (node, next + (is.flatMap fun i => ((node.child i).map (masks d)).getD []).length),
          s.skip (is.flatMap fun i => ((node.child i).map (leafBytes m t d)).getD []).length) := by
      intro is
      induction is with
      | nil =>
        intro acc next s _ _ hacc _ _
        have : acc = node := ext_child fun j => hacc j (by simp)
        simp [this]
      | cons j is ihis =>
        intro acc next s hnodup hnone hacc hshown hs
        obtain ⟨hj, hnodup⟩ := List.nodup_cons.1 hnodup
        rw [List.foldl_cons, deserializeChild]
        cases hnode : node.child j with
        | none =>
          simp only [List.flatMap_cons, hnode, Option.map_none, Option.getD_none, List.nil_append] at hshown hs ⊢
          have hbit : childBit containers loc j = false := by rw [hmask, hnode]; rfl
          simp only [hbit, Bool.false_eq_true, if_false]
          refine ihis acc next s hnodup (fun i hi => hnone i (List.mem_cons_of_mem _ hi)) (fun i hi => ?_) hshown hs
          by_cases hij : i = j
          · rw [hij, hnode]
            exact hnone j List.mem_cons_self
          · exact hacc i (by simp [hij, hi])
        | some child =>
          simp only [List.flatMap_cons, hnode, Option.map_some, Option.getD_some] at hshown hs ⊢
          have hchild := ih child (hfull j child hnode) next s hshown.left hs.left
          have hbit : childBit containers loc j = true := by rw [hmask, hnode]; rfl
          simp only [hbit, if_true, hchild]
          rw [ihis (acc.setChild j child) _ _ hnodup ?_ ?_ hshown.right hs.right]
          · simp only [List.length_append, Nat.add_assoc, IStream.skip_skip]
          · intro i hi
            rw [child_setChild, if_neg (by rintro rfl; exact hj hi)]
            exact hnone i (List.mem_cons_of_mem _ hi)
          · intro i hi
            by_cases hij : i = j
            · subst hij
              rw [child_setChild, if_pos rfl, hnode]
            · rw [child_setChild, if_neg hij]
              exact hacc i (by simp [hij, hi])
    have hrest : Shown containers (loc + 1) (order.flatMap fun i => ((node.child i).map (masks d)).getD []) := by
      have : Shown containers loc ([fun i => (node.child i).isSome] ++
        order.flatMap fun i => ((node.child i).map (masks d)).getD []) := hshown
      exact this.right
    have hall : ∀ j : Fin 4, j ∈ order := by decide
    refine (key order noChildren (loc + 1) s (by decide) (fun _ _ => rfl) (fun j hj => absurd (hall j) hj) hrest hs).trans ?_
    simp only [masks, leafBytes, List.length_cons]
    congr 3
    omega

end K2Node

/-! ## Trees -/

namespace K2TreeMixed

/-- The bitmap as it is written. -/
def containers (t : K2TreeMixed) : List UInt32 :=
  (t.root.serialize t.cutDepth.toNat
    (List.replicate (containersCount (t.root.countWchildren t.cutDepth.toNat)).toNat 0, 0)).1

/-- The bytes of a tree. -/
def toBytes (t : K2TreeMixed) : Bytes :=
  u64Bytes t.pointsCount ++ (u32Bytes t.treeDepth ++ (u32Bytes t.cutDepth ++ (u32Bytes t.maxNodesCount ++
    (u32Bytes (UInt32.ofNat t.containers.length) ++ (t.containers.flatMap u32Bytes ++
      t.root.leafBytes t.maxNodesCount t.treeDepth t.cutDepth.toNat)))))

/-- **What can be written**: blocks hang where they must, and the numbers fit. -/
structure Writable (t : K2TreeMixed) : Prop where
  leaves : K2Node.AllLeaves Block.Fits t.cutDepth.toNat t.root
  nodes : t.root.countWchildren t.cutDepth.toNat < 2 ^ 29

theorem containersCount_eq {n : ℕ} (h : n < 2 ^ 29) : containersCount n = ((4 * n + 31) / 32 : ℕ) := by
  have h1 : wrapInt n = n := wrapInt_of_lt (by omega)
  have h2 : wrapInt ((n : ℤ) * 4) = ((n * 4 : ℕ) : ℤ) := by
    have hcast : (n : ℤ) * 4 = ((n * 4 : ℕ) : ℤ) := by push_cast; ring
    rw [hcast]
    exact wrapInt_of_lt (by omega)
  simp only [containersCount, h1, h2]
  split <;> omega

theorem containers_spec {t : K2TreeMixed} (h : t.root.countWchildren t.cutDepth.toNat < 2 ^ 29) :
    (t.containers.length : ℤ) = containersCount (t.root.countWchildren t.cutDepth.toNat) ∧
      t.containers.length < 2 ^ 26 + 1 ∧ K2Node.Shown t.containers 0 (t.root.masks t.cutDepth.toNat) := by
  have hcount := containersCount_eq h
  have hlen := K2Node.countWchildren_eq _ t.root
  obtain ⟨-, hlaid⟩ := K2Node.serialize_spec _ t.root
    (List.replicate (containersCount (t.root.countWchildren t.cutDepth.toNat)).toNat 0) 0
    (by rw [← hlen, List.length_replicate, hcount]; omega) (fun l _ i => by rw [K2Node.childBit_eq, Bitmap.bit_zero])
  have hwords : t.containers.length = (containersCount (t.root.countWchildren t.cutDepth.toNat)).toNat :=
    hlaid.length.trans (List.length_replicate ..)
  refine ⟨by rw [hwords, hcount]; omega, by rw [hwords, hcount]; omega, ?_⟩
  intro k hk i
  exact hlaid.here k hk i

/-- **`write_to_ostream`** appends the bytes of the tree and returns their number. -/
theorem writeToOstream_spec {t : K2TreeMixed} (h : t.Writable) (pre : Bytes) : t.writeToOstream (.atEnd pre) =
    (.ok (UInt64.ofNat t.toBytes.length), .atEnd (pre ++ t.toBytes)) := by
  obtain ⟨hwords, hsmall, -⟩ := containers_spec h.nodes
  have hofInt : UInt32.ofInt (containersCount (t.root.countWchildren t.cutDepth.toNat)) =
      UInt32.ofNat t.containers.length := by
    rw [← hwords, UInt32.ofInt, Int.emod_eq_of_lt (by omega) (by omega), Int.toNat_natCast]
  unfold writeToOstream
  simp only [OStream.atEnd_write, hofInt]
  rw [← containers, Block.foldl_write u32Bytes 4 (by simp)]
  simp only [K2Node.writeBlocks_spec _ _ _ t.root h.leaves, Except.map]
  refine Prod.ext (congrArg Except.ok ?_) (by simp [toBytes])
  have hlen : t.toBytes.length = 24 + (t.containers.flatMap u32Bytes).length +
      (t.root.leafBytes t.maxNodesCount t.treeDepth t.cutDepth.toNat).length := by
    simp only [toBytes, List.length_append, u32Bytes_length, u64Bytes_length]
    ring
  rw [hlen, UInt64.ofNat_add, UInt64.ofNat_add]
  rfl

/-- What `read_from_istream` makes of the bytes of a tree is what it makes of the leaves. -/
theorem readFromIstream_head {t : K2TreeMixed} (h : t.Writable) {s : IStream} (hs : s.Ahead t.toBytes) :
    ∃ s' : IStream, s'.Ahead (t.root.leafBytes t.maxNodesCount t.treeDepth t.cutDepth.toNat) ∧
      s'.skip (t.root.leafBytes t.maxNodesCount t.treeDepth t.cutDepth.toNat).length = s.skip t.toBytes.length ∧
      readFromIstream s = readRoot t.pointsCount t.treeDepth t.cutDepth t.maxNodesCount t.containers s' := by
  unfold toBytes at hs
  obtain ⟨-, hsmall, -⟩ := containers_spec h.nodes
  have hn : (UInt32.ofNat t.containers.length).toNat = t.containers.length :=
    UInt32.toNat_ofNat_of_lt' (by rw [UInt32.size]; omega)
  have h1 := IStream.reads_readU64 _ s hs.left
  have h2 := IStream.reads_readU32 _ _ hs.right.left
  have h3 := IStream.reads_readU32 _ _ hs.right.right.left
  have h4 := IStream.reads_readU32 _ _ hs.right.right.right.left
  have h5 := IStream.reads_readU32 _ _ hs.right.right.right.right.left
  have h6 := IStream.Reads.many (fun a _ => IStream.reads_readU32 a) _ hs.right.right.right.right.right.left
  refine ⟨_, hs.right.right.right.right.right.right, ?_, ?_⟩
  · simp only [toBytes, IStream.skip_skip, List.length_append, Nat.add_assoc]
  · simp only [IStream.skip_skip] at h2 h3 h4 h5 h6 ⊢
    simp only [readFromIstream, h1, h2, h3, h4, h5, hn, h6]

/-- The bytes of a tree are read as the tree, if no block tree has `2 ^ 32` blocks. -/
theorem readFromIstream_toBytes {t : K2TreeMixed} (h : t.Writable)
    (hcounts : K2Node.AllLeaves (fun b => b.count < 2 ^ 32) t.cutDepth.toNat t.root) :
    IStream.Reads readFromIstream t.toBytes (.ok t) := by
  intro s hs
  obtain ⟨-, -, hshown⟩ := containers_spec h.nodes
  obtain ⟨s', hleaves, hskip, hread⟩ := readFromIstream_head h hs
  have hroot := K2Node.deserialize_spec t.maxNodesCount t.treeDepth _ t.root (h.leaves.and hcounts) 0 s' hshown hleaves
  rw [hread, readRoot, hroot, ← hskip]

/-- **A tree is read back** from its bytes, whatever follows them, if no block tree has
`2 ^ 32` blocks. -/
theorem readFromIstream_writeToOstream (t : K2TreeMixed) (h : t.Writable)
    (hcounts : K2Node.AllLeaves (fun b => b.count < 2 ^ 32) t.cutDepth.toNat t.root) :
    ∃ bytes : Bytes, (∀ pre, t.writeToOstream (.atEnd pre) =
        (.ok (UInt64.ofNat bytes.length), .atEnd (pre ++ bytes))) ∧ IStream.Reads readFromIstream bytes (.ok t) :=
  ⟨t.toBytes, writeToOstream_spec h, readFromIstream_toBytes h hcounts⟩

/-! ## A tree with too many blocks -/

/-- A block with these children. -/
def blockOf (children : List Block) : Block := ⟨1, children.map fun _ => 0, [0], children⟩

theorem blockOf_fits {children : List Block} (hlen : children.length < 2 ^ 16) (h : ∀ b ∈ children, b.Fits) :
    (blockOf children).Fits := by
  have hall : ∀ l : List Block, (∀ b ∈ l, b.Fits) → Block.AllFit l := by
    intro l
    induction l with
    | nil => intro _; trivial
    | cons b l ih =>
      intro h
      exact ⟨h b List.mem_cons_self, ih fun b' hb' => h b' (List.mem_cons_of_mem _ hb')⟩
  exact ⟨List.length_map .., by rwa [List.length_map], by decide, hall children h⟩

theorem countAll_replicate (n : ℕ) (b : Block) : Block.countAll (List.replicate n b) = n * b.count := by
  induction n with
  | zero => simp [Block.countAll]
  | succ n ih =>
    rw [List.replicate_succ, Block.countAll, ih]
    ring

/-- A block with `k + 1` children that have `k + 1` children each, the first of which has
`k + 1` children too. -/
def bush (k : ℕ) : Block :=
  let leaf := blockOf []
  let low := blockOf (List.replicate (k + 1) leaf)
  blockOf (blockOf (low :: List.replicate k leaf) :: List.replicate k low)

theorem bush_count (k : ℕ) : (bush k).count = (k + 2) ^ 2 := by
  simp only [bush, blockOf, Block.count, Block.countAll, countAll_replicate]
  ring

theorem bush_fits {k : ℕ} (hk : k + 1 < 2 ^ 16) : (bush k).Fits := by
  have hleaf : (blockOf []).Fits := blockOf_fits (by decide) (by simp)
  have hlow : (blockOf (List.replicate (k + 1) (blockOf []))).Fits := by
    refine blockOf_fits (by simpa using hk) fun b hb => ?_
    rw [List.eq_of_mem_replicate hb]
    exact hleaf
  refine blockOf_fits (by simpa using hk) fun b hb => ?_
  rcases List.mem_cons.1 hb with rfl | hb
  · refine blockOf_fits (by simpa using hk) fun b hb => ?_
    rcases List.mem_cons.1 hb with rfl | hb
    · exact hlow
    · rw [List.eq_of_mem_replicate hb]
      exact hleaf
  · rw [List.eq_of_mem_replicate hb]
    exact hlow

/-- A tree with one block tree, at the root. -/
def ofRoot (b : Block) : K2TreeMixed := ⟨1, 32, 0, 256, K2Node.ofBlock b⟩

theorem ofRoot_writable {b : Block} (h : b.Fits) : (ofRoot b).Writable :=
  ⟨⟨b, rfl, h⟩, by show 0 < 2 ^ 29; decide⟩

theorem readRoot_zeroBlocks {pointsCount : UInt64} {treeDepth maxNodesCount : UInt32} {containers : List UInt32}
    {s : IStream} (h : (Block.readTree s).1 = .error zeroBlocks) :
    (readRoot pointsCount treeDepth 0 maxNodesCount containers s).1 = .error zeroBlocks := by
  have hdes : K2Node.deserialize containers (0 : UInt32).toNat 0 s = (.error zeroBlocks, (Block.readTree s).2) := by
    show K2Node.deserialize containers 0 0 s = _
    rw [K2Node.deserialize, ← Prod.mk.eta (p := Block.readTree s), h]
  rw [readRoot, hdes]

theorem ofRoot_not_read {b : Block} (hfit : b.Fits) (hcount : UInt32.ofNat b.count = 0) :
    (readFromIstream (.ofBytes (ofRoot b).toBytes)).1 = .error zeroBlocks := by
  obtain ⟨s', hleaves, -, hread⟩ := readFromIstream_head (ofRoot_writable hfit) (IStream.ahead_self _)
  have htree : s'.Ahead (b.treeBytes 256 32) := hleaves
  rw [hread]
  exact readRoot_zeroBlocks (Block.readTree_zero 256 32 hcount htree)

/-- **A block tree of `2 ^ 32` blocks is not read back.** -/
theorem readFromIstream_bush : (ofRoot (bush 65534)).Writable ∧
    ¬ ∃ bytes : Bytes, (∀ pre, (ofRoot (bush 65534)).writeToOstream (.atEnd pre) =
        (.ok (UInt64.ofNat bytes.length), .atEnd (pre ++ bytes))) ∧
      IStream.Reads readFromIstream bytes (.ok (ofRoot (bush 65534))) := by
  have hfit : (bush 65534).Fits := bush_fits (by decide)
  have hcount : UInt32.ofNat (bush 65534).count = 0 := by
    rw [bush_count]
    decide
  generalize bush 65534 = b at hfit hcount ⊢
  have hw := ofRoot_writable hfit
  refine ⟨hw, ?_⟩
  rintro ⟨bytes, hwrite, hread⟩
  have hbytes : bytes = (ofRoot b).toBytes := by
    have h := (hwrite []).symm.trans (writeToOstream_spec hw [])
    exact congrArg (fun r : Except Exn UInt64 × OStream => r.2.buf) h
  subst hbytes
  have hok := hread (.ofBytes (ofRoot b).toBytes) (IStream.ahead_self _)
  have herr := ofRoot_not_read hfit hcount
  rw [hok] at herr
  cases herr

/-- A tree of two levels. -/
def twoLevels : K2TreeMixed := ⟨1, 32, 1, 256, (K2Node.noChildren (d := 0)).setChild 2 (K2Node.ofBlock (bush 0))⟩

theorem twoLevels_leaves {P : Block → Prop} (hP : P (bush 0)) :
    K2Node.AllLeaves P twoLevels.cutDepth.toNat twoLevels.root := by
  intro i child hchild
  by_cases hi : i = 2
  · rw [hi] at hchild
    cases hchild
    exact ⟨bush 0, rfl, hP⟩
  · have hnone : twoLevels.root.child i = none := if_neg hi
    rw [hnone] at hchild
    cases hchild

theorem twoLevels_writable : twoLevels.Writable := ⟨twoLevels_leaves (bush_fits (by decide)), by decide⟩

theorem twoLevels_counts : K2Node.AllLeaves (fun b => b.count < 2 ^ 32) twoLevels.cutDepth.toNat twoLevels.root :=
  twoLevels_leaves (by rw [bush_count]; decide)

theorem readFromIstream_twoLevels : ∃ bytes : Bytes, (∀ pre, twoLevels.writeToOstream (.atEnd pre) =
      (.ok (UInt64.ofNat bytes.length), .atEnd (pre ++ bytes))) ∧ IStream.Reads readFromIstream bytes (.ok twoLevels) :=
  readFromIstream_writeToOstream twoLevels twoLevels_writable twoLevels_counts

end K2TreeMixed

end K2Cache
