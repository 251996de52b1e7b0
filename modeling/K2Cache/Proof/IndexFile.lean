import K2Cache.Proof.IndexMerge

/-!
# Index files

An index file lists predicates in its header and has, behind the header, one serialized
tree for each of them, in the order of the list (`Layout`). A predicate that is listed
twice has two trees and one entry, which points at one of them.

* `Laying`: a file in the making. The trees stand behind a header of zeros, which the real
  one then replaces byte for byte (`Laying.finish`).
* `Layout.ofIstream`: a header whose numbers fit their fields is read back.
* `Layout.loadAll`: if no predicate is listed twice, `load_all_predicates` gives each the
  tree its entry points at.
-/

namespace K2Cache

open Lib

variable {T : Type} {ops : TreeOps T}

/-! ## Reading a header -/

theorem K2TreeConfig.reads (c : K2TreeConfig) : IStream.Reads K2TreeConfig.readFromIstream c.toBytes c := by
  intro s h
  unfold toBytes at h
  have h1 := IStream.reads_readU32 _ s h.left.left
  have h2 := IStream.reads_readU32 _ _ h.left.right
  have h3 := IStream.reads_readU32 _ _ h.right
  simp only [IStream.skip_skip, List.length_append, u32Bytes_length] at h1 h2 h3
  simp only [readFromIstream, h1, h2, h3, toBytes, List.length_append, u32Bytes_length]

namespace PredicateMetadata

/-- The numbers of an entry fit their fields. -/
structure Fits (m : PredicateMetadata) : Prop where
  treeOffset : m.treeOffset < 2 ^ 64
  treeSize : m.treeSize < 2 ^ 64
  treeSizeInMemory : m.treeSizeInMemory < 2 ^ 64

theorem readHash_reads (h : Md5) : IStream.Reads readHash h.1 h := by
  intro s hs
  have hr := IStream.read_ahead hs
  rw [h.2] at hr
  have htake : (h.1 ++ List.replicate 16 0).take 16 = h.1 := by
    rw [List.take_append_of_le_length h.2.ge, List.take_of_length_le h.2.le]
  simp only [readHash, hr, htake, h.2]

theorem reads {m : PredicateMetadata} (hm : m.Fits) : IStream.Reads readFromIstream m.toBytes m := by
  intro s h
  unfold toBytes at h
  have h1 := IStream.reads_readU64 _ s h.left
  have h2 := IStream.reads_readU64 _ _ h.right.left
  have h3 := IStream.reads_readU64 _ _ h.right.right.left
  have h4 := IStream.reads_readU64 _ _ h.right.right.right.left
  have h5 := IStream.reads_readU32 _ _ h.right.right.right.right.left
  have h6 := readHash_reads _ _ h.right.right.right.right.right
  simp only [IStream.skip_skip, u64Bytes_length, u32Bytes_length] at h1 h2 h3 h4 h5 h6
  simp only [readFromIstream, h1, h2, h3, h4, h5, h6, UInt64.toNat_ofNat_of_lt' hm.treeOffset,
    UInt64.toNat_ofNat_of_lt' hm.treeSize, UInt64.toNat_ofNat_of_lt' hm.treeSizeInMemory, toBytes_length,
    m.k2treeHash.2]

end PredicateMetadata

namespace PredicatesCacheMetadata

theorem readEntries_reads (l : List PredicateMetadata) (hl : ∀ md ∈ l, md.Fits)
    (m : OrdMap UInt64 PredicateMetadata) (ids : List UInt64) :
    IStream.Reads (readEntries l.length m ids) (l.flatMap PredicateMetadata.toBytes)
      (m.insertAll (l.map fun md => (md.predicateId, md)), ids ++ l.map PredicateMetadata.predicateId) := by
  induction l generalizing m ids with
  | nil =>
    intro s _
    simp [readEntries, OrdMap.insertAll]
  | cons md l ih =>
    intro s h
    rw [List.flatMap_cons] at h
    have h1 := PredicateMetadata.reads (hl md List.mem_cons_self) s h.left
    have h2 := ih (fun md' hm => hl md' (List.mem_cons_of_mem _ hm)) (m.insert md.predicateId md)
      (ids ++ [md.predicateId]) _ h.right
    rw [List.length_cons, readEntries]
    simp only [h1, h2]
    simp [OrdMap.insertAll, IStream.skip_skip]

end PredicatesCacheMetadata

namespace Index

/-! ## Writing a header -/

theorem metadataBytes_length (f : UInt64 → PredicateMetadata) (ps : List UInt64) :
    (ps.flatMap (fun p => (f p).toBytes)).length = 52 * ps.length := by
  rw [List.length_flatMap]
  simp [Nat.mul_comm]

theorem contains_foldl_insert {V : Type} (l : List UInt64) (v : V) (m : OrdMap UInt64 V) (p : UInt64) :
    (l.foldl (fun m p => m.insert p v) m).contains p = true ↔ p ∈ l ∨ m.contains p = true := by
  induction l generalizing m with
  | nil => simp
  | cons q l ih =>
    rw [List.foldl_cons, ih, List.mem_cons]
    simp only [OrdMap.contains, OrdMap.find?_insert]
    by_cases hpq : p = q
    · simp [hpq]
    · simp [hpq]

theorem writeMetadata_atEnd (m : OrdMap UInt64 PredicateMetadata) (ps : List UInt64) (bs : Bytes) :
    writeMetadata m ps (.atEnd bs) = .atEnd (bs ++ ps.flatMap (fun p => ((m.find? p).getD .zero).toBytes)) := by
  induction ps generalizing bs with
  | nil => simp [writeMetadata]
  | cons p ps ih =>
    rw [writeMetadata, List.foldl_cons, OStream.atEnd_write, ← writeMetadata, ih]
    simp

/-- **The header takes the place of one of the same length.** -/
theorem writeMetadata_over (m : OrdMap UInt64 PredicateMetadata) (ps : List UInt64) (as bs cs : Bytes)
    (hb : bs.length = 52 * ps.length) :
    (writeMetadata m ps ⟨as ++ bs ++ cs, as.length⟩).buf =
      as ++ ps.flatMap (fun p => ((m.find? p).getD .zero).toBytes) ++ cs := by
  induction ps generalizing as bs with
  | nil =>
    obtain rfl : bs = [] := List.length_eq_zero_iff.1 (by simpa using hb)
    simp [writeMetadata]
  | cons p ps ih =>
    -- the first 52 bytes are replaced, the rest is the same situation
    have hlen : bs.length = 52 + 52 * ps.length := by
      rw [hb, List.length_cons]
      omega
    have hsplit : bs = bs.take 52 ++ bs.drop 52 := (List.take_append_drop 52 bs).symm
    have htake : (bs.take 52).length = 52 := by rw [List.length_take]; omega
    have hdrop : (bs.drop 52).length = 52 * ps.length := by rw [List.length_drop]; omega
    have hw := OStream.write_over as (bs.take 52) ((m.find? p).getD .zero).toBytes (bs.drop 52 ++ cs)
      (by rw [htake, PredicateMetadata.toBytes_length])
    have hbuf : as ++ bs ++ cs = as ++ bs.take 52 ++ (bs.drop 52 ++ cs) := by
      conv_lhs => rw [hsplit]
      simp only [List.append_assoc]
    rw [writeMetadata, List.foldl_cons, hbuf, hw, ← writeMetadata, ← List.length_append, ← List.append_assoc,
      ih _ _ hdrop]
    simp

/-! ## Layouts -/

/-- The header that lists `ids`, with the entries of `m`. -/
def headerBytes (config : K2TreeConfig) (ids : List UInt64) (m : OrdMap UInt64 PredicateMetadata) : Bytes :=
  u64Bytes (UInt64.ofNat ids.length) ++ config.toBytes ++ ids.flatMap (fun p => ((m.find? p).getD .zero).toBytes)

@[simp]
theorem headerBytes_length (config : K2TreeConfig) (ids : List UInt64) (m : OrdMap UInt64 PredicateMetadata) :
    (headerBytes config ids m).length = 20 + 52 * ids.length := by
  simp only [headerBytes, List.length_append, metadataBytes_length, K2TreeConfig.toBytes, u64Bytes_length, u32Bytes_length]

/-- The entry of `p` points at one of the trees that stand from byte `start` on, one for
each of `ids`. -/
structure Placed (ops : TreeOps T) (start : ℕ) (ids : List UInt64) (trees : List T) (p : UInt64) (md : PredicateMetadata)
    (t : T) : Prop where
  predicateId : md.predicateId = p
  place : ∃ i, ids[i]? = some p ∧ trees[i]? = some t ∧
    md.treeOffset = start + ((trees.take i).flatMap ops.writeToOstream).length
  size : md.treeSize = (ops.writeToOstream t).length
  memory : ops.measure t ≤ md.treeSizeInMemory

/-- **An index file**: the header, and a tree for each listed predicate. -/
structure Layout (ops : TreeOps T) (md : PredicatesCacheMetadata) (trees : List T) (data : Bytes) : Prop where
  bytes : data = headerBytes md.config md.predicatesIds md.metadataMap ++ trees.flatMap ops.writeToOstream
  length : trees.length = md.predicatesIds.length
  keys : ∀ p, md.metadataMap.contains p = true ↔ p ∈ md.predicatesIds
  placed : ∀ p e, md.metadataMap.find? p = some e →
    ∃ t, Placed ops (20 + 52 * md.predicatesIds.length) md.predicatesIds trees p e t

/-- The bytes from an element on. -/
theorem flatMap_drop_take {α : Type} (f : α → Bytes) {l : List α} {i : ℕ} {a : α} (h : l[i]? = some a) :
    (l.flatMap f).drop ((l.take i).flatMap f).length = f a ++ (l.drop (i + 1)).flatMap f := by
  obtain ⟨hi, rfl⟩ := List.getElem?_eq_some_iff.1 h
  have hsplit : l = l.take i ++ l[i] :: l.drop (i + 1) := by
    rw [← List.drop_eq_getElem_cons hi, List.take_append_drop]
  conv_lhs => rw [hsplit]
  rw [List.flatMap_append, List.flatMap_cons, List.take_append_of_le_length (by simp; omega), List.take_take, min_self,
    List.drop_left]

theorem Placed.holdsTree {start : ℕ} {ids : List UInt64} {trees : List T} {p : UInt64} {md : PredicateMetadata} {t : T}
    (h : Placed ops start ids trees p md t) {header : Bytes} (hlen : header.length = start) :
    HoldsTree ops (header ++ trees.flatMap ops.writeToOstream) md t := by
  obtain ⟨i, -, ht, hoff⟩ := h.place
  refine ⟨?_, h.size, h.memory⟩
  rw [hoff, ← hlen, ← List.drop_drop, List.drop_left, flatMap_drop_take _ ht]
  exact List.prefix_append _ _

theorem Layout.holdsTree {md : PredicatesCacheMetadata} {trees : List T} {data : Bytes} (h : Layout ops md trees data)
    {p : UInt64} {e : PredicateMetadata} {t : T}
    (hp : Placed ops (20 + 52 * md.predicatesIds.length) md.predicatesIds trees p e t) : HoldsTree ops data e t := by
  rw [h.bytes]
  exact hp.holdsTree (headerBytes_length ..)

/-! ## Writing a file -/

theorem Placed.append {start : ℕ} {ids : List UInt64} {trees : List T} {p : UInt64} {md : PredicateMetadata} {t : T}
    (h : Placed ops start ids trees p md t) (q : UInt64) (t' : T) : Placed ops start (ids ++ [q]) (trees ++ [t']) p md t := by
  obtain ⟨i, hp, ht, hoff⟩ := h.place
  have hi := (List.getElem?_eq_some_iff.1 hp).1
  have hi' := (List.getElem?_eq_some_iff.1 ht).1
  refine ⟨h.predicateId, ⟨i, ?_, ?_, ?_⟩, h.size, h.memory⟩
  · rw [List.getElem?_append_left hi, hp]
  · rw [List.getElem?_append_left hi', ht]
  · rw [List.take_append_of_le_length hi'.le, hoff]

/-- The first lines of a file: the count, the configuration, and a header of zeros. -/
def blankHeader (config : K2TreeConfig) (ids : List UInt64) : Bytes :=
  u64Bytes (UInt64.ofNat ids.length) ++ config.toBytes ++ ids.flatMap (fun _ => PredicateMetadata.zero.toBytes)

@[simp]
theorem blankHeader_length (config : K2TreeConfig) (ids : List UInt64) :
    (blankHeader config ids).length = 20 + 52 * ids.length := by
  have := metadataBytes_length (fun _ => .zero) ids
  simp only [blankHeader, List.length_append, this, K2TreeConfig.toBytes, u64Bytes_length, u32Bytes_length]

/-- A file that is being written: the trees of the predicates done so far stand behind the
blank header, and their entries, for which `R` holds, point at them. -/
structure Laying (ops : TreeOps T) (R : UInt64 → PredicateMetadata → T → Prop) (config : K2TreeConfig) (ids : List UInt64)
    (done : List UInt64) (trees : List T) (os : OStream) (m : OrdMap UInt64 PredicateMetadata) : Prop where
  os : os = .atEnd (blankHeader config ids ++ trees.flatMap ops.writeToOstream)
  keys : ∀ p, m.contains p = true ↔ p ∈ ids
  length : trees.length = done.length
  placed : ∀ p ∈ done, ∃ md t, m.find? p = some md ∧ Placed ops (20 + 52 * ids.length) done trees p md t ∧ R p md t

variable {R : UInt64 → PredicateMetadata → T → Prop} {config : K2TreeConfig} {ids done : List UInt64} {trees : List T}
  {os : OStream} {m : OrdMap UInt64 PredicateMetadata}

/-- The first header, and entries of zeros. -/
theorem Laying.start (ops : TreeOps T) (R : UInt64 → PredicateMetadata → T → Prop) (config : K2TreeConfig)
    (ids : List UInt64) : Laying ops R config ids [] []
      (writeMetadata ∅ ids (((⟨[], 0⟩ : OStream).write (u64Bytes (UInt64.ofNat ids.length))).write config.toBytes))
      (ids.foldl (fun m p => m.insert p .zero) ∅) := by
  refine ⟨?_, fun p => ?_, rfl, by simp⟩
  · have hw : (((⟨[], 0⟩ : OStream).write (u64Bytes (UInt64.ofNat ids.length))).write config.toBytes) =
        .atEnd (u64Bytes (UInt64.ofNat ids.length) ++ config.toBytes) := by
      show ((OStream.atEnd []).write _).write _ = _
      simp
    rw [hw, writeMetadata_atEnd]
    simp [blankHeader]
  · rw [contains_foldl_insert ids _ ∅ p]
    simp [OrdMap.contains]

/-- One more tree. -/
theorem Laying.step (h : Laying ops R config ids done trees os m) {p : UInt64} (hp : p ∈ ids) {md : PredicateMetadata}
    {t : T} (hid : md.predicateId = p) (hoff : md.treeOffset = os.tellp)
    (hsize : md.treeSize = (ops.writeToOstream t).length) (hmem : ops.measure t ≤ md.treeSizeInMemory) (hR : R p md t) :
    Laying ops R config ids (done ++ [p]) (trees ++ [t]) (os.write (ops.writeToOstream t)) (m.insert p md) := by
  refine ⟨by simp [h.os], fun q => ?_, by simp [h.length], fun q hq => ?_⟩
  · simp only [OrdMap.contains, OrdMap.find?_insert]
    by_cases hqp : q = p
    · simp [hqp, hp]
    · simpa [hqp, OrdMap.contains] using h.keys q
  · simp only [OrdMap.find?_insert]
    by_cases hqp : q = p
    · -- the new tree is the last one
      subst hqp
      refine ⟨md, t, by simp, ⟨hid, ⟨done.length, by simp, by simp [← h.length], ?_⟩, hsize, hmem⟩, hR⟩
      rw [hoff, h.os, OStream.atEnd_tellp, List.length_append, blankHeader_length, ← h.length, List.take_left]
    · obtain ⟨md', t', h1, h2, h3⟩ := h.placed q (by simpa [hqp] using hq)
      exact ⟨md', t', by simp [hqp, h1], h2.append p t, h3⟩

/-- **The header is written again**, and the file is an index file. -/
theorem Laying.finish (h : Laying ops R config ids ids trees os m) :
    Layout ops ⟨m, ids, config⟩ trees (writeMetadata m ids (os.seekp 20)).buf ∧
      ∀ p md, m.find? p = some md → ∃ t, HoldsTree ops (writeMetadata m ids (os.seekp 20)).buf md t ∧ R p md t := by
  have hbuf : (writeMetadata m ids (os.seekp 20)).buf = headerBytes config ids m ++ trees.flatMap ops.writeToOstream := by
    rw [h.os]
    exact writeMetadata_over m ids (u64Bytes (UInt64.ofNat ids.length) ++ config.toBytes)
      (ids.flatMap (fun _ => PredicateMetadata.zero.toBytes)) _ (metadataBytes_length _ ids)
  have hplaced : ∀ p md, m.find? p = some md → ∃ t, Placed ops (20 + 52 * ids.length) ids trees p md t ∧ R p md t := by
    intro p md hmd
    obtain ⟨md', t, h1, h2, h3⟩ := h.placed p ((h.keys p).1 ((OrdMap.contains_iff _).2 ⟨md, hmd⟩))
    obtain rfl : md' = md := Option.some.inj (h1.symm.trans hmd)
    exact ⟨t, h2, h3⟩
  have hlayout : Layout ops ⟨m, ids, config⟩ trees (writeMetadata m ids (os.seekp 20)).buf :=
    ⟨hbuf, h.length, h.keys, fun p md hmd => (hplaced p md hmd).imp fun t ht => ht.1⟩
  refine ⟨hlayout, fun p md hmd => ?_⟩
  obtain ⟨t, h1, h2⟩ := hplaced p md hmd
  exact ⟨t, hlayout.holdsTree h1, h2⟩

/-! ## Reading a file -/

/-- The numbers of a file that is not too long fit their fields. -/
theorem Layout.fits {md : PredicatesCacheMetadata} {trees : List T} {data : Bytes} (h : Layout ops md trees data)
    (hlen : data.length < 2 ^ 64) {p : UInt64} {e : PredicateMetadata} (he : md.metadataMap.find? p = some e)
    (hmem : e.treeSizeInMemory < 2 ^ 64) : e.Fits := by
  obtain ⟨t, ht⟩ := h.placed p e he
  obtain ⟨i, -, hi, hoff⟩ := ht.place
  have htail := congrArg List.length (flatMap_drop_take ops.writeToOstream hi)
  rw [List.length_drop, List.length_append] at htail
  have hall := congrArg List.length h.bytes
  rw [List.length_append, headerBytes_length] at hall
  have htake : ((trees.take i).flatMap ops.writeToOstream).length ≤ (trees.flatMap ops.writeToOstream).length := by
    conv_rhs => rw [← List.take_append_drop i trees]
    rw [List.flatMap_append, List.length_append]
    exact Nat.le_add_right _ _
  exact ⟨by omega, by rw [ht.size]; omega, hmem⟩

/-- **The header is read back.** -/
theorem Layout.ofIstream {md : PredicatesCacheMetadata} {trees : List T} {data : Bytes} (h : Layout ops md trees data)
    (hlen : data.length < 2 ^ 64)
    (hmem : ∀ p e, md.metadataMap.find? p = some e → e.treeSizeInMemory < 2 ^ 64) :
    PredicatesCacheMetadata.ofIstream (.ofBytes data) =
      (md, (IStream.ofBytes data).skip (20 + 52 * md.predicatesIds.length)) := by
  obtain ⟨m, ids, config⟩ := md
  set l := ids.map (fun p => (m.find? p).getD .zero) with hl
  have hall := congrArg List.length h.bytes
  rw [List.length_append, headerBytes_length] at hall
  simp only at hall
  have hcount : (UInt64.ofNat ids.length).toNat = ids.length := UInt64.toNat_ofNat_of_lt' (by rw [UInt64.size]; omega)
  -- every listed predicate has an entry
  have hentry : ∀ p ∈ ids, ∃ e, m.find? p = some e ∧ (m.find? p).getD .zero = e ∧ e.Fits ∧ e.predicateId = p := by
    intro p hp
    obtain ⟨e, he⟩ := (OrdMap.contains_iff _).1 ((h.keys p).2 hp)
    obtain ⟨t, ht⟩ := h.placed p e he
    exact ⟨e, he, by rw [he]; rfl, h.fits hlen he (hmem p e he), ht.predicateId⟩
  have hfits : ∀ md ∈ l, md.Fits := by
    intro md hmd
    obtain ⟨p, hp, rfl⟩ := List.mem_map.1 hmd
    obtain ⟨e, -, he, hfit, -⟩ := hentry p hp
    rw [he]
    exact hfit
  have hids : l.map PredicateMetadata.predicateId = ids := by
    rw [hl, List.map_map]
    refine (List.map_congr_left fun p hp => ?_).trans (List.map_id ids)
    obtain ⟨e, -, he, -, hid⟩ := hentry p hp
    simp only [Function.comp_apply, he, hid, id_eq]
  -- the entries of a predicate that is listed twice are the same
  have hmap : (∅ : OrdMap UInt64 PredicateMetadata).insertAll (l.map fun md => (md.predicateId, md)) = m := by
    apply OrdMap.ext_find?
    intro p
    have hmem : ∀ e, (p, e) ∈ l.map (fun md => (md.predicateId, md)) ↔ p ∈ ids ∧ m.find? p = some e := by
      intro e
      simp only [hl, List.map_map, List.mem_map, Function.comp_apply, Prod.mk.injEq]
      constructor
      · rintro ⟨q, hq, hqp, hqe⟩
        obtain ⟨e', he', hget, -, hid⟩ := hentry q hq
        rw [hget] at hqp hqe
        obtain rfl : q = p := hid.symm.trans hqp
        exact ⟨hq, by rw [he', hqe]⟩
      · rintro ⟨hp, he⟩
        obtain ⟨e', he', hget, -, hid⟩ := hentry p hp
        obtain rfl : e' = e := Option.some.inj (he'.symm.trans he)
        exact ⟨p, hp, by rw [hget, hid], hget⟩
    cases hp : m.find? p with
    | some e =>
      have hin : p ∈ ids := (h.keys p).1 ((OrdMap.contains_iff _).2 ⟨e, hp⟩)
      refine OrdMap.find?_insertAll_of_unique _ ((hmem e).2 ⟨hin, hp⟩) fun e' he' => ?_
      exact Option.some.inj (((hmem e').1 he').2.symm.trans hp)
    | none =>
      refine (OrdMap.find?_insertAll_of_not_mem _ ?_).trans rfl
      rintro ⟨q, e⟩ he rfl
      rw [((hmem e).1 he).2] at hp
      cases hp
  have hahead : (IStream.ofBytes data).Ahead (headerBytes config ids m) := by
    rw [h.bytes]
    exact IStream.ahead_ofBytes _ _
  unfold headerBytes at hahead
  have h1 := IStream.reads_readU64 _ _ hahead.left.left
  have h2 := K2TreeConfig.reads _ _ hahead.left.right
  have hbytes : ids.flatMap (fun p => ((m.find? p).getD .zero).toBytes) = l.flatMap PredicateMetadata.toBytes := by
    rw [hl, List.flatMap_map]
  have h3' := hahead.right
  rw [hbytes] at h3'
  have h3 := PredicatesCacheMetadata.readEntries_reads l hfits ∅ [] _ h3'
  have hcfg : config.toBytes.length = 12 := by simp [K2TreeConfig.toBytes]
  have hlbytes : (l.flatMap PredicateMetadata.toBytes).length = 52 * ids.length := by
    rw [← hbytes, metadataBytes_length]
  simp only [List.length_append, u64Bytes_length, IStream.skip_skip, hcfg, hlbytes] at h1 h2 h3
  rw [show l.length = ids.length by rw [hl, List.length_map]] at h3
  simp only [PredicatesCacheMetadata.ofIstream, h1, h2, hcount, h3, hmap, hids, List.nil_append]

/-! ## Bulk loading -/

theorem mapM_of_find? {m : OrdMap UInt64 PredicateMetadata} {g : UInt64 → PredicateMetadata} (ids : List UInt64)
    (h : ∀ p ∈ ids, m.find? p = some (g p)) : ids.mapM m.find? = some (ids.map g) := by
  induction ids with
  | nil => rfl
  | cons p ids ih =>
    rw [List.mapM_cons, h p List.mem_cons_self, ih fun q hq => h q (List.mem_cons_of_mem _ hq)]
    rfl

/-- Only trees in memory may have changed, and the place of the stream. -/
structure Loaded (x x' : Index T) : Prop where
  is : x'.is.data = x.is.data ∧ x'.is.fail = x.is.fail
  metadata : x'.metadata = x.metadata
  dirtyPredicates : x'.dirtyPredicates = x.dirtyPredicates
  newPredicates : x'.newPredicates = x.newPredicates
  hasUpdateLogger : x'.hasUpdateLogger = x.hasUpdateLogger

/-- Trees read one after another are those of the predicates, if these differ. -/
theorem loadTrees_spec (hl : ops.Lawful) {ids : List UInt64} (trees : List T) (hlen : trees.length = ids.length)
    (hnodup : ids.Nodup) (room : ℕ) (hroom : (trees.map ops.measure).sum ≤ room) {x : Index T}
    (hx : x.is.Ahead (trees.flatMap ops.writeToOstream)) :
    ∃ x', loadTrees ops ids room x = (.ok (), x') ∧ Loaded x x' ∧
      (∀ (i : ℕ) p t, ids[i]? = some p → trees[i]? = some t → x'.predicates.find? p = some t) ∧
      ∀ p, p ∉ ids → x'.predicates.find? p = x.predicates.find? p := by
  induction ids generalizing trees room x with
  | nil => exact ⟨x, rfl, ⟨⟨rfl, rfl⟩, rfl, rfl, rfl, rfl⟩, by simp, fun _ _ => rfl⟩
  | cons q ids ih =>
    obtain ⟨t, trees, rfl⟩ : ∃ t l, trees = t :: l := List.exists_cons_of_length_eq_add_one hlen
    obtain ⟨hq, hnodup⟩ := List.nodup_cons.1 hnodup
    rw [List.flatMap_cons] at hx
    rw [List.map_cons, List.sum_cons] at hroom
    have hread := hl.read_segment t room (by omega) _ hx.left
    obtain ⟨x', h1, h2, h3, h4⟩ := ih trees (by simpa using hlen) hnodup (room - ops.measure t) (by omega)
      (x := { x.setTree q t with is := x.is.skip (ops.writeToOstream t).length }) hx.right
    refine ⟨x', ?_, ⟨⟨h2.is.1.trans (by simp), h2.is.2.trans (by simp)⟩, h2.metadata, h2.dirtyPredicates, h2.newPredicates,
      h2.hasUpdateLogger⟩, fun i p t' hp ht' => ?_, fun p hp => ?_⟩
    · simp only [loadTrees, hread]
      exact h1
    · cases i with
      | zero =>
        obtain rfl : q = p := by simpa using hp
        obtain rfl : t = t' := by simpa using ht'
        rw [h4 q hq]
        exact OrdMap.find?_insert_self _ _ _
      | succ i => exact h3 i p t' (by simpa using hp) (by simpa using ht')
    · rw [List.mem_cons, not_or] at hp
      rw [h4 p hp.2]
      exact OrdMap.find?_insert_ne _ _ hp.1

/-- **Bulk loading** gives each predicate the tree its entry points at. -/
theorem Layout.loadAll (hl : ops.Lawful) {x : Index T} {trees : List T} (h : Layout ops x.metadata trees x.is.data)
    (hf : x.is.fail = false) (hnodup : x.metadata.predicatesIds.Nodup) :
    ∃ x', loadAllFromMainIndex ops x = (.ok (), x') ∧ Loaded x x' ∧
      (∀ p e t, x.metadata.metadataMap.find? p = some e → HoldsTree ops x.is.data e t → x'.predicates.find? p = some t) ∧
      ∀ p, x.isStoredInMainIndex p = false → x'.predicates.find? p = x.predicates.find? p := by
  set ids := x.metadata.predicatesIds with hids
  set m := x.metadata.metadataMap with hm
  set g : UInt64 → PredicateMetadata := fun p => (m.find? p).getD .zero with hg
  have hentry : ∀ p ∈ ids, m.find? p = some (g p) := by
    intro p hp
    obtain ⟨e, he⟩ := (OrdMap.contains_iff _).1 ((h.keys p).2 hp)
    rw [← hm] at he
    simp only [hg, he, Option.getD_some]
  -- the entry of a predicate is at its only place in the list
  have hplace : ∀ (i : ℕ) p t, ids[i]? = some p → trees[i]? = some t →
      Placed ops (20 + 52 * ids.length) ids trees p (g p) t ∧
        (g p).treeOffset = 20 + 52 * ids.length + ((trees.take i).flatMap ops.writeToOstream).length := by
    intro i p t hp ht
    obtain ⟨t', ht'⟩ := h.placed p (g p) (hentry p (List.mem_of_getElem? hp))
    obtain ⟨j, hj, htj, hoff⟩ := ht'.place
    obtain rfl : i = j := by
      obtain ⟨hi, hpi⟩ := List.getElem?_eq_some_iff.1 hp
      obtain ⟨hj', hpj⟩ := List.getElem?_eq_some_iff.1 hj
      exact (hnodup.getElem_inj_iff).1 (hpi.trans hpj.symm)
    obtain rfl : t' = t := Option.some.inj (htj.symm.trans ht)
    exact ⟨ht', hoff⟩
  have hmapM : ids.mapM m.find? = some (ids.map g) := mapM_of_find? ids hentry
  have hroom : (trees.map ops.measure).sum ≤ ((ids.map g).map PredicateMetadata.treeSizeInMemory).sum := by
    apply List.Forall₂.sum_le_sum
    rw [List.forall₂_iff_get]
    refine ⟨by simpa using h.length, fun i h1 h2 => ?_⟩
    have hi : i < trees.length := by simpa using h1
    have hi' : i < ids.length := by simpa using h2
    have := (hplace i ids[i] trees[i] (List.getElem?_eq_getElem hi') (List.getElem?_eq_getElem hi)).1.memory
    simpa using this
  -- the stream stands in front of the first tree
  set s := ((ids.map g).head?).elim x.is (fun first => x.is.seekg first.treeOffset) with hs
  have hahead : s.Ahead (trees.flatMap ops.writeToOstream) := by
    cases hcons : ids with
    | nil =>
      have : trees = [] := List.length_eq_zero_iff.1 (by rw [h.length, ← hids, hcons]; rfl)
      rw [hs, hcons, this]
      exact ⟨hf, List.nil_prefix⟩
    | cons q rest =>
      obtain ⟨t, tail, ht⟩ : ∃ t l, trees = t :: l :=
        List.exists_cons_of_length_eq_add_one (h.length.trans (by rw [← hids, hcons]; rfl))
      have hoff := (hplace 0 q t (by rw [hcons]; rfl) (by rw [ht]; rfl)).2
      rw [hs, hcons, List.map_cons, List.head?_cons, Option.elim_some]
      refine IStream.ahead_seekg hf ?_
      rw [hoff, h.bytes, List.take_zero, List.flatMap_nil, List.length_nil, Nat.add_zero, hids,
        ← headerBytes_length x.metadata.config, List.drop_left]
  obtain ⟨x', h1, h2, h3, h4⟩ := loadTrees_spec hl trees h.length hnodup _ hroom
    (x := { x with
      memory := (x.memory.newMemorySegment ((ids.map g).map PredicateMetadata.treeSizeInMemory).sum).2
      fullMemorySegment := some (x.memory.newMemorySegment ((ids.map g).map PredicateMetadata.treeSizeInMemory).sum).1
      is := s }) hahead
  have hdata : s.data = x.is.data ∧ s.fail = x.is.fail := by
    rw [hs]
    cases (ids.map g).head? with
    | none => exact ⟨rfl, rfl⟩
    | some first => simp [IStream.seekg, hf]
  refine ⟨x', ?_, ⟨⟨h2.is.1.trans hdata.1, h2.is.2.trans hdata.2⟩, h2.metadata, h2.dirtyPredicates, h2.newPredicates,
    h2.hasUpdateLogger⟩, fun p e t he ht => ?_, fun p hp => h4 p fun hmem => ?_⟩
  · simp only [loadAllFromMainIndex, ← hids, ← hm, hmapM]
    exact h1
  · obtain ⟨i, hi⟩ := List.mem_iff_getElem?.1 ((h.keys p).1 ((OrdMap.contains_iff _).2 ⟨e, he⟩))
    obtain ⟨hlt, -⟩ := List.getElem?_eq_some_iff.1 hi
    have hlt' : i < trees.length := by rw [h.length]; exact hlt
    have hti : trees[i]? = some trees[i] := List.getElem?_eq_getElem hlt'
    rw [h3 i p _ hi hti]
    obtain rfl : g p = e := Option.some.inj ((hentry p (List.mem_of_getElem? hi)).symm.trans he)
    rw [HoldsTree.unique hl (h.holdsTree (hplace i p _ hi hti).1) ht]
  · rw [isStoredInMainIndex, (h.keys p).2 hmem] at hp
    cases hp

end Index

end K2Cache
