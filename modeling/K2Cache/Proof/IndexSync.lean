import K2Cache.Proof.IndexFile

/-!
# The file `sync_to_stream` writes

The new file lists the new predicates and those of the old file, and its trees are the
ones in memory where these have changed, else the ones of the old file
(`syncToStream_cases`). Nothing is written only if a changed tree is not in memory, or a
new predicate is not marked as changed.

`syncToStream_spec`: what this says of a single entry.
-/

namespace K2Cache

open Lib

variable {T : Type} {ops : TreeOps T}

namespace Index

/-- Where a tree of the new file is from, and what its entry says of its size in memory. -/
def SyncSource (ops : TreeOps T) (x : Index T) (p : UInt64) (md : PredicateMetadata) (t : T) : Prop :=
  (x.dirtyPredicates.contains p = true ∧ x.predicates.find? p = some t ∧ md.treeSizeInMemory = ops.measure t) ∨
    ∃ old, x.dirtyPredicates.contains p = false ∧ x.metadata.metadataMap.find? p = some old ∧
      HoldsTree ops x.is.data old t ∧ md.treeSizeInMemory = old.treeSizeInMemory

/-- An entry of the new file: where its tree is, and which tree that is. -/
structure Synced (ops : TreeOps T) (x : Index T) (data : Bytes) (p : UInt64) (md : PredicateMetadata) (t : T) :
    Prop where
  predicateId : md.predicateId = p
  holds : HoldsTree ops data md t
  source : (x.dirtyPredicates.contains p = true ∧ x.predicates.find? p = some t) ∨
    ∃ old, x.metadata.metadataMap.find? p = some old ∧ HoldsTree ops x.is.data old t

/-- Why nothing is written: a changed tree is not in memory, or a new one not marked. -/
def Unwritable (x : Index T) (e : Exn) : Prop :=
  (e = .nullDereference ∧ ∃ p, x.dirtyPredicates.contains p = true ∧ x.predicates.contains p = false) ∨
    ∃ p, x.newPredicates.contains p = true ∧ x.dirtyPredicates.contains p = false

theorem Tidy.not_unwritable {x : Index T} (h : x.Tidy) (e : Exn) : ¬ x.Unwritable e := by
  rintro (⟨-, p, hd, hp⟩ | ⟨p, hn, hd⟩)
  · simp [h.dirtyLoaded p hd] at hp
  · simp [h.newDirty p hn] at hd

/-- The state of the loop of `sync_to_stream` after some predicates. -/
structure SyncInv (ops : TreeOps T) (x : Index T) (done : List UInt64) (trees : List T) (s : SyncState) : Prop where
  laying : Laying ops (SyncSource ops x) x.k2treeConfig x.allPredicates done trees s.os s.metadataMap
  is : s.is.data = x.is.data ∧ s.is.fail = false

theorem mem_allPredicates (x : Index T) (p : UInt64) : p ∈ x.allPredicates ↔
    x.newPredicates.contains p = true ∨ x.metadata.metadataMap.contains p = true := by
  simp only [allPredicates, List.mem_insertionSort, List.mem_append, OrdMap.mem_keys, OrdMap.contains_iff]

/-- **One predicate**: its tree is written at the end, and the entry points at it; or the
tree is neither in memory nor in the old file. -/
theorem syncPredicate_cases (md5calc : Bytes → Md5) {x : Index T}
    (hmain : ∀ p md, x.metadata.metadataMap.find? p = some md → ∃ t, HoldsTree ops x.is.data md t)
    {done : List UInt64} {trees : List T} {s : SyncState} (h : SyncInv ops x done trees s) {p : UInt64}
    (hp : p ∈ x.allPredicates) :
    (∃ e s', syncPredicate ops md5calc x p s = (.error e, s') ∧
      x.Unwritable e ∧ s'.is.data = x.is.data ∧ s'.is.fail = false) ∨
    ∃ s', syncPredicate ops md5calc x p s = (.ok (), s') ∧ ∃ t, SyncInv ops x (done ++ [p]) (trees ++ [t]) s' := by
  cases hd : x.dirtyPredicates.contains p with
  | true =>
    cases ht : x.predicates.find? p with
    | none =>
      refine .inl ⟨.nullDereference, s, ?_, .inl ⟨rfl, p, hd, (OrdMap.contains_eq_false _).2 ht⟩, h.is⟩
      simp only [syncPredicate, hd, if_true, ht]
    | some t =>
      simp only [syncPredicate, hd, if_true, ht]
      exact .inr ⟨_, rfl, t, h.laying.step hp rfl rfl rfl le_rfl (.inl ⟨hd, ht, rfl⟩), h.is⟩
  | false =>
    cases hold : x.metadata.metadataMap.find? p with
    | none =>
      have hnew : x.newPredicates.contains p = true :=
        ((mem_allPredicates x p).1 hp).resolve_right (by simp [OrdMap.contains, hold])
      refine .inl ⟨.outOfRange, s, ?_, .inr ⟨p, hnew, hd⟩, h.is⟩
      simp only [syncPredicate, hd, Bool.false_eq_true, if_false, hold]
    | some old =>
      obtain ⟨t, ht⟩ := hmain p old hold
      have hread : (s.is.seekg old.treeOffset).read old.treeSize =
          (ops.writeToOstream t, (s.is.seekg old.treeOffset).skip (ops.writeToOstream t).length) := by
        rw [ht.size]
        exact IStream.read_ahead (IStream.ahead_seekg h.is.2 (by rw [h.is.1]; exact ht.ahead))
      have hpad : old.treeSize - (ops.writeToOstream t).length = 0 := by rw [ht.size, Nat.sub_self]
      simp only [syncPredicate, hd, Bool.false_eq_true, if_false, hold, hread, hpad, List.replicate_zero, List.append_nil]
      refine .inr ⟨_, rfl, t, h.laying.step hp rfl rfl ht.size ht.memory (.inr ⟨old, hd, hold, ht, rfl⟩), ?_, ?_⟩
      · simp [IStream.seekg, h.is.2, h.is.1]
      · simp [IStream.seekg, h.is.2]

/-- **The new file**: `sync_to_stream` returns and writes an index file, or it throws and
the old file is still open. -/
theorem syncToStream_cases (md5calc : Bytes → Md5) {x : Index T} (hf : x.is.fail = false)
    (hmain : ∀ p md, x.metadata.metadataMap.find? p = some md → ∃ t, HoldsTree ops x.is.data md t) :
    (∃ e s, syncToStream ops md5calc x ⟨⟨[], 0⟩, x.is, ∅⟩ = (.error e, s) ∧
      x.Unwritable e ∧ s.is.data = x.is.data ∧ s.is.fail = false) ∨
    ∃ s trees, syncToStream ops md5calc x ⟨⟨[], 0⟩, x.is, ∅⟩ = (.ok (), s) ∧
      Layout ops ⟨s.metadataMap, x.allPredicates, x.k2treeConfig⟩ trees s.os.buf ∧
      ∀ p md, s.metadataMap.find? p = some md → ∃ t, HoldsTree ops s.os.buf md t ∧ SyncSource ops x p md t := by
  have hstart := Laying.start ops (SyncSource ops x) x.k2treeConfig x.allPredicates
  set os₁ := writeMetadata ∅ x.allPredicates (((⟨[], 0⟩ : OStream).write
    (u64Bytes (UInt64.ofNat x.allPredicates.length))).write x.k2treeConfig.toBytes) with hos₁
  have htell : (((⟨[], 0⟩ : OStream).write (u64Bytes (UInt64.ofNat x.allPredicates.length))).write
      x.k2treeConfig.toBytes).tellp = 20 := by
    simp [OStream.tellp, OStream.write, K2TreeConfig.toBytes]
  have hrun₀ : syncToStream ops md5calc x ⟨⟨[], 0⟩, x.is, ∅⟩ =
      (Act.forEach x.allPredicates (syncPredicate ops md5calc x) >>= fun _ => Act.modify fun s => { s with
        os := (writeMetadata s.metadataMap x.allPredicates (s.os.seekp 20)).seekp s.os.tellp })
      ⟨os₁, x.is, x.allPredicates.foldl (fun m p => m.insert p .zero) ∅⟩ := by
    rw [← htell]
    rfl
  have h0 : ∃ trees : List T, SyncInv ops x [] trees
      ⟨os₁, x.is, x.allPredicates.foldl (fun m p => m.insert p .zero) ∅⟩ := ⟨[], hstart, rfl, hf⟩
  rcases Act.forEach_cases (f := syncPredicate ops md5calc x) (fun done s => ∃ trees, SyncInv ops x done trees s)
    (fun e s => x.Unwritable e ∧ s.is.data = x.is.data ∧ s.is.fail = false) x.allPredicates
    (fun done p post s hl hinv => by
      obtain ⟨trees, hinv⟩ := hinv
      refine (syncPredicate_cases md5calc hmain hinv (p := p) (by rw [hl]; simp)).imp_right ?_
      rintro ⟨s', h1, t, h2⟩
      exact ⟨s', h1, _, h2⟩) h0 with ⟨e, s, hrun, h2⟩ | ⟨s, hrun, trees, h2⟩
  · refine .inl ⟨e, s, ?_, h2⟩
    rw [hrun₀, Act.bind_error hrun]
  · obtain ⟨h3, h4⟩ := h2.laying.finish
    refine .inr ⟨{ s with os := (writeMetadata s.metadataMap x.allPredicates (s.os.seekp 20)).seekp s.os.tellp }, trees,
      ?_, h3, h4⟩
    rw [hrun₀, Act.bind_ok hrun]
    rfl

/-- A tidy index is written: every predicate that is new or in the old file has an entry
in front of its tree. -/
theorem syncToStream_spec (md5calc : Bytes → Md5) {x : Index T} (hx : x.Tidy) (hf : x.is.fail = false)
    (hmain : ∀ p md, x.metadata.metadataMap.find? p = some md → ∃ t, HoldsTree ops x.is.data md t) :
    ∃ s, syncToStream ops md5calc x ⟨⟨[], 0⟩, x.is, ∅⟩ = (.ok (), s) ∧
      (∀ p, s.metadataMap.contains p = true ↔ p ∈ x.allPredicates) ∧
      ∀ p md, s.metadataMap.find? p = some md → ∃ t, Synced ops x s.os.buf p md t := by
  rcases syncToStream_cases md5calc hf hmain with ⟨e, s, -, hnot, -⟩ | ⟨s, trees, hrun, hlay, hsrc⟩
  · exact absurd hnot (hx.not_unwritable e)
  · refine ⟨s, hrun, hlay.keys, fun p md hmd => ?_⟩
    obtain ⟨t, ht, hfrom⟩ := hsrc p md hmd
    obtain ⟨_, hp⟩ := hlay.placed p md hmd
    refine ⟨t, hp.predicateId, ht, ?_⟩
    rcases hfrom with ⟨hd, hfind, -⟩ | ⟨old, -, hold, h3, -⟩
    · exact .inl ⟨hd, hfind⟩
    · exact .inr ⟨old, hold, h3⟩

end Index

namespace Manager

variable {P : CacheParams T} {s : Manager T}

/-- **`sync_to_persistent`** puts the new file in the place of the old one, and reads from
it from then on; or it throws, and the old file is as it was. -/
theorem syncToPersistent_cases (hf : s.index.is.fail = false)
    (hmain : ∀ p md, s.index.metadata.metadataMap.find? p = some md → ∃ t, Index.HoldsTree P.ops s.index.is.data md t) :
    (∃ e s', syncToPersistent P s = (.error e, s') ∧ s.index.Unwritable e ∧
      s'.disk (FileRWHandler.file .index) = s.disk (FileRWHandler.file .index) ∧ s'.index.is.data = s.index.is.data ∧
      s'.index.is.fail = false ∧ s'.index = { s.index with is := s'.index.is }) ∨
    ∃ m data trees, syncToPersistent P s = (.ok (), { s with
        disk := FileRWHandler.replaceFile s.disk .index .binaryTrunc data
        merger := { s.merger with ref := { s.index with
          metadata := ⟨m, s.index.allPredicates, s.index.k2treeConfig⟩
          is := .ofBytes data } } }) ∧
      Index.Layout P.ops ⟨m, s.index.allPredicates, s.index.k2treeConfig⟩ trees data ∧
      ∀ p md, m.find? p = some md → ∃ t, Index.HoldsTree P.ops data md t ∧ Index.SyncSource P.ops s.index p md t := by
  rcases Index.syncToStream_cases P.md5calc hf hmain with ⟨e, r, h1, h2, h3, h4⟩ | ⟨r, trees, h1, h2, h3⟩
  · -- the temporary file is not committed
    refine .inl ⟨e, { s with
      disk := (FileRWHandler.getWriterTemp s.disk .index .binaryTrunc).append (FileRWHandler.tmp .index) r.os.buf
      merger := { s.merger with ref := { s.index with is := r.is } } }, ?_, h2, ?_, h3, h4, rfl⟩
    · simp only [syncToPersistent, h1]
    · show (FileRWHandler.getWriterTemp s.disk .index .binaryTrunc).append (FileRWHandler.tmp .index) r.os.buf
        (FileRWHandler.file .index) = _
      rw [Disk.append, Disk.set_ne _ _ (FileRWHandler.file_ne_tmp _ _), FileRWHandler.getWriterTemp, Disk.openOut]
      split <;> exact Disk.set_ne _ _ (FileRWHandler.file_ne_tmp _ _)
  · refine .inr ⟨r.metadataMap, r.os.buf, trees, ?_, h2, h3⟩
    set d₂ := FileRWHandler.replaceFile s.disk .index .binaryTrunc r.os.buf with hd₂
    have hreader : FileRWHandler.getReader d₂ .index = .ofBytes r.os.buf := by
      have hfile : d₂ (FileRWHandler.file .index) = some r.os.buf := FileRWHandler.replaceFile_file _ _ _ rfl _
      simp [FileRWHandler.getReader, hfile]
    rw [← hreader]
    simp only [syncToPersistent, h1]
    rfl

/-- An index opened on an index file has its header. -/
theorem openIndex_spec {d : Disk} {md : PredicatesCacheMetadata} {trees : List T} {data : Bytes} {ops : TreeOps T}
    (hd : d (FileRWHandler.file .index) = some data) (h : Index.Layout ops md trees data) (hlen : data.length < 2 ^ 64)
    (hmem : ∀ p e, md.metadataMap.find? p = some e → e.treeSizeInMemory < 2 ^ 64) :
    (openIndex d : Manager T).index.metadata = md ∧ (openIndex d : Manager T).index.is.data = data ∧
      (openIndex d : Manager T).index.is.fail = false := by
  have hread : PredicatesCacheMetadata.ofIstream (FileRWHandler.getReader d .index) =
      (md, (IStream.ofBytes data).skip (20 + 52 * md.predicatesIds.length)) := by
    rw [FileRWHandler.getReader, hd]
    exact h.ofIstream hlen hmem
  simp only [openIndex, index, Index.construct, hread]
  exact ⟨trivial, rfl, rfl⟩

end Manager

end K2Cache
