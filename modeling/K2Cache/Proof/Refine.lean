import K2Cache.Proof.LoggedFiles
import K2Cache.Proof.Replay

/-!
# Lazy loading refines the abstract store

Every call of the manager returns and keeps `CacheInv`, and only `log` changes what is
served (`cacheStep`). So after every run of calls `fetch_k2tree` serves the initial
points with the logged updates applied (`fetchK2tree_served`).
-/

namespace K2Cache

open Lib

variable {T : Type} {P : CacheParams T} {init : Store} {recs : Records T} {s : Manager T} {p : UInt64}

namespace Manager

variable (hl : P.ops.Lawful)
include hl

/-! ## Logging, discarding, syncing -/

omit hl in
/-- The index merges a batch through the wrapper. -/
theorem mergeUpdate_forward {us : List (K2TreeUpdates T)} {x' : Index T} (hs : s.merger.refSet = true)
    (h : Index.mergeUpdate P.ops us s.index = (.ok (), x')) :
    P.logger.merger.mergeUpdate us s.merger = (.ok (), { s.merger with ref := x' }) := by
  have hcheck : PCMMergerWrapper.noRefCheck s.merger = (.ok (), s.merger) := by
    simp [PCMMergerWrapper.noRefCheck, hs]
  have hforward : Index.mergeUpdate P.ops us s.merger.ref = (.ok (), x') := h
  show PCMMergerWrapper.forward (Index.mergeUpdate P.ops us) s.merger = _
  rw [PCMMergerWrapper.forward, Act.bind_ok hcheck]
  simp only [Act.focus, hforward]

omit hl in
/-- What `log` does: the batch is written, the offsets, the index merges it, the counter
is written. -/
theorem log_forward {us : List (K2TreeUpdates T)} {x' : Index T} (hs : s.merger.refSet = true)
    (h : Index.mergeUpdate P.ops us s.index = (.ok (), x')) :
    LogEnv.log P.logger us s = (.ok (), LogEnv.countUpdate (setIndex
      (LogEnv.syncOffsets (LogEnv.appendBatch P.logger us (LogEnv.openWriter P.logger s))) x')) :=
  log_run (mergeUpdate_forward hs h)

/-- **`log`** changes what is served at once: in memory where the predicate is loaded, in
the log for the others; the registered records have to be in the file that is opened. -/
theorem log_spec (us : List (K2TreeUpdates T)) (h : CacheInv P init s recs)
    (hreg : Registered P.ops (LogEnv.openWriter P.logger s).logBytes s.logger.offsetsMap recs) :
    ∃ s', LogEnv.log P.logger us s = (.ok (), s') ∧ CacheInv P init s' (recs.pushAll us) := by
  obtain ⟨x', h1, h2, h3⟩ := Index.mergeUpdate_spec hl s.index us
  have hrun := log_forward h.log.refSet h1
  have hinv := logInv_log (P := P.logger) us hreg
  rw [hrun] at hinv
  refine ⟨_, hrun, ⟨hinv.registered, ?_, h.log.refSet⟩, ?_⟩
  · intro r hr
    -- `log` has closed the reader
    exact absurd hr (by simp [LogEnv.countUpdate, setIndex, LogEnv.syncOffsets, LogEnv.appendBatch, LogEnv.openWriter])
  · -- the records grow at the end, on both sides of the invariant
    have hpatch : ∀ p, (recs.pushAll us).patches P.ops p =
        recs.patches P.ops p ++ (Index.updatesOf us p).map (K2TreeUpdates.patch P.ops) := by
      intro p
      rw [Records.patches, Records.pushAll_updatesOf, List.map_append]
      rfl
    have hknown : ∀ p, (init p ≠ none ∨ recs p ≠ []) → (init p ≠ none ∨ recs.pushAll us p ≠ []) := by
      intro p
      refine Or.imp_right fun hr => ?_
      rw [Records.pushAll_updatesOf]
      simp [hr]
    show IndexPart P.ops init (recs.pushAll us) x'
    refine ⟨h2.tidy h.index.tidy, by rw [h2.is.2]; exact h.index.good,
      by rw [h2.hasUpdateLogger]; exact h.index.hasUpdateLogger, fun p hp => ?_, fun p md hp => ?_, fun p hp => ?_⟩
    · rw [Index.isStoredInMainIndex, h2.metadata]
      exact h.index.initial p hp
    · rw [h2.metadata] at hp
      obtain ⟨hid, hk, t, ht, happ'⟩ := h.index.main p md hp
      refine ⟨hid, hknown p hk, t, by rw [h2.is.1]; exact ht, ?_⟩
      rw [Records.target, hpatch, Patch.applyAll_append, Patch.applyAll_append, happ']
      rfl
    · rw [(h3 p).1] at hp
      obtain ⟨hk, he⟩ := h.index.loaded p hp
      refine ⟨hknown p hk, ?_⟩
      rw [(h3 p).2 hp, he, Records.target, Records.target, hpatch, Patch.applyAll_append]

omit hl in
/-- **`discard_in_memory_predicate`** changes nothing that is served. -/
theorem removeKey_spec (p : UInt64) (h : CacheInv P init s recs) :
    ∃ s', removeKey p s = (.ok (), s') ∧ CacheInv P init s' recs := by
  refine ⟨s.setIndex (s.index.discardInMemoryPredicate p), rfl,
    ⟨h.log.registered, h.log.reader, h.log.refSet⟩, h.index.touch (Index.touches_discard s.index p) fun hc => ?_⟩
  simp [Index.discardInMemoryPredicate, OrdMap.contains, OrdMap.find?_erase] at hc

/-- **`sync_to_persistent`** writes what is served where a tree has changed, and copies the
other trees, which the log still updates. -/
theorem syncToPersistent_spec (h : CacheInv P init s recs) :
    ∃ s', syncToPersistent P s = (.ok (), s') ∧ CacheInv P init s' recs := by
  have hmain : ∀ p md, s.index.metadata.metadataMap.find? p = some md → ∃ t, Index.HoldsTree P.ops s.index.is.data md t :=
    fun p md hp => let ⟨_, _, t, ht, _⟩ := h.index.main p md hp; ⟨t, ht⟩
  obtain ⟨r, h1, h2, h3⟩ := Index.syncToStream_spec P.md5calc h.index.tidy h.index.good hmain
  set d₂ := FileRWHandler.replaceFile s.disk .index .binaryTrunc r.os.buf with hd₂
  have hfile : d₂ (FileRWHandler.file .index) = some r.os.buf := FileRWHandler.replaceFile_file _ _ _ rfl _
  have hreader : FileRWHandler.getReader d₂ .index = .ofBytes r.os.buf := by
    simp [FileRWHandler.getReader, hfile]
  set x' : Index T := { s.index with
    metadata := ⟨r.metadataMap, s.index.allPredicates, s.index.k2treeConfig⟩
    is := FileRWHandler.getReader d₂ .index } with hx'
  have hlog : d₂.bytes (FileRWHandler.file .updateLog) = s.logBytes :=
    Disk.bytes_congr (FileRWHandler.replaceFile_other (by decide))
  refine ⟨{ s with disk := d₂, merger := { s.merger with ref := x' } }, ?_, ⟨?_, ?_, h.log.refSet⟩, ?_⟩
  · simp only [syncToPersistent, h1]
    rfl
  · show Registered P.ops (d₂.bytes _) _ _
    rw [hlog]
    exact h.log.registered
  · intro q hq
    show q.data = d₂.bytes _ ∧ _
    rw [hlog]
    exact h.log.reader q hq
  · show IndexPart P.ops init recs x'
    refine ⟨⟨h.index.tidy.dirtyLoaded, h.index.tidy.newDirty⟩, by rw [hx', hreader]; rfl, h.index.hasUpdateLogger,
      fun p hp => ?_, fun p md hp => ?_, h.index.loaded⟩
    · exact (h2 p).2 ((Index.mem_allPredicates _ _).2 (.inr (h.index.initial p hp)))
    · obtain ⟨t, hid, ht, hsrc⟩ := h3 p md hp
      have ht' : Index.HoldsTree P.ops x'.is.data md t := by
        rw [hx', hreader]
        exact ht
      rcases hsrc with ⟨hdirty, hfind⟩ | ⟨old, hold, ht₀⟩
      · -- the tree in memory has all the records
        obtain ⟨hk, he⟩ := h.index.loaded p (h.index.tidy.dirtyLoaded p hdirty)
        rw [Index.held_of_find? hfind] at he
        refine ⟨hid, hk, t, ht', ?_⟩
        rw [he, Records.target]
        exact Patch.applyAll_idem _ _
      · obtain ⟨-, hk, t₀, h5, h6⟩ := h.index.main p old hold
        obtain rfl := Index.HoldsTree.unique hl ht₀ h5
        exact ⟨hid, hk, t, ht', h6⟩

end Manager

/-! ## Runs -/

/-- The calls of a run on the manager. -/
inductive CacheOp (T : Type) where
  | log (us : List (K2TreeUpdates T))
  | fetchK2tree (p : UInt64)
  | retrieveKey (p : UInt64)
  | discardInMemoryPredicate (p : UInt64)
  | syncToPersistent

/-- The call. -/
def CacheOp.call (P : CacheParams T) : CacheOp T → Act Exn (Manager T) Unit
  | log us => LogEnv.log P.logger us
  | fetchK2tree p => do
    let _ ← Manager.fetchK2tree P p
    pure ()
  | retrieveKey p => Manager.retrieveKey P p
  | discardInMemoryPredicate p => Manager.removeKey p
  | syncToPersistent => Manager.syncToPersistent P

/-- The manager as a machine; a call that throws ends the run. -/
def cacheMachine (P : CacheParams T) : Machine (Manager T) (CacheOp T) where
  step s op :=
    match op.call P s with
    | (.ok _, s') => some s'
    | (.error _, _) => none

/-- The records after a call. -/
def CacheOp.records (recs : Records T) : CacheOp T → Records T
  | log us => recs.pushAll us
  | _ => recs

/-- **One step**: every call returns, and follows the abstract store. -/
theorem cacheStep (hl : P.ops.Lawful) (happ : P.logMode.app = true) (s : Manager T) (recs : Records T)
    (op : CacheOp T) (h : CacheInv P init s recs) :
    ∃ s', (cacheMachine P).step s op = some s' ∧ CacheInv P init s' (op.records recs) := by
  have key : ∀ s', op.call P s = (.ok (), s') → (cacheMachine P).step s op = some s' := by
    intro s' hs
    simp [cacheMachine, hs]
  cases op with
  | log us =>
    obtain ⟨s', h1, h2⟩ := Manager.log_spec hl us h (h.log.registered.openWriter (P := P.logger) (.inl happ))
    exact ⟨s', key s' h1, h2⟩
  | fetchK2tree p =>
    obtain ⟨r, s', h1, h2, -⟩ := Manager.fetchK2tree_spec hl p h
    exact ⟨s', key s' (Act.bind_ok h1), h2⟩
  | retrieveKey p =>
    obtain ⟨b, s', h1, h2, -⟩ := Manager.loadSinglePredicate_spec hl p h
    exact ⟨s', key s' (Act.bind_ok h1), h2⟩
  | discardInMemoryPredicate p =>
    obtain ⟨s', h1, h2⟩ := Manager.removeKey_spec p h
    exact ⟨s', key s' h1, h2⟩
  | syncToPersistent =>
    obtain ⟨s', h1, h2⟩ := Manager.syncToPersistent_spec hl h
    exact ⟨s', key s' h1, h2⟩

/-- The updates a run logs for a predicate, the oldest first. -/
def loggedIn (run : List (CacheOp T)) (p : UInt64) : List (K2TreeUpdates T) :=
  run.flatMap fun op => match op with
    | .log us => Index.updatesOf us p
    | _ => []

theorem foldl_records (run : List (CacheOp T)) (recs : Records T) (p : UInt64) :
    run.foldl CacheOp.records recs p = recs p ++ loggedIn run p := by
  induction run generalizing recs with
  | nil => simp [loggedIn]
  | cons op run ih =>
    rw [List.foldl_cons, ih]
    cases op <;> simp [CacheOp.records, loggedIn, Records.pushAll_updatesOf]

/-! ## The start -/

/-- The metadata a new index reads from the index file. -/
def initialMetadata (d : Disk) : PredicatesCacheMetadata × IStream :=
  PredicatesCacheMetadata.ofIstream (FileRWHandler.getReader d .index)

/-- **A well-formed index file**: its header can be read, and every entry points to a
serialized tree of the recorded sizes. -/
structure ValidIndex (ops : TreeOps T) (d : Disk) : Prop where
  header : (initialMetadata d).2.fail = false
  trees : ∀ p md, (initialMetadata d).1.metadataMap.find? p = some md →
    ∃ t, Index.HoldsTree ops (d.bytes (FileRWHandler.file .index)) md t

/-- The points the index file has of each predicate. -/
def initialStore (ops : TreeOps T) (d : Disk) : Store := fun p =>
  match (initialMetadata d).1.metadataMap.find? p with
  | none => none
  | some md =>
    match (ops.readFromIstream ((IStream.ofBytes (d.bytes (FileRWHandler.file .index))).seekg md.treeOffset)).1 with
    | .ok t => some (ops.points t)
    | .error _ => none

theorem readEntries_data (n : ℕ) (m : OrdMap UInt64 PredicateMetadata) (ids : List UInt64) (s : IStream) :
    (PredicatesCacheMetadata.readEntries n m ids s).2.data = s.data := by
  induction n generalizing m ids s with
  | zero => rfl
  | succ n ih =>
    rw [PredicatesCacheMetadata.readEntries, ih]
    simp [PredicateMetadata.readFromIstream, PredicateMetadata.readHash]

/-- What every entry that is read has, under its own predicate. -/
theorem readEntries_forall {Q : UInt64 → PredicateMetadata → Prop}
    (hread : ∀ s, Q (PredicateMetadata.readFromIstream s).1.predicateId (PredicateMetadata.readFromIstream s).1) (n : ℕ)
    (m : OrdMap UInt64 PredicateMetadata) (ids : List UInt64) (s : IStream) (hm : ∀ p md, m.find? p = some md → Q p md)
    (p : UInt64) (md : PredicateMetadata)
    (h : (PredicatesCacheMetadata.readEntries n m ids s).1.1.find? p = some md) : Q p md := by
  induction n generalizing m ids s with
  | zero => exact hm p md h
  | succ n ih =>
    refine ih _ _ _ (fun q md' hq => ?_) h
    rw [OrdMap.find?_insert] at hq
    split at hq
    · rename_i hqp
      rw [← Option.some.inj hq, hqp]
      exact hread s
    · exact hm q md' hq

/-- Entries are stored under their own predicate, and sizes are 64-bit integers. -/
theorem initialMetadata_entry {d : Disk} {p : UInt64} {md : PredicateMetadata}
    (h : (initialMetadata d).1.metadataMap.find? p = some md) : md.predicateId = p ∧ md.treeSizeInMemory < 2 ^ 64 :=
  readEntries_forall (Q := fun p md => md.predicateId = p ∧ md.treeSizeInMemory < 2 ^ 64)
    (fun _ => ⟨rfl, UInt64.toNat_lt _⟩) _ _ _ _ (fun p md h => by simp at h) p md h

theorem initialMetadata_data (d : Disk) :
    (initialMetadata d).2.data = d.bytes (FileRWHandler.file .index) := by
  have h : (FileRWHandler.getReader d .index).data = d.bytes (FileRWHandler.file .index) := by
    unfold FileRWHandler.getReader Disk.bytes
    cases d (FileRWHandler.file .index) <;> rfl
  rw [initialMetadata, PredicatesCacheMetadata.ofIstream, readEntries_data, ← h]
  simp [K2TreeConfig.readFromIstream]

/-- A disk with a well-formed index file and no log yet. -/
structure FreshLog (ops : TreeOps T) (d : Disk) : Prop extends ValidIndex ops d where
  noLog : d (FileRWHandler.file .updateLog) = none
  noOffsets : d (FileRWHandler.file .updateLogOffsets) = none

/-- **A manager created on such a disk** serves what the index file has. -/
theorem create_spec (hl : P.ops.Lawful) {d : Disk} (hd : FreshLog P.ops d) (uninit : ℤ) :
    ∃ l s, UpdatesLogger.construct d uninit = .ok l ∧ Manager.create P d uninit = .ok s ∧
      s = ⟨d, { l with writerOpen := false }, ⟨true, (Index.construct d).setUpdateLogger⟩⟩ ∧
      CacheInv P (initialStore P.ops d) s (fun _ => []) := by
  have hoff : retrieveOffsetsMap d = .ok ∅ := by
    simp [retrieveOffsetsMap, FileRWHandler.fileExists, hd.noOffsets]
  obtain ⟨l, hc, hm⟩ := construct_of_retrieve hoff uninit
  have hreader : l.reader = none := (construct_streams hc).1
  -- there is no log to replay
  have hrec : Manager.construct P d l (Index.construct d) =
      (.ok (), ⟨d, { l with writerOpen := false }, ⟨false, (Index.construct d).setUpdateLogger⟩⟩) := by
    simp [Manager.construct, LogEnv.recoverAll, LogEnv.closeWriter, FileRWHandler.fileExists, hd.noLog]
  refine ⟨l, ⟨d, { l with writerOpen := false }, ⟨true, (Index.construct d).setUpdateLogger⟩⟩, hc, ?_, rfl,
    ⟨?_, ?_, rfl⟩, ?_⟩
  · simp only [Manager.create, hc, hrec]
  · show Registered P.ops _ l.offsetsMap _
    rw [hm]
    exact registered_empty _ _
  · intro r hr
    rw [show _ = none from hreader] at hr
    simp at hr
  · -- every tree of the file is as it was, and none is loaded
    show IndexPart P.ops _ _ ((Index.construct d).setUpdateLogger)
    refine ⟨⟨fun p hp => ?_, fun p hp => ?_⟩, hd.header, rfl, fun p hp => ?_, fun p md hp => ?_, fun p hp => ?_⟩
    · simp [Index.construct, Index.setUpdateLogger, OrdMap.contains] at hp
    · simp [Index.construct, Index.setUpdateLogger, OrdMap.contains] at hp
    · show (initialMetadata d).1.metadataMap.contains p = true
      rw [OrdMap.contains]
      cases hfind : (initialMetadata d).1.metadataMap.find? p with
      | none => exact absurd (by rw [initialStore, hfind]) hp
      | some md => rfl
    · have hfind : (initialMetadata d).1.metadataMap.find? p = some md := hp
      obtain ⟨t, ht⟩ := hd.trees p md hfind
      have hread := hl.read_write t _ (IStream.ahead_seekg
        (s := .ofBytes (d.bytes (FileRWHandler.file .index))) rfl ht.ahead)
      have hinit : initialStore P.ops d p = some (P.ops.points t) := by
        simp only [initialStore, hfind, hread]
      refine ⟨(initialMetadata_entry hfind).1, .inl (by simp [hinit]), t, ?_, ?_⟩
      · have hdata : ((Index.construct d : Index T).setUpdateLogger).is.data =
            d.bytes (FileRWHandler.file .index) := initialMetadata_data d
        rw [hdata]
        exact ht
      · rw [Records.target, hinit]
        rfl
    · simp [Index.construct, Index.setUpdateLogger, OrdMap.contains] at hp

theorem initialStore_ne_none (hl : P.ops.Lawful) {d : Disk} (hd : ValidIndex P.ops d) (p : UInt64) :
    initialStore P.ops d p ≠ none ↔ (Index.construct d : Index T).isStoredInMainIndex p = true := by
  show _ ↔ (initialMetadata d).1.metadataMap.contains p = true
  unfold initialStore
  rw [OrdMap.contains]
  cases hfind : (initialMetadata d).1.metadataMap.find? p with
  | none => simp
  | some md =>
    obtain ⟨t, ht⟩ := hd.trees p md hfind
    have hread := hl.read_write t _ (IStream.ahead_seekg
      (s := .ofBytes (d.bytes (FileRWHandler.file .index))) rfl ht.ahead)
    simp [hread]

/-- **Lazy loading refines the abstract store.** On a log file that keeps what it has,
after every run of calls: `fetch_k2tree` returns, a predicate exists exactly if it was in
the index file or some update of it was logged, and its points are the initial ones with
the logged updates applied in order. -/
theorem fetchK2tree_served (hl : P.ops.Lawful) (happ : P.logMode.app = true) {d : Disk} (hd : FreshLog P.ops d)
    (uninit : ℤ) :
    ∃ s₀, Manager.create P d uninit = .ok s₀ ∧ ∀ run : List (CacheOp T), ∃ s, (cacheMachine P).run run s₀ = some s ∧
      ∀ p, ∃ r s', Manager.fetchK2tree P p s = (.ok r, s') ∧
        (r.doesExist = true ↔ (Index.construct d : Index T).isStoredInMainIndex p = true ∨ loggedIn run p ≠ []) ∧
        (r.doesExist = true → ∃ t, r.result = some t ∧ P.ops.points t =
          Patch.applyAll ((loggedIn run p).map (K2TreeUpdates.patch P.ops)) ((initialStore P.ops d p).getD ∅)) := by
  obtain ⟨-, s₀, -, hc, -, h0⟩ := create_spec hl hd uninit
  refine ⟨s₀, hc, fun run => ?_⟩
  obtain ⟨s, hrun, hs⟩ := Machine.simulation (cacheStep hl happ) run h0
  refine ⟨s, hrun, fun p => ?_⟩
  obtain ⟨r, s', h1, -, h2, h3⟩ := Manager.fetchK2tree_spec hl p hs
  have hrecs : run.foldl CacheOp.records (fun _ => []) p = loggedIn run p := by simp [foldl_records]
  rw [← initialStore_ne_none hl hd.toValidIndex p]
  unfold Records.served at h2 h3
  rw [hrecs] at h2 h3
  refine ⟨r, s', h1, ?_, fun hr => ?_⟩
  · rw [h2]
    split <;> rename_i hn
    · simp [hn]
    · simp only [Option.isSome_some, true_iff]
      tauto
  · rw [hr] at h2
    split at h3
    · rename_i hn
      simp [hn] at h2
    · obtain ⟨t, ht, hp⟩ := Option.map_eq_some_iff.1 h3
      refine ⟨t, ht, hp.trans ?_⟩
      rw [Records.target, Records.patches, hrecs]

namespace PointTree

/-- The manager over these trees. -/
def cacheParams (mode : OpenMode) : CacheParams PointTree := ⟨ops, fun _ => PredicateMetadata.zero.k2treeHash, mode⟩

/-- The entry of predicate 5 in `indexDisk`. -/
def entry : PredicateMetadata := ⟨5, 72, 18, 1, 0, PredicateMetadata.zero.k2treeHash⟩

/-- A disk whose index file holds the point `(1, 1)` for predicate 5. -/
def indexDisk : Disk := fun q =>
  if q = FileRWHandler.file .index then
    some (u64Bytes 1 ++ (⟨32, 256, 10⟩ : K2TreeConfig).toBytes ++ entry.toBytes ++ ops.writeToOstream (ofList [(1, 1)]))
  else none

theorem indexDisk_fresh : FreshLog ops indexDisk := by
  refine ⟨⟨by decide, fun p md h => ?_⟩, by decide, by decide⟩
  have hentries : (initialMetadata indexDisk).1.metadataMap.entries = [(5, entry)] := by rfl
  rw [OrdMap.find?_eq_some, hentries, List.mem_singleton, Prod.mk.injEq] at h
  obtain ⟨-, rfl⟩ := h
  exact ⟨ofList [(1, 1)], by decide, by decide, by decide⟩

end PointTree

open PointTree in
/-- Predicate 5 loses its point while it is not loaded, predicate 9 is only in the log. -/
theorem fetchK2tree_served_evicted :
    ∃ s₀, Manager.create (cacheParams .binaryApp) indexDisk 0 = .ok s₀ ∧
      ∃ s, (cacheMachine (cacheParams .binaryApp)).run
          [.log [deleting 5 [(1, 1)], inserting 9 [(2, 2)]], .fetchK2tree 5, .discardInMemoryPredicate 5,
            .syncToPersistent, .log [inserting 5 [(3, 3)]]] s₀ = some s ∧
        ∀ p, ∃ r s', Manager.fetchK2tree (cacheParams .binaryApp) p s = (.ok r, s') ∧
          (r.doesExist = true ↔ p = 5 ∨ p = 9) := by
  obtain ⟨s₀, hc, hall⟩ := fetchK2tree_served (P := cacheParams .binaryApp) ops_lawful rfl indexDisk_fresh 0
  refine ⟨s₀, hc, ?_⟩
  obtain ⟨s, hrun, hs⟩ := hall [.log [deleting 5 [(1, 1)], inserting 9 [(2, 2)]], .fetchK2tree 5,
    .discardInMemoryPredicate 5, .syncToPersistent, .log [inserting 5 [(3, 3)]]]
  refine ⟨s, hrun, fun p => ?_⟩
  obtain ⟨r, s', h1, h2, -⟩ := hs p
  refine ⟨r, s', h1, h2.trans ?_⟩
  have hm : (Index.construct indexDisk : Index PointTree).isStoredInMainIndex p = true ↔ p = 5 := by
    have hentries : (initialMetadata indexDisk).1.metadataMap.entries = [(5, entry)] := by rfl
    show (initialMetadata indexDisk).1.metadataMap.contains p = true ↔ _
    rw [OrdMap.contains_iff]
    constructor
    · rintro ⟨md, hmd⟩
      rw [OrdMap.find?_eq_some, hentries, List.mem_singleton, Prod.mk.injEq] at hmd
      exact hmd.1
    · rintro rfl
      exact ⟨entry, (OrdMap.find?_eq_some _).2 (by rw [hentries]; simp)⟩
  rw [hm]
  by_cases h5 : p = 5
  · simp [h5]
  · by_cases h9 : p = 9
    · subst h9
      simp [loggedIn, inserting, deleting, K2TreeUpdates.getKind]
    · simp [loggedIn, inserting, deleting, h5, h9, Ne.symm h5, Ne.symm h9]

end K2Cache
