import K2Cache.Proof.LogRun

/-!
# The files after calls of log

`LoggedFiles.log`: a call of `log` whose merger returns adds a batch to the log file, writes
the offsets, and counts the batch where the counter file is open. `construct_counter`: a new
logger reads the count back.
-/

namespace K2Cache

open Lib

variable {T μ : Type} {P : LoggerParams T μ}

/-- The counter file holds this count, behind a good stream. -/
structure CounterAt (e : LogEnv μ) (n : ℕ) : Prop where
  file : e.disk (FileRWHandler.file .updateLogMeta) = some (u32Bytes (UInt32.ofInt e.logger.totalUpdates))
  total : e.logger.totalUpdates = wrapInt n
  stream : e.logger.metadataFileRw.fail = false ∧ e.logger.metadataFileRw.bound = true

/-- What a batch adds to the offsets and the bytes of a log file. -/
def packBatch (ops : TreeOps T) (acc : OffsetsMap × Bytes) (us : List (K2TreeUpdates T)) : OffsetsMap × Bytes :=
  ((logBatch ops us acc.1 acc.2.length).1, acc.2 ++ (logBatch ops us acc.1 acc.2.length).2)

/-- A logger that has logged these batches to an empty log, and done nothing else. -/
structure LoggedFiles (P : LoggerParams T μ) (bs : List (List (K2TreeUpdates T))) (e : LogEnv μ) : Prop where
  written : (e.logger.offsetsMap, e.logBytes) = bs.foldl (packBatch P.ops) (∅, [])
  reader : e.logger.reader = none
  writer : bs ≠ [] → e.logger.writerOpen = true ∧ FileRWHandler.fileExists e.disk .updateLog = true
  offsetsFile : Persistable e.logger.offsetsMap → retrieveOffsetsMap e.disk = .ok e.logger.offsetsMap

theorem wrapInt_add_one (n : ℕ) : wrapInt (wrapInt n + 1) = wrapInt (n + 1) := by
  unfold wrapInt
  exact Int.bmod_add_bmod

/-- The counter is read back. -/
theorem wrapInt_u32 (i : ℤ) : wrapInt (UInt32.ofInt (wrapInt i)).toNat = wrapInt i := by
  have h : ((UInt32.ofInt (wrapInt i)).toNat : ℤ) = wrapInt i % 2 ^ 32 := by
    have hnn : 0 ≤ wrapInt i % 2 ^ 32 := Int.emod_nonneg _ (by decide)
    have hlt : wrapInt i % 2 ^ 32 < 2 ^ 32 := Int.emod_lt_of_pos _ (by decide)
    rw [UInt32.ofInt, UInt32.toNat_ofNat_of_lt' (by rw [UInt32.size]; omega)]
    omega
  rw [h]
  unfold wrapInt
  show (i.bmod (2 ^ 32) % ((2 ^ 32 : ℕ) : ℤ)).bmod (2 ^ 32) = i.bmod (2 ^ 32)
  rw [Int.emod_bmod, Int.bmod_bmod]

variable {bs : List (List (K2TreeUpdates T))} {e : LogEnv μ}

theorem packBatches_bytes {ops : TreeOps T} (bs : List (List (K2TreeUpdates T))) (acc : OffsetsMap × Bytes) :
    (bs.foldl (packBatch ops) acc).2 = acc.2 ++ bs.flatMap (batchBytes ops) := by
  induction bs generalizing acc with
  | nil => simp
  | cons us bs ih => simp [ih, packBatch, logBatch_bytes]

theorem LoggedFiles.bytes (h : LoggedFiles P bs e) : e.logBytes = bs.flatMap (batchBytes P.ops) := by
  have hw := congrArg Prod.snd h.written
  rwa [packBatches_bytes, List.nil_append] at hw

theorem writeAt_counter {d : Disk} {q : Path} {a b : UInt32} (h : d q = some (u32Bytes a)) :
    d.writeAt q 0 (u32Bytes b) q = some (u32Bytes b) := by
  have hlen : (u32Bytes a).drop 4 = [] := List.drop_eq_nil_of_le (by simp)
  simp [Disk.writeAt, Disk.bytes, h, OStream.write, hlen]

/-- The first batch opens a file that has nothing, in either mode; the others find it open. -/
theorem LoggedFiles.openWriter (h : LoggedFiles P bs e) : (LogEnv.openWriter P e).logBytes = e.logBytes := by
  by_cases hb : bs = []
  · have hbytes := h.bytes
    rw [hb] at hbytes
    exact openWriter_logBytes (.inr (.inr hbytes))
  · exact openWriter_logBytes (.inr (.inl (h.writer hb).1))

/-- The log file and the offsets after one more batch. -/
theorem LoggedFiles.appendBatch (h : LoggedFiles P bs e) (us : List (K2TreeUpdates T)) :
    ((LogEnv.appendBatch P us (LogEnv.openWriter P e)).logger.offsetsMap,
      LogEnv.logBytes (LogEnv.appendBatch P us (LogEnv.openWriter P e))) = (bs ++ [us]).foldl (packBatch P.ops) (∅, []) := by
  rw [List.foldl_append, List.foldl_cons, List.foldl_nil, ← h.written, logBytes_appendBatch, h.openWriter]
  show ((logBatch P.ops us e.logger.offsetsMap (LogEnv.openWriter P e).logBytes.length).1, _) = _
  rw [h.openWriter]
  rfl

/-- The counter after one more batch. -/
theorem CounterAt.countUpdate {n : ℕ} (h : CounterAt e n) : CounterAt (LogEnv.countUpdate e) (n + 1) := by
  have hf := h.stream.1
  have hb := h.stream.2
  refine ⟨?_, ?_, ?_⟩
  · simp only [LogEnv.countUpdate, commitTotalUpdates, hf, hb, Bool.false_eq_true, if_false, if_true]
    exact writeAt_counter h.file
  · simp only [LogEnv.countUpdate]
    rw [h.total, wrapInt_add_one]
    norm_cast
  · simp [LogEnv.countUpdate, commitTotalUpdates, hf, hb]

/-- A failed counter stream stays so, and its file is left alone. -/
theorem countUpdate_failed (hf : e.logger.metadataFileRw.fail = true) :
    (LogEnv.countUpdate e).disk = e.disk ∧ (LogEnv.countUpdate e).logger.metadataFileRw.fail = true := by
  simp [LogEnv.countUpdate, commitTotalUpdates, hf]

/-- A `log` whose merger returns. -/
theorem log_run {us : List (K2TreeUpdates T)} {m : μ} (hm : P.merger.mergeUpdate us e.merger = (.ok (), m)) :
    LogEnv.log P us e = (.ok (), LogEnv.countUpdate
      { LogEnv.syncOffsets (LogEnv.appendBatch P us (LogEnv.openWriter P e)) with merger := m }) := by
  have h : LogEnv.onMerger (P.merger.mergeUpdate us) (LogEnv.syncOffsets (LogEnv.appendBatch P us (LogEnv.openWriter P e))) =
      (.ok (), { LogEnv.syncOffsets (LogEnv.appendBatch P us (LogEnv.openWriter P e)) with merger := m }) := by
    have hm' : P.merger.mergeUpdate us (LogEnv.syncOffsets (LogEnv.appendBatch P us (LogEnv.openWriter P e))).merger =
        (.ok (), m) := hm
    simp only [LogEnv.onMerger, Act.focus, hm']
  simp only [LogEnv.log, Act.modify_bind]
  rw [Act.bind_ok h]
  rfl

/-- What it adds to the log file. -/
theorem logBytes_log {us : List (K2TreeUpdates T)} {m : μ} (hm : P.merger.mergeUpdate us e.merger = (.ok (), m)) :
    (LogEnv.log P us e).2.logBytes = (LogEnv.openWriter P e).logBytes ++ batchBytes P.ops us := by
  rw [log_run hm, LogEnv.logBytes, Disk.bytes_congr (countUpdate_other _ (by decide))]
  show (LogEnv.syncOffsets (LogEnv.appendBatch P us (LogEnv.openWriter P e))).disk.bytes _ = _
  rw [Disk.bytes_congr (syncOffsets_other _ (by decide)), ← logBatch_bytes P.ops us _ _]
  exact logBytes_appendBatch P us (LogEnv.openWriter P e)

/-- What a `log` changes beside the log file and the offsets. -/
structure LogStep (us : List (K2TreeUpdates T)) (m : μ) (e e' : LogEnv μ) : Prop where
  merger : e'.merger = m
  counter : ∀ n, CounterAt e n → CounterAt e' (n + 1)
  failed : e.logger.metadataFileRw.fail = true →
    e'.disk (FileRWHandler.file .updateLogMeta) = e.disk (FileRWHandler.file .updateLogMeta) ∧
      e'.logger.metadataFileRw.fail = true
  other : ∀ q : Path, q.1 ≠ .updateLog → q.1 ≠ .updateLogOffsets → q.1 ≠ .updateLogMeta → e'.disk q = e.disk q

/-- **One more batch.** -/
theorem LoggedFiles.log (h : LoggedFiles P bs e) {us : List (K2TreeUpdates T)} {m : μ}
    (hm : P.merger.mergeUpdate us e.merger = (.ok (), m)) :
    ∃ e', LogEnv.log P us e = (.ok (), e') ∧ LoggedFiles P (bs ++ [us]) e' ∧ LogStep us m e e' := by
  refine ⟨_, log_run hm, ?_⟩
  set e₁ := LogEnv.appendBatch P us (LogEnv.openWriter P e) with he₁
  set e₂ : LogEnv μ := { LogEnv.syncOffsets e₁ with merger := m } with he₂
  -- the files the batch and the offsets go to are not the others
  have hd₂ : ∀ q : Path, q.1 ≠ .updateLog → q.1 ≠ .updateLogOffsets → e₂.disk q = e.disk q := by
    intro q hq ho
    have hne : q ≠ FileRWHandler.file .updateLog := by rintro rfl; exact hq rfl
    show (LogEnv.syncOffsets e₁).disk q = _
    rw [syncOffsets_other e₁ ho]
    simp only [he₁, LogEnv.appendBatch, Disk.append, LogEnv.openWriter]
    rw [Disk.set_ne _ _ hne]
    split
    · rfl
    · unfold FileRWHandler.getWriter Disk.openOut
      split <;> rw [Disk.set_ne _ _ hne]
  have hlogfile : (LogEnv.countUpdate e₂).disk (FileRWHandler.file .updateLog) = some e₁.logBytes := by
    rw [countUpdate_other e₂ (by decide)]
    have hother : e₂.disk (FileRWHandler.file .updateLog) = e₁.disk (FileRWHandler.file .updateLog) := by
      rw [← syncOffsets_other e₁ (by decide)]
    rw [hother]
    simp [he₁, LogEnv.logBytes, LogEnv.appendBatch, Disk.append, Disk.bytes]
  refine ⟨⟨?_, rfl, fun _ => ⟨rfl, ?_⟩, fun hp => ?_⟩, ⟨rfl, fun n hn => ?_, fun hf => ?_, fun q h1 h2 h3 => ?_⟩⟩
  · have hbytes : (LogEnv.countUpdate e₂).logBytes = e₁.logBytes := by
      rw [LogEnv.logBytes, Disk.bytes, hlogfile]
      rfl
    rw [hbytes]
    exact h.appendBatch us
  · rw [FileRWHandler.fileExists, hlogfile]
    rfl
  · rw [retrieveOffsetsMap_congr (countUpdate_other e₂ (by decide))]
    exact retrieveOffsetsMap_dump hp (FileRWHandler.replaceFile_file e₁.disk .updateLogOffsets .binaryTrunc rfl _)
  · have hs : CounterAt e₂ n := by
      refine ⟨?_, hn.total, hn.stream⟩
      rw [hd₂ _ (by decide) (by decide)]
      exact hn.file
    exact hs.countUpdate
  · have hf₂ : e₂.logger.metadataFileRw.fail = true := hf
    obtain ⟨h1, h2⟩ := countUpdate_failed hf₂
    exact ⟨by rw [h1, hd₂ _ (by decide) (by decide)], h2⟩
  · rw [countUpdate_other e₂ h3, hd₂ q h1 h2]

/-- The counter of a new logger. -/
theorem construct_counter {d : Disk} {uninit : ℤ} {l : UpdatesLogger} (h : UpdatesLogger.construct d uninit = .ok l) :
    (d (FileRWHandler.file .updateLogMeta) = none → l.metadataFileRw.fail = true ∧ l.totalUpdates = uninit) ∧
    (∀ c, d (FileRWHandler.file .updateLogMeta) = some (u32Bytes c) →
      l.metadataFileRw.fail = false ∧ l.metadataFileRw.bound = true ∧ l.totalUpdates = wrapInt c.toNat) := by
  have hret := retrieve_of_construct h
  unfold UpdatesLogger.construct at h
  simp only [hret] at h
  refine ⟨fun hn => ?_, fun c hc => ?_⟩
  · have hx : FileRWHandler.fileExists d .updateLogMeta = false := by
      rw [FileRWHandler.fileExists, hn]
      rfl
    simp only [hx, Bool.false_eq_true, if_false] at h
    rw [← Except.ok.inj h]
    exact ⟨by simp [openMetadata, hx], rfl⟩
  · have hx : FileRWHandler.fileExists d .updateLogMeta = true := by
      rw [FileRWHandler.fileExists, hc]
      rfl
    have hread : IStream.readU32 ⟨u32Bytes c, 0, false⟩ = (c, ⟨u32Bytes c, 4, false⟩) := by
      have ha : IStream.Ahead ⟨u32Bytes c, 0, false⟩ (u32Bytes c) := ⟨rfl, by simp⟩
      rw [IStream.reads_readU32 c _ ha]
      simp [IStream.skip]
    have hb : d.bytes (FileRWHandler.file .updateLogMeta) = u32Bytes c := by
      rw [Disk.bytes, hc]
      rfl
    have hr : readTotalUpdates d (openMetadata d) = (wrapInt c.toNat, ⟨true, false, 4⟩) := by
      simp [readTotalUpdates, openMetadata, hx, hb, hread]
    simp only [hx, if_true, hr, Except.ok.injEq] at h
    rw [← h]
    simp

/-- The counter the next logger reads. -/
theorem CounterAt.construct {n : ℕ} (h : CounterAt e n) {uninit : ℤ} {l : UpdatesLogger}
    (hc : UpdatesLogger.construct e.disk uninit = .ok l) : l.totalUpdates = e.logger.totalUpdates := by
  obtain ⟨-, -, h3⟩ := (construct_counter hc).2 _ h.file
  rw [h3, h.total, wrapInt_u32]

/-- A new logger on an empty log. -/
theorem LoggedFiles.start {d : Disk} {uninit : ℤ} {l : UpdatesLogger} (merger : μ)
    (h : UpdatesLogger.construct d uninit = .ok l) (h0 : l.offsetsMap = ∅) (hd : d.bytes (FileRWHandler.file .updateLog) = []) :
    LoggedFiles P [] ⟨d, l, merger⟩ :=
  ⟨Prod.ext h0 hd, (construct_streams h).1, fun hn => absurd rfl hn, fun _ => retrieve_of_construct h⟩

theorem CounterAt.start {d : Disk} {uninit : ℤ} {l : UpdatesLogger} (merger : μ)
    (h : UpdatesLogger.construct d uninit = .ok l) (hz : d (FileRWHandler.file .updateLogMeta) = some (u32Bytes 0)) :
    CounterAt ⟨d, l, merger⟩ 0 := by
  obtain ⟨h3, h4, h5⟩ := (construct_counter h).2 0 hz
  have h6 : l.totalUpdates = 0 := by simpa [wrapInt] using h5
  refine ⟨?_, by simpa [wrapInt] using h6, h3, h4⟩
  show d _ = some (u32Bytes (UInt32.ofInt l.totalUpdates))
  rw [h6, hz]
  rfl

end K2Cache
