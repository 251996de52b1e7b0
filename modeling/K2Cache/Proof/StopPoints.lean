import K2Cache.Proof.RecoverAgain

/-!
# Stopping between two file operations

The log, its offsets and its counter are three files, written one after another, and a file
is replaced by two renames: between them there is none of that name.

* `replaceOps_points`: at every point of a replacement the file is the old one, or the new
  one, or it is missing, and the old one is `.deleting` and the new one `.tmp`.
* `logOps_disk`, `compactOps_disk`: the operations are those of the calls.
* `stopsConsistent_iff`: at every point the files say the same exactly if they say nothing
  before and after, and none is replaced.
-/

namespace K2Cache

open Lib

variable {T μ : Type} {P : LoggerParams T μ}

/-! ## The points of a list of operations -/

namespace Disk

theorem after_append (d : Disk) (l l' : List FileOp) : d.after (l ++ l') = (d.after l).after l' := List.foldl_append

variable {C : Disk → Prop} {d : Disk} {op : FileOp} {l l' : List FileOp}

theorem forall_points_nil : (∀ pre, pre <+: [] → C (d.after pre)) ↔ C d := by
  constructor
  · intro h
    exact h [] List.prefix_rfl
  · intro h pre hpre
    rw [List.prefix_nil.1 hpre]
    exact h

theorem forall_points_cons : (∀ pre, pre <+: op :: l → C (d.after pre)) ↔
    C d ∧ ∀ pre, pre <+: l → C ((op.run d).after pre) := by
  constructor
  · intro h
    exact ⟨h [] (List.nil_prefix), fun pre hpre => h (op :: pre) ((List.prefix_cons_inj op).2 hpre)⟩
  · rintro ⟨h0, h1⟩ pre hpre
    rcases List.prefix_cons_iff.1 hpre with rfl | ⟨pre', rfl, hpre'⟩
    · exact h0
    · exact h1 pre' hpre'

theorem forall_points_append : (∀ pre, pre <+: l ++ l' → C (d.after pre)) ↔
    (∀ pre, pre <+: l → C (d.after pre)) ∧ ∀ pre, pre <+: l' → C ((d.after l).after pre) := by
  induction l generalizing d with
  | nil =>
    rw [List.nil_append, forall_points_nil]
    exact ⟨fun h => ⟨h [] List.nil_prefix, h⟩, fun h => h.2⟩
  | cons op l ih =>
    rw [List.cons_append, forall_points_cons, forall_points_cons, ih, and_assoc]
    rfl

end Disk

namespace FileRWHandler

/-- The file of a handler is the old one, or the new one, or it is missing between the two. -/
def Replaced (h : FileId) (bs : Bytes) (d d' : Disk) : Prop :=
  (∀ q : Path, q.1 ≠ h → d' q = d q) ∧
    (d' (file h) = d (file h) ∨
      (d' (file h) = none ∧ d' (deleting h) = d (file h) ∧ d' (tmp h) = some bs) ∨ d' (file h) = some bs)

theorem rename_source (d : Disk) (p q : Path) : d.rename p q p = none := by
  unfold Disk.rename
  cases h : d p with
  | none => exact h
  | some bs => exact Disk.set_self _ _ _

/-- **The points of `commit_temp_writer`.** -/
theorem commitOps_points {h : FileId} {bs : Bytes} {d : Disk} (ht : d (tmp h) = some bs) :
    ∀ pre, pre <+: commitOps h → Replaced h bs d (d.after pre) := by
  -- the handler's names, and the others
  have hnames : ∀ q : Path, q.1 ≠ h → q ≠ file h ∧ q ≠ tmp h ∧ q ≠ deleting h := by
    intro q hq
    refine ⟨?_, ?_, ?_⟩ <;> rintro rfl <;> exact hq rfl
  set d₁ := d.rename (file h) (deleting h) with hd₁
  set d₂ := d₁.rename (tmp h) (file h) with hd₂
  have h1 : ∀ q : Path, q.1 ≠ h → d₁ q = d q := fun q hq => rename_other (hnames q hq).1 (hnames q hq).2.2
  have h2 : ∀ q : Path, q.1 ≠ h → d₂ q = d q := fun q hq =>
    (rename_other (hnames q hq).2.1 (hnames q hq).1).trans (h1 q hq)
  have htmp : d₁ (tmp h) = some bs := by
    rw [hd₁, rename_other (file_ne_tmp h h).symm (tmp_ne_deleting h h), ht]
  have hnew : d₂ (file h) = some bs := rename_target (file_ne_tmp h h) htmp
  have hold : d₁ (file h) = none := rename_source d _ _
  unfold commitOps
  simp only [Disk.forall_points_cons, Disk.forall_points_nil, FileOp.run]
  refine ⟨⟨fun _ _ => rfl, .inl rfl⟩, ⟨h1, ?_⟩, ⟨h2, .inr (.inr hnew)⟩, fun q hq => ?_, .inr (.inr ?_)⟩
  · cases hf : d (file h) with
    | none => exact .inl hold
    | some old => exact .inr (.inl ⟨hold, rename_target (file_ne_deleting h h).symm hf, htmp⟩)
  · rw [Disk.remove, Disk.set_ne _ _ (hnames q hq).2.2]
    exact h2 q hq
  · rw [Disk.remove, Disk.set_ne _ _ (file_ne_deleting h h)]
    exact hnew

/-- **The points of a replacement.** -/
theorem replaceOps_points (h : FileId) {mode : OpenMode} (hm : mode.app = false) (bs : Bytes) (d : Disk) :
    ∀ pre, pre <+: replaceOps h mode bs → Replaced h bs d (d.after pre) := by
  set d₁ := d.openOut (tmp h) mode with hd₁
  set d₂ := d₁.append (tmp h) bs with hd₂
  have hne : ∀ q : Path, q ≠ tmp h → d₁ q = d q ∧ d₂ q = d q := by
    intro q hq
    have h1 : d₁ q = d q := by
      rw [hd₁, Disk.openOut, hm]
      exact Disk.set_ne _ _ hq
    exact ⟨h1, (Disk.set_ne _ _ hq).trans h1⟩
  have htmp : d₂ (tmp h) = some bs := by
    simp [hd₂, hd₁, Disk.openOut, Disk.append, Disk.bytes, hm]
  have hother : ∀ q : Path, q.1 ≠ h → q ≠ tmp h := by
    rintro q hq rfl
    exact hq rfl
  have hfile := hne (file h) (file_ne_tmp h h)
  unfold replaceOps
  simp only [Disk.forall_points_cons, FileOp.run]
  refine ⟨⟨fun _ _ => rfl, .inl rfl⟩, ⟨fun q hq => (hne q (hother q hq)).1, .inl hfile.1⟩, fun pre hpre => ?_⟩
  obtain ⟨h1, h2⟩ := commitOps_points htmp pre hpre
  rw [hfile.2] at h2
  exact ⟨fun q hq => (h1 q hq).trans (hne q (hother q hq)).2, h2⟩

/-- Between the renames there is no file. -/
theorem exists_missing (h : FileId) (mode : OpenMode) (bs : Bytes) (d : Disk) :
    ∃ pre, pre <+: replaceOps h mode bs ∧ d.after pre (file h) = none := by
  refine ⟨[.openOut (tmp h) mode, .append (tmp h) bs, .rename (file h) (deleting h)], ⟨_, rfl⟩, ?_⟩
  exact rename_source _ _ _

end FileRWHandler

/-! ## The operations are those of the calls -/

/-- **`log` is its file operations.** -/
theorem logOps_disk (P : LoggerParams T μ) (us : List (K2TreeUpdates T)) (e : LogEnv μ) :
    e.disk.after (LogEnv.logOps P us e) = (LogEnv.log P us e).2.disk := by
  have hopen : e.disk.after (if e.logger.writerOpen then [] else [.openOut (FileRWHandler.file .updateLog) P.logMode]) =
      (LogEnv.openWriter P e).disk := by
    unfold LogEnv.openWriter
    simp only
    split <;> rfl
  set e₃ := LogEnv.syncOffsets (LogEnv.appendBatch P us (LogEnv.openWriter P e)) with he₃
  have hsync : e.disk.after ((if e.logger.writerOpen then [] else [.openOut (FileRWHandler.file .updateLog) P.logMode]) ++
      (.append (FileRWHandler.file .updateLog) (logBatch P.ops us e.logger.offsetsMap
        ((LogEnv.openWriter P e).disk.bytes (FileRWHandler.file .updateLog)).length).2 ::
        FileRWHandler.replaceOps .updateLogOffsets .binaryTrunc (dumpOffsetsMap (logBatch P.ops us e.logger.offsetsMap
          ((LogEnv.openWriter P e).disk.bytes (FileRWHandler.file .updateLog)).length).1))) = e₃.disk := by
    rw [Disk.after_append, hopen]
    rfl
  have hlog : LogEnv.log P us e = (LogEnv.onMerger (P.merger.mergeUpdate us) >>= fun _ => Act.modify LogEnv.countUpdate) e₃ := rfl
  have hmerge : LogEnv.onMerger (P.merger.mergeUpdate us) e₃ =
      ((P.merger.mergeUpdate us e.merger).1, { e₃ with merger := (P.merger.mergeUpdate us e.merger).2 }) := rfl
  rw [LogEnv.logOps, Disk.after_append, hsync, hlog, Act.bind_run, hmerge]
  cases (P.merger.mergeUpdate us e.merger).1 with
  | error x => rfl
  | ok u =>
    have hmeta : e₃.logger.metadataFileRw = e.logger.metadataFileRw := rfl
    simp only [Except.isOk, Except.toBool, if_true, Act.modify_run, LogEnv.counterOps, LogEnv.countUpdate, commitTotalUpdates]
    cases hf : e.logger.metadataFileRw.fail with
    | true => simp [hmeta, hf, Disk.after]
    | false =>
      cases hb : e.logger.metadataFileRw.bound with
      | true =>
        simp [hmeta, hf, hb, Disk.after, FileOp.run]
        rfl
      | false => simp [hmeta, hf, hb, Disk.after]

/-- Compacting moves the reader, and writes to the temporary file. -/
theorem compactAllOps_disk (P : LoggerParams T μ) (ps : List UInt64) (new : OffsetsMap) (e : LogEnv μ) :
    e.disk.after (LogEnv.compactAllOps P ps new e) = (LogEnv.compactAll P ps new e).2.disk := by
  induction ps generalizing new e with
  | nil => rfl
  | cons p ps ih =>
    have hdisk : (LogEnv.compactPredicate P p e).2.disk = e.disk :=
      keeps_compactPredicate (I := fun e' => e'.disk = e.disk) (fun _ _ h => h) p e rfl
    rw [LogEnv.compactAllOps, LogEnv.compactAll, Act.bind_run]
    rcases hc : LogEnv.compactPredicate P p e with ⟨_ | _ | c, e'⟩
    · rw [hc] at hdisk
      exact hdisk.symm
    · rw [hc] at hdisk
      exact hdisk.symm
    · rw [hc] at hdisk
      simp only [Act.get_bind, Act.modify_bind]
      rw [← ih]
      show Disk.after (e.disk.append _ _) _ = _
      rw [← hdisk]

/-- **`compact_logs` is its file operations.** -/
theorem compactOps_disk (P : LoggerParams T μ) (e : LogEnv μ) :
    e.disk.after (LogEnv.compactOps P e) = (LogEnv.compactLogs P e).2.disk := by
  set e₁ := { LogEnv.closeStreams e with disk := FileRWHandler.getWriterTemp e.disk .updateLog .binary } with he₁
  have hall := compactAllOps_disk P e.logger.getPredicates ∅ e₁
  have hrun : LogEnv.compactLogs P e = (LogEnv.compactAll P e.logger.getPredicates ∅ >>= fun new =>
      Act.modify LogEnv.closeStreams >>= fun _ => Act.modify (LogEnv.commitCompaction new)) e₁ := rfl
  show e₁.disk.after (LogEnv.compactAllOps P e.logger.getPredicates ∅ e₁ ++ _) = _
  rw [Disk.after_append, hall, hrun, Act.bind_run]
  rcases LogEnv.compactAll P e.logger.getPredicates ∅ e₁ with ⟨x | new, e₂⟩
  · rfl
  · rfl

/-! ## What the files say -/

/-- The points of the predicates after the records. -/
def Records.content (ops : TreeOps T) (recs : Records T) (p : UInt64) : Set Point :=
  Patch.applyAll ((recs p).map (K2TreeUpdates.patch ops)) ∅

/-- **Every persisted offset is in front of a record** of its predicate: these. -/
def PersistedRecords (ops : TreeOps T) (d : Disk) (recs : Records T) : Prop :=
  ∃ m, retrieveOffsetsMap d = .ok m ∧
    ∀ p, List.Forall₂ (LoggedAt ops (d.bytes (FileRWHandler.file .updateLog)) p) ((m.find? p).getD []) (recs p)

/-- A tree that is handed over, as a patch of a predicate. -/
def Merged.patch (ops : TreeOps T) (p : UInt64) : Merged T → Patch Point
  | addTree q t => if q = p then ⟨ops.points t, ∅⟩ else ⟨∅, ∅⟩
  | deleteTree q t => if q = p then ⟨∅, ops.points t⟩ else ⟨∅, ∅⟩

/-- What a new logger replays batch by batch. Where there is no counter there are no batches. -/
def ReplaysBatches (P : LoggerParams T μ) (d : Disk) (content : UInt64 → Set Point) : Prop :=
  ∃ l e, UpdatesLogger.construct d 0 = .ok l ∧ LogEnv.recoverAll (recording P.ops P.logMode) ⟨d, l, []⟩ = (.ok (), e) ∧
    ∀ p, content p = Patch.applyAll (e.merger.map (Merged.patch P.ops p)) ∅

/-- The files of the logger. -/
def logFiles : List FileId := [.updateLog, .updateLogOffsets, .updateLogMeta]

/-- **The log is consistent**: its files are there if they were, the offsets and the batches
give the same points, and these are the points before the call, or after it. -/
structure ConsistentAt (P : LoggerParams T μ) (before after d : Disk) : Prop where
  kept : ∀ h ∈ logFiles, before (FileRWHandler.file h) ≠ none → d (FileRWHandler.file h) ≠ none
  replay : ∃ recs recs' : Records T, PersistedRecords P.ops d recs ∧ ReplaysBatches P d (recs.content P.ops) ∧
    (PersistedRecords P.ops before recs' ∨ PersistedRecords P.ops after recs') ∧
    recs.content P.ops = recs'.content P.ops

/-- The calls that write the files. -/
inductive LoggerCall (T : Type) where
  | log (us : List (K2TreeUpdates T))
  | compactLogs

namespace LoggerCall

/-- The call. -/
def call (P : LoggerParams T μ) : LoggerCall T → Act Exn (LogEnv μ) Unit
  | log us => LogEnv.log P us
  | compactLogs => LogEnv.compactLogs P

/-- Its file operations. -/
def fileOps (P : LoggerParams T μ) (e : LogEnv μ) : LoggerCall T → List FileOp
  | log us => LogEnv.logOps P us e
  | compactLogs => LogEnv.compactOps P e

/-- **Stopping at any point leaves a consistent log.** -/
def StopsConsistent (P : LoggerParams T μ) (e : LogEnv μ) (c : LoggerCall T) : Prop :=
  ∀ pre, pre <+: c.fileOps P e → ConsistentAt P e.disk (c.call P e).2.disk (e.disk.after pre)

/-- The call replaces no file, and adds no point. -/
def Quiet (ops : TreeOps T) (e : LogEnv μ) : LoggerCall T → Prop
  | log us => e.disk (FileRWHandler.file .updateLogOffsets) = none ∧
    ∀ p, (Records.pushAll (fun _ => []) us).content ops p = ∅
  | compactLogs => ∀ h ∈ logFiles, e.disk (FileRWHandler.file h) = none

/-- Every update of a batch has a tree, and the offsets fit the widths of their file. -/
def Fits (P : LoggerParams T μ) (e : LogEnv μ) : LoggerCall T → Prop
  | log us => FullBatch us ∧ Persistable (LogEnv.log P us e).2.logger.offsetsMap
  | compactLogs => True

end LoggerCall

/-- A logger between two calls: its offsets are those of their file, and a log without such a
file is empty. -/
structure LogState (e : LogEnv μ) : Prop where
  offsets : retrieveOffsetsMap e.disk = .ok e.logger.offsetsMap
  fresh : e.disk (FileRWHandler.file .updateLogOffsets) = none → e.logBytes = [] ∧
    (CounterAt e 0 ∨ (e.disk (FileRWHandler.file .updateLogMeta) = none ∧ e.logger.metadataFileRw.fail = true))

/-! ## An empty log -/

section Empty

variable {d : Disk}

theorem retrieve_missing (h : d (FileRWHandler.file .updateLogOffsets) = none) : retrieveOffsetsMap d = .ok ∅ := by
  have hx : FileRWHandler.fileExists d .updateLogOffsets = false := by
    rw [FileRWHandler.fileExists, h]
    rfl
  unfold retrieveOffsetsMap
  rw [if_neg (by simp [hx])]

theorem persistable_empty : Persistable ∅ := ⟨by decide, nofun, nofun⟩

theorem retrieve_dump_empty (h : d (FileRWHandler.file .updateLogOffsets) = some (dumpOffsetsMap ∅)) :
    retrieveOffsetsMap d = .ok ∅ := retrieveOffsetsMap_dump persistable_empty h

theorem PersistedRecords.empty {ops : TreeOps T} (h : retrieveOffsetsMap d = .ok ∅) : PersistedRecords ops d fun _ => [] :=
  ⟨∅, h, fun _ => .nil⟩

/-- No batch is counted. -/
def Uncounted (d : Disk) : Prop :=
  d (FileRWHandler.file .updateLogMeta) = none ∨ d (FileRWHandler.file .updateLogMeta) = some (u32Bytes 0)

/-- Then none is replayed. -/
theorem recoverAll_uncounted (L : LoggerParams T μ) (hc : Uncounted d) {l : UpdatesLogger} (m : μ)
    (h : UpdatesLogger.construct d 0 = .ok l) : ∃ e, LogEnv.recoverAll L ⟨d, l, m⟩ = (.ok (), e) ∧ e.merger = m := by
  have htotal : l.totalUpdates = 0 := by
    obtain ⟨h1, h2⟩ := construct_counter h
    rcases hc with hc | hc
    · exact (h1 hc).2
    · have h3 := (h2 0 hc).2.2
      simpa [wrapInt] using h3
  cases hx : FileRWHandler.fileExists d .updateLog with
  | false => exact ⟨_, recoverAll_missing (e := ⟨d, l, m⟩) hx, rfl⟩
  | true =>
    refine ⟨LogEnv.openReader (LogEnv.closeWriter ⟨d, l, m⟩), ?_, rfl⟩
    rw [recoverAll_opens (e := ⟨d, l, m⟩) hx]
    simp only [htotal, Int.toNat_zero]
    rfl

theorem replaysBatches_uncounted {m : OffsetsMap} (h : retrieveOffsetsMap d = .ok m) (hc : Uncounted d)
    (content : UInt64 → Set Point) : ReplaysBatches P d content ↔ ∀ p, content p = ∅ := by
  obtain ⟨l, hl, -⟩ := construct_of_retrieve h 0
  obtain ⟨e, hrun, hmerger⟩ := recoverAll_uncounted (recording P.ops P.logMode) hc [] hl
  constructor
  · rintro ⟨l', e', hl', hrun', hcontent⟩ p
    obtain rfl := Except.ok.inj (hl.symm.trans hl')
    obtain rfl : e = e' := congrArg Prod.snd (hrun.symm.trans hrun')
    rw [hcontent p, hmerger]
    rfl
  · intro hcontent
    refine ⟨l, e, hl, hrun, fun p => ?_⟩
    rw [hcontent p, hmerger]
    rfl

end Empty

/-! ## A log of one batch -/

section Batch

variable {ops : TreeOps T} {d : Disk} {us : List (K2TreeUpdates T)}

/-- A record is the only one at its offset. -/
theorem LoggedAt.unique (hl : ops.Lawful) {data : Bytes} {p : UInt64} {off : ℕ} {u u' : K2TreeUpdates T}
    (h : LoggedAt ops data p off u) (h' : LoggedAt ops data p off u') : u = u' := by
  obtain ⟨s, h1, -⟩ := h.recover hl (s := .ofBytes data) rfl rfl
  obtain ⟨s', h2, -⟩ := h'.recover hl (s := .ofBytes data) rfl rfl
  have heq := Except.ok.inj (Prod.mk.inj (h1.symm.trans h2)).1
  obtain ⟨q, a, b⟩ := u
  obtain ⟨q', a', b'⟩ := u'
  obtain ⟨rfl, rfl, rfl⟩ := PredicateUpdate.mk.inj heq
  rfl

theorem loggedAt_all_unique (hl : ops.Lawful) {data : Bytes} {p : UInt64} {offs : List ℕ} {l l' : List (K2TreeUpdates T)}
    (h : List.Forall₂ (LoggedAt ops data p) offs l) (h' : List.Forall₂ (LoggedAt ops data p) offs l') : l = l' := by
  induction h generalizing l' with
  | nil =>
    cases h'
    rfl
  | cons hu _ ih =>
    cases h' with
    | cons hu' hus' => rw [hu.unique hl hu', ih hus']

theorem PersistedRecords.unique (hl : ops.Lawful) {recs recs' : Records T} (h : PersistedRecords ops d recs)
    (h' : PersistedRecords ops d recs') : recs = recs' := by
  obtain ⟨m, hm, hlog⟩ := h
  obtain ⟨m', hm', hlog'⟩ := h'
  obtain rfl := Except.ok.inj (hm.symm.trans hm')
  exact funext fun p => loggedAt_all_unique hl (hlog p) (hlog' p)

/-- The trees of an update, handed over one after the other, are its patch. -/
theorem applyAll_merged (u : K2TreeUpdates T) (p : UInt64) (S : Set Point) :
    Patch.applyAll (u.merged.map (Merged.patch ops p)) S = if u.predicateId = p then (u.patch ops).apply S else S := by
  obtain ⟨q, a, b⟩ := u
  by_cases hq : q = p
  · subst hq
    cases a <;> cases b <;>
      simp [K2TreeUpdates.merged, Merged.patch, K2TreeUpdates.patch, K2TreeUpdates.toPredicateUpdate, PredicateUpdate.patch,
        TreeOps.pointsOpt, Patch.apply]
  · cases a <;> cases b <;> simp [K2TreeUpdates.merged, Merged.patch, Patch.apply, hq]

theorem applyAll_mergedAll (us : List (K2TreeUpdates T)) (p : UInt64) (S : Set Point) :
    Patch.applyAll ((us.flatMap K2TreeUpdates.merged).map (Merged.patch ops p)) S =
      Patch.applyAll ((us.filter fun u => u.predicateId = p).map (K2TreeUpdates.patch ops)) S := by
  induction us generalizing S with
  | nil => rfl
  | cons u us ih =>
    rw [List.flatMap_cons, List.map_append, Patch.applyAll_append, applyAll_merged, ih]
    by_cases hp : u.predicateId = p
    · rw [if_pos hp, List.filter_cons_of_pos (by simpa using hp)]
      rfl
    · rw [if_neg hp, List.filter_cons_of_neg (by simpa using hp)]

/-- The files hold one batch. -/
structure HoldsBatch (ops : TreeOps T) (us : List (K2TreeUpdates T)) (d : Disk) : Prop where
  log : d (FileRWHandler.file .updateLog) = some (batchBytes ops us)
  offsets : retrieveOffsetsMap d = .ok (logBatch ops us ∅ 0).1

theorem HoldsBatch.registered (h : HoldsBatch ops us d) :
    Registered ops (d.bytes (FileRWHandler.file .updateLog)) (logBatch ops us ∅ 0).1 (Records.pushAll (fun _ => []) us) := by
  have hreg := (registered_empty ops ([] : Bytes)).logBatch us
  have hlen : ([] : Bytes).length = 0 := rfl
  rw [hlen, List.nil_append, logBatch_bytes] at hreg
  rw [Disk.bytes, h.log]
  exact hreg

theorem HoldsBatch.persisted (h : HoldsBatch ops us d) : PersistedRecords ops d (Records.pushAll (fun _ => []) us) :=
  ⟨_, h.offsets, h.registered.logged⟩

/-- A batch that is counted is replayed. -/
theorem HoldsBatch.replays (hl : P.ops.Lawful) (hfull : FullBatch us) (h : HoldsBatch P.ops us d)
    (hc : d (FileRWHandler.file .updateLogMeta) = some (u32Bytes 1)) :
    ReplaysBatches P d ((Records.pushAll (fun _ => []) us).content P.ops) := by
  obtain ⟨l, hcon, hm⟩ := construct_of_retrieve h.offsets 0
  have htotal : l.totalUpdates = 1 := by
    have h3 := ((construct_counter hcon).2 1 hc).2.2
    simpa [wrapInt] using h3
  have hall : ∀ vs ∈ [us], FullBatch vs := fun vs hvs => List.mem_singleton.1 hvs ▸ hfull
  have hrecs : Records.pushAll (fun _ => []) us = updatesOf [us] := by
    funext p
    rw [← pushAll_full hall p, List.flatten_singleton]
  have hreading : Reading P.ops [us] ⟨d, l, []⟩ := by
    refine ⟨hall, ?_, ?_, htotal, fun r hr => ?_⟩
    · rw [List.flatMap_singleton]
      exact h.log
    · have hreg := h.registered
      rw [Disk.bytes, h.log, Option.getD_some, hrecs] at hreg
      rw [List.flatMap_singleton]
      show Registered P.ops _ l.offsetsMap _
      rw [hm]
      exact hreg
    · rw [(construct_streams hcon).1] at hr
      cases hr
  obtain ⟨e', hrun, -, hmerger⟩ : ∃ e', LogEnv.recoverAll (recording P.ops P.logMode) ⟨d, l, []⟩ = (.ok (), e') ∧ _ ∧ _ :=
    recoverAll_recording hl hreading fun r hr => by
      rw [(construct_streams hcon).1] at hr
      cases hr
  refine ⟨l, e', hcon, hrun, fun p => ?_⟩
  rw [hmerger, List.nil_append, List.flatten_singleton, applyAll_mergedAll, Records.content, hrecs, updatesOf,
    List.flatten_singleton]

end Batch

/-! ## Compaction -/

section Compact

variable {recs : Records T}

/-- The reader is one of the log file, not of the temporary one. -/
theorem currentReader_appendTmp (e : LogEnv μ) (bs : Bytes) :
    LogEnv.currentReader { e with disk := e.disk.append (FileRWHandler.tmp .updateLog) bs } = e.currentReader := by
  have h : e.disk.append (FileRWHandler.tmp .updateLog) bs (FileRWHandler.file .updateLog) =
      e.disk (FileRWHandler.file .updateLog) := Disk.set_ne _ _ (FileRWHandler.file_ne_tmp _ _)
  unfold LogEnv.currentReader FileRWHandler.getReader
  simp only [h]

/-- **Where every offset is in front of a record, the loop of `compact_logs` returns.** -/
theorem compactAll_ok (hl : P.ops.Lawful) {m : OffsetsMap} (ps : List UInt64) (hps : ∀ p ∈ ps, p ∈ m.keys) {e : LogEnv μ}
    (new : OffsetsMap) (hm : e.logger.offsetsMap = m)
    (hlog : ∀ p, List.Forall₂ (LoggedAt P.ops e.currentReader.data p) ((m.find? p).getD []) (recs p))
    (hgood : e.currentReader.data ≠ [] → e.currentReader.fail = false) :
    ∃ new' e', LogEnv.compactAll P ps new e = (.ok new', e') := by
  induction ps generalizing e new with
  | nil => exact ⟨new, e, rfl⟩
  | cons p ps ih =>
    obtain ⟨offs, hoffs⟩ := m.mem_keys.1 (hps p List.mem_cons_self)
    have hp := hlog p
    rw [hoffs, Option.getD_some] at hp
    -- a predicate without offsets is not read
    obtain ⟨c, s, hc, hsd, hsf⟩ : ∃ c s, LogEnv.compactPredicate P p e = (.ok (some c), s) ∧
        s.logger.offsetsMap = m ∧ s.currentReader.data = e.currentReader.data ∧
          (s.currentReader.data ≠ [] → s.currentReader.fail = false) := by
      cases hr : recs p with
      | nil =>
        rw [hr] at hp
        cases hp
        refine ⟨⟨0, none, none⟩, e, ?_, hm, rfl, hgood⟩
        simp only [LogEnv.compactPredicate, Act.get_bind, hm, hoffs]
        rfl
      | cons u us =>
        rw [hr] at hp
        have hne : e.currentReader.data ≠ [] := by
          cases hp with
          | cons hu _ =>
            intro hnil
            have := hu.lt_length
            rw [hnil] at this
            exact absurd this (Nat.not_lt_zero _)
        obtain ⟨s, h1, h2, h3⟩ := compactPredicate_run hl (by rw [hm]; exact hoffs) (hgood hne) hp
        exact ⟨_, _, h1, hm, h2, fun _ => h3⟩
    rw [LogEnv.compactAll, Act.bind_ok hc]
    simp only [Act.get_bind, Act.modify_bind]
    refine ih (fun q hq => hps q (List.mem_cons_of_mem _ hq)) _ hsd ?_ ?_
    · rw [currentReader_appendTmp, hsf.1]
      exact hlog
    · rw [currentReader_appendTmp]
      exact hsf.2

end Compact

/-! ## Stopping -/

variable {e : LogEnv μ}

/-- A file that is replaced is missing at some point. -/
theorem missing_of_kept {h : FileId} (hh : h ∈ logFiles) {mode : OpenMode} {bs : Bytes} {before after d : Disk}
    (hall : ∀ pre, pre <+: FileRWHandler.replaceOps h mode bs → ConsistentAt P before after (d.after pre)) :
    before (FileRWHandler.file h) = none := by
  obtain ⟨pre, hpre, hmissing⟩ := FileRWHandler.exists_missing h mode bs d
  by_contra hne
  exact (hall pre hpre).kept h hh hne hmissing

/-- **`compact_logs`, if it can be stopped.** -/
theorem quiet_of_compact (hl : P.ops.Lawful) (h : LogState e) (hall : LoggerCall.compactLogs.StopsConsistent P e) :
    LoggerCall.compactLogs.Quiet P.ops e := by
  set e₁ := { LogEnv.closeStreams e with disk := FileRWHandler.getWriterTemp e.disk .updateLog .binary } with he₁
  -- before the first operation every offset is in front of a record
  obtain ⟨recs, -, ⟨m, hm, hlog⟩, -⟩ := (hall [] List.nil_prefix).replay
  obtain rfl := Except.ok.inj (hm.symm.trans h.offsets)
  have hfile : e₁.disk (FileRWHandler.file .updateLog) = e.disk (FileRWHandler.file .updateLog) := by
    simp [he₁, FileRWHandler.getWriterTemp, Disk.openOut, OpenMode.binary, Disk.set_ne _ _ (FileRWHandler.file_ne_tmp _ _)]
  have hreader : e₁.currentReader = FileRWHandler.getReader e₁.disk .updateLog := rfl
  have hdata : e₁.currentReader.data = e.disk.bytes (FileRWHandler.file .updateLog) := by
    rw [hreader, FileRWHandler.getReader, hfile, Disk.bytes]
    cases e.disk (FileRWHandler.file .updateLog) <;> rfl
  obtain ⟨new, e₂, hrun⟩ := compactAll_ok hl e.logger.getPredicates (fun p hp => hp) (e := e₁) ∅ rfl
    (by rw [hdata]; exact hlog) (by
      intro hne
      rw [hreader, FileRWHandler.getReader] at hne ⊢
      cases hd : e₁.disk (FileRWHandler.file .updateLog) with
      | none => simp [hd] at hne
      | some bs => rfl)
  have hops : LoggerCall.compactLogs.fileOps P e = .openOut (FileRWHandler.tmp .updateLog) .binary ::
      (LogEnv.compactAllOps P e.logger.getPredicates ∅ e₁ ++ LogEnv.commitCompactionOps new) := by
    show LogEnv.compactOps P e = _
    rw [LogEnv.compactOps, hrun]
  unfold LoggerCall.StopsConsistent at hall
  rw [hops, Disk.forall_points_cons, Disk.forall_points_append] at hall
  obtain ⟨-, -, hsync⟩ := hall
  rw [LogEnv.commitCompactionOps, Disk.forall_points_append, Disk.forall_points_append] at hsync
  obtain ⟨hoffsets, hcounter, hlogfile⟩ := hsync
  have h1 := missing_of_kept (by decide) hoffsets
  have h2 := missing_of_kept (by decide) hcounter
  have h3 : e.disk (FileRWHandler.file .updateLog) = none := by
    by_contra hne
    refine (hlogfile [.rename (FileRWHandler.file .updateLog) (FileRWHandler.deleting .updateLog)] ⟨_, rfl⟩).kept
      .updateLog (by decide) hne ?_
    exact FileRWHandler.rename_source _ _ _
  intro f hf
  simp only [logFiles, List.mem_cons, List.not_mem_nil, or_false] at hf
  rcases hf with rfl | rfl | rfl
  · exact h3
  · exact h1
  · exact h2

/-- A point at which the files have nothing to say. -/
theorem ConsistentAt.empty {before after d : Disk} (hkept : ∀ h ∈ logFiles, before (FileRWHandler.file h) ≠ none →
    d (FileRWHandler.file h) ≠ none) (hbefore : retrieveOffsetsMap before = .ok ∅) (hd : retrieveOffsetsMap d = .ok ∅)
    (hc : Uncounted d) : ConsistentAt P before after d :=
  ⟨hkept, fun _ => [], fun _ => [], .empty hd, (replaysBatches_uncounted hd hc _).2 fun _ => rfl, .inl (.empty hbefore), rfl⟩

/-- **`compact_logs` on no files can be stopped.** -/
theorem stops_compact_of_quiet (h : LogState e) (hq : LoggerCall.compactLogs.Quiet P.ops e) :
    LoggerCall.compactLogs.StopsConsistent P e := by
  have hnone : ∀ f ∈ logFiles, e.disk (FileRWHandler.file f) = none := hq
  have hbefore := retrieve_missing (hnone .updateLogOffsets (by decide))
  have hempty : e.logger.offsetsMap = ∅ := Except.ok.inj (h.offsets.symm.trans hbefore)
  have hops : LoggerCall.compactLogs.fileOps P e =
      .openOut (FileRWHandler.tmp .updateLog) .binary :: LogEnv.commitCompactionOps ∅ := by
    show LogEnv.compactOps P e = _
    rw [LogEnv.compactOps, UpdatesLogger.getPredicates, hempty]
    rfl
  -- a point whose offsets and counter say nothing
  have hpoint : ∀ d : Disk, (d (FileRWHandler.file .updateLogOffsets) = none ∨
      d (FileRWHandler.file .updateLogOffsets) = some (dumpOffsetsMap ∅)) → Uncounted d →
      ConsistentAt P e.disk (LogEnv.compactLogs P e).2.disk d := by
    intro d hoffsets hc
    refine .empty (fun f hf hne => absurd (hnone f hf) hne) hbefore ?_ hc
    rcases hoffsets with ho | ho
    · exact retrieve_missing ho
    · exact retrieve_dump_empty ho
  -- the points keep to these files
  let Says : Disk → Prop := fun d => (d (FileRWHandler.file .updateLogOffsets) = none ∨
    d (FileRWHandler.file .updateLogOffsets) = some (dumpOffsetsMap ∅)) ∧ Uncounted d ∧
    d (FileRWHandler.tmp .updateLog) = some []
  have hoffsets : ∀ d, Says d → ∀ pre, pre <+: FileRWHandler.replaceOps .updateLogOffsets .binary (dumpOffsetsMap ∅) →
      Says (d.after pre) := by
    rintro d ⟨h1, h2, h3⟩ pre hpre
    obtain ⟨hother, hfile⟩ := FileRWHandler.replaceOps_points .updateLogOffsets rfl (dumpOffsetsMap ∅) d pre hpre
    refine ⟨?_, ?_, (hother _ (by decide)).trans h3⟩
    · rcases hfile with hf | ⟨hf, -⟩ | hf
      · rw [hf]
        exact h1
      · exact .inl hf
      · exact .inr hf
    · unfold Uncounted
      rw [hother _ (by decide)]
      exact h2
  have hzero : wrapInt (∅ : OffsetsMap).size = 0 := wrapInt_of_lt (n := 0) (by decide)
  have hcounter : ∀ d, Says d → ∀ pre, pre <+: FileRWHandler.replaceOps .updateLogMeta .binary
      (u32Bytes (UInt32.ofInt (wrapInt (∅ : OffsetsMap).size))) → Says (d.after pre) := by
    rw [hzero]
    rintro d ⟨h1, h2, h3⟩ pre hpre
    obtain ⟨hother, hfile⟩ := FileRWHandler.replaceOps_points .updateLogMeta rfl
      (u32Bytes (UInt32.ofInt 0)) d pre hpre
    refine ⟨?_, ?_, (hother _ (by decide)).trans h3⟩
    · rw [hother _ (by decide)]
      exact h1
    · rcases hfile with hf | ⟨hf, -⟩ | hf
      · unfold Uncounted
        rw [hf]
        exact h2
      · exact .inl hf
      · exact .inr hf
  unfold LoggerCall.StopsConsistent
  rw [hops, Disk.forall_points_cons]
  set d₁ := (FileOp.openOut (FileRWHandler.tmp .updateLog) .binary).run e.disk with hd₁
  have h₁ : Says d₁ := by
    have hother : ∀ q, q ≠ FileRWHandler.tmp .updateLog → d₁ q = e.disk q := fun q hq => Disk.set_ne _ _ hq
    refine ⟨.inl ((hother _ (by decide)).trans (hnone _ (by decide))), .inl ((hother _ (by decide)).trans (hnone _ (by decide))), ?_⟩
    show e.disk.set (FileRWHandler.tmp .updateLog) (some []) (FileRWHandler.tmp .updateLog) = some []
    exact Disk.set_self _ _ _
  refine ⟨hpoint _ (.inl (hnone _ (by decide))) (.inl (hnone _ (by decide))), ?_⟩
  rw [LogEnv.commitCompactionOps, Disk.forall_points_append, Disk.forall_points_append]
  have h₂ := hoffsets d₁ h₁
  have h₃ := hcounter _ (h₂ _ List.prefix_rfl)
  refine ⟨fun pre hpre => hpoint _ (h₂ pre hpre).1 (h₂ pre hpre).2.1,
    fun pre hpre => hpoint _ (h₃ pre hpre).1 (h₃ pre hpre).2.1, fun pre hpre => ?_⟩
  -- the log file is replaced last
  obtain ⟨g1, g2, g3⟩ := h₃ _ List.prefix_rfl
  obtain ⟨hother, -⟩ := FileRWHandler.commitOps_points g3 pre hpre
  refine hpoint _ ?_ ?_
  · rw [hother _ (by decide)]
    exact g1
  · unfold Uncounted
    rw [hother _ (by decide)]
    exact g2

/-! ### log -/

theorem openWriter_fresh (hbytes : e.logBytes = []) : (LogEnv.openWriter P e).logBytes = [] :=
  (openWriter_logBytes (.inr (.inr hbytes))).trans hbytes

/-- The parts of a `log` without an offsets file. -/
theorem log_parts (h : LogState e) (hnone : e.disk (FileRWHandler.file .updateLogOffsets) = none) (us : List (K2TreeUpdates T)) :
    ∃ A C : List FileOp, LogEnv.logOps P us e = A ++ (.append (FileRWHandler.file .updateLog) (batchBytes P.ops us) ::
        FileRWHandler.replaceOps .updateLogOffsets .binaryTrunc (dumpOffsetsMap (logBatch P.ops us ∅ 0).1)) ++ C ∧
      (A = [] ∨ A = [.openOut (FileRWHandler.file .updateLog) P.logMode]) ∧
      (C = [] ∨ C = [.writeAt (FileRWHandler.file .updateLogMeta) 0 (u32Bytes 1)] ∧
        e.disk (FileRWHandler.file .updateLogMeta) = some (u32Bytes 0)) ∧
      (e.disk.after A).bytes (FileRWHandler.file .updateLog) = [] := by
  obtain ⟨hbytes, hcounter⟩ := h.fresh hnone
  have hempty : e.logger.offsetsMap = ∅ := Except.ok.inj (h.offsets.symm.trans (retrieve_missing hnone))
  have hopen : (LogEnv.openWriter P e).disk.bytes (FileRWHandler.file .updateLog) = [] := openWriter_fresh hbytes
  refine ⟨if e.logger.writerOpen then [] else [.openOut (FileRWHandler.file .updateLog) P.logMode],
    if (P.merger.mergeUpdate us e.merger).1.isOk then
      LogEnv.counterOps e.logger.metadataFileRw (wrapInt (e.logger.totalUpdates + 1)) else [], ?_, ?_, ?_, ?_⟩
  · rw [LogEnv.logOps, hopen, hempty, logBatch_bytes]
    rfl
  · cases e.logger.writerOpen with
    | true => exact .inl rfl
    | false => exact .inr rfl
  · split
    · rcases hcounter with hc | ⟨-, hfail⟩
      · have ht : e.logger.totalUpdates = 0 := hc.total.trans (wrapInt_of_lt (n := 0) (by decide))
        have hone : wrapInt (e.logger.totalUpdates + 1) = 1 := by
          rw [ht]
          exact wrapInt_of_lt (n := 1) (by decide)
        refine .inr ⟨?_, ?_⟩
        · rw [LogEnv.counterOps, hone, hc.stream.1, hc.stream.2]
          rfl
        · rw [hc.file, ht]
          rfl
      · left
        simp [LogEnv.counterOps, hfail]
    · exact .inl rfl
  · rw [← hopen]
    congr 1
    unfold LogEnv.openWriter
    simp only
    split <;> rfl

/-- The offsets after a `log` are those of their file, whether the merger throws or not. -/
theorem log_synced (us : List (K2TreeUpdates T)) (e : LogEnv μ) :
    (LogEnv.log P us e).2.logger.offsetsMap = (logBatch P.ops us e.logger.offsetsMap (LogEnv.openWriter P e).logBytes.length).1 ∧
      (LogEnv.log P us e).2.disk (FileRWHandler.file .updateLogOffsets) =
        some (dumpOffsetsMap (LogEnv.log P us e).2.logger.offsetsMap) := by
  set e₃ := LogEnv.syncOffsets (LogEnv.appendBatch P us (LogEnv.openWriter P e)) with he₃
  have hfile : e₃.disk (FileRWHandler.file .updateLogOffsets) = some (dumpOffsetsMap e₃.logger.offsetsMap) :=
    FileRWHandler.replaceFile_file (LogEnv.appendBatch P us (LogEnv.openWriter P e)).disk .updateLogOffsets .binaryTrunc rfl _
  have hlog : LogEnv.log P us e = (LogEnv.onMerger (P.merger.mergeUpdate us) >>= fun _ => Act.modify LogEnv.countUpdate) e₃ := rfl
  have hmerge : LogEnv.onMerger (P.merger.mergeUpdate us) e₃ =
      ((P.merger.mergeUpdate us e.merger).1, { e₃ with merger := (P.merger.mergeUpdate us e.merger).2 }) := rfl
  rw [hlog, Act.bind_run, hmerge]
  cases (P.merger.mergeUpdate us e.merger).1 with
  | error x => exact ⟨rfl, hfile⟩
  | ok u => exact ⟨rfl, (countUpdate_other _ (by decide)).trans hfile⟩

/-- The offsets after a `log` without an offsets file. -/
theorem log_offsets (h : LogState e) (hnone : e.disk (FileRWHandler.file .updateLogOffsets) = none) (us : List (K2TreeUpdates T)) :
    (LogEnv.log P us e).2.logger.offsetsMap = (logBatch P.ops us ∅ 0).1 := by
  have hempty : e.logger.offsetsMap = ∅ := Except.ok.inj (h.offsets.symm.trans (retrieve_missing hnone))
  have hopen : (LogEnv.openWriter P e).logBytes = [] := openWriter_fresh (h.fresh hnone).1
  rw [(log_synced us e).1, hempty, hopen]
  rfl

/-- What the files say at a point of a `log` without an offsets file. -/
inductive LogPoint (ops : TreeOps T) (us : List (K2TreeUpdates T)) (d : Disk) : Prop where
  | before (offsets : d (FileRWHandler.file .updateLogOffsets) = none) (counter : Uncounted d)
  | uncounted (holds : HoldsBatch ops us d) (counter : Uncounted d)
  | counted (holds : HoldsBatch ops us d) (counter : d (FileRWHandler.file .updateLogMeta) = some (u32Bytes 1))

/-- The files that are there stay. -/
def Kept (before d : Disk) : Prop :=
  ∀ h ∈ logFiles, before (FileRWHandler.file h) ≠ none → d (FileRWHandler.file h) ≠ none

/-- **The points of a `log` without an offsets file**; at one of them the batch is there, and not
counted. -/
theorem log_points (h : LogState e) (hnone : e.disk (FileRWHandler.file .updateLogOffsets) = none)
    {us : List (K2TreeUpdates T)} (hp : Persistable (logBatch P.ops us ∅ 0).1) :
    (∀ pre, pre <+: LogEnv.logOps P us e → Kept e.disk (e.disk.after pre) ∧ LogPoint P.ops us (e.disk.after pre)) ∧
      ∃ pre, pre <+: LogEnv.logOps P us e ∧ HoldsBatch P.ops us (e.disk.after pre) ∧ Uncounted (e.disk.after pre) := by
  obtain ⟨A, C, hops, hA, hC, hbytes⟩ := log_parts (P := P) h hnone us
  set b := batchBytes P.ops us with hb
  set m := (logBatch P.ops us ∅ 0).1 with hm
  have huncounted : Uncounted e.disk := by
    rcases (h.fresh hnone).2 with hc | ⟨hc, -⟩
    · have ht : e.logger.totalUpdates = 0 := hc.total.trans (wrapInt_of_lt (n := 0) (by decide))
      refine .inr ?_
      rw [hc.file, ht]
      rfl
    · exact .inl hc
  -- opening the file
  set d₁ := e.disk.after A with hd₁
  have h1 : ∀ q, q ≠ FileRWHandler.file .updateLog → d₁ q = e.disk q := by
    intro q hq
    rcases hA with rfl | rfl
    · rfl
    · show e.disk.openOut _ _ q = _
      unfold Disk.openOut
      split <;> exact Disk.set_ne _ _ hq
  let Good : Disk → Prop := fun d => Kept e.disk d ∧ LogPoint P.ops us d
  -- the log file is there from then on, and there was no offsets file
  have hkept : ∀ d : Disk, (d = e.disk ∨ d (FileRWHandler.file .updateLog) ≠ none) →
      (e.disk (FileRWHandler.file .updateLogMeta) ≠ none → d (FileRWHandler.file .updateLogMeta) ≠ none) → Kept e.disk d := by
    intro d hlog hmeta f hf hne
    simp only [logFiles, List.mem_cons, List.not_mem_nil, or_false] at hf
    rcases hf with rfl | rfl | rfl
    · rcases hlog with rfl | hlog
      · exact hne
      · exact hlog
    · exact absurd hnone hne
    · exact hmeta hne
  have hcounter : ∀ d : Disk, d (FileRWHandler.file .updateLogMeta) = e.disk (FileRWHandler.file .updateLogMeta) → Uncounted d := by
    intro d hd
    unfold Uncounted
    rw [hd]
    exact huncounted
  have hpointA : ∀ pre, pre <+: A → Good (e.disk.after pre) := by
    have h0 : Good e.disk :=
      ⟨hkept _ (.inl rfl) id, .before hnone huncounted⟩
    rcases hA with rfl | rfl
    · exact (Disk.forall_points_nil (C := Good)).2 h0
    · refine (Disk.forall_points_cons (C := Good)).2 ⟨h0, ?_⟩
      refine (Disk.forall_points_nil (C := Good)).2 ⟨hkept _ (.inr ?_) ?_, .before ?_ ?_⟩
      · show e.disk.openOut _ _ _ ≠ none
        unfold Disk.openOut
        split <;> rw [Disk.set_self] <;> simp
      · rw [show ((FileOp.openOut (FileRWHandler.file .updateLog) P.logMode).run e.disk) = d₁ from rfl, h1 _ (by decide)]
        exact id
      · exact (h1 _ (by decide)).trans hnone
      · exact hcounter _ (h1 _ (by decide))
  -- the batch, and the offsets
  set d₂ := d₁.append (FileRWHandler.file .updateLog) b with hd₂
  have h2 : ∀ q, q ≠ FileRWHandler.file .updateLog → d₂ q = e.disk q := fun q hq => (Disk.set_ne _ _ hq).trans (h1 q hq)
  have hlog₂ : d₂ (FileRWHandler.file .updateLog) = some b := by
    rw [hd₂, Disk.append, Disk.set_self, hbytes, List.nil_append]
  have hoffsets : ∀ pre, pre <+: FileRWHandler.replaceOps .updateLogOffsets .binaryTrunc (dumpOffsetsMap m) →
      Good (d₂.after pre) := by
    intro pre hpre
    obtain ⟨hother, hfile⟩ := FileRWHandler.replaceOps_points .updateLogOffsets rfl (dumpOffsetsMap m) d₂ pre hpre
    have hlog : d₂.after pre (FileRWHandler.file .updateLog) = some b := (hother _ (by decide)).trans hlog₂
    have hmeta : d₂.after pre (FileRWHandler.file .updateLogMeta) = e.disk (FileRWHandler.file .updateLogMeta) :=
      (hother _ (by decide)).trans (h2 _ (by decide))
    refine ⟨hkept _ (.inr (by simp [hlog])) (by rw [hmeta]; exact id), ?_⟩
    rcases hfile with hf | ⟨hf, -⟩ | hf
    · exact .before (hf.trans ((h2 _ (by decide)).trans hnone)) (hcounter _ hmeta)
    · exact .before hf (hcounter _ hmeta)
    · exact .uncounted ⟨hlog, retrieveOffsetsMap_dump hp hf⟩ (hcounter _ hmeta)
  -- both are there, and the batch is not counted
  set R := FileRWHandler.replaceOps .updateLogOffsets .binaryTrunc (dumpOffsetsMap m) with hR
  set d₃ := d₂.after R with hd₃
  have hd₃' : d₃ = FileRWHandler.replaceFile d₂ .updateLogOffsets .binaryTrunc (dumpOffsetsMap m) := rfl
  have hmeta₃ : d₃ (FileRWHandler.file .updateLogMeta) = e.disk (FileRWHandler.file .updateLogMeta) := by
    rw [hd₃', FileRWHandler.replaceFile_other (by decide)]
    exact h2 _ (by decide)
  have hoffsets₃ : d₃ (FileRWHandler.file .updateLogOffsets) = some (dumpOffsetsMap m) := by
    rw [hd₃']
    exact FileRWHandler.replaceFile_file _ _ _ rfl _
  have hholds : HoldsBatch P.ops us d₃ := by
    refine ⟨?_, retrieveOffsetsMap_dump hp hoffsets₃⟩
    rw [hd₃', FileRWHandler.replaceFile_other (by decide)]
    exact hlog₂
  have hpre : e.disk.after (A ++ .append (FileRWHandler.file .updateLog) b :: R) = d₃ := by
    rw [Disk.after_append]
    rfl
  rw [hops]
  refine ⟨?_, A ++ .append (FileRWHandler.file .updateLog) b :: R, List.prefix_append _ _, ?_, ?_⟩
  · refine (Disk.forall_points_append (C := Good)).2 ⟨?_, ?_⟩
    · refine (Disk.forall_points_append (C := Good)).2 ⟨hpointA, ?_⟩
      exact (Disk.forall_points_cons (C := Good)).2
        ⟨hpointA A List.prefix_rfl, hoffsets⟩
    · rw [hpre]
      have h3 := hoffsets R List.prefix_rfl
      rcases hC with rfl | ⟨rfl, hzero⟩
      · exact (Disk.forall_points_nil (C := Good)).2 h3
      · refine (Disk.forall_points_cons (C := Good)).2 ⟨h3, ?_⟩
        refine (Disk.forall_points_nil (C := Good)).2 ?_
        -- the counter
        set d₄ := (FileOp.writeAt (FileRWHandler.file .updateLogMeta) 0 (u32Bytes 1)).run d₃ with hd₄
        have h4 : ∀ q, q ≠ FileRWHandler.file .updateLogMeta → d₄ q = d₃ q := fun q hq => Disk.set_ne _ _ hq
        have hmeta₄ : d₄ (FileRWHandler.file .updateLogMeta) = some (u32Bytes 1) := writeAt_counter (hmeta₃.trans hzero)
        have hlog₄ : d₄ (FileRWHandler.file .updateLog) = some b := (h4 _ (by decide)).trans hholds.log
        refine ⟨hkept _ (.inr (by simp [hlog₄])) (by simp [hmeta₄]), .counted ⟨hlog₄, ?_⟩ hmeta₄⟩
        exact retrieveOffsetsMap_dump hp ((h4 _ (by decide)).trans hoffsets₃)
  · rw [hpre]
    exact hholds
  · rw [hpre]
    exact hcounter _ hmeta₃

/-- **`log` can be stopped** exactly if there is no offsets file yet, and the batch adds no point. -/
theorem stops_log_iff (hl : P.ops.Lawful) (h : LogState e) {us : List (K2TreeUpdates T)}
    (hfits : (LoggerCall.log us).Fits P e) :
    (LoggerCall.log us).StopsConsistent P e ↔ (LoggerCall.log us).Quiet P.ops e := by
  obtain ⟨hfull, hp⟩ := hfits
  constructor
  · intro hall
    have hnone : e.disk (FileRWHandler.file .updateLogOffsets) = none := by
      unfold LoggerCall.StopsConsistent at hall
      rw [show (LoggerCall.log us).fileOps P e = LogEnv.logOps P us e from rfl, LogEnv.logOps,
        Disk.forall_points_append, Disk.forall_points_append, Disk.forall_points_cons] at hall
      exact missing_of_kept (by decide) hall.1.2.2
    rw [log_offsets h hnone us] at hp
    obtain ⟨-, pre, hpre, hholds, hcounter⟩ := log_points h hnone hp
    -- the offsets say what the batch adds, the counter says nothing
    obtain ⟨recs, recs', hrecs, hreplay, -⟩ := (hall pre hpre).replay
    obtain rfl := hrecs.unique hl hholds.persisted
    exact ⟨hnone, (replaysBatches_uncounted hholds.offsets hcounter _).1 hreplay⟩
  · rintro ⟨hnone, hcontent⟩ pre hpre
    rw [log_offsets h hnone us] at hp
    have hbefore := retrieve_missing hnone
    obtain ⟨hkept, hpoint⟩ := (log_points h hnone hp).1 pre hpre
    have hsame : (Records.pushAll (fun _ => []) us).content P.ops = Records.content P.ops fun _ => [] :=
      funext hcontent
    cases hpoint with
    | before hoffsets hcounter => exact .empty hkept hbefore (retrieve_missing hoffsets) hcounter
    | uncounted hholds hcounter =>
      exact ⟨hkept, _, _, hholds.persisted, (replaysBatches_uncounted hholds.offsets hcounter _).2 hcontent,
        .inl (.empty hbefore), hsame⟩
    | counted hholds hcounter =>
      exact ⟨hkept, _, _, hholds.persisted, hholds.replays hl hfull hcounter, .inl (.empty hbefore), hsame⟩

/-! ## The states between two calls -/

/-- The calls, one after another; a call that throws leaves its state too. -/
def LoggerCall.runAll (P : LoggerParams T μ) (cs : List (LoggerCall T)) (e : LogEnv μ) : LogEnv μ :=
  cs.foldl (fun e c => (c.call P e).2) e

/-- A new logger on an empty log. -/
theorem LogState.start {d : Disk} {uninit : ℤ} {l : UpdatesLogger} (merger : μ) (hl : UpdatesLogger.construct d uninit = .ok l)
    (hd : d.bytes (FileRWHandler.file .updateLog) = [])
    (hc : d (FileRWHandler.file .updateLogMeta) = none ∨ d (FileRWHandler.file .updateLogMeta) = some (u32Bytes 0)) :
    LogState ⟨d, l, merger⟩ := by
  refine ⟨retrieve_of_construct hl, fun _ => ⟨hd, ?_⟩⟩
  rcases hc with hc | hc
  · exact .inr ⟨hc, ((construct_counter hl).1 hc).1⟩
  · exact .inl (.start merger hl hc)

theorem LogState.of_synced {e : LogEnv μ} (hp : Persistable e.logger.offsetsMap)
    (h : e.disk (FileRWHandler.file .updateLogOffsets) = some (dumpOffsetsMap e.logger.offsetsMap)) : LogState e :=
  ⟨retrieveOffsetsMap_dump hp h, fun hnone => by simp [h] at hnone⟩

/-- What `compactAll` leaves as it is. -/
structure UntilCommit (e e' : LogEnv μ) : Prop where
  disk : ∀ q, q ≠ FileRWHandler.tmp .updateLog → e'.disk q = e.disk q
  offsetsMap : e'.logger.offsetsMap = e.logger.offsetsMap
  totalUpdates : e'.logger.totalUpdates = e.logger.totalUpdates
  metadata : e'.logger.metadataFileRw = e.logger.metadataFileRw

theorem UntilCommit.logState {e e' : LogEnv μ} (h : UntilCommit e e') (he : LogState e) : LogState e' := by
  refine ⟨?_, fun hnone => ?_⟩
  · rw [retrieveOffsetsMap_congr (h.disk _ (by decide)), h.offsetsMap]
    exact he.offsets
  · rw [h.disk _ (by decide)] at hnone
    obtain ⟨hbytes, hcounter⟩ := he.fresh hnone
    refine ⟨?_, ?_⟩
    · rw [LogEnv.logBytes, Disk.bytes, h.disk _ (by decide)]
      exact hbytes
    · rcases hcounter with hc | ⟨hm, hf⟩
      · refine .inl ⟨?_, h.totalUpdates.trans hc.total, h.metadata ▸ hc.stream⟩
        rw [h.disk _ (by decide), h.totalUpdates]
        exact hc.file
      · exact .inr ⟨(h.disk _ (by decide)).trans hm, h.metadata ▸ hf⟩

theorem untilCommit_compactAll {e₀ : LogEnv μ} (ps : List UInt64) (new : OffsetsMap) :
    Act.Keeps (UntilCommit e₀) (LogEnv.compactAll P ps new) := by
  induction ps generalizing new with
  | nil => exact Act.keeps_pure _
  | cons p ps ih =>
    refine (keeps_compactPredicate (fun _ _ h => ⟨h.disk, h.offsetsMap, h.totalUpdates, h.metadata⟩) p).bind fun c => ?_
    cases c with
    | none => exact Act.keeps_throw _
    | some c =>
      refine Act.keeps_get.bind fun e => (Act.keeps_modify fun e' h => ?_).bind fun _ => ih _
      exact ⟨fun q hq => (Disk.set_ne _ _ hq).trans (h.disk q hq), h.offsetsMap, h.totalUpdates, h.metadata⟩

/-- **One call.** -/
theorem LogState.call (h : LogState e) (c : LoggerCall T) (hp : Persistable (c.call P e).2.logger.offsetsMap) :
    LogState (c.call P e).2 := by
  cases c with
  | log us => exact .of_synced hp (log_synced us e).2
  | compactLogs =>
    set e₁ := { LogEnv.closeStreams e with disk := FileRWHandler.getWriterTemp e.disk .updateLog .binary } with he₁
    have hrun : LogEnv.compactLogs P e = (LogEnv.compactAll P e.logger.getPredicates ∅ >>= fun new =>
        Act.modify LogEnv.closeStreams >>= fun _ => Act.modify (LogEnv.commitCompaction new)) e₁ := rfl
    have h₁ : UntilCommit e e₁ := ⟨fun q hq => Disk.set_ne _ _ hq, rfl, rfl, rfl⟩
    have h₂ : UntilCommit e (LogEnv.compactAll P e.logger.getPredicates ∅ e₁).2 :=
      untilCommit_compactAll e.logger.getPredicates ∅ e₁ h₁
    have hcall : (LoggerCall.compactLogs : LoggerCall T).call P e = LogEnv.compactLogs P e := rfl
    rw [hcall, hrun, Act.bind_run] at hp ⊢
    rcases hall : LogEnv.compactAll P e.logger.getPredicates ∅ e₁ with ⟨x | new, e₂⟩
    · rw [hall] at h₂
      exact h₂.logState h
    · rw [hall] at hp
      refine .of_synced hp ?_
      -- the offsets file is the first of the three
      show FileRWHandler.commitTempWriter (FileRWHandler.replaceFile (FileRWHandler.replaceFile e₂.disk .updateLogOffsets .binary
        (dumpOffsetsMap new)) .updateLogMeta .binary _) .updateLog (FileRWHandler.file .updateLogOffsets) = _
      rw [FileRWHandler.commitTempWriter_other (by decide), FileRWHandler.replaceFile_other (by decide)]
      exact FileRWHandler.replaceFile_file _ _ _ rfl _

/-- **Every state between two calls is a `LogState`.** -/
theorem LogState.runAll (cs : List (LoggerCall T)) {e : LogEnv μ} (h : LogState e)
    (hp : ∀ pre, pre <+: cs → Persistable (LoggerCall.runAll P pre e).logger.offsetsMap) : LogState (LoggerCall.runAll P cs e) := by
  induction cs generalizing e with
  | nil => exact h
  | cons c cs ih =>
    refine ih (h.call c (hp [c] ⟨cs, rfl⟩)) fun pre hpre => ?_
    exact hp (c :: pre) ((List.prefix_cons_inj c).2 hpre)

/-! ## The theorem -/

/-- **Stopping at any point leaves a consistent log** exactly if nothing is replaced and nothing is
added: `commit_temp_writer` takes the old file away before the new one has its name, and the
batch is in the offsets before it is counted. -/
theorem stopsConsistent_iff (hl : P.ops.Lawful) (h : LogState e) (c : LoggerCall T) (hfits : c.Fits P e) :
    c.StopsConsistent P e ↔ c.Quiet P.ops e := by
  cases c with
  | log us => exact stops_log_iff hl h hfits
  | compactLogs => exact ⟨quiet_of_compact hl h, stops_compact_of_quiet h⟩

open PointTree in
theorem countedEnv_logState : LogState countedEnv := .start () countedEnv_construct rfl (.inr rfl)

open PointTree in
/-- An empty batch is logged, and stopped. -/
theorem stopsConsistent_iff_empty :
    (LoggerCall.log []).StopsConsistent (params .binary) countedEnv ↔ (LoggerCall.log []).Quiet PointTree.ops countedEnv := by
  refine stopsConsistent_iff ops_lawful countedEnv_logState _ ⟨⟨by decide, fun u hu => ?_⟩, ?_⟩
  · cases hu
  · have h : (LogEnv.log (params .binary) [] countedEnv).2.logger.offsetsMap = ∅ := rfl
    rw [h]
    exact persistable_empty

open PointTree in
/-- A logger that has logged one point. -/
def onePointEnv : LogEnv Unit := (LogEnv.log (params .binary) [inserting 7 [(1, 1)]] countedEnv).2

open PointTree in
theorem onePointEnv_logState : LogState onePointEnv := by
  refine countedEnv_logState.call (P := params .binary) (.log [inserting 7 [(1, 1)]]) ?_
  have hentries : onePointEnv.logger.offsetsMap.entries = [(7, [4])] := by decide +kernel
  refine persistable_of_entries ?_ fun x hx => ?_
  · show onePointEnv.logger.offsetsMap.entries.length < _
    rw [hentries]
    decide
  · have hx' : x ∈ onePointEnv.logger.offsetsMap.entries := hx
    rw [hentries, List.mem_singleton] at hx'
    subst hx'
    decide

open PointTree in
/-- **The next point**: when the old offsets have been renamed there is no offsets file. -/
theorem not_stopsConsistent : LogState onePointEnv ∧
    ¬ (LoggerCall.log [inserting 7 [(2, 2)]]).StopsConsistent (params .binary) onePointEnv := by
  refine ⟨onePointEnv_logState, fun h => ?_⟩
  have hpoint := h ((LogEnv.logOps (params .binary) [inserting 7 [(2, 2)]] onePointEnv).take 4) (List.take_prefix _ _)
  have hbefore : onePointEnv.disk (FileRWHandler.file .updateLogOffsets) ≠ none := by
    decide +kernel
  refine hpoint.kept .updateLogOffsets (by decide) hbefore ?_
  decide +kernel

end K2Cache
