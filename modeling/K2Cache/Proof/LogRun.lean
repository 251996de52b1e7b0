import K2Cache.Lib.Machine
import K2Cache.Proof.Compact

/-!
# Runs of the logger

A run calls `log`, `recover_predicate`, `recover_all` and `compact_logs` in any order,
and constructs the logger again on the files it left. Beside the logger the run keeps
the records that were logged (or compacted) per predicate.

The logger closes its writer to recover and to compact, and a new logger has none;
the next `log` opens the file again and empties it, while the offsets of the lost
records stay registered. `logRun_registered`: that is the only way a registered record
is lost. As long as the writer is open at every `log`, or nothing is registered yet,
every registered offset is in front of its record.
-/

namespace K2Cache

open Lib

variable {T μ : Type}

/-- The calls of a run; a construction brings its `DataMerger`, and finds some value in
the memory of `total_updates`. -/
inductive LogOp (T μ : Type) where
  | log (us : List (K2TreeUpdates T))
  | recoverPredicate (p : UInt64)
  | recoverAll
  | compactLogs
  | construct (uninit : ℤ) (merger : μ)

/-- The record compaction writes for a predicate. -/
def Records.compacted (ops : TreeOps T) (recs : Records T) (p : UInt64) : K2TreeUpdates T :=
  match recs p with
  | [] => ⟨p, none, none⟩
  | u :: us =>
    let c := u.toPredicateUpdate.mergeAll ops (us.map K2TreeUpdates.toPredicateUpdate)
    ⟨c.predicateId, c.addUpdate, c.delUpdate⟩

/-- The records after a compaction: one for each predicate that had some. -/
def Records.compact (ops : TreeOps T) (recs : Records T) : Records T := fun p =>
  if recs p = [] then [] else [recs.compacted ops p]

namespace LogOp

variable (P : LoggerParams T μ)

/-- The call. -/
def call : LogOp T μ → Act Exn (LogEnv μ) Unit
  | log us => LogEnv.log P us
  | recoverPredicate p => LogEnv.recoverPredicate P p
  | recoverAll => LogEnv.recoverAll P
  | compactLogs => LogEnv.compactLogs P
  | construct uninit merger => fun e =>
    match UpdatesLogger.construct e.disk uninit with
    | .ok l => (.ok (), ⟨e.disk, l, merger⟩)
    | .error x => (.error x, e)

/-- The records after a call that returned, or threw. -/
def records : LogOp T μ → Bool → Records T → Records T
  | log us, _, recs => recs.pushAll us
  | compactLogs, true, recs => recs.compact P.ops
  | _, _, recs => recs

end LogOp

/-- **The logger as a machine.** A logger a call threw from can be called again; after
a null pointer was used, or a constructor threw, there is none. -/
def logMachine (P : LoggerParams T μ) : Machine (LogEnv μ × Records T) (LogOp T μ) where
  step s op :=
    match op.call P s.1, op with
    | (.error .nullDereference, _), _ => none
    | (.error _, _), .construct _ _ => none
    | (r, e), _ => some (e, op.records P r.isOk s.2)

/-- **When a call keeps the registered records**: a `log` has its writer open or
nothing to lose, and a logger is constructed from offsets that fit their file. -/
def LogOp.Safe (s : LogEnv μ × Records T) : LogOp T μ → Prop
  | .log _ => s.1.logger.writerOpen = true ∨ s.1.logger.offsetsMap = ∅
  | .construct _ _ => Persistable s.1.logger.offsetsMap
  | _ => True

/-- The bytes of the log file. -/
def LogEnv.logBytes (e : LogEnv μ) : Bytes := e.disk.bytes (FileRWHandler.file .updateLog)

/-- The invariant of such runs. -/
structure LogInv (ops : TreeOps T) (s : LogEnv μ × Records T) : Prop where
  registered : Registered ops s.1.logBytes s.1.logger.offsetsMap s.2
  offsetsFile : Persistable s.1.logger.offsetsMap → retrieveOffsetsMap s.1.disk = .ok s.1.logger.offsetsMap

/-! ## Calls that leave the files alone -/

section Frame

variable (P : LoggerParams T μ) {e₀ : LogEnv μ}

/-- The disk, the offsets and the number of batches are those of `e₀`. -/
structure LogEnv.SameLog (e₀ e : LogEnv μ) : Prop where
  disk : e.disk = e₀.disk
  offsets : e.logger.offsetsMap = e₀.logger.offsetsMap
  total : e.logger.totalUpdates = e₀.logger.totalUpdates

theorem LogEnv.SameLog.refl (e : LogEnv μ) : LogEnv.SameLog e e := ⟨rfl, rfl, rfl⟩

theorem keeps_onMerger {α : Type} (x : Act Exn μ α) : Act.Keeps (LogEnv.SameLog e₀) (LogEnv.onMerger x) :=
  fun _ h => ⟨h.disk, h.offsets, h.total⟩

theorem keeps_withReader {α : Type} (f : IStream → Except Exn α × IStream) :
    Act.Keeps (LogEnv.SameLog e₀) (LogEnv.withReader f) := fun _ h => ⟨h.disk, h.offsets, h.total⟩

theorem keeps_mergeUpdate (u : PredicateUpdate T) : Act.Keeps (LogEnv.SameLog e₀) (LogEnv.mergeUpdate P u) := by
  refine Act.Keeps.bind ?_ fun _ => ?_
  · exact Act.Keeps.forSome (fun _ => keeps_onMerger _) _
  · exact Act.Keeps.forSome (fun _ => keeps_onMerger _) _

theorem keeps_recoverPredicate (p : UInt64) : Act.Keeps (LogEnv.SameLog e₀) (LogEnv.recoverPredicate P p) := by
  refine Act.keeps_get.bind fun e => ?_
  split
  · refine (Act.keeps_modify (f := LogEnv.openReader) fun _ h => ⟨h.disk, h.offsets, h.total⟩).bind fun _ => ?_
    split
    · exact Act.keeps_throw _
    · exact Act.Keeps.forEach fun off _ => (keeps_withReader _).bind (keeps_mergeUpdate P)
  · exact Act.keeps_pure ()

theorem keeps_recoverRecords (n : ℕ) : Act.Keeps (LogEnv.SameLog e₀) (LogEnv.recoverRecords P n) := by
  induction n with
  | zero => exact Act.keeps_pure ()
  | succ n ih => exact (keeps_withReader _).bind fun u => (keeps_mergeUpdate P u).bind fun _ => ih

theorem keeps_recoverUpdates (n : ℕ) : Act.Keeps (LogEnv.SameLog e₀) (LogEnv.recoverUpdates P n) := by
  induction n with
  | zero => exact Act.keeps_pure ()
  | succ n ih => exact ((keeps_withReader _).bind fun c => keeps_recoverRecords P _).bind fun _ => ih

theorem keeps_recoverAll : Act.Keeps (LogEnv.SameLog e₀) (LogEnv.recoverAll P) := by
  refine (Act.keeps_modify (f := LogEnv.closeWriter) fun _ h => ⟨h.disk, h.offsets, h.total⟩).bind fun _ =>
    Act.keeps_get.bind fun e => ?_
  split
  · exact (Act.keeps_modify (f := LogEnv.openReader) fun _ h => ⟨h.disk, h.offsets, h.total⟩).bind fun _ => keeps_recoverUpdates P _
  · exact Act.keeps_pure ()

end Frame

theorem LogInv.congr {ops : TreeOps T} {e e' : LogEnv μ} {recs : Records T} (h : LogInv ops (e, recs))
    (hd : e'.disk = e.disk) (hm : e'.logger.offsetsMap = e.logger.offsetsMap) : LogInv ops (e', recs) := by
  refine ⟨?_, ?_⟩
  · show Registered ops (e'.disk.bytes _) e'.logger.offsetsMap recs
    rw [hd, hm]
    exact h.registered
  · show Persistable e'.logger.offsetsMap → retrieveOffsetsMap e'.disk = _
    rw [hd, hm]
    exact h.offsetsFile

theorem LogInv.of_sameLog {ops : TreeOps T} {e e' : LogEnv μ} {recs : Records T} (h : LogInv ops (e, recs))
    (hf : LogEnv.SameLog e e') : LogInv ops (e', recs) := h.congr hf.disk hf.offsets

/-! ## log -/

theorem retrieveOffsetsMap_congr {d d' : Disk}
    (h : d (FileRWHandler.file .updateLogOffsets) = d' (FileRWHandler.file .updateLogOffsets)) :
    retrieveOffsetsMap d = retrieveOffsetsMap d' := by
  unfold retrieveOffsetsMap FileRWHandler.fileExists FileRWHandler.getReader
  rw [h]

theorem Disk.bytes_congr {d d' : Disk} {q : Path} (h : d q = d' q) : d.bytes q = d'.bytes q := by
  rw [Disk.bytes, Disk.bytes, h]

/-- The counter goes to the counter file. -/
theorem countUpdate_other (e : LogEnv μ) {q : Path} (hq : q.1 ≠ .updateLogMeta) :
    (LogEnv.countUpdate e).disk q = e.disk q := by
  have hne : q ≠ FileRWHandler.file .updateLogMeta := by rintro rfl; exact hq rfl
  simp only [LogEnv.countUpdate, commitTotalUpdates]
  split
  · rfl
  · split
    · exact Disk.set_ne _ _ hne
    · rfl

/-- The offsets go to the offsets file. -/
theorem syncOffsets_other (e : LogEnv μ) {q : Path} (hq : q.1 ≠ .updateLogOffsets) :
    (LogEnv.syncOffsets e).disk q = e.disk q := FileRWHandler.replaceFile_other hq

theorem keeps_countUpdate {ops : TreeOps T} {recs : Records T} :
    Act.Keeps (fun e => LogInv ops ((e : LogEnv μ), recs)) (Act.modify LogEnv.countUpdate : Act Exn _ Unit) := by
  refine Act.keeps_modify fun e h => ⟨?_, ?_⟩
  · show Registered ops ((LogEnv.countUpdate e).disk.bytes _) _ _
    rw [Disk.bytes_congr (countUpdate_other e (by decide))]
    exact h.registered
  · intro hp
    show retrieveOffsetsMap (LogEnv.countUpdate e).disk = _
    rw [retrieveOffsetsMap_congr (countUpdate_other e (by decide))]
    exact h.offsetsFile hp

/-- Writing the offsets file: it is read back, the log file is as before. -/
theorem LogInv.of_syncOffsets {ops : TreeOps T} {e : LogEnv μ} {recs : Records T}
    (h : Registered ops e.logBytes e.logger.offsetsMap recs) : LogInv ops (LogEnv.syncOffsets e, recs) := by
  refine ⟨?_, fun hp => ?_⟩
  · show Registered ops ((LogEnv.syncOffsets e).disk.bytes _) _ _
    rw [Disk.bytes_congr (syncOffsets_other e (by decide))]
    exact h
  · exact retrieveOffsetsMap_dump hp (FileRWHandler.replaceFile_file e.disk .updateLogOffsets .binaryTrunc rfl _)

/-- The batch goes to the end of the file. -/
theorem logBytes_appendBatch (P : LoggerParams T μ) (us : List (K2TreeUpdates T)) (e : LogEnv μ) :
    (LogEnv.appendBatch P us e).logBytes =
      e.logBytes ++ (logBatch P.ops us e.logger.offsetsMap e.logBytes.length).2 := by
  simp [LogEnv.logBytes, LogEnv.appendBatch, Disk.append, Disk.bytes]

/-- **A batch is registered**, from a state where the registered records are in the
file the writer stands at the end of. -/
theorem logInv_log {P : LoggerParams T μ} {e : LogEnv μ} {recs : Records T} (us : List (K2TreeUpdates T))
    (h : Registered P.ops (LogEnv.openWriter P e).logBytes e.logger.offsetsMap recs) :
    LogInv P.ops ((LogEnv.log P us e).2, recs.pushAll us) := by
  have h1 : Registered P.ops (LogEnv.appendBatch P us (LogEnv.openWriter P e)).logBytes
      (LogEnv.appendBatch P us (LogEnv.openWriter P e)).logger.offsetsMap (recs.pushAll us) := by
    rw [logBytes_appendBatch]
    exact h.logBatch us
  have h2 := LogInv.of_syncOffsets h1
  -- what follows is the merger's, and the counter's
  exact Act.Keeps.bind (I := fun e => LogInv P.ops (e, recs.pushAll us))
    (fun e' h' => h'.of_sameLog (keeps_onMerger (P.merger.mergeUpdate us) e' (LogEnv.SameLog.refl e')))
    (fun _ => keeps_countUpdate) _ h2

/-- **Opening the log file loses no byte** if it is open already, is empty, or is opened to
append. -/
theorem openWriter_logBytes {P : LoggerParams T μ} {e : LogEnv μ}
    (hs : P.logMode.app = true ∨ e.logger.writerOpen = true ∨ e.logBytes = []) : (LogEnv.openWriter P e).logBytes = e.logBytes := by
  rcases hs with happ | hw | h0
  · unfold LogEnv.openWriter LogEnv.logBytes
    simp only
    split
    · rfl
    · simp [FileRWHandler.getWriter, Disk.openOut, happ, Disk.bytes]
  · simp [LogEnv.logBytes, LogEnv.openWriter, hw]
  · have hbytes : e.disk.bytes (FileRWHandler.file .updateLog) = [] := h0
    unfold LogEnv.openWriter LogEnv.logBytes
    simp only
    split
    · rfl
    · unfold FileRWHandler.getWriter Disk.openOut
      rw [hbytes]
      split <;> rw [Disk.bytes, Disk.set_self] <;> rfl

/-- **Opening the log file loses no record** if it is open already, has no record, or is
opened to append. -/
theorem Registered.openWriter {P : LoggerParams T μ} {e : LogEnv μ} {recs : Records T}
    (h : Registered P.ops e.logBytes e.logger.offsetsMap recs)
    (hs : P.logMode.app = true ∨ e.logger.writerOpen = true ∨ e.logger.offsetsMap = ∅) :
    Registered P.ops (LogEnv.openWriter P e).logBytes e.logger.offsetsMap recs := by
  rcases hs with happ | hw | hm
  · rw [openWriter_logBytes (.inl happ)]
    exact h
  · rw [openWriter_logBytes (.inr (.inl hw))]
    exact h
  · -- nothing was registered, so there is nothing in the file to lose
    have hr : recs = fun _ => [] := by
      funext p
      have := h.find?_eq_none (p := p)
      simp only [hm, OrdMap.find?_empty, true_iff] at this
      exact this
    rw [hm, hr]
    exact registered_empty _ _

theorem logInv_log_safe {P : LoggerParams T μ} {e : LogEnv μ} {recs : Records T} (us : List (K2TreeUpdates T))
    (h : LogInv P.ops (e, recs)) (hs : e.logger.writerOpen = true ∨ e.logger.offsetsMap = ∅) :
    LogInv P.ops ((LogEnv.log P us e).2, recs.pushAll us) :=
  logInv_log us (h.registered.openWriter (.inr hs))

/-- A `log` leaves its writer open, also when the merger throws. -/
theorem log_writerOpen {P : LoggerParams T μ} (us : List (K2TreeUpdates T)) (e : LogEnv μ) : (LogEnv.log P us e).2.logger.writerOpen = true := by
  have h : Act.Keeps (fun e : LogEnv μ => e.logger.writerOpen = true)
      (LogEnv.onMerger (P.merger.mergeUpdate us) >>= fun _ => (Act.modify LogEnv.countUpdate : Act Exn (LogEnv μ) Unit)) :=
    Act.Keeps.bind (fun _ h => h) fun _ => Act.keeps_modify fun _ h => h
  exact h _ rfl

/-! ## compact_logs -/

theorem compacted_kind {ops : TreeOps T} {recs : Records T} {p : UInt64} {u : K2TreeUpdates T}
    {us : List (K2TreeUpdates T)} (hr : recs p = u :: us) :
    (recs.compacted ops p).getKind = u.getKind := by
  have hk : ∀ (vs : List (PredicateUpdate T)) (v : PredicateUpdate T),
      ((v.mergeAll ops vs).addUpdate.isSome = v.addUpdate.isSome) ∧
      ((v.mergeAll ops vs).delUpdate.isSome = v.delUpdate.isSome) := by
    intro vs
    induction vs with
    | nil => intro v; exact ⟨rfl, rfl⟩
    | cons w vs ih =>
      intro v
      have h1 := ih (v.mergeWith ops w)
      rw [PredicateUpdate.mergeWith_eq] at h1
      simp only [Option.isSome_map] at h1
      rw [← PredicateUpdate.mergeWith_eq] at h1
      exact h1
  have h := hk (us.map K2TreeUpdates.toPredicateUpdate) u.toPredicateUpdate
  simp only [Records.compacted, hr, K2TreeUpdates.getKind, h.1, h.2]
  rfl

theorem compacted_predicateId {ops : TreeOps T} {recs : Records T} {p : UInt64}
    (hp : ∀ u ∈ recs p, u.predicateId = p) : (recs.compacted ops p).predicateId = p := by
  unfold Records.compacted
  split
  · rfl
  · rename_i u us hr
    simp only [PredicateUpdate.mergeAll_predicateId]
    exact hp u (by rw [hr]; exact List.mem_cons_self)

theorem Registered.predicate {ops : TreeOps T} {data : Bytes} {m : OffsetsMap} {recs : Records T}
    (h : Registered ops data m recs) (p : UInt64) : ∀ u ∈ recs p, u.predicateId = p := by
  intro u hu
  have hf := h.logged p
  obtain ⟨i, hi, rfl⟩ := List.getElem_of_mem hu
  exact ((List.forall₂_iff_get.1 hf).2 i ((List.forall₂_iff_get.1 hf).1 ▸ hi) hi).predicate

/-- Pushing the compacted record of every registered predicate gives the compacted
records. -/
theorem pushAll_compacted {ops : TreeOps T} {data : Bytes} {m : OffsetsMap} {recs : Records T}
    (h : Registered ops data m recs) :
    Records.pushAll (fun _ => []) (m.keys.map (recs.compacted ops)) = recs.compact ops := by
  funext p
  rw [Records.pushAll_apply, List.nil_append, List.filter_map]
  -- of the keys, the filter keeps `p` alone
  have hq : ∀ q ∈ m.keys, (recs.compacted ops q).getKind ≠ .noUpdate ∧ (recs.compacted ops q).predicateId = q := by
    intro q hq
    obtain ⟨l, hl⟩ := (m.mem_keys).1 hq
    refine ⟨?_, compacted_predicateId (h.predicate q)⟩
    cases hr : recs q with
    | nil => simp [h.find?_eq_none.2 hr] at hl
    | cons u us =>
      rw [compacted_kind hr]
      have hf := h.logged q
      rw [hl, hr] at hf
      cases hf with
      | cons hu _ => exact hu.kind
  have hfil : m.keys.filter ((fun u : K2TreeUpdates T => decide (u.getKind ≠ .noUpdate ∧ u.predicateId = p)) ∘
      recs.compacted ops) = m.keys.filter (fun q => decide (q = p)) := by
    apply List.filter_congr
    intro q hm
    simp [hq q hm]
  rw [hfil, List.filter_eq, Records.compact]
  by_cases hp : recs p = []
  · have hn : p ∉ m.keys := by
      rw [OrdMap.mem_keys, h.find?_eq_none.2 hp]
      simp
    simp [hp, List.count_eq_zero_of_not_mem hn]
  · have hn : p ∈ m.keys := by
      rw [OrdMap.mem_keys]
      exact Option.ne_none_iff_exists'.1 (fun hc => hp (h.find?_eq_none.1 hc))
    simp [hp, List.count_eq_one_of_mem m.keys_nodup hn]

section CompactLogs

variable {P : LoggerParams T μ} {recs : Records T}

/-- What a batch of one record adds to the offsets and the bytes of a log file. -/
def packRecord (ops : TreeOps T) (acc : OffsetsMap × Bytes) (u : K2TreeUpdates T) : OffsetsMap × Bytes :=
  ((logBatch ops [u] acc.1 acc.2.length).1, acc.2 ++ (logBatch ops [u] acc.1 acc.2.length).2)

/-- The loop of `compact_logs`: the log is as it was and readable, the temporary file
holds the compacted records so far. -/
theorem compactAll_run (hl : P.ops.Lawful) {data : Bytes} {m : OffsetsMap} (hreg : Registered P.ops data m recs)
    (ps : List UInt64) (hps : ∀ p ∈ ps, p ∈ m.keys) {e : LogEnv μ} {new : OffsetsMap} {done : Records T}
    (hm : e.logger.offsetsMap = m) (hd : e.currentReader.data = data) (hf : e.currentReader.fail = false)
    (htmp : e.disk (FileRWHandler.tmp .updateLog) ≠ none)
    (hnew : Registered P.ops (e.disk.bytes (FileRWHandler.tmp .updateLog)) new done) :
    ∃ new' e', LogEnv.compactAll P ps new e = (.ok new', e') ∧
      e'.disk (FileRWHandler.tmp .updateLog) ≠ none ∧
      e'.disk.bytes (FileRWHandler.tmp .updateLog) =
        e.disk.bytes (FileRWHandler.tmp .updateLog) ++ ps.flatMap (fun p => batchBytes P.ops [recs.compacted P.ops p]) ∧
      Registered P.ops (e'.disk.bytes (FileRWHandler.tmp .updateLog)) new'
        (done.pushAll (ps.map (recs.compacted P.ops))) ∧
      (new', e'.disk.bytes (FileRWHandler.tmp .updateLog)) =
        (ps.map (recs.compacted P.ops)).foldl (packRecord P.ops) (new, e.disk.bytes (FileRWHandler.tmp .updateLog)) := by
  induction ps generalizing e new done with
  | nil => exact ⟨new, e, rfl, htmp, by simp, by simpa [Records.pushAll] using hnew, rfl⟩
  | cons p ps ih =>
    obtain ⟨offs, hoffs⟩ := (m.mem_keys).1 (hps p List.mem_cons_self)
    -- the predicate has records, which are read and merged
    cases hr : recs p with
    | nil => simp [hreg.find?_eq_none.2 hr] at hoffs
    | cons u us =>
      have hlog := hreg.logged p
      rw [hoffs, Option.getD_some, hr, ← hd] at hlog
      obtain ⟨s, hc, hsd, hsf⟩ := compactPredicate_run hl (by rw [hm]; exact hoffs) hf hlog
      have hcomp : recs.compacted P.ops p =
          ⟨(u.toPredicateUpdate.mergeAll P.ops (us.map K2TreeUpdates.toPredicateUpdate)).predicateId,
            (u.toPredicateUpdate.mergeAll P.ops (us.map K2TreeUpdates.toPredicateUpdate)).addUpdate,
            (u.toPredicateUpdate.mergeAll P.ops (us.map K2TreeUpdates.toPredicateUpdate)).delUpdate⟩ := by
        simp only [Records.compacted, hr]
      have hpush : done.pushAll ((p :: ps).map (recs.compacted P.ops)) =
          (done.pushAll [recs.compacted P.ops p]).pushAll (ps.map (recs.compacted P.ops)) := by
        simp only [List.map_cons, Records.pushAll]
        split <;> rfl
      rw [LogEnv.compactAll, Act.bind_ok hc, hpush]
      simp only [Act.get_bind, Act.modify_bind, LogEnv.setReader_disk, ← hcomp]
      set e₁ : LogEnv μ := { LogEnv.setReader e s with
        disk := e.disk.append (FileRWHandler.tmp .updateLog) (logBatch P.ops [recs.compacted P.ops p] new
          (e.disk.bytes (FileRWHandler.tmp .updateLog)).length).2 } with he₁
      have hbytes : e₁.disk.bytes (FileRWHandler.tmp .updateLog) = e.disk.bytes (FileRWHandler.tmp .updateLog) ++
          batchBytes P.ops [recs.compacted P.ops p] := by
        simp [he₁, Disk.append, Disk.bytes, logBatch_bytes]
      obtain ⟨new', e', h1, h2, h3, h4, h5⟩ := ih (fun q hq => hps q (List.mem_cons_of_mem _ hq)) (e := e₁) hm (hsd.trans hd) hsf
        (by simp [he₁, Disk.append]) (by simpa [he₁, Disk.append, Disk.bytes] using hnew.logBatch [recs.compacted P.ops p])
      refine ⟨new', e', h1, h2, ?_, h4, ?_⟩
      · rw [h3, hbytes, List.flatMap_cons, List.append_assoc]
      · rw [h5, List.map_cons, List.foldl_cons]
        simp [he₁, packRecord, Disk.append, Disk.bytes]

/-- A log file with registered records is there, and a new reader of it is good. -/
theorem Registered.reader {ops : TreeOps T} {d : Disk} {m : OffsetsMap} {p : UInt64}
    (h : Registered ops (d.bytes (FileRWHandler.file .updateLog)) m recs) (hp : p ∈ m.keys) :
    FileRWHandler.getReader d .updateLog = .ofBytes (d.bytes (FileRWHandler.file .updateLog)) := by
  obtain ⟨l, hl⟩ := (m.mem_keys).1 hp
  have hlen : 0 < (d.bytes (FileRWHandler.file .updateLog)).length := by
    cases l with
    | nil => exact absurd hl (h.nonempty p)
    | cons o l => exact Nat.lt_of_le_of_lt (Nat.zero_le o) (h.lt_length hl List.mem_cons_self)
  unfold FileRWHandler.getReader
  unfold Disk.bytes at hlen ⊢
  cases hd : d (FileRWHandler.file .updateLog) with
  | none => simp [hd] at hlen
  | some bs => rfl

/-- The three files are replaced: the log file is the temporary one, and the offsets
file is read back. -/
theorem logInv_commitCompaction {e : LogEnv μ} {new : OffsetsMap} {bs : Bytes}
    (hbs : e.disk (FileRWHandler.tmp .updateLog) = some bs) (h : Registered P.ops bs new recs) :
    LogInv P.ops (LogEnv.commitCompaction new (LogEnv.closeStreams e), recs) := by
  set d₁ := FileRWHandler.replaceFile e.disk .updateLogOffsets .binary (dumpOffsetsMap new) with hd₁
  set d₂ := FileRWHandler.replaceFile d₁ .updateLogMeta .binary
    (u32Bytes (UInt32.ofInt (wrapInt new.size))) with hd₂
  have hlog : FileRWHandler.commitTempWriter d₂ .updateLog (FileRWHandler.file .updateLog) = some bs := by
    apply FileRWHandler.commitTempWriter_file
    rw [hd₂, FileRWHandler.replaceFile_other (by decide), hd₁, FileRWHandler.replaceFile_other (by decide), hbs]
  have hoff : FileRWHandler.commitTempWriter d₂ .updateLog (FileRWHandler.file .updateLogOffsets) =
      some (dumpOffsetsMap new) := by
    rw [FileRWHandler.commitTempWriter_other (by decide), hd₂, FileRWHandler.replaceFile_other (by decide), hd₁]
    exact FileRWHandler.replaceFile_file e.disk .updateLogOffsets .binary rfl _
  refine ⟨?_, fun hp => retrieveOffsetsMap_dump hp hoff⟩
  show Registered P.ops (Disk.bytes (FileRWHandler.commitTempWriter d₂ .updateLog) _) new recs
  rw [Disk.bytes, hlog]
  exact h

/-- The files and the merger are those of `e₀`, but for the temporary log file. -/
structure LogEnv.SameButTmp (e₀ e : LogEnv μ) : Prop where
  merger : e.merger = e₀.merger
  disk : ∀ q, q ≠ FileRWHandler.tmp .updateLog → e.disk q = e₀.disk q

/-- Compacting a predicate moves the reader alone. -/
theorem keeps_compactPredicate {I : LogEnv μ → Prop} (hI : ∀ e s, I e → I (LogEnv.setReader e s)) (p : UInt64) :
    Act.Keeps I (LogEnv.compactPredicate P p) := by
  have hrecords : ∀ (offs : List ℕ) (merged : Option (PredicateUpdate T)),
      Act.Keeps I (LogEnv.compactRecords P p offs merged) := by
    intro offs
    induction offs with
    | nil => exact fun _ => Act.keeps_pure _
    | cons off offs ih =>
      intro merged
      refine Act.Keeps.bind (fun e h => hI e _ h) fun u => ?_
      split
      · exact Act.keeps_throw _
      · cases merged with
        | none => exact ih _
        | some m => exact ih _
  refine Act.keeps_get.bind fun e => ?_
  cases e.logger.offsetsMap.find? p with
  | none => exact Act.keeps_pure _
  | some offs => exact (hrecords offs none).bind fun _ => Act.keeps_pure _

/-- Compacting writes to the temporary log file alone. -/
theorem keeps_compactAll {e₀ : LogEnv μ} (ps : List UInt64) (new : OffsetsMap) :
    Act.Keeps (LogEnv.SameButTmp e₀) (LogEnv.compactAll P ps new) := by
  induction ps generalizing new with
  | nil => exact Act.keeps_pure _
  | cons p ps ih =>
    refine (keeps_compactPredicate (fun _ _ h => ⟨h.merger, h.disk⟩) p).bind fun c => ?_
    cases c with
    | none => exact Act.keeps_throw _
    | some c =>
      refine Act.keeps_get.bind fun e => (Act.keeps_modify fun e' h => ⟨h.merger, fun q hq => ?_⟩).bind fun _ => ih _
      rw [← h.disk q hq]
      exact Disk.set_ne _ _ hq

/-- What `compact_logs` does: the compacted records go to the temporary log file, and the
three files are replaced. -/
theorem compactLogs_run (hl : P.ops.Lawful) {e : LogEnv μ} (h : Registered P.ops e.logBytes e.logger.offsetsMap recs) :
    ∃ new bs e₂, LogEnv.compactLogs P e = (.ok (), LogEnv.commitCompaction new (LogEnv.closeStreams e₂)) ∧
      e₂.disk (FileRWHandler.tmp .updateLog) = some bs ∧ Registered P.ops bs new (recs.compact P.ops) ∧
      LogEnv.SameButTmp e e₂ ∧
      bs = e.logger.offsetsMap.keys.flatMap (fun p => batchBytes P.ops [recs.compacted P.ops p]) ∧
      (new, bs) = (e.logger.offsetsMap.keys.map (recs.compacted P.ops)).foldl (packRecord P.ops) (∅, []) := by
  set e₁ : LogEnv μ := { LogEnv.closeStreams e with
    disk := FileRWHandler.getWriterTemp e.disk .updateLog .binary } with he₁
  have htmp : e₁.disk (FileRWHandler.tmp .updateLog) = some [] := by
    simp [he₁, FileRWHandler.getWriterTemp, Disk.openOut, OpenMode.binary]
  have hother : ∀ q, q ≠ FileRWHandler.tmp .updateLog → e₁.disk q = e.disk q := by
    intro q hq
    simp [he₁, FileRWHandler.getWriterTemp, Disk.openOut, OpenMode.binary, Disk.set_ne _ _ hq]
  have hreg : Registered P.ops (e₁.disk.bytes (FileRWHandler.file .updateLog)) e.logger.offsetsMap recs := by
    rw [Disk.bytes_congr (hother _ (FileRWHandler.file_ne_tmp .updateLog .updateLog))]
    exact h
  have hnew : Registered P.ops (e₁.disk.bytes (FileRWHandler.tmp .updateLog)) ∅ (fun _ => []) := registered_empty _ _
  -- the loop, which reads only if there is a predicate
  have hbytes₁ : e₁.disk.bytes (FileRWHandler.tmp .updateLog) = [] := by rw [Disk.bytes, htmp]; rfl
  obtain ⟨new, e₂, hrun, htmp₂, hbytes, hreg₂, hpack⟩ : ∃ new e₂, LogEnv.compactAll P e.logger.getPredicates ∅ e₁ = (.ok new, e₂) ∧
      e₂.disk (FileRWHandler.tmp .updateLog) ≠ none ∧
      e₂.disk.bytes (FileRWHandler.tmp .updateLog) =
        e.logger.offsetsMap.keys.flatMap (fun p => batchBytes P.ops [recs.compacted P.ops p]) ∧
      Registered P.ops (e₂.disk.bytes (FileRWHandler.tmp .updateLog)) new (recs.compact P.ops) ∧
      (new, e₂.disk.bytes (FileRWHandler.tmp .updateLog)) =
        (e.logger.offsetsMap.keys.map (recs.compacted P.ops)).foldl (packRecord P.ops) (∅, []) := by
    rw [← pushAll_compacted h]
    cases hk : e.logger.offsetsMap.keys with
    | nil =>
      refine ⟨∅, e₁, ?_, by simp [htmp], hbytes₁, hnew, by rw [hbytes₁]; rfl⟩
      simp only [UpdatesLogger.getPredicates, hk]
      rfl
    | cons p ps =>
      have hreader : e₁.currentReader = .ofBytes (e₁.disk.bytes (FileRWHandler.file .updateLog)) :=
        hreg.reader (p := p) (by rw [hk]; exact List.mem_cons_self)
      simp only [UpdatesLogger.getPredicates, hk]
      obtain ⟨new, e₂, h1, h2, h3, h4, h5⟩ := compactAll_run (e := e₁) hl hreg (p :: ps)
        (fun q hq => by rw [hk]; exact hq) rfl
        (by rw [hreader]; rfl) (by rw [hreader]; rfl) (by simp [htmp]) hnew
      exact ⟨new, e₂, h1, h2, by rw [h3, hbytes₁, List.nil_append], h4, by rw [h5, hbytes₁]⟩
  have hsame : LogEnv.SameButTmp e e₂ := by
    have hkeep := @keeps_compactAll _ _ P e e.logger.getPredicates ∅ e₁ ⟨rfl, hother⟩
    rw [hrun] at hkeep
    exact hkeep
  obtain ⟨bs, hbs⟩ := Option.ne_none_iff_exists'.1 htmp₂
  rw [Disk.bytes, hbs] at hreg₂ hbytes hpack
  exact ⟨new, bs, e₂, Act.bind_ok (s := e₁) hrun, hbs, hreg₂, hsame, hbytes, hpack⟩

/-- **`compact_logs` leaves one record per predicate**, and returns. -/
theorem logInv_compactLogs (hl : P.ops.Lawful) {e : LogEnv μ} (h : LogInv P.ops (e, recs)) :
    ∃ e', LogEnv.compactLogs P e = (.ok (), e') ∧ LogInv P.ops (e', recs.compact P.ops) := by
  obtain ⟨new, bs, e₂, hrun, hbs, hreg, -⟩ := compactLogs_run hl h.registered
  exact ⟨_, hrun, logInv_commitCompaction hbs hreg⟩

end CompactLogs

/-! ## Runs -/

variable {P : LoggerParams T μ}

/-- What a step leaves, if there is a logger left. -/
theorem logMachine_step {s s' : LogEnv μ × Records T} {op : LogOp T μ} (h : (logMachine P).step s op = some s') :
    s' = ((op.call P s.1).2, op.records P (op.call P s.1).1.isOk s.2) ∧
      (∀ uninit merger, op = .construct uninit merger → (op.call P s.1).1.isOk = true) := by
  unfold logMachine at h
  simp only at h
  split at h
  · simp at h
  · simp at h
  · rename_i hcon heq
    rw [heq]
    refine ⟨(Option.some.inj h).symm, ?_⟩
    rintro uninit merger rfl
    rename_i r _ _
    cases r with
    | ok _ => rfl
    | error x => exact (hcon x uninit merger rfl rfl).elim

/-- A constructed logger has the offsets of the offsets file. -/
theorem construct_of_retrieve {d : Disk} {m : OffsetsMap} (h : retrieveOffsetsMap d = .ok m) (uninit : ℤ) :
    ∃ l, UpdatesLogger.construct d uninit = .ok l ∧ l.offsetsMap = m := by
  unfold UpdatesLogger.construct
  rw [h]
  by_cases hx : FileRWHandler.fileExists d .updateLogMeta = true
  · exact ⟨_, if_pos hx, rfl⟩
  · exact ⟨_, if_neg hx, rfl⟩

/-- A constructed logger has no stream of the log open. -/
theorem construct_streams {d : Disk} {uninit : ℤ} {l : UpdatesLogger}
    (h : UpdatesLogger.construct d uninit = .ok l) : l.reader = none ∧ l.writerOpen = false := by
  unfold UpdatesLogger.construct at h
  split at h
  · simp at h
  · simp only at h
    split at h
    · rw [← Except.ok.inj h]
      exact ⟨rfl, rfl⟩
    · rw [← Except.ok.inj h]
      exact ⟨rfl, rfl⟩

theorem retrieve_of_construct {d : Disk} {uninit : ℤ} {l : UpdatesLogger}
    (h : UpdatesLogger.construct d uninit = .ok l) : retrieveOffsetsMap d = .ok l.offsetsMap := by
  cases hm : retrieveOffsetsMap d with
  | error x => simp [UpdatesLogger.construct, hm] at h
  | ok m =>
    obtain ⟨l', hl', rfl⟩ := construct_of_retrieve hm uninit
    rw [h] at hl'
    rw [Except.ok.inj hl']

/-- **One step**: a safe call keeps the invariant. -/
theorem logInv_step (hl : P.ops.Lawful) {s s' : LogEnv μ × Records T} {op : LogOp T μ} (hs : op.Safe s)
    (h : (logMachine P).step s op = some s') (hi : LogInv P.ops s) : LogInv P.ops s' := by
  obtain ⟨e, recs⟩ := s
  obtain ⟨rfl, hcon⟩ := logMachine_step h
  cases op with
  | log us => exact logInv_log_safe us hi hs
  | recoverPredicate p => exact hi.of_sameLog (keeps_recoverPredicate P p e (LogEnv.SameLog.refl e))
  | recoverAll => exact hi.of_sameLog (keeps_recoverAll P e (LogEnv.SameLog.refl e))
  | compactLogs =>
    obtain ⟨e', hrun, h'⟩ := logInv_compactLogs hl hi
    simp only [LogOp.call, hrun]
    exact h'
  | construct uninit merger =>
    -- the new logger reads the offsets the old one wrote
    obtain ⟨l, hl, hm⟩ := construct_of_retrieve (hi.offsetsFile hs) uninit
    simp only [LogOp.call, hl]
    exact hi.congr rfl hm

/-- Every registered offset of the log file is in front of the record that was
logged, or compacted, for its predicate at that position, and no two registered
records share an offset. -/
structure KeepsRecords (ops : TreeOps T) (s : LogEnv μ × Records T) : Prop where
  decodes : ∀ p, List.Forall₂
    (fun off u => u.predicateId = p ∧
      (recoverSinglePredicateUpdate ops ((IStream.ofBytes s.1.logBytes).seekg off)).1 = .ok u.toPredicateUpdate)
    ((s.1.logger.offsetsMap.find? p).getD []) (s.2 p)
  distinct : ∀ p q l l', s.1.logger.offsetsMap.find? p = some l → s.1.logger.offsetsMap.find? q = some l' →
    ∀ (i j off : ℕ), l[i]? = some off → l'[j]? = some off → p = q ∧ i = j

theorem LogInv.keepsRecords {ops : TreeOps T} (hl : ops.Lawful) {s : LogEnv μ × Records T} (h : LogInv ops s) :
    KeepsRecords ops s := by
  refine ⟨fun p => (h.registered.logged p).imp ?_, ?_⟩
  · intro off u hu
    obtain ⟨s', h1, -⟩ := hu.recover hl (s := IStream.ofBytes s.1.logBytes) rfl rfl
    exact ⟨hu.predicate, by rw [h1]⟩
  · intro p q l l' hp hq i j off hi hj
    by_cases hpq : p = q
    · subst hpq
      rw [hp] at hq
      obtain rfl := Option.some.inj hq
      refine ⟨rfl, ?_⟩
      obtain ⟨hi', hie⟩ := List.getElem?_eq_some_iff.1 hi
      exact (h.registered.nodup p l hp).getElem_inj_iff.1 (hie.trans (List.getElem?_eq_some_iff.1 hj).2.symm)
    · exact absurd (List.mem_of_getElem? hj)
        (h.registered.disjoint p q l l' hpq hp hq (List.mem_of_getElem? hi))

/-- **No registered record is lost** in a run, from a logger with nothing registered,
whose every `log` finds the writer open or nothing registered, and whose every
construction finds offsets that fit their file. -/
theorem logRun_registered (hl : P.ops.Lawful) {d : Disk} {uninit : ℤ} {l : UpdatesLogger} (merger : μ)
    (hc : UpdatesLogger.construct d uninit = .ok l) (h0 : l.offsetsMap = ∅) (run : List (LogOp T μ))
    (hsafe : (logMachine P).Meets (fun s op => op.Safe s) run (⟨d, l, merger⟩, fun _ => []))
    {s : LogEnv μ × Records T} (hrun : (logMachine P).run run (⟨d, l, merger⟩, fun _ => []) = some s) :
    KeepsRecords P.ops s := by
  have hinit : LogInv P.ops ((⟨d, l, merger⟩ : LogEnv μ), (fun _ => [] : Records T)) := by
    refine ⟨?_, fun _ => ?_⟩
    · show Registered P.ops _ l.offsetsMap _
      rw [h0]
      exact registered_empty _ _
    · exact retrieve_of_construct hc
  exact ((Machine.invariant (fun s op s' hs h hi => logInv_step hl hs h hi) hsafe hrun hinit).keepsRecords hl)

open PointTree in
/-- Two batches and a compaction; no `log` comes after it. -/
theorem logRun_registered_compacted :
    ∃ s, (logMachine (params .binary)).run
        [.log [inserting 7 [(1, 1)]], .log [deleting 7 [(2, 2)], inserting 8 [(3, 3)]], .compactLogs]
        (freshEnv, fun _ => []) = some s ∧ KeepsRecords ops s := by
  have hc : UpdatesLogger.construct freshEnv.disk 0 = .ok freshEnv.logger := rfl
  obtain ⟨s, hs⟩ : ∃ s, (logMachine (params .binary)).run
      [.log [inserting 7 [(1, 1)]], .log [deleting 7 [(2, 2)], inserting 8 [(3, 3)]], .compactLogs]
      (freshEnv, fun _ => []) = some s := Option.isSome_iff_exists.1 (by decide)
  refine ⟨s, hs, logRun_registered (P := params .binary) ops_lawful () hc rfl _ ?_ hs⟩
  refine ⟨.inr rfl, fun s₁ h1 => ?_⟩
  obtain ⟨rfl, -⟩ := logMachine_step h1
  exact ⟨.inl rfl, fun _ _ => ⟨trivial, fun _ _ => trivial⟩⟩

open PointTree in
/-- **A `log` after a recovery empties the file**: both records of predicate 7 are
registered at offset 4. -/
theorem logRun_loses_record :
    ∃ s, (logMachine (params .binary)).run
        [.log [inserting 7 [(1, 1)]], .recoverPredicate 7, .log [inserting 7 [(2, 2)]]]
        (freshEnv, fun _ => []) = some s ∧
      s.1.logger.offsetsMap.find? 7 = some [4, 4] ∧ ¬ KeepsRecords ops s := by
  have hoff : ((logMachine (params .binary)).run
      [.log [inserting 7 [(1, 1)]], .recoverPredicate 7, .log [inserting 7 [(2, 2)]]] (freshEnv, fun _ => [])).map
      (fun s => s.1.logger.offsetsMap.find? 7) = some (some [4, 4]) := by decide
  obtain ⟨s, hs, ho⟩ := Option.map_eq_some_iff.1 hoff
  refine ⟨s, hs, ho, fun h => ?_⟩
  have := (h.distinct 7 7 [4, 4] [4, 4] ho ho 0 1 4 rfl rfl).2
  simp at this

end K2Cache
