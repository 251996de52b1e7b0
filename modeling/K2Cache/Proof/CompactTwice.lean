import K2Cache.Proof.LogRun

/-!
# Compacting twice

`compactLogs_fixed`: from every log that calls of `log` can leave, a compaction writes one
batch of one record for each predicate, in increasing order, registers each record where it
stands, and counts them; a second compaction writes the same files again.

The count is an `int`: `compactLogs_wraps` is a log of `2^31` predicates, of which the
compaction counts `-2^31`.
-/

namespace K2Cache

open Lib

variable {T μ : Type} {ops : TreeOps T} {P : LoggerParams T μ} {recs : Records T}

/-! ## Batches of one record -/

/-- The offsets a writer registers that writes batches of one record each. -/
theorem packRecord_eq {acc : OffsetsMap × Bytes} {u : K2TreeUpdates T} (hk : u.getKind ≠ .noUpdate) :
    packRecord ops acc u =
      (registerUpdateOffset acc.1 u.predicateId (acc.2.length + 4), acc.2 ++ batchBytes ops [u]) := by
  unfold packRecord
  rw [logBatch_bytes]
  simp [logBatch, logRecords, hk]

theorem packRecords_bytes (us : List (K2TreeUpdates T)) (acc : OffsetsMap × Bytes) :
    (us.foldl (packRecord ops) acc).2 = acc.2 ++ us.flatMap fun u => batchBytes ops [u] := by
  induction us generalizing acc with
  | nil => simp
  | cons u us ih => simp [ih, packRecord, logBatch_bytes]

/-- A predicate without a record keeps its offsets. -/
theorem packRecords_find?_other (ops : TreeOps T) {us : List (K2TreeUpdates T)} {p : UInt64} (hp : ∀ u ∈ us, u.predicateId ≠ p)
    (hk : ∀ u ∈ us, u.getKind ≠ .noUpdate) (acc : OffsetsMap × Bytes) :
    (us.foldl (packRecord ops) acc).1.find? p = acc.1.find? p := by
  induction us generalizing acc with
  | nil => rfl
  | cons u us ih =>
    have hu : p ≠ u.predicateId := Ne.symm (hp u List.mem_cons_self)
    rw [List.foldl_cons, ih (fun v hv => hp v (List.mem_cons_of_mem _ hv)) (fun v hv => hk v (List.mem_cons_of_mem _ hv)),
      packRecord_eq (hk u List.mem_cons_self), find?_registerUpdateOffset, if_neg hu]

/-- **Each record is registered where it stands**, behind the count of its batch. -/
theorem packRecords_find? {pre post : List (K2TreeUpdates T)} {u : K2TreeUpdates T}
    (hn : ((pre ++ u :: post).map K2TreeUpdates.predicateId).Nodup) (hk : ∀ v ∈ pre ++ u :: post, v.getKind ≠ .noUpdate) :
    ((pre ++ u :: post).foldl (packRecord ops) (∅, [])).1.find? u.predicateId =
      some [(pre.flatMap fun v => batchBytes ops [v]).length + 4] := by
  rw [List.map_append, List.map_cons, List.nodup_append] at hn
  obtain ⟨-, hpost, hpre⟩ := hn
  have hne : ∀ v ∈ post, v.predicateId ≠ u.predicateId := by
    intro v hv he
    exact (List.nodup_cons.1 hpost).1 (he ▸ List.mem_map_of_mem hv)
  have hne' : ∀ v ∈ pre, v.predicateId ≠ u.predicateId := by
    intro v hv
    exact hpre _ (List.mem_map_of_mem hv) _ List.mem_cons_self
  have hbefore := packRecords_find?_other ops hne' (fun v hv => hk v (List.mem_append_left _ hv)) (∅, [])
  rw [List.foldl_append, List.foldl_cons,
    packRecords_find?_other ops hne (fun v hv => hk v (List.mem_append_right _ (List.mem_cons_of_mem _ hv))),
    packRecord_eq (hk u (List.mem_append_right _ List.mem_cons_self)), find?_registerUpdateOffset, if_pos rfl, hbefore,
    packRecords_bytes]
  rfl

/-! ## One compaction -/

/-- **What a compaction leaves**: the log file is a batch of one record for each predicate that
had offsets, in increasing order, and the offsets point at these records. -/
structure OneRecordEach (ops : TreeOps T) (before after : LogEnv μ) (records : List (K2TreeUpdates T)) : Prop where
  predicates : records.map K2TreeUpdates.predicateId = before.logger.offsetsMap.keys
  increasing : (records.map K2TreeUpdates.predicateId).Pairwise (· < ·)
  kinds : ∀ u ∈ records, u.getKind ≠ .noUpdate
  log : after.logBytes = records.flatMap fun u => batchBytes ops [u]
  keys : after.logger.offsetsMap.keys = before.logger.offsetsMap.keys
  offsets : ∀ pre u post, records = pre ++ u :: post →
    after.logger.offsetsMap.find? u.predicateId = some [(pre.flatMap fun v => batchBytes ops [v]).length + 4]

/-- The log file, the offsets with their file, and the number of batches are the same. -/
structure SameFiles (e e' : LogEnv μ) : Prop where
  log : e'.disk (FileRWHandler.file .updateLog) = e.disk (FileRWHandler.file .updateLog)
  offsets : e'.logger.offsetsMap = e.logger.offsetsMap
  offsetsFile : e'.disk (FileRWHandler.file .updateLogOffsets) = e.disk (FileRWHandler.file .updateLogOffsets)
  logsNumber : e'.logger.logsNumber = e.logger.logsNumber

/-- The files after the three syncs. -/
theorem commitCompaction_files (new : OffsetsMap) {e : LogEnv μ} {bs : Bytes}
    (hbs : e.disk (FileRWHandler.tmp .updateLog) = some bs) :
    (LogEnv.commitCompaction new (LogEnv.closeStreams e)).disk (FileRWHandler.file .updateLog) = some bs ∧
      (LogEnv.commitCompaction new (LogEnv.closeStreams e)).disk (FileRWHandler.file .updateLogOffsets) =
        some (dumpOffsetsMap new) := by
  constructor
  · show FileRWHandler.commitTempWriter _ .updateLog (FileRWHandler.file .updateLog) = _
    apply FileRWHandler.commitTempWriter_file
    rw [FileRWHandler.replaceFile_other (by decide), FileRWHandler.replaceFile_other (by decide)]
    exact hbs
  · show FileRWHandler.commitTempWriter _ .updateLog (FileRWHandler.file .updateLogOffsets) = _
    rw [FileRWHandler.commitTempWriter_other (by decide), FileRWHandler.replaceFile_other (by decide)]
    exact FileRWHandler.replaceFile_file _ .updateLogOffsets .binary rfl _

/-- The number of batches; the kernel would unfold the arithmetic of `int` here. -/
theorem logsNumber_mk (w : Bool) (r : Option IStream) (ms : MetaStream) (m : OffsetsMap) (n : ℤ) :
    (⟨w, r, ms, m, n⟩ : UpdatesLogger).logsNumber = n := rfl

theorem commitCompaction_logsNumber (new : OffsetsMap) (e : LogEnv μ) :
    (LogEnv.commitCompaction new e).logger.logsNumber = wrapInt new.size := by
  have h : (LogEnv.commitCompaction new e).logger = ⟨e.logger.writerOpen, e.logger.reader,
      { e.logger.metadataFileRw with bound := false }, new, wrapInt new.size⟩ := rfl
  rw [h]
  exact logsNumber_mk _ _ _ _ _

/-- The compacted records, one for each registered predicate. -/
def compactedRecords (ops : TreeOps T) (recs : Records T) (m : OffsetsMap) : List (K2TreeUpdates T) :=
  m.keys.map (recs.compacted ops)

variable {data : Bytes} {m : OffsetsMap}

theorem compactedRecords_predicates (h : Registered ops data m recs) :
    (compactedRecords ops recs m).map K2TreeUpdates.predicateId = m.keys := by
  rw [compactedRecords, List.map_map]
  conv_rhs => rw [← List.map_id m.keys]
  exact List.map_congr_left fun p _ => compacted_predicateId (h.predicate p)

theorem compactedRecords_kinds (h : Registered ops data m recs) : ∀ u ∈ compactedRecords ops recs m, u.getKind ≠ .noUpdate := by
  intro u hu
  obtain ⟨p, hp, rfl⟩ := List.mem_map.1 hu
  obtain ⟨l, hm⟩ := (OrdMap.mem_keys _).1 hp
  cases hr : recs p with
  | nil => simp [h.find?_eq_none.2 hr] at hm
  | cons v vs =>
    -- the record of a registered predicate has the kind of its first one
    have hlog := h.logged p
    rw [hm, Option.getD_some, hr] at hlog
    rw [compacted_kind hr]
    cases hlog with
    | cons hv _ => exact hv.kind

/-- **One compaction**, of a log whose offsets stand for its records. -/
theorem compactLogs_oneRecordEach (hl : P.ops.Lawful) {e : LogEnv μ} (h : Registered P.ops e.logBytes e.logger.offsetsMap recs) :
    ∃ e', LogEnv.compactLogs P e = (.ok (), e') ∧
      Registered P.ops e'.logBytes e'.logger.offsetsMap (recs.compact P.ops) ∧
      OneRecordEach P.ops e e' (compactedRecords P.ops recs e.logger.offsetsMap) ∧
      (e'.logger.offsetsMap, e'.logBytes) =
        (compactedRecords P.ops recs e.logger.offsetsMap).foldl (packRecord P.ops) (∅, []) ∧
      e'.disk (FileRWHandler.file .updateLog) = some e'.logBytes ∧
      e'.disk (FileRWHandler.file .updateLogOffsets) = some (dumpOffsetsMap e'.logger.offsetsMap) ∧
      e'.logger.logsNumber = wrapInt e.logger.offsetsMap.keys.length := by
  obtain ⟨new, bs, e₂, hrun, htmp, hreg, -, hbytes, hpack⟩ := compactLogs_run hl h
  set e' := LogEnv.commitCompaction new (LogEnv.closeStreams e₂) with he'
  obtain ⟨hlog, hoffsets⟩ := commitCompaction_files new htmp
  have hbs : e'.logBytes = bs := by
    rw [LogEnv.logBytes, Disk.bytes, hlog]
    rfl
  have hids := compactedRecords_predicates h
  have hkinds := compactedRecords_kinds h
  have hnew : new = ((compactedRecords P.ops recs e.logger.offsetsMap).foldl (packRecord P.ops) (∅, [])).1 :=
    congrArg Prod.fst hpack
  -- the predicates with a record are those that had offsets
  have hkeys : new.keys = e.logger.offsetsMap.keys := by
    have hanti : ∀ a b : UInt64, a ∈ new.keys → b ∈ e.logger.offsetsMap.keys → a < b → b < a → a = b :=
      fun a b _ _ hab hba => (lt_asymm hab hba).elim
    refine List.Perm.eq_of_pairwise hanti new.keys_sorted e.logger.offsetsMap.keys_sorted
      ((List.perm_ext_iff_of_nodup new.keys_nodup e.logger.offsetsMap.keys_nodup).2 fun p => ?_)
    rw [OrdMap.mem_keys, OrdMap.mem_keys, ← Option.ne_none_iff_exists', ← Option.ne_none_iff_exists', ne_eq, ne_eq,
      hreg.find?_eq_none, h.find?_eq_none]
    unfold Records.compact
    split <;> simp_all
  refine ⟨e', hrun, hbs ▸ hreg, ⟨hids, ?_, hkinds, ?_, hkeys, ?_⟩, hbs ▸ hpack, hbs ▸ hlog, hoffsets, ?_⟩
  · rw [hids]
    exact OrdMap.keys_sorted _
  · rw [hbs, hbytes, compactedRecords, List.flatMap_map]
  · intro pre u post hsplit
    show new.find? u.predicateId = _
    rw [hnew, hsplit]
    refine packRecords_find? ?_ (hsplit ▸ hkinds)
    rw [← hsplit, hids]
    exact OrdMap.keys_nodup _
  · rw [he', commitCompaction_logsNumber, ← hkeys, OrdMap.keys, List.length_map, OrdMap.size]

/-- The compacted record of one record is that record. -/
theorem compacted_compact (h : Registered ops data m recs) {p : UInt64} (hp : p ∈ m.keys) :
    (recs.compact ops).compacted ops p = recs.compacted ops p := by
  obtain ⟨l, hm⟩ := (OrdMap.mem_keys _).1 hp
  have hr : recs p ≠ [] := by
    intro hr
    simp [h.find?_eq_none.2 hr] at hm
  have hc : recs.compact ops p = [recs.compacted ops p] := if_neg hr
  rw [Records.compacted, hc]
  rfl

/-! ## After calls of log -/

/-- The log after calls of `log`: the offsets stand for the records of all batches. -/
theorem logAll_registered (batches : List (List (K2TreeUpdates T))) {e : LogEnv μ} (h : LogInv P.ops (e, recs))
    (hs : e.logger.writerOpen = true ∨ e.logger.offsetsMap = ∅) :
    LogInv P.ops (LogEnv.logAll P batches e, recs.pushAll batches.flatten) := by
  induction batches generalizing e recs with
  | nil => simpa [LogEnv.logAll, Records.pushAll] using h
  | cons us batches ih =>
    have h1 := ih (logInv_log_safe us h hs) (.inl (log_writerOpen us e))
    have hpush : recs.pushAll (us :: batches).flatten = (recs.pushAll us).pushAll batches.flatten := by
      funext p
      simp only [Records.pushAll_apply, List.flatten_cons, List.filter_append, List.append_assoc]
    rw [hpush]
    exact h1

theorem logInv_construct (ops : TreeOps T) {d : Disk} {uninit : ℤ} {l : UpdatesLogger} (merger : μ)
    (hc : UpdatesLogger.construct d uninit = .ok l) (h0 : l.offsetsMap = ∅) :
    LogInv ops ((⟨d, l, merger⟩ : LogEnv μ), (fun _ => [] : Records T)) := by
  refine ⟨?_, fun _ => retrieve_of_construct hc⟩
  show Registered ops _ l.offsetsMap _
  rw [h0]
  exact registered_empty _ _

/-- **Compaction is idempotent**: after any calls of `log`, it leaves one record per
predicate, and a second one leaves the log file, the offsets and their number as they are. -/
theorem compactLogs_fixed (hl : P.ops.Lawful) {d : Disk} {uninit : ℤ} {l : UpdatesLogger} (merger : μ)
    (hc : UpdatesLogger.construct d uninit = .ok l) (h0 : l.offsetsMap = ∅) (batches : List (List (K2TreeUpdates T))) :
    ∃ e₁ e₂ records, LogEnv.compactLogs P (LogEnv.logAll P batches ⟨d, l, merger⟩) = (.ok (), e₁) ∧
      OneRecordEach P.ops (LogEnv.logAll P batches ⟨d, l, merger⟩) e₁ records ∧
      e₁.logger.logsNumber = wrapInt records.length ∧
      LogEnv.compactLogs P e₁ = (.ok (), e₂) ∧ SameFiles e₁ e₂ := by
  have h := (logAll_registered batches (logInv_construct P.ops merger hc h0) (.inr h0)).registered
  obtain ⟨e₁, hrun₁, hreg₁, hone₁, hpack₁, hlog₁, hfile₁, hnum₁⟩ := compactLogs_oneRecordEach hl h
  obtain ⟨e₂, hrun₂, -, hone₂, hpack₂, hlog₂, hfile₂, hnum₂⟩ := compactLogs_oneRecordEach hl hreg₁
  -- the second compaction packs the same records
  have hsame : (e₂.logger.offsetsMap, e₂.logBytes) = (e₁.logger.offsetsMap, e₁.logBytes) := by
    rw [hpack₂, hpack₁, compactedRecords, compactedRecords, hone₁.keys]
    congr 1
    exact List.map_congr_left fun p hp => compacted_compact h hp
  obtain ⟨hoffsets, hbytes⟩ := Prod.ext_iff.1 hsame
  simp only at hoffsets hbytes
  refine ⟨e₁, e₂, _, hrun₁, hone₁, ?_, hrun₂, ⟨by rw [hlog₂, hlog₁, hbytes], hoffsets, by rw [hfile₂, hfile₁, hoffsets], ?_⟩⟩
  · rw [hnum₁, compactedRecords, List.length_map]
  · rw [hnum₂, hnum₁, hone₁.keys]

open PointTree in
/-- Three records of two predicates. -/
theorem compactLogs_fixed_two :
    ∃ e₁ e₂ records, LogEnv.compactLogs (params .binary)
        (LogEnv.logAll (params .binary) [[inserting 8 [(1, 1)]], [deleting 7 [(2, 2)], inserting 8 [(3, 3)]]] freshEnv) = (.ok (), e₁) ∧
      OneRecordEach PointTree.ops (LogEnv.logAll (params .binary) [[inserting 8 [(1, 1)]], [deleting 7 [(2, 2)], inserting 8 [(3, 3)]]] freshEnv)
        e₁ records ∧
      e₁.logger.logsNumber = wrapInt records.length ∧
      LogEnv.compactLogs (params .binary) e₁ = (.ok (), e₂) ∧ SameFiles e₁ e₂ := by
  have hc : UpdatesLogger.construct freshEnv.disk 0 = .ok freshEnv.logger := rfl
  exact compactLogs_fixed (P := params .binary) ops_lawful () hc rfl
    [[inserting 8 [(1, 1)]], [deleting 7 [(2, 2)], inserting 8 [(3, 3)]]]

/-! ## The count of the batches -/

/-- Updates of different predicates register one predicate each. -/
theorem keys_length_of_distinct {us : List (K2TreeUpdates T)} (h : Registered ops data m (Records.pushAll (fun _ => []) us))
    (hn : (us.map K2TreeUpdates.predicateId).Nodup) (hk : ∀ u ∈ us, u.getKind ≠ .noUpdate) : m.keys.length = us.length := by
  have hperm : m.keys.Perm (us.map K2TreeUpdates.predicateId) := by
    refine (List.perm_ext_iff_of_nodup m.keys_nodup hn).2 fun p => ?_
    rw [OrdMap.mem_keys, ← Option.ne_none_iff_exists', ne_eq, h.find?_eq_none, Records.pushAll_apply, List.nil_append,
      List.filter_eq_nil_iff, List.mem_map]
    constructor
    · intro hne
      by_contra hnot
      refine hne fun u hu hup => hnot ⟨u, hu, ?_⟩
      exact (of_decide_eq_true hup).2
    · rintro ⟨u, hu, rfl⟩ hnone
      exact hnone u hu (decide_eq_true ⟨hk u hu, rfl⟩)
  rw [hperm.length_eq, List.length_map]

/-- The count after one batch of updates of different predicates, and a compaction. -/
theorem compactLogs_count (hl : P.ops.Lawful) {d : Disk} {uninit : ℤ} {l : UpdatesLogger} (merger : μ)
    (hc : UpdatesLogger.construct d uninit = .ok l) (h0 : l.offsetsMap = ∅) {us : List (K2TreeUpdates T)}
    (hn : (us.map K2TreeUpdates.predicateId).Nodup) (hk : ∀ u ∈ us, u.getKind ≠ .noUpdate) :
    ∃ e₁, LogEnv.compactLogs P (LogEnv.logAll P [us] ⟨d, l, merger⟩) = (.ok (), e₁) ∧
      (LogEnv.logAll P [us] ⟨d, l, merger⟩).logger.offsetsMap.keys.length = us.length ∧
      e₁.logger.logsNumber = wrapInt us.length := by
  have h := (logAll_registered [us] (logInv_construct P.ops merger hc h0) (.inr h0)).registered
  obtain ⟨e₁, hrun, -, -, -, -, -, hnum⟩ := compactLogs_oneRecordEach hl h
  rw [List.flatten_singleton] at h
  have hlen := keys_length_of_distinct h hn hk
  exact ⟨e₁, hrun, hlen, hlen ▸ hnum⟩

open PointTree in
/-- An update for each of the first predicates. -/
def manyPredicates (n : ℕ) : List (K2TreeUpdates PointTree) := (List.range n).map fun p => inserting (UInt64.ofNat p) [(1, 1)]

theorem manyPredicates_nodup {n : ℕ} (hn : n ≤ 2 ^ 64) : ((manyPredicates n).map K2TreeUpdates.predicateId).Nodup := by
  rw [manyPredicates, List.map_map]
  refine (List.nodup_map_iff_inj_on List.nodup_range).2 fun a ha b hb hab => ?_
  rw [List.mem_range] at ha hb
  have hab' : (UInt64.ofNat a).toNat = (UInt64.ofNat b).toNat := congrArg UInt64.toNat hab
  rwa [UInt64.toNat_ofNat_of_lt' (by rw [UInt64.size]; omega), UInt64.toNat_ofNat_of_lt' (by rw [UInt64.size]; omega)] at hab'

theorem manyPredicates_kinds (n : ℕ) : ∀ u ∈ manyPredicates n, u.getKind ≠ .noUpdate := by
  intro u hu
  obtain ⟨p, -, rfl⟩ := List.mem_map.1 hu
  simp [PointTree.inserting, K2TreeUpdates.getKind]

open PointTree in
/-- **The count of many predicates wraps**: there are `2 ^ 31` predicates with a batch, and
`logs_number` is negative. -/
theorem compactLogs_wraps :
    ∃ e₁, LogEnv.compactLogs (params .binary) (LogEnv.logAll (params .binary) [manyPredicates (2 ^ 31)] freshEnv) = (.ok (), e₁) ∧
      (LogEnv.logAll (params .binary) [manyPredicates (2 ^ 31)] freshEnv).logger.offsetsMap.keys.length = 2 ^ 31 ∧
      e₁.logger.logsNumber = -2 ^ 31 := by
  have hc : UpdatesLogger.construct freshEnv.disk 0 = .ok freshEnv.logger := rfl
  obtain ⟨e₁, hrun, hlen, hnum⟩ := compactLogs_count (P := params .binary) ops_lawful () hc rfl
    (manyPredicates_nodup (n := 2 ^ 31) (by norm_num)) (manyPredicates_kinds _)
  have hmany : (manyPredicates (2 ^ 31)).length = 2 ^ 31 := by rw [manyPredicates, List.length_map, List.length_range]
  refine ⟨e₁, hrun, hlen.trans hmany, ?_⟩
  rw [hnum, hmany]
  norm_num [wrapInt, Int.bmod]

end K2Cache
