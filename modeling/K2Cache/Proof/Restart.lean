import K2Cache.Proof.LoggedFiles
import K2Cache.Proof.Refine

/-!
# Creating a manager on the files of an earlier one

`PCMFactory::create` builds the logger, which reads the batch counter and the offsets,
and the manager, whose constructor replays the log through a wrapper without a
reference: the first record of the log makes it throw. The counter file is opened for
reading and writing and never made, so without one the counter is whatever the memory
held.

`restartRecovers_iff`: from an empty log, a restart recovers a run of `log` calls
exactly if there was a counter file and no call logged an update.
-/

namespace K2Cache

open Lib

variable {T : Type}

/-! ## The files after a run of log calls -/

/-- A manager that has logged these batches and done nothing else. -/
structure HasLogged (P : CacheParams T) (d : Disk) (bs : List (List (K2TreeUpdates T))) (s : Manager T) : Prop where
  files : LoggedFiles P.logger bs s
  index : s.disk (FileRWHandler.file .index) = d (FileRWHandler.file .index)
  refSet : s.merger.refSet = true
  noCounter : d (FileRWHandler.file .updateLogMeta) = none →
    s.disk (FileRWHandler.file .updateLogMeta) = none ∧ s.logger.metadataFileRw.fail = true
  counter : d (FileRWHandler.file .updateLogMeta) = some (u32Bytes 0) → CounterAt s bs.length

variable {P : CacheParams T} {d : Disk} {bs : List (List (K2TreeUpdates T))} {s : Manager T}

/-- **One more batch.** -/
theorem HasLogged.log (hl : P.ops.Lawful) (h : HasLogged P d bs s) (us : List (K2TreeUpdates T)) :
    ∃ s', LogEnv.log P.logger us s = (.ok (), s') ∧ HasLogged P d (bs ++ [us]) s' := by
  obtain ⟨x', h1, -⟩ := Index.mergeUpdate_spec hl s.index us
  obtain ⟨s', hrun, hfiles, hstep⟩ := h.files.log (Manager.mergeUpdate_forward h.refSet h1)
  refine ⟨s', hrun, hfiles, ?_, ?_, fun hn => ?_, fun hc => ?_⟩
  · rw [hstep.other _ (by decide) (by decide) (by decide)]
    exact h.index
  · rw [hstep.merger]
    exact h.refSet
  · obtain ⟨h2, h3⟩ := h.noCounter hn
    obtain ⟨h4, h5⟩ := hstep.failed h3
    exact ⟨h4.trans h2, h5⟩
  · rw [List.length_append, List.length_singleton]
    exact hstep.counter _ (h.counter hc)

/-- **A run of `log` calls.** -/
theorem HasLogged.run (hl : P.ops.Lawful) (h : HasLogged P d bs s) (more : List (List (K2TreeUpdates T))) :
    ∃ s', (cacheMachine P).run (more.map .log) s = some s' ∧ HasLogged P d (bs ++ more) s' := by
  induction more generalizing bs s with
  | nil => exact ⟨s, rfl, by simpa using h⟩
  | cons us more ih =>
    obtain ⟨s₁, h1, h2⟩ := h.log hl us
    obtain ⟨s', h3, h4⟩ := ih h2
    refine ⟨s', ?_, by simpa using h4⟩
    have hstep : (cacheMachine P).step s (.log us) = some s₁ := by
      simp [cacheMachine, CacheOp.call, h1]
    rw [List.map_cons, Machine.run, hstep]
    exact h3

/-! ## The start -/

/-- The counter file is missing, or says that nothing was logged. -/
def EmptyCounter (d : Disk) : Prop :=
  d (FileRWHandler.file .updateLogMeta) = none ∨ d (FileRWHandler.file .updateLogMeta) = some (u32Bytes 0)

/-- A manager created on an empty log. -/
theorem create_hasLogged (hl : P.ops.Lawful) (hd : FreshLog P.ops d) (uninit : ℤ) :
    ∃ s, Manager.create P d uninit = .ok s ∧ HasLogged P d [] s ∧
      CacheInv P (initialStore P.ops d) s (fun _ => []) := by
  obtain ⟨l, s, hc, hs, rfl, hinv⟩ := create_spec hl hd uninit
  have hempty : d.bytes (FileRWHandler.file .updateLog) = [] := by
    rw [Disk.bytes, hd.noLog]
    rfl
  have hret := retrieve_of_construct hc
  have hoffsets : l.offsetsMap = ∅ := OrdMap.ext_find? fun p => (hinv.log.registered.find?_eq_none.2 rfl).trans (by simp)
  have hreader : l.reader = none := (construct_streams hc).1
  refine ⟨_, hs, ⟨⟨Prod.ext hoffsets hempty, hreader, fun h => absurd rfl h, fun _ => hret⟩, rfl, rfl,
    fun hn => ⟨hn, ((construct_counter hc).1 hn).1⟩, fun hz => ?_⟩, hinv⟩
  obtain ⟨h1, h2, h3⟩ := CounterAt.start () hc hz
  exact ⟨h1, h2, h3⟩

/-! ## Replaying at construction -/

section Replay

variable {μ : Type} {L : LoggerParams T μ}

/-- Batches without records are passed over. -/
theorem recoverUpdates_zeros {e : LogEnv μ} {r : IStream} (hr : e.logger.reader = some r) (i k : ℕ) {rest : Bytes}
    (h : r.Ahead ((List.replicate i (u32Bytes 0)).flatten ++ rest)) :
    ∃ e', e'.logger.reader = some (r.skip (4 * i)) ∧ e' = e.setReader (r.skip (4 * i)) ∧
      LogEnv.recoverUpdates L (i + k) e = LogEnv.recoverUpdates L k e' := by
  induction i generalizing e r with
  | zero =>
    refine ⟨e, by simpa using hr, ?_, by rw [Nat.zero_add]⟩
    simp only [Nat.mul_zero, IStream.skip_zero, LogEnv.setReader, ← hr]
  | succ i ih =>
    rw [List.replicate_succ, List.flatten_cons, List.append_assoc] at h
    have hread := IStream.reads_readU32 0 r h.left
    have hnext := h.right
    rw [u32Bytes_length] at hread hnext
    -- the count is zero, so the next batch follows
    have hone : LogEnv.recoverSingleUpdate L e = (.ok (), e.setReader (r.skip 4)) := by
      have hcur : e.currentReader = r := by rw [LogEnv.currentReader, hr, Option.getD_some]
      have hw : LogEnv.withReader (fun s => (.ok s.readU32.1, s.readU32.2)) e =
          (.ok (0 : UInt32), e.setReader (r.skip 4)) := by
        rw [LogEnv.withReader_run, hcur, hread]
      rw [LogEnv.recoverSingleUpdate, Act.bind_ok hw]
      rfl
    obtain ⟨e', h1, h2, h3⟩ := ih (e := e.setReader (r.skip 4)) rfl hnext
    refine ⟨e', ?_, ?_, ?_⟩
    · rw [h1, IStream.skip_skip, Nat.mul_succ, Nat.add_comm]
    · rw [h2, LogEnv.setReader_setReader, IStream.skip_skip, Nat.mul_succ, Nat.add_comm]
    · rw [show i + 1 + k = (i + k) + 1 by omega, LogEnv.recoverUpdates, Act.bind_ok hone, h3]

end Replay

/-- What the wrapper throws before its reference is set. -/
def noRef : Exn := .noRefException "wrapper doesn't have ref set: on PCMMergerWrapper"

/-- **A record replayed without a reference** makes the replay throw. -/
theorem mergeUpdate_noRef (hs : s.merger.refSet = false) {u : K2TreeUpdates T} (hk : u.getKind ≠ .noUpdate) :
    ∃ s', LogEnv.mergeUpdate P.logger u.toPredicateUpdate s = (.error noRef, s') := by
  obtain ⟨p, a, dl⟩ := u
  have hforward : ∀ y : Act Exn (Index T) Unit,
      LogEnv.onMerger (PCMMergerWrapper.forward y) s = (.error noRef, s) := by
    intro y
    have hcheck : PCMMergerWrapper.noRefCheck s.merger = (.error noRef, s.merger) := by
      simp [PCMMergerWrapper.noRefCheck, hs, noRef]
    simp only [LogEnv.onMerger, Act.focus, PCMMergerWrapper.forward]
    rw [Act.bind_error hcheck]
  cases a with
  | some a => exact ⟨s, Act.bind_error (hforward _)⟩
  | none =>
    cases dl with
    | some dl => exact ⟨s, hforward _⟩
    | none => simp [K2TreeUpdates.getKind] at hk

/-- A batch with a record throws, whatever comes before it is empty. -/
theorem recoverUpdates_noRef (hl : P.ops.Lawful) {r : IStream} (hr : s.logger.reader = some r)
    (hs : s.merger.refSet = false) {i k : ℕ} {us : List (K2TreeUpdates T)} (hne : us ≠ [])
    (hlen : us.length < 2 ^ 32) (hk : ∀ u ∈ us, u.getKind ≠ .noUpdate) {rest : Bytes}
    (h : r.Ahead ((List.replicate i (u32Bytes 0)).flatten ++ (batchBytes P.ops us ++ rest))) :
    ∃ s', LogEnv.recoverUpdates P.logger (i + (k + 1)) s = (.error noRef, s') := by
  obtain ⟨e, he, hes, hrun⟩ := recoverUpdates_zeros (L := P.logger) hr i (k + 1) h
  have hz : ((List.replicate i (u32Bytes 0)).flatten).length = 4 * i := by
    simp [List.length_flatten, Nat.mul_comm]
  -- the reader stands in front of the batch
  have hb := h.right
  rw [hz] at hb
  obtain ⟨u, us, rfl⟩ := List.exists_cons_of_ne_nil hne
  have hbatch : batchBytes P.ops (u :: us) = u32Bytes (UInt32.ofNat (us.length + 1)) ++ (recordBytes P.ops u ++
      (us.filter (fun u => u.getKind ≠ .noUpdate)).flatMap (recordBytes P.ops)) := by
    simp [batchBytes, hk u List.mem_cons_self]
  rw [hbatch, List.append_assoc, List.append_assoc] at hb
  have hcount := IStream.reads_readU32 _ _ hb.left
  have hrec := recoverSinglePredicateUpdate_reads hl u (hk u List.mem_cons_self) _ hb.right.left
  have hcur : e.currentReader = r.skip (4 * i) := by rw [LogEnv.currentReader, he, Option.getD_some]
  have hn : (UInt32.ofNat (us.length + 1)).toNat = us.length + 1 :=
    UInt32.toNat_ofNat_of_lt' (by rw [UInt32.size]; simpa using hlen)
  set r₁ := (r.skip (4 * i)).skip (u32Bytes (UInt32.ofNat (us.length + 1))).length with hr₁
  have h1 : LogEnv.withReader (fun s => (.ok s.readU32.1, s.readU32.2)) e =
      (.ok (UInt32.ofNat (us.length + 1)), e.setReader r₁) := by
    rw [LogEnv.withReader_run, hcur, hcount]
  have h2 : LogEnv.withReader (recoverSinglePredicateUpdate P.ops) (e.setReader r₁) =
      (.ok u.toPredicateUpdate, e.setReader (r₁.skip (recordBytes P.ops u).length)) := by
    rw [LogEnv.withReader_run, LogEnv.setReader_currentReader, hrec]
    rfl
  have hs' : (e.setReader (r₁.skip (recordBytes P.ops u).length)).merger.refSet = false := by
    rw [hes]
    exact hs
  obtain ⟨s', h3⟩ := mergeUpdate_noRef (P := P) hs' (hk u List.mem_cons_self)
  refine ⟨s', ?_⟩
  have hrecs : LogEnv.recoverRecords P.logger (us.length + 1) (e.setReader r₁) = (.error noRef, s') := by
    rw [LogEnv.recoverRecords]
    exact (Act.bind_ok h2).trans (Act.bind_error h3)
  have hsingle : LogEnv.recoverSingleUpdate P.logger e = (.error noRef, s') := by
    rw [LogEnv.recoverSingleUpdate, Act.bind_ok h1, hn]
    exact hrecs
  rw [hrun, LogEnv.recoverUpdates, Act.bind_error hsingle]

/-! ## The restart -/

/-- The two managers serve the same points. -/
def SameFetch (P : CacheParams T) (s s' : Manager T) : Prop :=
  ∀ p, ∃ r₀ r₁ s₀ s₁, Manager.fetchK2tree P p s = (.ok r₀, s₀) ∧ Manager.fetchK2tree P p s' = (.ok r₁, s₁) ∧
    r₀.doesExist = r₁.doesExist ∧ r₀.result.map P.ops.points = r₁.result.map P.ops.points

/-- **A restart recovers the batches**: on the files a run of `log` calls leaves, whatever
values uninitialised memory has, `create` returns, with the offsets and the number of
batches of the manager that stopped, and serves the same points. -/
def RestartRecovers (P : CacheParams T) (d : Disk) (batches : List (List (K2TreeUpdates T))) : Prop :=
  ∀ uninit₀ uninit₁ s₀ s, Manager.create P d uninit₀ = .ok s₀ →
    (cacheMachine P).run (batches.map .log) s₀ = some s →
    ∃ s', Manager.create P s.disk uninit₁ = .ok s' ∧ s'.logger.offsetsMap = s.logger.offsetsMap ∧
      s'.logger.logsNumber = s.logger.logsNumber ∧ SameFetch P s s'

/-- The constructor of the manager replays the log from its start. -/
theorem construct_run {d : Disk} {uninit : ℤ} {l : UpdatesLogger} (hc : UpdatesLogger.construct d uninit = .ok l)
    (hx : FileRWHandler.fileExists d .updateLog = true) (x : Index T) :
    ∃ s : Manager T, s.logger.reader = some (.ofBytes (d.bytes (FileRWHandler.file .updateLog))) ∧
      s.disk = d ∧ s.logger.offsetsMap = l.offsetsMap ∧ s.logger.totalUpdates = l.totalUpdates ∧
      s.merger = ⟨false, x.setUpdateLogger⟩ ∧
      Manager.construct P d l x = LogEnv.recoverUpdates P.logger l.totalUpdates.toNat s := by
  obtain ⟨hr, hw⟩ := construct_streams hc
  have hreader : FileRWHandler.getReader d .updateLog = .ofBytes (d.bytes (FileRWHandler.file .updateLog)) := by
    unfold FileRWHandler.fileExists at hx
    unfold FileRWHandler.getReader Disk.bytes
    cases hd : d (FileRWHandler.file .updateLog) with
    | none => simp [hd] at hx
    | some bs => rfl
  refine ⟨LogEnv.openReader (LogEnv.closeWriter ⟨d, l, ⟨false, x.setUpdateLogger⟩⟩), ?_, rfl, rfl, rfl, rfl, ?_⟩
  · simp [LogEnv.openReader, LogEnv.closeWriter, hr, hreader]
  · simp [Manager.construct, LogEnv.recoverAll, LogEnv.closeWriter, hx]

/-- Without a counter file the number of batches is lost. -/
theorem not_restartRecovers_of_noCounter (hl : P.ops.Lawful) (hd : FreshLog P.ops d)
    (hn : d (FileRWHandler.file .updateLogMeta) = none) (batches : List (List (K2TreeUpdates T))) :
    ¬ RestartRecovers P d batches := by
  intro h
  obtain ⟨s₀, hs₀, h0, -⟩ := create_hasLogged hl hd 0
  obtain ⟨s, hrun, hs⟩ := h0.run hl batches
  -- memory that holds another number
  set other : ℤ := if s.logger.totalUpdates = 0 then 1 else 0 with hother
  have hne : other ≠ s.logger.totalUpdates := by
    rw [hother]
    split
    · omega
    · omega
  obtain ⟨s', hc, -, hlogs, -⟩ := h 0 other s₀ s hs₀ hrun
  apply hne
  rw [UpdatesLogger.logsNumber, UpdatesLogger.logsNumber] at hlogs
  rw [← hlogs]
  -- the new counter is that memory
  unfold Manager.create at hc
  cases hcon : UpdatesLogger.construct s.disk other with
  | error e => simp [hcon] at hc
  | ok l =>
    have hl' := ((construct_counter hcon).1 (hs.noCounter hn).1).2
    have hkeep := keeps_recoverAll P.logger (⟨s.disk, l, ⟨false, (Index.construct s.disk).setUpdateLogger⟩⟩ : Manager T)
      (LogEnv.SameLog.refl _)
    simp only [hcon] at hc
    split at hc
    · rename_i s₁ hs₁
      rw [← Manager.construct, hs₁] at hkeep
      rw [← Except.ok.inj hc]
      exact (hkeep.total.trans hl').symm
    · simp at hc

/-- The batches before the first one with an update. -/
theorem exists_first_update {α : Type} {batches : List (List α)} (h : ∃ us ∈ batches, us ≠ []) :
    ∃ i us more, batches = List.replicate i [] ++ us :: more ∧ us ≠ [] := by
  induction batches with
  | nil => simp at h
  | cons us batches ih =>
    by_cases hus : us = []
    · obtain ⟨us', hmem, hne⟩ := h
      have htail : us' ∈ batches := by
        rcases List.mem_cons.1 hmem with rfl | h'
        · exact absurd hus hne
        · exact h'
      obtain ⟨i, vs, more, hsplit, hvs⟩ := ih ⟨us', htail, hne⟩
      exact ⟨i + 1, vs, more, by rw [hus, hsplit, List.replicate_succ, List.cons_append], hvs⟩
    · exact ⟨0, us, batches, rfl, hus⟩

/-- A logged update makes the constructor throw. -/
theorem not_restartRecovers_of_update (hl : P.ops.Lawful) (hd : FreshLog P.ops d)
    (hz : d (FileRWHandler.file .updateLogMeta) = some (u32Bytes 0)) (batches : List (List (K2TreeUpdates T)))
    (hnum : batches.length < 2 ^ 31)
    (hb : ∀ us ∈ batches, us.length < 2 ^ 32 ∧ ∀ u ∈ us, u.getKind ≠ .noUpdate) (hne : ∃ us ∈ batches, us ≠ []) :
    ¬ RestartRecovers P d batches := by
  intro h
  obtain ⟨s₀, hs₀, h0, -⟩ := create_hasLogged hl hd 0
  obtain ⟨s, hrun, hs⟩ := h0.run hl batches
  rw [List.nil_append] at hs
  obtain ⟨s', hc, -⟩ := h 0 0 s₀ s hs₀ hrun
  -- the first batch with an update
  obtain ⟨i, us, more, hsplit, hus⟩ := exists_first_update hne
  unfold Manager.create at hc
  cases hcon : UpdatesLogger.construct s.disk 0 with
  | error e => simp [hcon] at hc
  | ok l =>
    have hcount := hs.counter hz
    have htotal : l.totalUpdates = batches.length := by
      rw [hcount.construct hcon, hcount.total, wrapInt_of_lt hnum]
    have hlog : s.disk.bytes (FileRWHandler.file .updateLog) =
        (List.replicate i (u32Bytes 0)).flatten ++ (batchBytes P.ops us ++ more.flatMap (batchBytes P.ops)) := by
      have := hs.files.bytes
      rw [hsplit] at this
      rw [← LogEnv.logBytes, this]
      simp [batchBytes, List.flatMap_replicate, CacheParams.logger]
    have hmem : us ∈ batches := by rw [hsplit]; simp
    obtain ⟨e, he, -, -, -, hmerger, hreplay⟩ := construct_run (P := P) hcon
      (hs.files.writer (by rintro rfl; simp at hmem)).2 (Index.construct s.disk)
    have hlen : l.totalUpdates.toNat = i + (more.length + 1) := by
      rw [htotal, Int.toNat_natCast, hsplit]
      simp
    have hahead : (IStream.ofBytes (s.disk.bytes (FileRWHandler.file .updateLog))).Ahead
        ((List.replicate i (u32Bytes 0)).flatten ++ (batchBytes P.ops us ++ more.flatMap (batchBytes P.ops))) := by
      rw [hlog]
      exact ⟨rfl, List.prefix_rfl⟩
    obtain ⟨s₁, hthrow⟩ := recoverUpdates_noRef (P := P) (k := more.length) hl he (by rw [hmerger]) hus (hb us hmem).1
      (hb us hmem).2 hahead
    simp only [hcon, hreplay, hlen, hthrow] at hc
    simp at hc

/-! ## A run of empty batches -/

/-- A log without records is replayed without the reference. -/
theorem construct_zeros {d : Disk} {uninit : ℤ} {l : UpdatesLogger} (hc : UpdatesLogger.construct d uninit = .ok l)
    {n : ℕ} (hlog : d.bytes (FileRWHandler.file .updateLog) = (List.replicate n (u32Bytes 0)).flatten)
    (ht : l.totalUpdates.toNat ≤ n) (x : Index T) :
    ∃ s : Manager T, Manager.construct P d l x = (.ok (), s) ∧ s.disk = d ∧ s.logger.offsetsMap = l.offsetsMap ∧
      s.logger.totalUpdates = l.totalUpdates ∧ s.merger = ⟨false, x.setUpdateLogger⟩ ∧
      ∀ r, s.logger.reader = some r → r.data = s.logBytes ∧ r.fail = false := by
  by_cases hx : FileRWHandler.fileExists d .updateLog = true
  · obtain ⟨s, hr, hdisk, hoff, htot, hm, hrun⟩ := construct_run (P := P) hc hx x
    -- the batches that are counted are in front of the reader
    have hahead : (IStream.ofBytes (d.bytes (FileRWHandler.file .updateLog))).Ahead
        ((List.replicate l.totalUpdates.toNat (u32Bytes 0)).flatten ++
          (List.replicate (n - l.totalUpdates.toNat) (u32Bytes 0)).flatten) := by
      rw [hlog, ← List.flatten_append, ← List.replicate_add, Nat.add_sub_cancel' ht]
      exact ⟨rfl, List.prefix_rfl⟩
    obtain ⟨e, -, he, hzeros⟩ := recoverUpdates_zeros (L := P.logger) hr l.totalUpdates.toNat 0 hahead
    refine ⟨e, hrun.trans hzeros, ?_, ?_, ?_, ?_, fun r hr' => ?_⟩
    · rw [he]; exact hdisk
    · rw [he]; exact hoff
    · rw [he]; exact htot
    · rw [he]; exact hm
    · rw [he] at hr' ⊢
      rw [← Option.some.inj hr', LogEnv.logBytes]
      exact ⟨by rw [← hdisk]; rfl, rfl⟩
  · obtain ⟨hr, -⟩ := construct_streams hc
    refine ⟨LogEnv.closeWriter ⟨d, l, ⟨false, x.setUpdateLogger⟩⟩, ?_, rfl, rfl, rfl, rfl, fun r hr' => ?_⟩
    · simp [Manager.construct, LogEnv.recoverAll, LogEnv.closeWriter, hx]
    · have : l.reader = some r := hr'
      simp [hr] at this

/-- The manager after empty batches: nothing is registered, the index is served. -/
theorem HasLogged.run_empty (hl : P.ops.Lawful) {init : Store} (h : HasLogged P d bs s)
    (hinv : CacheInv P init s (fun _ => [])) (n : ℕ) :
    ∃ s', (cacheMachine P).run ((List.replicate n []).map .log) s = some s' ∧
      HasLogged P d (bs ++ List.replicate n []) s' ∧ CacheInv P init s' (fun _ => []) := by
  induction n generalizing bs s with
  | zero => exact ⟨s, rfl, by simpa using h, hinv⟩
  | succ n ih =>
    have hoff : s.logger.offsetsMap = ∅ :=
      OrdMap.ext_find? fun p => (hinv.log.registered.find?_eq_none.2 rfl).trans (by simp)
    obtain ⟨s₁, h1, h2⟩ := h.log hl []
    obtain ⟨s₂, h3, h4⟩ := Manager.log_spec hl [] hinv (by rw [hoff]; exact registered_empty _ _)
    have hs : s₂ = s₁ := congrArg Prod.snd (h3.symm.trans h1)
    obtain ⟨s', h5, h6, h7⟩ := ih h2 (hs ▸ h4)
    refine ⟨s', ?_, by simpa [List.replicate_succ] using h6, h7⟩
    have hstep : (cacheMachine P).step s (.log []) = some s₁ := by
      simp [cacheMachine, CacheOp.call, h1]
    rw [List.replicate_succ, List.map_cons, Machine.run, hstep]
    exact h5

/-- Batches without updates, and the counter of them, are recovered. -/
theorem restartRecovers_of_empty (hl : P.ops.Lawful) (hd : FreshLog P.ops d)
    (hz : d (FileRWHandler.file .updateLogMeta) = some (u32Bytes 0)) (n : ℕ) :
    RestartRecovers P d (List.replicate n []) := by
  intro uninit₀ uninit₁ s₀ s hs₀ hrun
  obtain ⟨s₀', hs₀', h0, hinv0⟩ := create_hasLogged hl hd uninit₀
  have heq : s₀' = s₀ := Except.ok.inj (hs₀'.symm.trans hs₀)
  subst heq
  obtain ⟨s', hrun', hs, hinv⟩ := h0.run_empty hl hinv0 n
  have heq : s' = s := Option.some.inj (hrun'.symm.trans hrun)
  subst heq
  rw [List.nil_append] at hs
  have hoff : s'.logger.offsetsMap = ∅ :=
    OrdMap.ext_find? fun p => (hinv.log.registered.find?_eq_none.2 rfl).trans (by simp)
  -- the new logger reads what the old one had
  have hpersist : Persistable s'.logger.offsetsMap := by
    rw [hoff]
    exact ⟨show 0 < 2 ^ 31 by decide, fun p l h => by simp at h, fun p l h => by simp at h⟩
  obtain ⟨l, hcon, hm⟩ := construct_of_retrieve (hs.files.offsetsFile hpersist) uninit₁
  have hcount := hs.counter hz
  have htotal := hcount.construct hcon
  have hlen : l.totalUpdates.toNat ≤ n := by
    rw [htotal, hcount.total, List.length_replicate]
    have := wrapInt_le n
    omega
  have hbytes : s'.disk.bytes (FileRWHandler.file .updateLog) = (List.replicate n (u32Bytes 0)).flatten := by
    rw [← LogEnv.logBytes, hs.files.bytes]
    simp [batchBytes, List.flatMap_replicate, CacheParams.logger]
  obtain ⟨s₁, hc, hdisk, hoff₁, htot₁, hmerger, hreader⟩ :=
    construct_zeros (P := P) hcon hbytes hlen (Index.construct s'.disk)
  refine ⟨{ s₁ with merger := { s₁.merger with refSet := true } }, ?_, hoff₁.trans hm, htot₁.trans htotal, fun p => ?_⟩
  · simp only [Manager.create, hcon, hc]
  -- and the new index is that of the file the run left alone
  have hindex : (Index.construct s'.disk : Index T) = Index.construct d := by
    unfold Index.construct FileRWHandler.getReader
    rw [hs.index]
  obtain ⟨_, s₂, -, -, hs₂, hinv₂⟩ := create_spec hl hd uninit₁
  have hindex₂ : s₂.index = (Index.construct d).setUpdateLogger := by rw [hs₂]; rfl
  have hinv₁ : CacheInv P (initialStore P.ops d) { s₁ with merger := { s₁.merger with refSet := true } }
      (fun _ => []) := by
    refine ⟨⟨?_, hreader, rfl⟩, ?_⟩
    · show Registered P.ops _ s₁.logger.offsetsMap _
      rw [hoff₁, hm, hoff]
      exact registered_empty _ _
    · show IndexPart P.ops _ _ s₁.merger.ref
      rw [hmerger, hindex, ← hindex₂]
      exact hinv₂.index
  obtain ⟨r₀, t₀, h1, -, h2, h3⟩ := Manager.fetchK2tree_spec hl p hinv
  obtain ⟨r₁, t₁, h4, -, h5, h6⟩ := Manager.fetchK2tree_spec hl p hinv₁
  exact ⟨r₀, r₁, t₀, t₁, h1, h4, h2.trans h5.symm, h3.trans h6.symm⟩

/-- **A restart recovers a run of `log` calls on an empty log** exactly if there was a
counter file and no call logged an update; for the converse, what the callers promise:
every update has a tree, and the counts fit their fields. -/
theorem restartRecovers_iff (hl : P.ops.Lawful) (hd : FreshLog P.ops d) (hc : EmptyCounter d)
    (batches : List (List (K2TreeUpdates T))) :
    ((FileRWHandler.fileExists d .updateLogMeta = true ∧ ∀ us ∈ batches, us = []) → RestartRecovers P d batches) ∧
    (batches.length < 2 ^ 31 → (∀ us ∈ batches, us.length < 2 ^ 32 ∧ ∀ u ∈ us, u.getKind ≠ .noUpdate) →
      RestartRecovers P d batches → FileRWHandler.fileExists d .updateLogMeta = true ∧ ∀ us ∈ batches, us = []) := by
  refine ⟨fun h => ?_, fun hnum hb h => ?_⟩
  · obtain ⟨hx, hempty⟩ := h
    have hz : d (FileRWHandler.file .updateLogMeta) = some (u32Bytes 0) := by
      rcases hc with hn | hz
      · simp [FileRWHandler.fileExists, hn] at hx
      · exact hz
    have hrep : batches = List.replicate batches.length [] := List.eq_replicate_iff.2 ⟨rfl, hempty⟩
    rw [hrep]
    exact restartRecovers_of_empty hl hd hz _
  · rcases hc with hn | hz
    · exact absurd h (not_restartRecovers_of_noCounter hl hd hn batches)
    · refine ⟨by simp [FileRWHandler.fileExists, hz], ?_⟩
      by_contra hne
      push Not at hne
      exact not_restartRecovers_of_update hl hd hz batches hnum hb hne h

namespace PointTree

/-- `indexDisk` with the counter file of an empty log. -/
def countedDisk : Disk := indexDisk.set (FileRWHandler.file .updateLogMeta) (u32Bytes 0)

theorem countedDisk_fresh : FreshLog ops countedDisk := by
  have hother : ∀ f : FileId, f ≠ .updateLogMeta →
      countedDisk (FileRWHandler.file f) = indexDisk (FileRWHandler.file f) := by
    intro f hf
    exact Disk.set_ne _ _ (fun h => hf (congrArg Prod.fst h))
  have hmeta : initialMetadata countedDisk = initialMetadata indexDisk := by
    unfold initialMetadata FileRWHandler.getReader
    rw [hother _ (by decide)]
  refine ⟨⟨?_, ?_⟩, ?_, ?_⟩
  · rw [hmeta]
    exact indexDisk_fresh.header
  · rw [hmeta, Disk.bytes_congr (hother .index (by decide))]
    exact indexDisk_fresh.trees
  · rw [hother _ (by decide)]
    exact indexDisk_fresh.noLog
  · rw [hother _ (by decide)]
    exact indexDisk_fresh.noOffsets

end PointTree

open PointTree in
/-- Two empty batches are recovered, a batch with an update is not. -/
theorem restartRecovers_iff_empty : RestartRecovers (cacheParams .binary) countedDisk [[], []] ∧
    ¬ RestartRecovers (cacheParams .binary) countedDisk [[], [deleting 5 [(1, 1)]]] := by
  have hz : EmptyCounter countedDisk := .inr (Disk.set_self _ _ _)
  constructor
  · exact (restartRecovers_iff (P := cacheParams .binary) ops_lawful countedDisk_fresh hz [[], []]).1
      ⟨by decide, by decide⟩
  · intro h
    have hb : ∀ us ∈ [[], [deleting 5 [(1, 1)]]], us.length < 2 ^ 32 ∧ ∀ u ∈ us, u.getKind ≠ .noUpdate := by
      intro us hus
      rcases List.mem_pair.1 hus with rfl | rfl
      · simp
      · simp [deleting, K2TreeUpdates.getKind]
    have := (restartRecovers_iff (P := cacheParams .binary) ops_lawful countedDisk_fresh hz _).2 (by decide) hb h
    simpa using this.2 [deleting 5 [(1, 1)]] (by simp)

open PointTree in
/-- One batch with one update: the constructor throws. -/
theorem restart_throws : ¬ RestartRecovers (cacheParams .binary) countedDisk [[inserting 7 [(1, 1)]]] := by
  refine not_restartRecovers_of_update ops_lawful countedDisk_fresh (Disk.set_self _ _ _) _ (by decide)
    (fun us hus => ?_) ⟨_, List.mem_singleton_self _, by simp⟩
  rw [List.mem_singleton.1 hus]
  exact ⟨by decide, fun u hu => by simp [List.mem_singleton.1 hu, inserting, K2TreeUpdates.getKind]⟩

end K2Cache
