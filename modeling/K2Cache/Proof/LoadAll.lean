import K2Cache.Proof.BulkLoad
import K2Cache.Proof.IndexFile
import K2Cache.Proof.RecoverAgain
import K2Cache.Proof.Refine

/-!
# Loading all predicates

`load_all_predicates` puts the trees of the file in memory, in the place of those that are
there, and replays the whole log on what is in memory then.

* `Index.MergedAll`: what a replay of updates does to the trees.
* `Manager.recoverAll_spec`: `recover_all` from the start of the log replays all its updates.
* `Manager.loadAllPredicates_spec`: what is served stays the same, if the reader of the log is
  at its start.
-/

namespace K2Cache

open Lib

variable {T μ : Type} {P : CacheParams T}

/-- The log file holds these batches, full ones, and they are counted. -/
structure LogHolds (ops : TreeOps T) (bs : List (List (K2TreeUpdates T))) (e : LogEnv μ) : Prop where
  full : ∀ us ∈ bs, FullBatch us
  bytes : e.logBytes = bs.flatMap (batchBytes ops)
  total : e.logger.totalUpdates = bs.length

theorem LogHolds.congr {ops : TreeOps T} {bs : List (List (K2TreeUpdates T))} {e e' : LogEnv μ} (h : LogHolds ops bs e)
    (hs : LogEnv.SameLog e e') : LogHolds ops bs e' := by
  refine ⟨h.full, ?_, hs.total.trans h.total⟩
  rw [LogEnv.logBytes, hs.disk]
  exact h.bytes

namespace Index

theorem Loaded.sameFile {x x' : Index T} (h : Loaded x x')
    (hc : ∀ p, x.predicates.contains p = true → x'.predicates.contains p = true) : SameFile x x' := by
  refine ⟨h.is, h.metadata, h.hasUpdateLogger, fun ht => ⟨fun p hp => ?_, fun p hp => ?_⟩⟩
  · rw [h.dirtyPredicates] at hp
    exact hc p (ht.dirtyLoaded p hp)
  · rw [h.newPredicates] at hp
    rw [h.dirtyPredicates]
    exact ht.newDirty p hp

/-- What a replay of updates does: it acts on each tree as their patches. -/
structure MergedAll (ops : TreeOps T) (us : List (K2TreeUpdates T)) (x x' : Index T) : Prop extends SameFile x x' where
  contains : ∀ p, x.predicates.contains p = true → x'.predicates.contains p = true
  known : ∀ p, x'.predicates.contains p = true → x.predicates.contains p = true ∨ ∃ u ∈ us, u.predicateId = p
  held : ∀ p, x'.held ops p = Patch.applyAll ((us.filter fun u => u.predicateId = p).map (K2TreeUpdates.patch ops)) (x.held ops p)

theorem MergedAll.refl (ops : TreeOps T) (x : Index T) : MergedAll ops [] x x :=
  ⟨SameFile.refl x, fun _ h => h, fun _ h => .inl h, fun _ => rfl⟩

/-- One more update. -/
theorem MergedAll.concat {ops : TreeOps T} {us : List (K2TreeUpdates T)} {x x₁ x₂ : Index T} (h : MergedAll ops us x x₁)
    {u : K2TreeUpdates T} (ht : Touches u.predicateId x₁ x₂)
    (hc : x₁.predicates.contains u.predicateId = true → x₂.predicates.contains u.predicateId = true)
    (he : x₂.held ops u.predicateId = (u.patch ops).apply (x₁.held ops u.predicateId)) : MergedAll ops (us ++ [u]) x x₂ := by
  have hother : ∀ p, p ≠ u.predicateId → x₂.predicates.contains p = x₁.predicates.contains p := fun p hp => ht.contains_other hp
  refine ⟨h.toSameFile.trans ht.toSameFile, fun p hp => ?_, fun p hp => ?_, fun p => ?_⟩
  · by_cases hpu : p = u.predicateId
    · subst hpu
      exact hc (h.contains _ hp)
    · rw [hother p hpu]
      exact h.contains p hp
  · by_cases hpu : p = u.predicateId
    · exact .inr ⟨u, by simp, hpu.symm⟩
    · rw [hother p hpu] at hp
      exact (h.known p hp).imp_right fun ⟨v, hv, hvp⟩ => ⟨v, List.mem_append_left _ hv, hvp⟩
  · rw [List.filter_append]
    by_cases hpu : u.predicateId = p
    · subst hpu
      rw [he, h.held, List.filter_cons_of_pos (by simp), List.filter_nil, List.map_append, Patch.applyAll_append]
      rfl
    · rw [ht.held_other (Ne.symm hpu), h.held, List.filter_cons_of_neg (by simpa using hpu), List.filter_nil, List.append_nil]

end Index

namespace Manager

variable {init : Store} {recs : Records T} {s : Manager T}

theorem mergeRecord_forward {w : PCMMergerWrapper (Index T)} (hs : w.refSet = true) (u : PredicateUpdate T) {x' : Index T}
    (h : Index.mergeRecord P.ops u.predicateId u.addUpdate u.delUpdate w.ref = (.ok (), x')) :
    P.logger.mergeRecord u w = (.ok (), { w with ref := x' }) := by
  set s : Manager T := ⟨fun _ => none, ⟨false, none, ⟨false, true, 0⟩, ∅, 0⟩, w⟩ with hs'
  have h1 : LogEnv.mergeUpdate P.logger u s = (.ok (), s.setIndex x') := mergeUpdate_run (s := s) u hs h
  rw [mergeUpdate_eq] at h1
  obtain ⟨h2, h3⟩ := Prod.mk.inj h1
  exact Prod.ext h2 (congrArg LogEnv.merger h3)

/-- **A replay of updates.** -/
theorem mergeRecords_spec (hl : P.ops.Lawful) (us : List (K2TreeUpdates T)) {w : PCMMergerWrapper (Index T)}
    (hs : w.refSet = true) :
    ∃ x', Act.forEach us (fun u => P.logger.mergeRecord u.toPredicateUpdate) w = (.ok (), { w with ref := x' }) ∧
      Index.MergedAll P.ops us w.ref x' := by
  have hloop := Act.forEach_ok (f := fun u : K2TreeUpdates T => P.logger.mergeRecord u.toPredicateUpdate)
    (fun pre w' => w'.refSet = true ∧ Index.MergedAll P.ops pre w.ref w'.ref) us ?_ (s := w) ⟨hs, .refl _ _⟩
  · obtain ⟨w', h1, h2, h3⟩ := hloop
    refine ⟨w'.ref, ?_, h3⟩
    obtain ⟨b, x'⟩ := w'
    obtain rfl : b = true := h2
    rw [h1, ← hs]
  · rintro pre u post w₁ - ⟨h1, h2⟩
    obtain ⟨x', h3, h4, h5, h6⟩ := Index.mergeRecord_spec hl w₁.ref u.toPredicateUpdate
    exact ⟨_, mergeRecord_forward h1 _ h3, h1, h2.concat h4 h5 h6⟩

/-- The reader `recover_all` reads from: a good one at the start of the log. -/
theorem openReader_ahead {ops : TreeOps T} (h : LogPart ops recs s) (hx : FileRWHandler.fileExists s.disk .updateLog = true)
    (h0 : ∀ r, s.logger.reader = some r → r.pos = 0) :
    ∃ r, (LogEnv.openReader (LogEnv.closeWriter s)).logger.reader = some r ∧ r.Ahead s.logBytes ∧ r.data = s.logBytes := by
  refine ⟨s.logger.reader.getD (FileRWHandler.getReader s.disk .updateLog), rfl, ?_⟩
  cases hr : s.logger.reader with
  | none =>
    have hget : FileRWHandler.getReader s.disk .updateLog = .ofBytes s.logBytes := by
      obtain ⟨data, hdata⟩ := Option.isSome_iff_exists.1 hx
      rw [FileRWHandler.getReader, LogEnv.logBytes, Disk.bytes, hdata]
      rfl
    rw [Option.getD_none, hget]
    exact ⟨⟨rfl, List.prefix_rfl⟩, rfl⟩
  | some r =>
    obtain ⟨hd, hf⟩ := h.reader r hr
    refine ⟨⟨hf, ?_⟩, hd⟩
    rw [Option.getD_some, h0 r hr, List.drop_zero, hd]

/-- **`recover_all`** from the start of the log replays all updates. -/
theorem recoverAll_spec (hl : P.ops.Lawful) {bs : List (List (K2TreeUpdates T))} (h : LogPart P.ops recs s)
    (hbs : LogHolds P.ops bs s) (h0 : ∀ r, s.logger.reader = some r → r.pos = 0) :
    ∃ s' : Manager T, LogEnv.recoverAll P.logger s = (.ok (), s') ∧ Index.MergedAll P.ops bs.flatten s.index s'.index ∧
      LogPart P.ops recs s' := by
  cases hx : FileRWHandler.fileExists s.disk .updateLog with
  | false =>
    -- no file, no records
    have hbytes : bs.flatMap (batchBytes P.ops) = [] := by
      have hnone : s.disk (FileRWHandler.file .updateLog) = none := by
        simpa [FileRWHandler.fileExists] using hx
      rw [← hbs.bytes, LogEnv.logBytes, Disk.bytes, hnone]
      rfl
    have hnil : bs = [] := by
      cases bs with
      | nil => rfl
      | cons us bs =>
        have := congrArg List.length hbytes
        simp [batchBytes] at this
    subst hnil
    exact ⟨_, recoverAll_missing hx, .refl _ _, ⟨h.registered, h.reader, h.refSet⟩⟩
  | true =>
    obtain ⟨r, hr, hahead, hdata⟩ := openReader_ahead h hx h0
    rw [hbs.bytes] at hahead
    obtain ⟨x', h1, h2⟩ := mergeRecords_spec hl bs.flatten h.refSet
    have hread := recoverUpdates_reads (L := P.logger) (e := LogEnv.openReader (LogEnv.closeWriter s)) hl hr hbs.full hahead h1 0
    rw [Nat.add_zero] at hread
    have hrun : LogEnv.recoverAll P.logger s =
        (.ok (), (LogEnv.openReader (LogEnv.closeWriter s)).readTo r (bs.flatMap (batchBytes P.ops)).length
          ⟨s.merger.refSet, x'⟩) := by
      rw [recoverAll_opens hx, hbs.total, Int.toNat_natCast, hread]
      rfl
    refine ⟨_, hrun, h2, ⟨h.registered, fun r' hr' => ?_, h.refSet⟩⟩
    · obtain rfl : r.skip _ = r' := Option.some.inj hr'
      exact ⟨hdata, hahead.1⟩

/-- **What a replay of everything reads**: the full batches of the records, all of them
counted, and an index file with its trees in the order of its header. -/
structure Replayable (P : CacheParams T) (recs : Records T) (s : Manager T) : Prop where
  log : ∃ bs, LogHolds P.ops bs s ∧ ∀ p, recs p = updatesOf bs p
  file : IndexFile P.ops s.index.metadata s.index.is.data
  nodup : s.index.metadata.predicatesIds.Nodup

theorem Replayable.congr {s' : Manager T} (h : Replayable P recs s) (hs : LogEnv.SameLog s s')
    (hm : s'.index.metadata = s.index.metadata) (hd : s'.index.is.data = s.index.is.data) : Replayable P recs s' := by
  obtain ⟨bs, hbs, hrecs⟩ := h.log
  refine ⟨⟨bs, hbs.congr hs, hrecs⟩, ?_, ?_⟩
  · rw [hm, hd]
    exact h.file
  · rw [hm]
    exact h.nodup

/-- **A full batch** that is logged to a file that keeps what it has. -/
theorem Replayable.logged (h : Replayable P recs s) {us : List (K2TreeUpdates T)} (hb : FullBatch us)
    (hn : s.logger.totalUpdates + 1 < 2 ^ 31)
    (hopen : P.logMode.app = true ∨ s.logger.writerOpen = true ∨ s.logger.totalUpdates = 0) (hs : s.merger.refSet = true)
    {x' : Index T} (hx : Index.mergeUpdate P.ops us s.index = (.ok (), x')) (hsame : Index.SameFile s.index x') :
    Replayable P (recs.pushAll us) (LogEnv.log P.logger us s).2 := by
  obtain ⟨bs, hbs, hrecs⟩ := h.log
  have hm := mergeUpdate_forward (P := P) hs hx
  have hbytes : (LogEnv.openWriter P.logger s).logBytes = s.logBytes := by
    refine openWriter_logBytes (hopen.imp_right (Or.imp_right fun h0 => ?_))
    have hlen := hbs.total
    rw [h0] at hlen
    rw [hbs.bytes, List.length_eq_zero_iff.1 (show bs.length = 0 by omega)]
    rfl
  have hindex : Manager.index (LogEnv.log P.logger us s).2 = x' := by
    rw [log_run hm]
    rfl
  refine ⟨⟨bs ++ [us], ⟨fun v hv => ?_, ?_, ?_⟩, fun p => ?_⟩, ?_, ?_⟩
  · rcases List.mem_append.1 hv with hv | hv
    · exact hbs.full v hv
    · rw [List.mem_singleton.1 hv]
      exact hb
  · rw [logBytes_log hm, hbytes, hbs.bytes, List.flatMap_append, List.flatMap_singleton]
    rfl
  · have htotal : (LogEnv.log P.logger us s).2.logger.totalUpdates = wrapInt (s.logger.totalUpdates + 1) := by
      rw [log_run hm]
      rfl
    have hlen := hbs.total
    rw [htotal, hlen, List.length_append, List.length_singleton]
    exact_mod_cast wrapInt_of_lt (n := bs.length + 1) (by omega)
  · have hone := pushAll_full (show ∀ v ∈ [us], FullBatch v by simpa using hb) p
    rw [Records.pushAll_apply, List.flatten_singleton, List.nil_append] at hone
    rw [Records.pushAll_apply, hone, hrecs p, updatesOf, updatesOf, updatesOf, List.flatten_append, List.filter_append]
  · rw [hindex, hsame.metadata, hsame.is.1]
    exact h.file
  · rw [hindex, hsame.metadata]
    exact h.nodup

/-- A fetch leaves the files of the log alone. -/
theorem fetchKeeps_sameLog (s₀ : Manager T) : FetchKeeps P (LogEnv.SameLog s₀) where
  load _ _ h := ⟨h.disk, h.offsets, h.total⟩
  add _ _ h := ⟨h.disk, h.offsets, h.total⟩
  recover := K2Cache.keeps_recoverPredicate P.logger

theorem Replayable.fetchK2tree (hl : P.ops.Lawful) (h : Replayable P recs s) (hc : CacheInv P init s recs) (p : UInt64) :
    Replayable P recs (fetchK2tree P p s).2 := by
  have hon : Index.OnFile s.index.metadata s.index.is.data s.index := ⟨rfl, rfl, hc.index.good, hc.index.tidy.newDirty⟩
  have hkeep := keeps_fetchK2tree (P := P) (Index.OnFile.stable hl h.file) p s ⟨rfl, hon⟩
  exact h.congr ((fetchKeeps_sameLog s).fetchK2tree p s (LogEnv.SameLog.refl s)) hkeep.index.metadata hkeep.index.data

/-- **`load_all_predicates`** changes nothing that is served, if the reader of the log is at its
start. -/
theorem loadAllPredicates_spec (hl : P.ops.Lawful) (h : CacheInv P init s recs) (hr : Replayable P recs s)
    (h0 : ∀ r, s.logger.reader = some r → r.pos = 0) :
    ∃ s' : Manager T, loadAllPredicates P s = (.ok (), s') ∧ CacheInv P init s' recs ∧ Replayable P recs s' := by
  obtain ⟨bs, hbs, hrecs⟩ := hr.log
  obtain ⟨trees, hlay⟩ := hr.file.layout
  obtain ⟨x₁, h1, h2, h3, h4⟩ := hlay.loadAll hl h.index.good hr.nodup
  have hlog₁ : LogPart P.ops recs (s.setIndex x₁) := ⟨h.log.registered, h.log.reader, h.log.refSet⟩
  obtain ⟨s', h5, h6, h7⟩ := recoverAll_spec hl hlog₁ (hbs.congr ⟨rfl, rfl, rfl⟩) h0
  have hon : onIndex (Index.loadAllFromMainIndex P.ops) s = (.ok (), s.setIndex x₁) := by rw [onIndex_run, h1]
  -- the trees the replay starts from, and what it makes of them
  have hstart : ∀ p, Patch.applyAll (recs.patches P.ops p) (x₁.held P.ops p) = recs.target P.ops init p ∧
      (x₁.predicates.contains p = true → init p ≠ none ∨ recs p ≠ []) := by
    intro p
    cases hm : s.index.isStoredInMainIndex p with
    | true =>
      obtain ⟨e, he⟩ := (OrdMap.contains_iff _).1 hm
      obtain ⟨-, hk, t, ht, happ⟩ := h.index.main p e he
      rw [Index.held_of_find? (h3 p e t he ht)]
      exact ⟨happ, fun _ => hk⟩
    | false =>
      have hfind := h4 p hm
      have hheld : x₁.held P.ops p = s.index.held P.ops p := by rw [Index.held, Index.held, hfind]
      have hcontains : x₁.predicates.contains p = s.index.predicates.contains p := by rw [OrdMap.contains, OrdMap.contains, hfind]
      rw [hheld, hcontains]
      cases hc : s.index.predicates.contains p with
      | true =>
        obtain ⟨hk, he⟩ := h.index.loaded p hc
        rw [he]
        exact ⟨Patch.applyAll_idem _ _, fun _ => hk⟩
      | false =>
        have hi : init p = none := by
          by_contra hn
          rw [h.index.initial p hn] at hm
          cases hm
        rw [Index.held_of_none ((OrdMap.contains_eq_false _).1 hc), Records.target, hi]
        exact ⟨rfl, fun hc => by cases hc⟩
  have hrun : loadAllPredicates P s = (.ok (), s') := by
    rw [loadAllPredicates, Act.bind_ok hon, Act.get_bind, setIndex_index, h2.hasUpdateLogger, h.index.hasUpdateLogger]
    exact h5
  have hsamelog : LogEnv.SameLog (s.setIndex x₁) s' := by
    have hkeep := K2Cache.keeps_recoverAll P.logger (s.setIndex x₁) (LogEnv.SameLog.refl _)
    rwa [h5] at hkeep
  have hsame : Index.SameFile s.index s'.index := by
    refine (h2.sameFile fun p hp => ?_).trans h6.toSameFile
    -- nothing in memory has left it
    cases hm : s.index.isStoredInMainIndex p with
    | true =>
      obtain ⟨e, he⟩ := (OrdMap.contains_iff _).1 hm
      obtain ⟨-, -, t, ht, -⟩ := h.index.main p e he
      exact (OrdMap.contains_iff _).2 ⟨t, h3 p e t he ht⟩
    | false => rwa [OrdMap.contains, h4 p hm]
  refine ⟨s', hrun, ⟨h7, ?_⟩, hr.congr ⟨hsamelog.disk, hsamelog.offsets, hsamelog.total⟩ hsame.metadata hsame.is.1⟩
  · show IndexPart P.ops init recs s'.index
    refine ⟨hsame.tidy h.index.tidy, hsame.is.2.trans h.index.good, hsame.hasUpdateLogger.trans h.index.hasUpdateLogger,
      fun p hp => ?_, fun p e he => ?_, fun p hp => ?_⟩
    · rw [Index.isStoredInMainIndex, hsame.metadata]
      exact h.index.initial p hp
    · rw [hsame.metadata] at he
      rw [hsame.is.1]
      exact h.index.main p e he
    · have hpatches : (bs.flatten.filter fun u => u.predicateId = p).map (K2TreeUpdates.patch P.ops) = recs.patches P.ops p := by
        rw [Records.patches, hrecs p]
        rfl
      refine ⟨?_, ?_⟩
      · rcases h6.known p hp with hp₁ | ⟨u, hu, rfl⟩
        · exact (hstart p).2 hp₁
        · refine .inr ?_
          rw [hrecs]
          exact List.ne_nil_of_mem (List.mem_filter.2 ⟨hu, by simp⟩)
      · rw [h6.held p, hpatches]
        exact (hstart p).1

end Manager

end K2Cache
