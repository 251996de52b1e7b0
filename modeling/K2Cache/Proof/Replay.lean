import K2Cache.Proof.LogRun
import K2Cache.Proof.IndexSync

/-!
# Replaying the log on a tree

The abstract store knows the points of each predicate (`Store`); a logged batch
changes them at once. In the manager an update of a predicate that is not loaded
takes effect only when the predicate is loaded, by replaying its records on the tree
of the index file, which may have some of them already.

`CacheInv` relates the two: replaying a predicate's records on the tree of the file,
whatever that has of them, gives the points the abstract store has, and a loaded
tree has exactly these.

* `recoverPredicate_spec`: the records act as their patches on the tree in memory.
* `loadSinglePredicate_spec`, `fetchK2tree_spec`: both keep the invariant, and a fetch
  returns what the abstract store has.
-/

namespace K2Cache

open Lib

variable {T : Type}

/-- What the store serves: the points of each known predicate. -/
abbrev Store := UInt64 → Option (Set Point)

/-- The patches of a predicate's records. -/
def Records.patches (ops : TreeOps T) (recs : Records T) (p : UInt64) : List (Patch Point) :=
  (recs p).map (K2TreeUpdates.patch ops)

/-- The points of a predicate after its records. -/
def Records.target (ops : TreeOps T) (init : Store) (recs : Records T) (p : UInt64) : Set Point :=
  Patch.applyAll (recs.patches ops p) ((init p).getD ∅)

open Classical in
/-- **The abstract store**: a predicate is known if it was there or has records, and its
points are the initial ones with the records applied in order. -/
noncomputable def Records.served (ops : TreeOps T) (init : Store) (recs : Records T) : Store := fun p =>
  if init p = none ∧ recs p = [] then none else some (recs.target ops init p)

theorem Records.pushAll_updatesOf (recs : Records T) (us : List (K2TreeUpdates T)) (p : UInt64) :
    recs.pushAll us p = recs p ++ Index.updatesOf us p := Records.pushAll_apply us recs p

/-! ## The invariant -/

/-- The log: its records are in the file, its reader is a good one of that file. -/
structure LogPart (ops : TreeOps T) (recs : Records T) (s : Manager T) : Prop where
  registered : Registered ops s.logBytes s.logger.offsetsMap recs
  reader : ∀ r, s.logger.reader = some r → r.data = s.logBytes ∧ r.fail = false
  refSet : s.merger.refSet = true

/-- The index: replaying the records on a tree of the file gives the served points, and
a loaded tree has them. -/
structure IndexPart (ops : TreeOps T) (init : Store) (recs : Records T) (x : Index T) : Prop where
  tidy : x.Tidy
  good : x.is.fail = false
  hasUpdateLogger : x.hasUpdateLogger = true
  initial : ∀ p, init p ≠ none → x.isStoredInMainIndex p = true
  main : ∀ p md, x.metadata.metadataMap.find? p = some md →
    md.predicateId = p ∧ (init p ≠ none ∨ recs p ≠ []) ∧
    ∃ t, Index.HoldsTree ops x.is.data md t ∧
      Patch.applyAll (recs.patches ops p) (ops.points t) = recs.target ops init p
  loaded : ∀ p, x.predicates.contains p = true →
    (init p ≠ none ∨ recs p ≠ []) ∧ x.held ops p = recs.target ops init p

/-- **The invariant of the manager.** -/
structure CacheInv (P : CacheParams T) (init : Store) (s : Manager T) (recs : Records T) : Prop where
  log : LogPart P.ops recs s
  index : IndexPart P.ops init recs s.index

variable {P : CacheParams T} {init : Store} {recs : Records T} {s : Manager T} {p : UInt64}

/-- A call that touches one predicate keeps the index in order, if that one is. -/
theorem IndexPart.touch {ops : TreeOps T} {x x' : Index T} (h : IndexPart ops init recs x) (ht : Index.Touches p x x')
    (hp : x'.predicates.contains p = true →
      (init p ≠ none ∨ recs p ≠ []) ∧ x'.held ops p = recs.target ops init p) : IndexPart ops init recs x' := by
  refine ⟨ht.tidy h.tidy, by rw [ht.is.2]; exact h.good, by rw [ht.hasUpdateLogger]; exact h.hasUpdateLogger,
    fun q hq => ?_, fun q md hq => ?_, fun q hq => ?_⟩
  · rw [Index.isStoredInMainIndex, ht.metadata]
    exact h.initial q hq
  · rw [ht.metadata] at hq
    rw [ht.is.1]
    exact h.main q md hq
  · by_cases hqp : q = p
    · subst hqp
      exact hp hq
    · rw [ht.contains_other hqp] at hq
      rw [ht.held_other hqp]
      exact h.loaded q hq

/-! ## Calls through the wrapper -/

namespace Manager

/-- The manager with another index. -/
def setIndex (s : Manager T) (x : Index T) : Manager T := { s with merger := { s.merger with ref := x } }

@[simp] theorem setIndex_index (s : Manager T) (x : Index T) : (s.setIndex x).index = x := rfl

@[simp] theorem setReader_index (s : Manager T) (r : IStream) : index (LogEnv.setReader s r) = s.index := rfl

theorem onIndex_run {α : Type} (y : Act Exn (Index T) α) (s : Manager T) :
    onIndex y s = ((y s.index).1, s.setIndex (y s.index).2) := rfl

theorem onMerger_forward (y : Act Exn (Index T) Unit) (h : s.merger.refSet = true) :
    LogEnv.onMerger (PCMMergerWrapper.forward y) s = ((y s.index).1, s.setIndex (y s.index).2) := by
  have hcheck : PCMMergerWrapper.noRefCheck s.merger = (.ok (), s.merger) := by
    simp [PCMMergerWrapper.noRefCheck, h]
  simp only [LogEnv.onMerger, Act.focus, PCMMergerWrapper.forward]
  rw [Act.bind_ok hcheck]
  rfl

/-- A record read back from the log is merged into the index. -/
theorem mergeUpdate_run (u : PredicateUpdate T) (h : s.merger.refSet = true) {x' : Index T}
    (hm : Index.mergeRecord P.ops u.predicateId u.addUpdate u.delUpdate s.index = (.ok (), x')) :
    LogEnv.mergeUpdate P.logger u s = (.ok (), s.setIndex x') := by
  obtain ⟨q, a, d⟩ := u
  -- what the adds leave is what the deletes start from
  have key : ∀ (s : Manager T) (o : Option T) (f : T → Act Exn (Index T) Unit) (x₁ : Index T),
      s.merger.refSet = true → Act.forSome o f s.index = (.ok (), x₁) →
      Act.forSome o (fun t => LogEnv.onMerger (PCMMergerWrapper.forward (f t))) s = (.ok (), s.setIndex x₁) := by
    intro s o f x₁ hs ho
    cases o with
    | none =>
      obtain rfl : s.index = x₁ := congrArg Prod.snd ho
      rfl
    | some t =>
      simp only [Act.forSome_some] at ho ⊢
      rw [onMerger_forward _ hs, ho]
  rw [Index.mergeRecord] at hm
  rcases ha : Act.forSome a (Index.mergeAddTree P.ops q) s.index with ⟨r, x₁⟩
  cases r with
  | error e =>
    rw [Act.bind_error ha] at hm
    simp at hm
  | ok _ =>
    rw [Act.bind_ok ha] at hm
    exact (Act.bind_ok (key s a _ x₁ h ha)).trans (key (s.setIndex x₁) d _ x' h hm)

/-! ## Replay -/

/-- What a replay of a predicate's records leaves: the files and offsets as they were, a
good reader, and one predicate of the index touched. -/
structure Replayed (p : UInt64) (s s' : Manager T) : Prop where
  disk : s'.disk = s.disk
  offsets : s'.logger.offsetsMap = s.logger.offsetsMap
  refSet : s'.merger.refSet = s.merger.refSet
  reader : s'.currentReader.data = s.currentReader.data ∧ s'.currentReader.fail = s.currentReader.fail
  reading : s'.logger.reader ≠ none
  touches : Index.Touches p s.index s'.index
  contains : s.index.predicates.contains p = true → s'.index.predicates.contains p = true

theorem Replayed.trans {s₁ s₂ s₃ : Manager T} (h : Replayed p s₁ s₂) (h' : Replayed p s₂ s₃) : Replayed p s₁ s₃ :=
  ⟨h'.disk.trans h.disk, h'.offsets.trans h.offsets, h'.refSet.trans h.refSet,
    ⟨h'.reader.1.trans h.reader.1, h'.reader.2.trans h.reader.2⟩, h'.reading, h.touches.trans h'.touches,
    h'.contains ∘ h.contains⟩

variable (hl : P.ops.Lawful)
include hl

/-- One record. -/
theorem recoverAt_spec {off : ℕ} {u : K2TreeUpdates T} (hs : s.merger.refSet = true)
    (hf : s.currentReader.fail = false) (h : LoggedAt P.ops s.currentReader.data p off u) :
    ∃ s' : Manager T, LogEnv.recoverAt P.logger off s = (.ok (), s') ∧ Replayed p s s' ∧
      s'.index.held P.ops p = (u.patch P.ops).apply (s.index.held P.ops p) := by
  obtain ⟨r, h1, h2, h3⟩ := LogEnv.withReader_recover hl h hf
  obtain ⟨x', h4, h5, h6, h7⟩ := Index.mergeRecord_spec hl s.index u.toPredicateUpdate
  have h8 := mergeUpdate_run (P := P) (s := LogEnv.setReader s r) u.toPredicateUpdate hs h4
  have hp : u.toPredicateUpdate.predicateId = p := h.predicate
  rw [hp] at h5 h6 h7
  refine ⟨_, (Act.bind_ok h1).trans h8, ⟨rfl, rfl, rfl, ⟨h2, h3.trans hf.symm⟩, ?_, h5, h6⟩, h7⟩
  simp [setIndex, LogEnv.setReader]

/-- The records of a predicate, one after another. -/
theorem recoverOffsets_spec {data : Bytes} {offs : List ℕ} {us : List (K2TreeUpdates T)}
    (h : List.Forall₂ (LoggedAt P.ops data p) offs us) (hs : s.merger.refSet = true)
    (hd : s.currentReader.data = data) (hf : s.currentReader.fail = false) (hr : s.logger.reader ≠ none) :
    ∃ s' : Manager T, Act.forEach offs (LogEnv.recoverAt P.logger) s = (.ok (), s') ∧ Replayed p s s' ∧
      s'.index.held P.ops p = Patch.applyAll (us.map (K2TreeUpdates.patch P.ops)) (s.index.held P.ops p) := by
  induction h generalizing s with
  | nil => exact ⟨s, rfl, ⟨rfl, rfl, rfl, ⟨rfl, rfl⟩, hr, Index.Touches.refl _ _, id⟩, rfl⟩
  | cons hu _ ih =>
    obtain ⟨s₁, h1, h2, h3⟩ := recoverAt_spec hl hs hf (hd ▸ hu)
    obtain ⟨s₂, h4, h5, h6⟩ := ih (h2.refSet.trans hs) (h2.reader.1.trans hd) (h2.reader.2.trans hf) h2.reading
    refine ⟨s₂, ?_, h2.trans h5, ?_⟩
    · rw [Act.forEach_cons, Act.bind_ok h1]
      exact h4
    · rw [h6, h3]
      rfl

/-- **`recover_predicate` replays the records** of a predicate on its tree in memory. -/
theorem recoverPredicate_spec (h : LogPart P.ops recs s) (hp : recs p ≠ []) :
    ∃ s' : Manager T, LogEnv.recoverPredicate P.logger p s = (.ok (), s') ∧ LogPart P.ops recs s' ∧
      Index.Touches p s.index s'.index ∧
      (s.index.predicates.contains p = true → s'.index.predicates.contains p = true) ∧
      s'.index.held P.ops p = Patch.applyAll (recs.patches P.ops p) (s.index.held P.ops p) := by
  -- the predicate has offsets, so the log file is there
  obtain ⟨offs, hoffs⟩ : ∃ offs, s.logger.offsetsMap.find? p = some offs :=
    Option.ne_none_iff_exists'.1 (fun hn => hp (h.registered.find?_eq_none.1 hn))
  have hreader : FileRWHandler.getReader s.disk .updateLog = .ofBytes s.logBytes :=
    h.registered.reader ((OrdMap.mem_keys _).2 ⟨offs, hoffs⟩)
  have hex : FileRWHandler.fileExists s.disk .updateLog = true := by
    unfold FileRWHandler.getReader at hreader
    unfold FileRWHandler.fileExists
    cases hd : s.disk (FileRWHandler.file .updateLog) with
    | none => simp [hd, IStream.ofBytes] at hreader
    | some bs => rfl
  -- the reader is a good one of the file, open or new
  set s₁ : Manager T := LogEnv.openReader s with hs₁
  have hgood : s₁.currentReader.data = s.logBytes ∧ s₁.currentReader.fail = false := by
    show ((s.logger.reader.getD (FileRWHandler.getReader s.disk .updateLog)).data = _ ∧ _)
    cases hr : s.logger.reader with
    | none =>
      rw [Option.getD_none, hreader]
      exact ⟨rfl, by simp [hs₁, LogEnv.currentReader, LogEnv.openReader, hr, hreader, IStream.ofBytes]⟩
    | some r =>
      refine ⟨(h.reader r hr).1, ?_⟩
      simpa [hs₁, LogEnv.currentReader, LogEnv.openReader, hr] using (h.reader r hr).2
  have hlog := h.registered.logged p
  rw [hoffs, Option.getD_some] at hlog
  obtain ⟨s', h1, h2, h3⟩ := recoverOffsets_spec (s := s₁) hl hlog h.refSet hgood.1 hgood.2 (by simp [hs₁, LogEnv.openReader])
  refine ⟨s', ?_, ⟨?_, ?_, h2.refSet.trans h.refSet⟩, h2.touches, h2.contains, h3⟩
  · simp only [LogEnv.recoverPredicate, Act.get_bind, hex, if_true, Act.modify_bind, hoffs]
    exact h1
  · have : LogEnv.logBytes s' = s.logBytes := congrArg (fun d => Disk.bytes d _) h2.disk
    rw [this, h2.offsets]
    exact h.registered
  · intro r hr
    have hcur : s'.currentReader = r := by simp [LogEnv.currentReader, hr]
    have : LogEnv.logBytes s' = s.logBytes := congrArg (fun d => Disk.bytes d _) h2.disk
    rw [this, ← hcur]
    exact ⟨h2.reader.1.trans hgood.1, h2.reader.2.trans hgood.2⟩

/-! ## Loading and fetching -/

omit hl in
theorem storedInLog_iff (h : CacheInv P init s recs) : s.isStoredInUpdatesLog p = true ↔ recs p ≠ [] := by
  rw [isStoredInUpdatesLog, h.index.hasUpdateLogger, Bool.true_and, UpdatesLogger.hasPredicateStored,
    OrdMap.contains, Option.isSome_iff_ne_none, ne_eq, h.log.registered.find?_eq_none]

omit hl in
theorem target_of_replay {ops : TreeOps T} {S : Set Point} (h : Patch.applyAll (recs.patches ops p) S = recs.target ops init p)
    (hr : recs p = []) : S = recs.target ops init p := by
  rw [← h, Records.patches, hr]
  rfl

/-- The tree a load starts the replay from: that of the file, that in memory, or none. -/
theorem loadMain_spec (h : CacheInv P init s recs) :
    ∃ s' : Manager T, Act.when (s.index.isStoredInMainIndex p) (onIndex (Index.loadFromMainIndex P.ops p)) s = (.ok (), s') ∧
      LogPart P.ops recs s' ∧ Index.Touches p s.index s'.index ∧
      (s.index.isStoredInMainIndex p = true → s'.index.predicates.contains p = true) ∧
      Patch.applyAll (recs.patches P.ops p) (s'.index.held P.ops p) = recs.target P.ops init p := by
  cases hm : s.index.isStoredInMainIndex p with
  | true =>
    obtain ⟨md, hmd⟩ := (OrdMap.contains_iff _).1 hm
    obtain ⟨hid, -, t, ht, happ⟩ := h.index.main p md hmd
    obtain ⟨x', h1, h2, h3⟩ := Index.loadFromMainIndex_spec hl hmd hid h.index.good ht
    refine ⟨s.setIndex x', ?_, ⟨h.log.registered, h.log.reader, h.log.refSet⟩, h2, ?_, ?_⟩
    · rw [Act.when_true, onIndex_run, h1]
    · intro _
      simp [OrdMap.contains, h3]
    · rw [setIndex_index, Index.held_of_find? h3]
      exact happ
  | false =>
    refine ⟨s, rfl, h.log, Index.Touches.refl p _, by simp, ?_⟩
    cases hc : s.index.predicates.contains p with
    | true =>
      -- replaying what the tree has already changes nothing
      rw [(h.index.loaded p hc).2, Records.target]
      exact Patch.applyAll_idem _ _
    | false =>
      -- nothing is known of the predicate but its records
      have hi : init p = none := by
        by_contra hn
        simp [h.index.initial p hn] at hm
      rw [Index.held_of_none ((OrdMap.contains_eq_false _).1 hc), Records.target, hi]
      rfl

/-- **`load_single_predicate`** finds the known predicates, and leaves what is served in
memory; a predicate of the index file is loaded then. -/
theorem loadSinglePredicate_spec (p : UInt64) (h : CacheInv P init s recs) :
    ∃ b s', loadSinglePredicate P p s = (.ok b, s') ∧ CacheInv P init s' recs ∧
      (b = true ↔ init p ≠ none ∨ recs p ≠ []) ∧
      (b = true → s'.index.held P.ops p = recs.target P.ops init p) ∧
      (init p ≠ none → s'.index.predicates.contains p = true) := by
  have hknown : hasPredicateStored s p = true ↔ init p ≠ none ∨ recs p ≠ [] := by
    rw [hasPredicateStored, Bool.or_eq_true, storedInLog_iff h]
    constructor
    · rintro (hm | hr)
      · obtain ⟨md, hmd⟩ := (OrdMap.contains_iff _).1 hm
        exact (h.index.main p md hmd).2.1
      · exact .inr hr
    · exact Or.imp_left (h.index.initial p)
  cases hst : hasPredicateStored s p with
  | false =>
    refine ⟨false, s, ?_, h, by rw [← hknown, hst], by simp, ?_⟩
    · simp [loadSinglePredicate, hst]
    · intro hi
      simp [hknown.2 (.inl hi)] at hst
  | true =>
    obtain ⟨s₁, h1, l1, t1, c1, e1⟩ := loadMain_spec (p := p) hl h
    -- the replay, if there are records
    obtain ⟨s₂, h2, l2, t2, c2, e2⟩ : ∃ s₂ : Manager T,
        Act.when (s.isStoredInUpdatesLog p) (LogEnv.recoverPredicate P.logger p) s₁ = (.ok (), s₂) ∧
        LogPart P.ops recs s₂ ∧ Index.Touches p s₁.index s₂.index ∧
        (s₁.index.predicates.contains p = true → s₂.index.predicates.contains p = true) ∧
        s₂.index.held P.ops p = recs.target P.ops init p := by
      by_cases hr : recs p = []
      · have hn : s.isStoredInUpdatesLog p = false := by
          rw [Bool.eq_false_iff, ne_eq, storedInLog_iff h, not_not]
          exact hr
        rw [hn]
        exact ⟨s₁, rfl, l1, Index.Touches.refl p _, id, target_of_replay e1 hr⟩
      · rw [(storedInLog_iff h).2 hr, Act.when_true]
        obtain ⟨s₂, h2, l2, t2, c2, e2⟩ := recoverPredicate_spec hl l1 hr
        exact ⟨s₂, h2, l2, t2, c2, e2.trans e1⟩
    refine ⟨true, s₂, ?_, ⟨l2, ?_⟩, by rw [← hknown, hst], fun _ => e2, fun hi => c2 (c1 (h.index.initial p hi))⟩
    · simp only [loadSinglePredicate, Act.get_bind, hst, if_true]
      rw [Act.bind_ok h1, Act.bind_ok h2]
      rfl
    · exact h.index.touch (t1.trans t2) fun _ => ⟨hknown.1 hst, e2⟩

/-- The tree of a predicate that only the log knows, and only removes points from. -/
theorem activateFromLog_spec (h : CacheInv P init s recs) (hk : init p ≠ none ∨ recs p ≠ [])
    (hi : init p ≠ none → s.index.predicates.contains p = true) :
    ∃ s' : Manager T, activateFromLog P p s = (.ok (), s') ∧ CacheInv P init s' recs ∧
      s'.index.predicates.contains p = true := by
  cases hc : s.index.predicates.contains p with
  | true =>
    refine ⟨s, ?_, h, hc⟩
    simp [activateFromLog, Index.hasPredicateActive_eq, hc]
  | false =>
    have hi' : init p = none := by
      by_contra hn
      simp [hi hn] at hc
    have hr : recs p ≠ [] := hk.resolve_left (by simp [hi'])
    -- an empty tree, and the records replayed on it
    obtain ⟨s', h1, h2, h3, h4, h5⟩ := recoverPredicate_spec (s := s.setIndex (s.index.addPredicate P.ops p)) hl
      ⟨h.log.registered, h.log.reader, h.log.refSet⟩ hr
    have hadd := Index.addPredicate_find? P.ops s.index p
    have hc' : s'.index.predicates.contains p = true := h4 (by simp [OrdMap.contains, hadd])
    refine ⟨s', ?_, ⟨h2, h.index.touch ((Index.touches_addPredicate P.ops s.index p).trans h3) fun _ => ⟨hk, ?_⟩⟩, hc'⟩
    · simp only [activateFromLog, Act.get_bind, Index.hasPredicateActive_eq, hc, (storedInLog_iff h).2 hr]
      exact h1
    · rw [h5, setIndex_index, Index.held_of_find? hadd, hl.points_empty, Records.target, hi']
      rfl

/-- **`fetch_k2tree` serves the abstract store.** -/
theorem fetchK2tree_spec (p : UInt64) (h : CacheInv P init s recs) :
    ∃ r s', fetchK2tree P p s = (.ok r, s') ∧ CacheInv P init s' recs ∧
      r.doesExist = (recs.served P.ops init p).isSome ∧ r.result.map P.ops.points = recs.served P.ops init p := by
  -- what the first half finds
  obtain ⟨b, s₁, h1, h2, hb, hi⟩ : ∃ b s₁,
      (if s.index.predicates.contains p then pure true else loadSinglePredicate P p : Act Exn (Manager T) Bool) s =
        (.ok b, s₁) ∧ CacheInv P init s₁ recs ∧ (b = true ↔ init p ≠ none ∨ recs p ≠ []) ∧
      (init p ≠ none → s₁.index.predicates.contains p = true) := by
    cases hc : s.index.predicates.contains p with
    | true => exact ⟨true, s, rfl, h, by simpa using (h.index.loaded p hc).1, fun _ => hc⟩
    | false =>
      obtain ⟨b, s₁, h1, h2, h3, -, h4⟩ := loadSinglePredicate_spec hl p h
      exact ⟨b, s₁, h1, h2, h3, h4⟩
  cases b with
  | false =>
    have hn : init p = none ∧ recs p = [] := by
      have := mt hb.2 (by simp)
      rwa [not_or, not_not, not_not] at this
    refine ⟨⟨false, none⟩, s₁, ?_, h2, by simp [Records.served, hn], by simp [Records.served, hn]⟩
    rw [fetchK2tree, Act.get_bind, Act.bind_ok h1]
    rfl
  | true =>
    have hk := hb.1 rfl
    obtain ⟨s₂, h3, h4, h5⟩ := activateFromLog_spec hl h2 hk hi
    obtain ⟨t, ht⟩ := (OrdMap.contains_iff _).1 h5
    have hserved : recs.served P.ops init p = some (recs.target P.ops init p) := by
      rw [Records.served, if_neg]
      tauto
    refine ⟨⟨true, some t⟩, s₂, ?_, h4, by rw [hserved]; rfl, ?_⟩
    · rw [fetchK2tree, Act.get_bind, Act.bind_ok h1, if_pos rfl, Act.bind_ok h3, Act.get_bind, ht]
      rfl
    · rw [hserved, ← (h4.index.loaded p h5).2, Index.held_of_find? ht]
      rfl

end Manager

end K2Cache
