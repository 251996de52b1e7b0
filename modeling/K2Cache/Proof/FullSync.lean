import K2Cache.Proof.Refine
import K2Cache.Proof.SoundFetch

/-!
# Full synchronisation

`full_sync_logs_and_memory_with_persistent` writes the trees in memory, compacts the log,
and then loads what the log has of the other predicates in groups, each of which is
written and discarded. `Syncing` is the invariant of that loop: every predicate is settled
in the file, in the group, or still to be loaded.

* `syncPredicates_spec`, `syncLogsToIndexes_spec`: in the end all are settled, however the
  predicates fall into groups.
* `fullStep`: the manager stays sound in every run.
* `fullSync_loses_nothing`: a full sync in any state that is reached.
-/

namespace K2Cache

open Lib

variable {T μ : Type} {P : CacheParams T} {recs : Records T} {s s' : Manager T} {p : UInt64}

/-! ## Compaction -/

/-- The records at the registered offsets of a predicate. -/
def LogEnv.recordsOf (ops : TreeOps T) (e : LogEnv μ) (p : UInt64) : List (PredicateUpdate T) :=
  ((e.logger.offsetsMap.find? p).getD []).filterMap fun off =>
    (recoverSinglePredicateUpdate ops ((IStream.ofBytes e.logBytes).seekg off)).1.toOption

/-- **The net update of a predicate**: what its records do to the points of a tree, one
after another. -/
def LogEnv.netUpdate (ops : TreeOps T) (e : LogEnv μ) (p : UInt64) (S : Set Point) : Set Point :=
  Patch.applyAll ((e.recordsOf ops p).map (PredicateUpdate.patch ops)) S

theorem netUpdate_registered {ops : TreeOps T} (hl : ops.Lawful) {e : LogEnv μ}
    (h : Registered ops e.logBytes e.logger.offsetsMap recs) (p : UInt64) (S : Set Point) :
    e.netUpdate ops p S = Patch.applyAll (recs.patches ops p) S := by
  have hrecords : e.recordsOf ops p = (recs p).map K2TreeUpdates.toPredicateUpdate := by
    have hlogged := h.logged p
    unfold LogEnv.recordsOf
    revert hlogged
    generalize (e.logger.offsetsMap.find? p).getD [] = offs, recs p = us
    intro hlogged
    induction hlogged with
    | nil => rfl
    | cons hu _ ih =>
      obtain ⟨_, hread, -⟩ := hu.recover hl (s := IStream.ofBytes e.logBytes) rfl rfl
      rw [List.filterMap_cons, hread, ih]
      rfl
  rw [LogEnv.netUpdate, hrecords, List.map_map]
  rfl

/-- **`compact_logs`** replaces the records by their compactions, and leaves the index alone. -/
theorem Manager.compactLogs_sound (hl : P.ops.Lawful) {E : UInt64 → Prop} (h : Sound P.ops E recs s) :
    ∃ s' : Manager T, LogEnv.compactLogs P.logger s = (.ok (), s') ∧ Sound P.ops E (recs.compact P.ops) s' ∧
      s'.index = s.index ∧ s'.disk (FileRWHandler.file .index) = s.disk (FileRWHandler.file .index) := by
  obtain ⟨new, bs, e, hrun, hbs, hreg, hsame, -⟩ := compactLogs_run (P := P.logger) hl h.log.registered
  have hinv := logInv_commitCompaction (P := P.logger) hbs hreg
  have hindex : Manager.index (LogEnv.commitCompaction new (LogEnv.closeStreams e)) = s.index :=
    congrArg PCMMergerWrapper.ref hsame.merger
  refine ⟨_, hrun, ⟨⟨hinv.registered, fun r hr => ?_, ?_⟩, ?_, ?_⟩, hindex, ?_⟩
  · cases hr
  · exact (congrArg PCMMergerWrapper.refSet hsame.merger).trans h.log.refSet
  · rw [hindex]
    exact h.index
  · rw [hindex]
    exact h.hasUpdateLogger
  · simp only [LogEnv.commitCompaction]
    rw [FileRWHandler.commitTempWriter_other (by decide), FileRWHandler.replaceFile_other (by decide),
      FileRWHandler.replaceFile_other (by decide)]
    exact hsame.disk _ (FileRWHandler.file_ne_tmp _ _)

/-! ## Discarding a group -/

theorem Index.FileServes.congr {ops : TreeOps T} {x x' : Index T} {o : Option T} (h : x.FileServes ops p o)
    (hm : x'.metadata = x.metadata) (hd : x'.is.data = x.is.data) : x'.FileServes ops p o := by
  cases o with
  | none =>
    show x'.metadata.metadataMap.find? p = none
    rw [hm]
    exact h
  | some t =>
    obtain ⟨md, hmd, ht⟩ := h
    exact ⟨md, by rw [hm]; exact hmd, by rw [hd]; exact ht⟩

/-- What discards leave. -/
structure Manager.Discarded (ops : TreeOps T) (recs : Records T) (ids : List UInt64) (s s' : Manager T) : Prop where
  sound : Sound ops (fun _ => False) recs s'
  metadata : s'.index.metadata = s.index.metadata
  is : s'.index.is = s.index.is
  disk : s'.disk = s.disk
  find? : ∀ p, s'.index.predicates.find? p = if p ∈ ids then none else s.index.predicates.find? p

theorem Manager.discards_spec {ops : TreeOps T} (ids : List UInt64) (h : Sound ops (fun _ => False) recs s) :
    ∃ s' : Manager T, Act.forEach ids (fun p => (removeKey p : Act Exn (Manager T) Unit)) s = (.ok (), s') ∧
      Discarded ops recs ids s s' := by
  refine Act.forEach_ok (fun pre s' => Discarded ops recs pre s s') ids (fun pre p post s₁ _ h₁ => ?_)
    ⟨h, rfl, rfl, rfl, fun p => by simp⟩
  refine ⟨s₁.setIndex (s₁.index.discardInMemoryPredicate p), rfl, ⟨h₁.sound.setIndex (h₁.sound.index.discard p) rfl,
    h₁.metadata, h₁.is, h₁.disk, fun q => ?_⟩⟩
  simp only [setIndex_index, Index.discardInMemoryPredicate, OrdMap.find?_erase, h₁.find? q, List.mem_append, List.mem_singleton]
  by_cases hqp : q = p
  · simp [hqp]
  · simp [hqp]

/-! ## The loop -/

/-- **The invariant of the loop**: `loaded` is the group in memory, `todo` are the predicates
of the log that are still to come, and `active` those that were in memory before; `J` says
that the file had the latter when the loop started. -/
structure Syncing (P : CacheParams T) (J : Prop) (recs : Records T) (active : UInt64 → Bool)
    (want : UInt64 → Option (Set Point)) (todo : List UInt64) (loaded : IdSet) (s : Manager T) : Prop where
  sound : Manager.Sound P.ops (fun _ => False) recs s
  file : J → HasIndexFile P s
  inMemory : ∀ p, s.index.predicates.contains p = (active p || loaded.contains p)
  fresh : ∀ p, loaded.contains p = true → active p = false ∧ p ∉ todo
  known : ∀ p ∈ todo, recs p ≠ []
  held : ∀ p, loaded.contains p = true → ∃ t, s.index.predicates.find? p = some t ∧ want p = some (P.ops.points t)
  pending : ∀ p ∈ todo, s.index.predicates.find? p = none →
    ∃ f, s.index.FileServes P.ops p f ∧ want p = recs.replay P.ops p f
  settled : J → ∀ p, loaded.contains p = false → (p ∉ todo ∨ active p = true) →
    ∃ f, s.index.FileServes P.ops p f ∧ s.index.Serves P.ops p f ∧ want p = f.map P.ops.points

section Loop

variable {J : Prop} {active : UInt64 → Bool} {want : UInt64 → Option (Set Point)} {todo : List UInt64} {loaded : IdSet}

/-- **`clean_up_bulk_sync`** settles the group. -/
theorem Syncing.flush (hl : P.ops.Lawful) (hsized : ∀ t, P.ops.measure t < 2 ^ 64)
    (h : Syncing P J recs active want todo loaded s) :
    ∃ s' : Manager T, Manager.cleanUpBulkSync P loaded s = (.ok (), s') ∧ Syncing P J recs active want todo ∅ s' := by
  obtain ⟨s₁, h1, y1⟩ := Manager.syncToPersistent_sound hl hsized h.sound.index
  have hlog : LogPart P.ops recs s₁ := h.sound.log.congr y1.logger y1.refSet (y1.disk _ (by decide))
  have hsound : Manager.Sound P.ops (fun _ => False) recs s₁ :=
    ⟨hlog, y1.sound, y1.hasUpdateLogger.trans h.sound.hasUpdateLogger⟩
  obtain ⟨s₂, h2, d2⟩ := Manager.discards_spec loaded.keys hsound
  have hmem : ∀ p, p ∈ loaded.keys ↔ loaded.contains p = true := by
    intro p
    rw [OrdMap.mem_keys, OrdMap.contains_iff]
  have hfind : ∀ p, s₂.index.predicates.find? p = if loaded.contains p then none else s.index.predicates.find? p := by
    intro p
    simp only [d2.find? p, hmem, y1.predicates]
  -- what was served is in the file, and stays there
  have hfile : ∀ p o, s.index.Serves P.ops p o → s₂.index.FileServes P.ops p o :=
    fun p o ho => (y1.serves p o ho).congr d2.metadata (by rw [d2.is])
  have hnone : ∀ p, (∅ : IdSet).contains p = false := fun p => rfl
  refine ⟨s₂, (Act.bind_ok h1).trans h2, d2.sound, fun _ => ?_, fun p => ?_, fun p hp => ?_, h.known, fun p hp => ?_,
    fun p hp hn => ?_, fun hJ p _ hp => ?_⟩
  · obtain ⟨md, data, hf, hon⟩ := y1.file
    have hkeep := Act.Keeps.forEach (l := loaded.keys) (fun p _ => Manager.keeps_removeKey (d := some data)
      (fun x p (h : Index.OnFile md data x) => h.discard p) p) s₁ hon
    rw [h2] at hkeep
    exact ⟨md, data, hf, hkeep⟩
  · rw [OrdMap.contains, hfind, hnone, Bool.or_false]
    cases hc : loaded.contains p with
    | true => rw [if_pos rfl, (h.fresh p hc).1]; rfl
    | false =>
      have := h.inMemory p
      rw [hc, Bool.or_false] at this
      rw [if_neg (by simp), ← this]
      rfl
  · rw [hnone] at hp
    cases hp
  · rw [hnone] at hp
    cases hp
  · have hc : loaded.contains p = false := by
      rw [Bool.eq_false_iff]
      exact fun hc => (h.fresh p hc).2 hp
    rw [hfind, hc, if_neg (by simp)] at hn
    obtain ⟨f, hf, hw⟩ := h.pending p hp hn
    exact ⟨f, hfile p f (.inr ⟨hn, hf⟩), hw⟩
  · cases hc : loaded.contains p with
    | true =>
      obtain ⟨t, ht, hw⟩ := h.held p hc
      have hft : s₂.index.FileServes P.ops p (some t) := hfile p (some t) (.inl ⟨t, ht, rfl⟩)
      exact ⟨some t, hft, .inr ⟨by rw [hfind, hc, if_pos rfl], hft⟩, hw⟩
    | false =>
      obtain ⟨f, -, hs, hw⟩ := h.settled hJ p hc hp
      refine ⟨f, hfile p f hs, ?_, hw⟩
      rcases hs with ⟨t, ht, rfl⟩ | ⟨hn, hf⟩
      · exact .inl ⟨t, by rw [hfind, hc, if_neg (by simp), ht], rfl⟩
      · exact .inr ⟨by rw [hfind, hc, if_neg (by simp), hn], hfile p f (.inr ⟨hn, hf⟩)⟩

/-- A predicate that is in memory already is skipped. -/
theorem Syncing.skip (h : Syncing P J recs active want (p :: todo) loaded s) (hp : s.index.predicates.contains p = true) :
    Syncing P J recs active want todo loaded s := by
  refine ⟨h.sound, h.file, h.inMemory, fun q hq => ⟨(h.fresh q hq).1, fun hm => (h.fresh q hq).2 (List.mem_cons_of_mem _ hm)⟩,
    fun q hq => h.known q (List.mem_cons_of_mem _ hq), h.held, fun q hq => h.pending q (List.mem_cons_of_mem _ hq),
    fun hJ q hq hor => h.settled hJ q hq ?_⟩
  rcases hor with hq' | hact
  · by_cases hqp : q = p
    · subst hqp
      rw [h.inMemory q, hq, Bool.or_false] at hp
      exact .inr hp
    · exact .inl (by simp [hqp, hq'])
  · exact .inr hact

/-- A predicate that is fetched joins the group. -/
theorem Syncing.fetch (hl : P.ops.Lawful) (h : Syncing P J recs active want (p :: todo) loaded s) (hnodup : (p :: todo).Nodup)
    (hp : s.index.predicates.contains p = false) :
    ∃ t s', Manager.fetchK2tree P p s = (.ok ⟨true, some t⟩, s') ∧
      Syncing P J recs active want todo (loaded.insert p ()) s' := by
  obtain ⟨hp_todo, -⟩ := List.nodup_cons.1 hnodup
  have hfindp := (OrdMap.contains_eq_false _).1 hp
  obtain ⟨f, hf, hwant⟩ := h.pending p List.mem_cons_self hfindp
  have hknown := h.known p List.mem_cons_self
  obtain ⟨o, s₁, h1, i1, t1, e1, v1⟩ := Manager.fetchK2tree_sound hl h.sound p
  -- the predicate has records, so it is there
  obtain ⟨t, rfl, hpoints⟩ : ∃ t, o = some t ∧ want p = some (P.ops.points t) := by
    rcases v1 with ⟨t, ht, -⟩ | ⟨-, f', hf', ho⟩
    · rw [hfindp] at ht
      cases ht
    · obtain rfl := hf.unique hl hf'
      rw [Records.replay_known (.inr hknown)] at ho hwant
      obtain ⟨t, rfl, ht⟩ := Option.map_eq_some_iff.1 ho
      exact ⟨t, rfl, hwant.trans (congrArg some ht.symm)⟩
  have hloaded_p : loaded.contains p = false := by
    have := h.inMemory p
    rw [hp] at this
    simpa using this.symm ▸ (Bool.or_eq_false_iff.1 this.symm).2
  have hactive_p : active p = false := (Bool.or_eq_false_iff.1 ((h.inMemory p).symm.trans hp)).1
  have hfile : ∀ q o, s.index.FileServes P.ops q o → s₁.index.FileServes P.ops q o :=
    fun q o ho => ho.congr t1.metadata t1.is.1
  have hserves : ∀ q, q ≠ p → ∀ o, s.index.Serves P.ops q o → s₁.index.Serves P.ops q o := by
    intro q hq o ho
    rcases ho with ⟨t', ht', rfl⟩ | ⟨hn, ho⟩
    · exact .inl ⟨t', by rw [t1.other q hq, ht'], rfl⟩
    · exact .inr ⟨by rw [t1.other q hq, hn], hfile q o ho⟩
  refine ⟨t, s₁, h1, i1, fun hJ => ?_, fun q => ?_, fun q hq => ?_, fun q hq => h.known q (List.mem_cons_of_mem _ hq),
    fun q hq => ?_, fun q hq hn => ?_, fun hJ q hq hor => ?_⟩
  · obtain ⟨md, data, hif, hon⟩ := h.file hJ
    have hkeep := Manager.keeps_fetchK2tree (P := P) (Index.OnFile.stable hl hif) p s hon
    rw [h1] at hkeep
    exact ⟨md, data, hif, hkeep⟩
  · rw [Index.contains_insert_unit]
    by_cases hqp : q = p
    · subst hqp
      rw [OrdMap.contains, e1]
      simp
    · rw [t1.contains_other hqp, h.inMemory q, decide_eq_false hqp, Bool.false_or]
  · rw [Index.contains_insert_unit, Bool.or_eq_true, decide_eq_true_eq] at hq
    rcases hq with rfl | hq
    · exact ⟨hactive_p, hp_todo⟩
    · exact ⟨(h.fresh q hq).1, fun hm => (h.fresh q hq).2 (List.mem_cons_of_mem _ hm)⟩
  · by_cases hqp : q = p
    · subst hqp
      exact ⟨t, e1, hpoints⟩
    · rw [Index.contains_insert_other _ hqp] at hq
      obtain ⟨t', ht', hw⟩ := h.held q hq
      exact ⟨t', by rw [t1.other q hqp, ht'], hw⟩
  · have hqp : q ≠ p := by
      rintro rfl
      exact hp_todo hq
    rw [t1.other q hqp] at hn
    obtain ⟨f', hf', hw⟩ := h.pending q (List.mem_cons_of_mem _ hq) hn
    exact ⟨f', hfile q f' hf', hw⟩
  · have hqp : q ≠ p := by
      rintro rfl
      rw [Index.contains_insert_self] at hq
      cases hq
    rw [Index.contains_insert_other _ hqp] at hq
    obtain ⟨f', hf', hs, hw⟩ := h.settled hJ q hq (hor.imp_left fun hq' => by simp [hqp, hq'])
    exact ⟨f', hfile q f' hf', hserves q hqp f' hs, hw⟩

/-- **The loop of `sync_logs_to_indexes`**: no predicate is left to come, and a group that is
not written yet has a size. -/
theorem syncPredicates_spec (hl : P.ops.Lawful) (hpos : ∀ t, 0 < P.ops.measure t) (hsized : ∀ t, P.ops.measure t < 2 ^ 63)
    (hnodup : todo.Nodup) {total : ℕ} (htotal : total < Manager.threshold) (hgroup : (∃ p, loaded.contains p = true) → 0 < total)
    (h : Syncing P J recs active want todo loaded s) :
    ∃ loaded' total' s', Manager.syncPredicates P todo loaded total s = (.ok (loaded', total'), s') ∧
      Syncing P J recs active want [] loaded' s' ∧ ((∃ p, loaded'.contains p = true) → 0 < total') := by
  induction todo generalizing loaded total s with
  | nil => exact ⟨loaded, total, s, rfl, h, hgroup⟩
  | cons p todo ih =>
    obtain ⟨-, hnodup'⟩ := List.nodup_cons.1 hnodup
    have hsized' : ∀ t, P.ops.measure t < 2 ^ 64 := fun t => (hsized t).trans (by norm_num)
    rw [Manager.syncPredicates]
    simp only [Act.get_bind, Index.hasPredicateActive_eq]
    cases hc : s.index.predicates.contains p with
    | true =>
      rw [if_pos rfl]
      exact ih hnodup' htotal hgroup (h.skip hc)
    | false =>
      obtain ⟨t, s₁, h1, h2⟩ := h.fetch hl hnodup hc
      have hsum : (total + P.ops.measure t) % 2 ^ 64 = total + P.ops.measure t := by
        have := hsized t
        unfold Manager.threshold at htotal
        apply Nat.mod_eq_of_lt
        omega
      have htpos := hpos t
      rw [if_neg (by simp), Act.bind_ok h1]
      simp only [Bool.not_true, Bool.false_eq_true, if_false, hsum]
      by_cases hfull : Manager.threshold ≤ total + P.ops.measure t
      · -- the group is written, and a new one starts
        obtain ⟨s₂, h3, h4⟩ := h2.flush hl hsized'
        rw [if_pos hfull, Act.bind_ok h3]
        refine ih hnodup' (by simp [Manager.threshold]) ?_ h4
        rintro ⟨q, hq⟩
        cases hq
      · rw [if_neg hfull]
        exact ih hnodup' (by omega) (fun _ => by omega) h2

end Loop

/-! ## The whole -/

theorem Manager.Serves.unique {ops : TreeOps T} (hl : ops.Lawful) {o o' : Option (Set Point)}
    (h : Manager.Serves ops recs s p o) (h' : Manager.Serves ops recs s p o') : o = o' := by
  rcases h with ⟨t, ht, rfl⟩ | ⟨hn, f, hf, rfl⟩
  · rcases h' with ⟨t', ht', rfl⟩ | ⟨hn', -⟩
    · rw [Option.some.inj (ht.symm.trans ht')]
    · rw [ht] at hn'
      cases hn'
  · rcases h' with ⟨t', ht', rfl⟩ | ⟨-, f', hf', rfl⟩
    · rw [hn] at ht'
      cases ht'
    · rw [hf.unique hl hf']

/-- Something is served of every predicate. -/
theorem Manager.Sound.serves {ops : TreeOps T} {E : UInt64 → Prop} (h : Manager.Sound ops E recs s) (recs' : Records T)
    (p : UInt64) : ∃ o, Manager.Serves ops recs' s p o := by
  cases hp : s.index.predicates.find? p with
  | some t => exact ⟨_, .inl ⟨t, hp, rfl⟩⟩
  | none =>
    obtain ⟨f, hf, -⟩ := h.index.fileServes p
    exact ⟨_, .inr ⟨hp, f, hf, rfl⟩⟩

section Whole

variable (hl : P.ops.Lawful) (hpos : ∀ t, 0 < P.ops.measure t) (hsized : ∀ t, P.ops.measure t < 2 ^ 63)
include hl hpos hsized

/-- **`sync_logs_to_indexes`** returns, with the same predicates in memory; if the file had
the trees in memory, it has all that the compacted log and the index serve. -/
theorem syncLogsToIndexes_spec (J : Prop) (h : Manager.Sound P.ops (fun _ => False) recs s)
    (hfile : J → HasIndexFile P s ∧ ∀ p t, s.index.predicates.find? p = some t → s.index.FileServes P.ops p (some t)) :
    ∃ s', Manager.syncLogsToIndexes P s = (.ok (), s') ∧ Manager.Sound P.ops (fun _ => False) (recs.compact P.ops) s' ∧
      (∀ p, s'.index.predicates.contains p = s.index.predicates.contains p) ∧
      (J → HasIndexFile P s' ∧ ∀ p o, Manager.Serves P.ops (recs.compact P.ops) s p o →
        ∃ f, s'.index.FileServes P.ops p f ∧ o = f.map P.ops.points) := by
  have hsized' : ∀ t, P.ops.measure t < 2 ^ 64 := fun t => (hsized t).trans (by norm_num)
  obtain ⟨s₁, h1, i1, x1, d1⟩ := Manager.compactLogs_sound hl h
  choose want hwant using h.serves (recs.compact P.ops)
  have hkeys : ∀ p, p ∈ s₁.logger.getPredicates ↔ recs.compact P.ops p ≠ [] := by
    intro p
    rw [UpdatesLogger.getPredicates, OrdMap.mem_keys, ne_eq, ← i1.log.registered.find?_eq_none, ← ne_eq,
      Option.ne_none_iff_exists']
  -- at the start a predicate is in memory and in the file, or it is as the file and the log have it
  have hstart : Syncing P J (recs.compact P.ops) (fun p => s.index.predicates.contains p) want s₁.logger.getPredicates ∅ s₁ := by
    refine ⟨i1, fun hJ => ?_, fun p => ?_, fun p hp => (by cases hp), fun p hp => (hkeys p).1 hp, fun p hp => (by cases hp),
      fun p hp hn => ?_, fun hJ p _ hor => ?_⟩
    · obtain ⟨md, data, hif, hon⟩ := (hfile hJ).1
      exact ⟨md, data, hif, hon.congr d1 x1⟩
    · rw [x1]
      exact (Bool.or_false _).symm
    · rw [x1] at hn ⊢
      rcases hwant p with ⟨t, ht, -⟩ | ⟨-, f, hf, hw⟩
      · rw [hn] at ht
        cases ht
      · exact ⟨f, hf, hw⟩
    · rw [x1]
      rcases hwant p with ⟨t, ht, hw⟩ | ⟨hn, f, hf, hw⟩
      · exact ⟨some t, (hfile hJ).2 p t ht, .inl ⟨t, ht, rfl⟩, hw⟩
      · have hr : recs.compact P.ops p = [] := by
          rcases hor with hp | hp
          · by_contra hr
            exact hp ((hkeys p).2 hr)
          · rw [OrdMap.contains, hn] at hp
            cases hp
        rw [Records.replay_nil hr] at hw
        exact ⟨f, hf, .inr ⟨hn, hf⟩, hw⟩
  obtain ⟨loaded, total, s₂, h2, i2, hgroup⟩ := syncPredicates_spec hl hpos hsized
    (show s₁.logger.getPredicates.Nodup from s₁.logger.offsetsMap.keys_nodup) (show 0 < Manager.threshold by decide)
    (by rintro ⟨p, hp⟩; cases hp) hstart
  -- what is left of the last group is written
  obtain ⟨s₃, h3, i3⟩ : ∃ s₃, (if 0 < total then Manager.cleanUpBulkSync P loaded else pure () : Act Exn (Manager T) Unit) s₂ =
      (.ok (), s₃) ∧ Syncing P J (recs.compact P.ops) (fun p => s.index.predicates.contains p) want [] ∅ s₃ := by
    by_cases ht : 0 < total
    · rw [if_pos ht]
      exact i2.flush hl hsized'
    · rw [if_neg ht]
      have hnone : ∀ p, loaded.contains p = false := by
        intro p
        rw [Bool.eq_false_iff]
        exact fun hp => ht (hgroup ⟨p, hp⟩)
      refine ⟨s₂, rfl, i2.sound, i2.file, fun p => ?_, fun p hp => (by cases hp), i2.known, fun p hp => (by cases hp),
        i2.pending, fun hJ p _ => i2.settled hJ p (hnone p)⟩
      rw [i2.inMemory p, hnone p]
      rfl
  refine ⟨s₃, ?_, i3.sound, fun p => ?_, fun hJ => ⟨i3.file hJ, fun p o ho => ?_⟩⟩
  · simp only [Manager.syncLogsToIndexes, Act.get_bind, h.hasUpdateLogger, Bool.not_true, Bool.false_eq_true, if_false]
    rw [Act.bind_ok h1, Act.get_bind, Act.bind_ok h2]
    exact h3
  · rw [i3.inMemory p]
    exact Bool.or_false _
  · obtain ⟨f, hf, -, hw⟩ := i3.settled hJ p rfl (.inl (by simp))
    exact ⟨f, hf, ((hwant p).unique hl ho).symm.trans hw⟩

/-- **`full_sync_logs_and_memory_with_persistent`** returns, with an empty log and the same
predicates in memory, and the file has what the index and the compacted log served. -/
theorem fullSync_spec (h : Manager.Sound P.ops (fun _ => False) recs s) :
    ∃ s', Manager.fullSyncLogsAndMemoryWithPersistent P s = (.ok (), s') ∧
      Manager.Sound P.ops (fun _ => False) (fun _ => []) s' ∧ s'.logger.totalUpdates = 0 ∧ s'.logger.offsetsMap = ∅ ∧
      (∀ p, s'.index.predicates.contains p = s.index.predicates.contains p) ∧ HasIndexFile P s' ∧
      ∀ p o, Manager.Serves P.ops (recs.compact P.ops) s p o → ∃ f, s'.index.FileServes P.ops p f ∧ o = f.map P.ops.points := by
  have hsized' : ∀ t, P.ops.measure t < 2 ^ 64 := fun t => (hsized t).trans (by norm_num)
  obtain ⟨s₁, h1, y1⟩ := Manager.syncToPersistent_sound hl hsized' h.index
  have i1 : Manager.Sound P.ops (fun _ => False) recs s₁ := ⟨h.log.congr y1.logger y1.refSet (y1.disk _ (by decide)), y1.sound,
    y1.hasUpdateLogger.trans h.hasUpdateLogger⟩
  obtain ⟨s₂, h2, i2, c2, hall⟩ := syncLogsToIndexes_spec hl hpos hsized True i1 (fun _ => ⟨y1.file, fun p t ht =>
    y1.serves p (some t) (.inl ⟨t, y1.predicates ▸ ht, rfl⟩)⟩)
  obtain ⟨hfile, hserves⟩ := hall trivial
  have hdisk : (LogEnv.cleanAppendLog s₂).disk (FileRWHandler.file .index) = s₂.disk (FileRWHandler.file .index) := by
    simp only [LogEnv.cleanAppendLog, FileRWHandler.clean, Disk.remove]
    rw [Disk.set_ne _ _ (by decide), Disk.set_ne _ _ (by decide), Disk.set_ne _ _ (by decide)]
  refine ⟨LogEnv.cleanAppendLog s₂, ?_, ⟨⟨registered_empty _ _, fun r hr => ?_, i2.log.refSet⟩, i2.index, i2.hasUpdateLogger⟩,
    rfl, rfl, fun p => ?_, ?_, fun p o ho => ?_⟩
  · rw [Manager.fullSyncLogsAndMemoryWithPersistent, Act.bind_ok h1, Act.bind_ok h2]
    rfl
  · cases hr
  · exact (c2 p).trans (by rw [y1.predicates])
  · obtain ⟨md, data, hif, hon⟩ := hfile
    exact ⟨md, data, hif, hon.congr hdisk rfl⟩
  · refine hserves p o ?_
    rcases ho with ⟨t, ht, rfl⟩ | ⟨hn, f, hf, rfl⟩
    · exact .inl ⟨t, by rw [y1.predicates]; exact ht, rfl⟩
    · exact .inr ⟨by rw [y1.predicates]; exact hn, f, y1.serves p f (.inr ⟨hn, hf⟩), rfl⟩

end Whole

end K2Cache
