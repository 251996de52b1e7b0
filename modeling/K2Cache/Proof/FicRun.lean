import K2Cache.Proof.FicMerge
import K2Cache.Proof.LoadAll
import K2Cache.Proof.MemoryBudget

/-!
# The indexed cache over whole runs

An indexed predicate is fresh if it has the points that are served (`Fresh`). A fetch and a
replay of the log merge into predicates in memory, which syncs them; evictions only take away.
A `log` merges into the predicates in memory alone: an indexed predicate that is not in memory
stays as it is while its updates go to the log.

* `fetchK2tree_inv`, `log_inv`, `loadAll_inv`, `initStreamerPredicates_inv`: what each call
  does to the manager, and that it keeps the indexed cache fresh.
* `fic_fresh`: the indexed cache is fresh in every run whose logs leave the points of evicted
  predicates as they are.
-/

namespace K2Cache

open Lib

variable {T : Type} {P : CacheParams T} {init : Store} {recs : Records T} {replays : Prop}

/-- **No indexed predicate is stale**: each has the pairs that are served. -/
def Fresh (served : Store) (c : FullyIndexedCache) : Prop :=
  ∀ p src, c.get p = some src → ∃ S, served p = some S ∧ src.Indexes S

theorem Fresh.removeKey {served : Store} {c : FullyIndexedCache} (h : Fresh served c) (p : UInt64) :
    Fresh served (c.removeKey p) := by
  intro q src hsrc
  rw [FullyIndexedCache.get_removeKey] at hsrc
  split at hsrc
  · cases hsrc
  · exact h q src hsrc

theorem Fresh.setSource {served : Store} {c : FullyIndexedCache} (h : Fresh served c) {p : UInt64} {S : Set Point}
    {src : FullyIndexedPredicate} (hS : served p = some S) (hsrc : src.Indexes S) : Fresh served (c.setSource p src) := by
  intro q src' hget
  rw [FullyIndexedCache.get_setSource] at hget
  split at hget
  · rename_i hqp
    obtain rfl := Option.some.inj hget
    exact ⟨S, by rw [hqp, hS], hsrc⟩
  · exact h q src' hget

/-! ## What is served -/

theorem Records.served_known {ops : TreeOps T} {p : UInt64} (hk : init p ≠ none ∨ recs p ≠ []) :
    recs.served ops init p = some (recs.target ops init p) := by
  rw [Records.served, if_neg]
  tauto

/-- A tree in memory has the points that are served. -/
theorem CacheInv.served_loaded {m : Manager T} (h : CacheInv P init m recs) {p : UInt64} {t : T}
    (ht : m.index.predicates.find? p = some t) : recs.served P.ops init p = some (P.ops.points t) := by
  obtain ⟨hk, he⟩ := h.index.loaded p ((OrdMap.contains_iff _).2 ⟨t, ht⟩)
  rw [Records.served_known hk, ← he, Index.held_of_find? ht]

/-- More records act on what is served. -/
theorem Records.served_pushAll {ops : TreeOps T} {p : UInt64} {S : Set Point} (h : recs.served ops init p = some S)
    (us : List (K2TreeUpdates T)) :
    (recs.pushAll us).served ops init p = some (Patch.applyAll ((Index.updatesOf us p).map (K2TreeUpdates.patch ops)) S) := by
  have hk : init p ≠ none ∨ recs p ≠ [] := by
    by_contra hn
    rw [not_or, not_not, not_not] at hn
    rw [Records.served, if_pos hn] at h
    cases h
  obtain rfl : recs.target ops init p = S := Option.some.inj ((Records.served_known hk).symm.trans h)
  have hk' : init p ≠ none ∨ recs.pushAll us p ≠ [] := by
    refine hk.imp_right fun hr => ?_
    rw [Records.pushAll_updatesOf]
    simp [hr]
  rw [Records.served_known hk', Records.target, Records.patches, Records.pushAll_updatesOf, List.map_append,
    Patch.applyAll_append]
  rfl

namespace FicManager

/-! ## Fetches and replays -/

/-- An indexed cache that has been synced with the trees in memory only is as fresh as it was. -/
theorem fresh_of_since (hl : P.ops.Lawful) {s : FicManager T} (h : CacheInv P init s.manager recs) {c : FullyIndexedCache}
    (hc : Fresh (recs.served P.ops init) c) (hs : FicIndex.Since P.ops c s.merger.ref) :
    Fresh (recs.served P.ops init) s.fic := by
  intro p src hsrc
  rcases hs p src hsrc with hold | ⟨t, ht, rfl⟩
  · exact hc p src hold
  · exact ⟨_, h.served_loaded ht, FullyIndexedPredicate.indexes_construct hl t⟩

/-- A tree added to memory syncs nothing. -/
theorem since_addPredicate {c : FullyIndexedCache} {s : FicManager T} {p : UInt64} (h : FicIndex.Since P.ops c s.merger.ref)
    (hp : s.index.predicates.find? p = none) :
    FicIndex.Since P.ops c (s.setIndex (s.index.addPredicate P.ops p)).merger.ref := by
  intro q src hsrc
  rcases h q src hsrc with hold | ⟨t, ht, rfl⟩
  · exact .inl hold
  · refine .inr ⟨t, ?_, rfl⟩
    have hqp : q ≠ p := by
      rintro rfl
      have : s.index.predicates.find? q = some t := ht
      rw [hp] at this
      cases this
    exact ((Index.touches_addPredicate P.ops s.index p).other q hqp).trans ht

theorem since_loadSinglePredicate (p : UInt64) (s : FicManager T) :
    FicIndex.Since P.ops s.fic (loadSinglePredicate P p s).2.merger.ref := by
  have hkeep : Act.Keeps (fun s' : FicManager T => FicIndex.Since P.ops s.fic s'.merger.ref) (do
      Act.when (s.manager.isStoredInUpdatesLog p) (LogEnv.recoverPredicate P.ficLogger p)
      pure true : Act Exn (FicManager T) Bool) :=
    (Act.Keeps.when ((ficLogger_keeps FicIndex.keeps_since).recoverPredicate p)).bind fun _ => Act.keeps_pure _
  unfold loadSinglePredicate
  rw [Act.get_bind]
  split
  · -- the tree of the file comes first, and syncs nothing
    rcases hx : Act.when (s.index.isStoredInMainIndex p) (onIndex (Index.loadFromMainIndex P.ops p)) s with ⟨r, s₁⟩
    have hfic : s₁.fic = s.fic := by
      cases hm : s.index.isStoredInMainIndex p with
      | true =>
        rw [hm] at hx
        exact congrArg (fun y => FicManager.fic y.2) hx.symm
      | false =>
        rw [hm] at hx
        exact congrArg (fun y => FicManager.fic y.2) hx.symm
    have hsince : FicIndex.Since P.ops s.fic s₁.merger.ref := fun q src hsrc => .inl (hfic ▸ hsrc)
    cases r with
    | ok _ =>
      rw [Act.bind_ok hx]
      exact hkeep s₁ hsince
    | error e =>
      rw [Act.bind_error hx]
      exact hsince
  · exact fun q src hsrc => .inl hsrc

theorem since_activateFromLog {c : FullyIndexedCache} (p : UInt64) :
    Act.Keeps (fun s : FicManager T => FicIndex.Since P.ops c s.merger.ref) (activateFromLog P p) := by
  intro s h
  unfold activateFromLog
  rw [Act.get_bind]
  split
  · rename_i hact
    have hnone : s.index.predicates.find? p = none := by
      rw [Index.hasPredicateActive_eq] at hact
      refine (OrdMap.contains_eq_false _).1 ?_
      revert hact
      cases s.index.predicates.contains p <;> simp
    have hon : onIndex (Act.modify fun x => x.addPredicate P.ops p) s = (.ok (), s.setIndex (s.index.addPredicate P.ops p)) := rfl
    rw [Act.bind_ok hon]
    exact (ficLogger_keeps FicIndex.keeps_since).recoverPredicate p _ (since_addPredicate h hnone)
  · exact h

theorem since_fetchK2tree (p : UInt64) (s : FicManager T) : FicIndex.Since P.ops s.fic (fetchK2tree P p s).2.merger.ref := by
  have hkeep : ∀ found : Bool, Act.Keeps (fun s' : FicManager T => FicIndex.Since P.ops s.fic s'.merger.ref) (do
      if found then
        activateFromLog P p
        let s' ← Act.get
        pure ⟨true, s'.index.predicates.find? p⟩
      else pure ⟨false, none⟩ : Act Exn (FicManager T) (PredicateFetchResult T)) := by
    intro found
    cases found with
    | true => exact (since_activateFromLog p).bind fun _ => Act.keeps_get.bind fun _ => Act.keeps_pure _
    | false => exact Act.keeps_pure _
  unfold fetchK2tree
  rw [Act.get_bind]
  cases hc : s.index.predicates.contains p with
  | true =>
    rw [if_pos rfl, Act.pure_bind_run]
    exact hkeep true s (FicIndex.Since.refl _)
  | false =>
    have hload := since_loadSinglePredicate (P := P) p s
    rw [if_neg (by simp)]
    rcases hx : loadSinglePredicate P p s with ⟨r, s₁⟩
    rw [hx] at hload
    cases r with
    | ok found =>
      rw [Act.bind_ok hx]
      exact hkeep found s₁ hload
    | error e =>
      rw [Act.bind_error hx]
      exact hload

end FicManager

/-! ## The invariant -/

/-- **The invariant of a run**; `replays` says that all predicates may be loaded at once. -/
structure FicInv (P : CacheParams T) (init : Store) (replays : Prop) (s : FicManager T) (recs : Records T) : Prop where
  cache : CacheInv P init s.manager recs
  replayable : replays → Manager.Replayable P recs s.manager
  fresh : Fresh (recs.served P.ops init) s.fic

/-- An indexed predicate that is not in memory keeps its pairs under a batch. -/
def KeepsEvicted (ops : TreeOps T) (us : List (K2TreeUpdates T)) (s : FicManager T) : Prop :=
  ∀ p src, s.fic.get p = some src → s.index.hasPredicateActive p = false →
    Patch.applyAll ((Index.updatesOf us p).map (K2TreeUpdates.patch ops)) src.pairs = src.pairs

/-- The log file loses nothing when it is opened to write: it is open, is opened to append, or
nothing was logged. -/
def LosesNoLog (P : CacheParams T) (replays : Prop) (s : FicManager T) : Prop :=
  P.logMode.app = true ∨ s.logger.writerOpen = true ∨ (s.logger.offsetsMap = ∅ ∧ (replays → s.logger.totalUpdates = 0))

/-- **When a call leaves the indexed cache fresh.** -/
def FicOp.Safe (P : CacheParams T) (replays : Prop) (s : FicManager T) : FicOp T → Prop
  | log us => LosesNoLog P replays s ∧ KeepsEvicted P.ops us s ∧
      (replays → FullBatch us ∧ s.logger.totalUpdates + 1 < 2 ^ 31)
  | loadAllPredicates => replays ∧ ∀ r, s.logger.reader = some r → r.pos = 0
  | _ => True

/-- The records after a call. -/
def FicOp.records (recs : Records T) : FicOp T → Records T
  | log us => recs.pushAll us
  | _ => recs

namespace FicManager

variable {s : FicManager T} (hl : P.ops.Lawful)
include hl

/-- **`fetch_k2tree`.** -/
theorem fetchK2tree_inv (p : UInt64) (h : FicInv P init replays s recs) :
    ∃ r s', fetchK2tree P p s = (.ok r, s') ∧ FicInv P init replays s' recs ∧
      r.doesExist = (recs.served P.ops init p).isSome ∧ r.result.map P.ops.points = recs.served P.ops init p := by
  obtain ⟨r, m', hm, hcache, hr⟩ := Manager.fetchK2tree_spec hl p h.cache
  obtain ⟨s', hs', rfl⟩ := (erases_fetchK2tree p).returns hm
  refine ⟨r, s', hs', ⟨hcache, fun hrep => ?_, ?_⟩, hr⟩
  · have hkeep := (h.replayable hrep).fetchK2tree hl h.cache p
    rwa [hm] at hkeep
  · have hsince := since_fetchK2tree (P := P) p s
    rw [hs'] at hsince
    exact fresh_of_since hl hcache h.fresh hsince

/-- **`load_all_predicates`**, from the start of the log. -/
theorem loadAll_inv (h : FicInv P init replays s recs) (hrep : replays) (h0 : ∀ r, s.logger.reader = some r → r.pos = 0) :
    ∃ s', loadAllPredicates P s = (.ok (), s') ∧ FicInv P init replays s' recs := by
  obtain ⟨m', hm, hcache, hreplay⟩ := Manager.loadAllPredicates_spec hl h.cache (h.replayable hrep) h0
  obtain ⟨s', hs', rfl⟩ := erases_loadAllPredicates.returns hm
  refine ⟨s', hs', hcache, fun _ => hreplay, fresh_of_since hl hcache h.fresh ?_⟩
  -- the trees of the file come first, and sync nothing
  rcases hx : onIndex (Index.loadAllFromMainIndex P.ops) s with ⟨r, s₁⟩
  have hfic : s₁.fic = s.fic := congrArg (fun y => FicManager.fic y.2) hx.symm
  have hsince : FicIndex.Since P.ops s.fic s₁.merger.ref := fun q src hsrc => .inl (hfic ▸ hsrc)
  rw [loadAllPredicates] at hs'
  cases r with
  | ok _ =>
    rw [Act.bind_ok hx, Act.get_bind] at hs'
    have hkeep := Act.Keeps.when (b := s₁.index.hasUpdateLogger)
      (ficLogger_keeps (P := P) (FicIndex.keeps_since (c := s.fic))).recoverAll s₁ hsince
    rwa [hs'] at hkeep
  | error e =>
    rw [Act.bind_error hx] at hs'
    cases hs'

/-- **`log`**, if it keeps the log file and leaves the evicted predicates as they are indexed. -/
theorem log_inv (us : List (K2TreeUpdates T)) (h : FicInv P init replays s recs) (hsafe : (FicOp.log us).Safe P replays s) :
    ∃ s', LogEnv.log P.ficLogger us s = (.ok (), s') ∧ FicInv P init replays s' (recs.pushAll us) := by
  obtain ⟨hfile, hevicted, hfull⟩ := hsafe
  obtain ⟨x', hx, hsame, hmerged⟩ := Index.mergeUpdate_spec hl s.manager.index us
  have hlog := Manager.log_forward (P := P) h.cache.log.refSet hx
  obtain ⟨m', hm, hcache⟩ := Manager.log_spec hl us h.cache
    (h.cache.log.registered.openWriter (P := P.logger) (hfile.imp_right (Or.imp_right And.left)))
  have hindex : Manager.index m' = x' := by
    rw [hlog] at hm
    exact congrArg (fun y => Manager.index y.2) hm.symm
  obtain ⟨s', hs', rfl⟩ := (erases_log us).returns hm
  refine ⟨s', hs', hcache, fun hrep => ?_, fun p src hsrc => ?_⟩
  · obtain ⟨hb, hn⟩ := hfull hrep
    have hlogged := (h.replayable hrep).logged hb hn (hfile.imp_right (Or.imp_right fun h0 => h0.2 hrep))
      h.cache.log.refSet hx hsame
    rwa [hm] at hlogged
  · have hsynced : FicIndex.Synced P.ops s'.merger.ref := by
      have hkeep := (ficLogger_keeps (P := P) (FicIndex.keeps_synced hl)).log us s fun q t src ht hsrc => by
        obtain ⟨S, hS, hi⟩ := h.fresh q src hsrc
        rw [h.cache.served_loaded ht] at hS
        rwa [Option.some.inj hS]
      rwa [hs'] at hkeep
    have hsince : FicIndex.Since P.ops s.fic s'.merger.ref := by
      have hkeep := (ficLogger_keeps (P := P) (FicIndex.keeps_since (c := s.fic))).log us s (FicIndex.Since.refl _)
      rwa [hs'] at hkeep
    cases ht : s'.index.predicates.find? p with
    | some t => exact ⟨_, hcache.served_loaded ht, hsynced p t src ht hsrc⟩
    | none =>
      -- the batch was not merged into an evicted predicate
      have hold : s.fic.get p = some src := by
        rcases hsince p src hsrc with hold | ⟨t, ht', -⟩
        · exact hold
        · have ht'' : s'.index.predicates.find? p = some t := ht'
          rw [ht] at ht''
          cases ht''
      have hinactive : s.index.hasPredicateActive p = false := by
        have hcontains := (hmerged p).1
        rw [← hindex] at hcontains
        rw [Index.hasPredicateActive_eq]
        exact hcontains.symm.trans ((OrdMap.contains_eq_false _).2 ht)
      obtain ⟨S, hS, hi⟩ := h.fresh p src hold
      refine ⟨S, ?_, hi⟩
      have hkept := hevicted p src hold hinactive
      rw [hi.pairs] at hkept
      rw [Records.served_pushAll hS us, hkept]

/-! ### init_streamer_predicates -/

/-- A predicate in memory is indexed, or one leaves the indexed cache. -/
theorem dataManagerCall_inv {p : UInt64} {t : T} (h : FicInv P init replays s recs) (ht : s.index.predicates.find? p = some t)
    {call : DataManagerCall} (hcall : call = .retrieveKey p ∨ ∃ k, call = .removeKey k) :
    ∃ s', (fetcher P).dataManagerCall P.ops call s = (.ok (), s') ∧ FicInv P init replays s' recs ∧
      s'.index.predicates.find? p = some t := by
  rcases hcall with rfl | ⟨k, rfl⟩
  · have hfetch : (fetcher P).fetchK2tree p s = (.ok ⟨true, some t⟩, s) := fetchK2tree_active ht
    refine ⟨s.setFic (s.fic.setSource p (.construct P.ops t)), ?_, ⟨h.cache, h.replayable, ?_⟩, ht⟩
    · rw [FicEnv.dataManagerCall, FicEnv.retrieveKey, Act.bind_ok hfetch]
      rfl
    · exact h.fresh.setSource (h.cache.served_loaded ht) (FullyIndexedPredicate.indexes_construct hl t)
  · exact ⟨s.setFic (s.fic.removeKey k), rfl, ⟨h.cache, h.replayable, h.fresh.removeKey k⟩, ht⟩

/-- **One round.** -/
theorem initPredicate_inv (p : UInt64) (h : FicInv P init replays s recs) :
    ∃ s', (fetcher P).initPredicate P.ops p s = (.ok (), s') ∧ FicInv P init replays s' recs := by
  unfold FicEnv.initPredicate
  rw [Act.get_bind]
  cases hs : (fetcher P).shouldCache P.ops s p with
  | false => exact ⟨s, by simp, h⟩
  | true =>
    -- a predicate that should be cached is in memory
    obtain ⟨t, ht⟩ : ∃ t, s.index.predicates.find? p = some t := by
      cases hf : s.index.predicates.find? p with
      | some t => exact ⟨t, rfl⟩
      | none =>
        have hf' : s.manager.index.predicates.find? p = none := hf
        simp [FicEnv.shouldCache, fetcher, Manager.fetchK2treeIfLoaded, hf', PredicateFetchResult.loaded] at hs
    have hfetch : (fetcher P).fetchK2tree p s = (.ok ⟨true, some t⟩, s) := fetchK2tree_active ht
    rw [if_pos rfl, Act.bind_ok hfetch]
    show ∃ s', (fetcher P).hitKey P.ops p (treePointsCount P.ops t * 25) s = _ ∧ _
    unfold FicEnv.hitKey
    rw [Act.get_bind, FicEnv.modifyCache, Act.modify_bind]
    set before := ((fetcher P).cache s).cacheReplacement
    set after := (before.hitKey LRUReplacementStrategy.strategy p (treePointsCount P.ops t * 25)).2
    have hcalls : ∀ call ∈ before.callsSince after, call = .retrieveKey p ∨ ∃ k, call = .removeKey k :=
      CacheReplacement.hitKey_calls _ _ _ before
    obtain ⟨s', h1, h2, -⟩ := Act.forEach_ok (f := (fetcher P).dataManagerCall P.ops)
      (fun _ s' => FicInv P init replays s' recs ∧ s'.index.predicates.find? p = some t) (before.callsSince after)
      (fun pre call post s₁ hsplit h₁ => dataManagerCall_inv hl h₁.1 h₁.2 (hcalls call (by rw [hsplit]; simp)))
      (s := s.setFic { s.fic with cacheReplacement := after }) ⟨⟨h.cache, h.replayable, h.fresh⟩, ht⟩
    exact ⟨s', h1, h2⟩

/-- **`init_streamer_predicates`.** -/
theorem initStreamerPredicates_inv (ps : List UInt64) (h : FicInv P init replays s recs) :
    ∃ s', (fetcher P).initStreamerPredicates P.ops ps s = (.ok (), s') ∧ FicInv P init replays s' recs :=
  Act.forEach_ok (fun _ s' => FicInv P init replays s' recs) ps (fun _ p _ _ _ h₁ => initPredicate_inv hl p h₁) h

end FicManager

/-! ## Runs -/

/-- **One step.** -/
theorem ficStep (hl : P.ops.Lawful) (s : FicManager T) (recs : Records T) (op : FicOp T) (hsafe : op.Safe P replays s)
    (h : FicInv P init replays s recs) :
    ∃ s', (ficMachine P).step s op = some s' ∧ FicInv P init replays s' (op.records recs) := by
  have key : ∀ s', op.call P s = (.ok (), s') → (ficMachine P).step s op = some s' := by
    intro s' hs
    simp [ficMachine, hs]
  cases op with
  | log us =>
    obtain ⟨s', h1, h2⟩ := FicManager.log_inv hl us h hsafe
    exact ⟨s', key s' h1, h2⟩
  | fetchK2tree p =>
    obtain ⟨r, s', h1, h2, -⟩ := FicManager.fetchK2tree_inv hl p h
    exact ⟨s', key s' (Act.bind_ok h1), h2⟩
  | discardInMemoryPredicate p =>
    obtain ⟨m', hm, hcache⟩ := Manager.removeKey_spec p h.cache
    obtain ⟨s', h1, rfl⟩ := (FicManager.erases_onIndex _).returns hm
    obtain rfl : s.setIndex (s.index.discardInMemoryPredicate p) = s' := congrArg Prod.snd h1
    exact ⟨_, key _ h1, hcache, fun hrep => (h.replayable hrep).congr ⟨rfl, rfl, rfl⟩ rfl rfl, h.fresh⟩
  | loadAllPredicates =>
    obtain ⟨s', h1, h2⟩ := FicManager.loadAll_inv hl h hsafe.1 hsafe.2
    exact ⟨s', key s' h1, h2⟩
  | initStreamerPredicates ps =>
    obtain ⟨s', h1, h2⟩ := FicManager.initStreamerPredicates_inv hl ps h
    exact ⟨s', key s' h1, h2⟩
  | evict p => exact ⟨_, key _ rfl, h.cache, h.replayable, h.fresh.removeKey p⟩

/-- **The start**: nothing is indexed. -/
theorem FicManager.create_inv (hl : P.ops.Lawful) {d : Disk} (hd : FreshLog P.ops d) (uninit : ℤ) :
    ∃ s : FicManager T, FicManager.create P d uninit = .ok s ∧ ∀ replays : Prop,
      (replays → InOrder P.ops d ∧ s.logger.totalUpdates = 0) → FicInv P (initialStore P.ops d) replays s fun _ => [] := by
  obtain ⟨l, m, hc, -, hm, hcache⟩ := create_spec hl hd uninit
  have hx : FileRWHandler.fileExists d .updateLog = false := by
    rw [FileRWHandler.fileExists, hd.noLog]
    rfl
  set e : FicManager T := ⟨d, l, ⟨false, ⟨(Index.construct d).setUpdateLogger, .create⟩⟩⟩ with he
  have hrec : LogEnv.recoverAll P.ficLogger e = (.ok (), LogEnv.closeWriter e) := recoverAll_missing hx
  refine ⟨{ LogEnv.closeWriter e with merger := { e.merger with refSet := true } }, ?_, fun replays hrep => ?_⟩
  · rw [FicManager.create, hc]
    simp only [← he, hrec]
    rfl
  · rw [hm] at hcache
    refine ⟨hcache, fun h => ?_, fun p src hsrc => by cases hsrc⟩
    obtain ⟨⟨md, data, hfile, hlen, hif, hnodup⟩, h0⟩ := hrep h
    obtain ⟨trees, hlay⟩ := hif.layout
    obtain ⟨o1, o2, -⟩ := Manager.openIndex_spec (T := T) hfile hlay hlen hif.memory
    have hmeta : (Index.construct d : Index T).metadata = md := o1
    have hdata : (Index.construct d : Index T).is.data = data := o2
    refine ⟨⟨[], ⟨by simp, ?_, h0⟩, fun p => rfl⟩, ?_, ?_⟩
    · show d.bytes (FileRWHandler.file .updateLog) = []
      rw [Disk.bytes, hd.noLog]
      rfl
    · show IndexFile P.ops (Index.construct d : Index T).metadata (Index.construct d : Index T).is.data
      rw [hmeta, hdata]
      exact hif
    · show (Index.construct d : Index T).metadata.predicatesIds.Nodup
      rw [hmeta]
      exact hnodup

/-- **The indexed cache is never stale**, in every run of calls that are safe: whenever a
predicate is indexed, its pairs, its subjects and its objects are those of the tree that
`fetch_k2tree` returns. -/
theorem fic_fresh (hl : P.ops.Lawful) {d : Disk} (hd : FreshLog P.ops d) (uninit : ℤ) :
    ∃ s₀, FicManager.create P d uninit = .ok s₀ ∧ ∀ replays : Prop,
      (replays → InOrder P.ops d ∧ s₀.logger.totalUpdates = 0) → ∀ calls : List (FicOp T),
        (ficMachine P).Meets (FicOp.Safe P replays) calls s₀ → ∃ s, (ficMachine P).run calls s₀ = some s ∧
          ∀ p src, s.fic.get p = some src →
            ∃ t s', FicManager.fetchK2tree P p s = (.ok ⟨true, some t⟩, s') ∧ src.Indexes (P.ops.points t) := by
  obtain ⟨s₀, hc, hstart⟩ := FicManager.create_inv hl hd uninit
  refine ⟨s₀, hc, fun replays hrep calls hmeets => ?_⟩
  obtain ⟨s, hrun, hs⟩ := Machine.simulation_of_meets (fun s recs op hsafe h => ficStep hl s recs op hsafe h) hmeets
    (hstart replays hrep)
  refine ⟨s, hrun, fun p src hsrc => ?_⟩
  obtain ⟨S, hS, hi⟩ := hs.fresh p src hsrc
  obtain ⟨⟨b, o⟩, s', hfetch, -, hb, ho⟩ := FicManager.fetchK2tree_inv hl p hs
  rw [hS] at hb ho
  obtain ⟨t, rfl, ht⟩ := Option.map_eq_some_iff.1 ho
  obtain rfl : b = true := hb
  exact ⟨t, s', hfetch, by rw [ht]; exact hi⟩

namespace PointTree

theorem builtDisk_inOrder : InOrder byteOps builtDisk := by
  obtain ⟨m, out, hb, hlay, hmem⟩ := PredicatesIndexFileBuilder.build_spec (byteParams .binary).md5calc oneTriple ⟨32, 256, 10⟩
    fun r hr => ⟨show byteOps.measure _ < 2 ^ 64 from Nat.one_lt_two_pow (by decide), oneTriple_sizes r hr⟩
  have hfile := builtDisk_file hb
  refine ⟨_, out.buf, hfile, ?_, .of_layout (fun _ => Nat.one_lt_two_pow (by decide)) hlay hmem, ?_⟩
  · have hlen : builtBytes.length < 2 ^ 64 := by decide +kernel
    rwa [Option.some.inj (show some builtBytes = some out.buf from hfile)] at hlen
  · exact runs_nodup oneTriple_contiguous

/-- Predicate 5 is updated, loaded, indexed, evicted from memory and fetched. -/
def indexedCalls : List (FicOp PointTree) :=
  [.log [inserting 5 [(2, 2)]], .loadAllPredicates, .initStreamerPredicates [5], .discardInMemoryPredicate 5,
    .fetchK2tree 5, .evict 7]

/-- Predicate 5 is indexed, evicted from memory and updated. -/
def staleCalls : List (FicOp PointTree) :=
  [.fetchK2tree 5, .initStreamerPredicates [5], .discardInMemoryPredicate 5, .log [inserting 5 [(2, 2)]]]

/-- The manager after some calls satisfies a check. -/
def afterFic (mode : OpenMode) (calls : List (FicOp PointTree)) (check : FicManager PointTree → Bool) : Bool :=
  match FicManager.create (byteParams mode) builtDisk 0 with
  | .error _ => false
  | .ok s₀ => ((ficMachine (byteParams mode)).run calls s₀).any check

theorem afterFic_spec {mode : OpenMode} {calls : List (FicOp PointTree)} {check : FicManager PointTree → Bool}
    (h : afterFic mode calls check = true) : ∃ s₀ s, FicManager.create (byteParams mode) builtDisk 0 = .ok s₀ ∧
      (ficMachine (byteParams mode)).run calls s₀ = some s ∧ check s = true := by
  unfold afterFic at h
  split at h
  · cases h
  · rename_i s₀ hc
    obtain ⟨s, hs, hcheck⟩ := (Option.any_eq_true _ _).1 h
    exact ⟨s₀, s, hc, hs, hcheck⟩

end PointTree

open PointTree in
/-- An indexed predicate that is evicted from memory, and fetched. -/
theorem fic_fresh_indexed : ∃ s₀ s src t s', FicManager.create (byteParams .binaryApp) builtDisk 0 = .ok s₀ ∧
    (ficMachine (byteParams .binaryApp)).run indexedCalls s₀ = some s ∧ s.fic.get 5 = some src ∧
    FicManager.fetchK2tree (byteParams .binaryApp) 5 s = (.ok ⟨true, some t⟩, s') ∧ src.Indexes (byteOps.points t) := by
  obtain ⟨s₀, s₁, hc₁, hrun₁, hfirst⟩ := afterFic_spec (show afterFic .binaryApp []
    (fun s => s.logger.totalUpdates = 0 && s.fic.cachedPredicatesSources.entries.length = 0) = true by decide +kernel)
  obtain ⟨_, s₂, hc₂, hrun₂, hreader⟩ := afterFic_spec (show afterFic .binaryApp [.log [inserting 5 [(2, 2)]]]
    (fun s => s.logger.reader.isNone) = true by decide +kernel)
  obtain ⟨_, s₃, hc₃, hrun₃, hindexed⟩ := afterFic_spec (show afterFic .binaryApp indexedCalls
    (fun s => (s.fic.get 5).isSome) = true by decide +kernel)
  obtain rfl := Except.ok.inj (hc₁.symm.trans hc₂)
  obtain rfl := Except.ok.inj (hc₁.symm.trans hc₃)
  obtain rfl : s₀ = s₁ := Option.some.inj hrun₁
  rw [Bool.and_eq_true, decide_eq_true_eq, decide_eq_true_eq] at hfirst
  obtain ⟨s₀', hc, hall⟩ := fic_fresh (P := byteParams .binaryApp) byteOps_lawful builtDisk_fresh 0
  obtain rfl := Except.ok.inj (hc₁.symm.trans hc)
  have hmeets : (ficMachine (byteParams .binaryApp)).Meets (FicOp.Safe (byteParams .binaryApp) True) indexedCalls s₀ := by
    refine ⟨⟨.inl rfl, fun p src hsrc _ => ?_, fun _ => ⟨⟨by decide, by simp [inserting, K2TreeUpdates.getKind]⟩, ?_⟩⟩,
      fun s hs => ?_⟩
    · have hempty : s₀.fic.cachedPredicatesSources.entries = [] := List.length_eq_zero_iff.1 hfirst.2
      have hmem := (OrdMap.find?_eq_some _).1 (show s₀.fic.cachedPredicatesSources.find? p = some src from hsrc)
      rw [hempty] at hmem
      cases hmem
    · rw [hfirst.1]
      decide
    · have hs₂ : (ficMachine (byteParams .binaryApp)).run [.log [inserting 5 [(2, 2)]]] s₀ = some s := by
        rw [Machine.run, hs]
        rfl
      obtain rfl := Option.some.inj (hrun₂.symm.trans hs₂)
      refine ⟨⟨trivial, fun r hr => ?_⟩, fun _ _ => ⟨trivial, fun _ _ => ⟨trivial, fun _ _ => ⟨trivial, fun _ _ =>
        ⟨trivial, fun _ _ => trivial⟩⟩⟩⟩⟩
      rw [hr] at hreader
      cases hreader
  obtain ⟨s, hrun, hfresh⟩ := hall True (fun _ => ⟨builtDisk_inOrder, hfirst.1⟩) indexedCalls hmeets
  obtain rfl := Option.some.inj (hrun₃.symm.trans hrun)
  obtain ⟨src, hsrc⟩ := Option.isSome_iff_exists.1 hindexed
  obtain ⟨t, s', hfetch, hi⟩ := hfresh 5 src hsrc
  exact ⟨s₀, s₃, src, t, s', hc₁, hrun₃, hsrc, hfetch, hi⟩

open PointTree in
/-- Predicate 5 is updated while it is indexed and not in memory: it stays as it was indexed. -/
theorem not_fic_fresh : ∃ s₀ s src t s', FicManager.create (byteParams .binary) builtDisk 0 = .ok s₀ ∧
    (ficMachine (byteParams .binary)).run staleCalls s₀ = some s ∧ s.fic.get 5 = some src ∧
    FicManager.fetchK2tree (byteParams .binary) 5 s = (.ok ⟨true, some t⟩, s') ∧
    src.has 2 2 = false ∧ (2, 2) ∈ byteOps.points t ∧ ¬ src.Indexes (byteOps.points t) := by
  obtain ⟨s₀, s, hc, hrun, hcheck⟩ := afterFic_spec (show afterFic .binary staleCalls
    (fun s => (s.fic.get 5).any (fun src => !src.has 2 2) &&
      (FicManager.fetchK2tree (byteParams .binary) 5 s).1.toOption.any fun r =>
        r.doesExist && r.result.any fun t => byteOps.has t (2, 2)) = true by decide +kernel)
  rw [Bool.and_eq_true, Option.any_eq_true, Option.any_eq_true] at hcheck
  obtain ⟨⟨src, hsrc, hhas⟩, ⟨b, o⟩, hr, hpoint⟩ := hcheck
  rw [Bool.and_eq_true, Option.any_eq_true] at hpoint
  obtain ⟨rfl, t, rfl, hpoint⟩ := hpoint
  have hno : src.has 2 2 = false := by simpa using hhas
  rcases hfetch : FicManager.fetchK2tree (byteParams .binary) 5 s with ⟨r, s'⟩
  rw [hfetch] at hr
  cases r with
  | error e => cases hr
  | ok r =>
    obtain rfl : r = ⟨true, some t⟩ := Option.some.inj hr
    refine ⟨s₀, s, src, t, s', hc, hrun, hsrc, hfetch, hno, hpoint, fun hi => ?_⟩
    have hyes := (hi.has 2 2).2 hpoint
    rw [hno] at hyes
    cases hyes

end K2Cache
