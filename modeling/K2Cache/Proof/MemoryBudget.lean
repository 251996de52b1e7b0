import K2Cache.Proof.Replacement
import K2Cache.Proof.SyncRun
import K2Cache.Spec.MemoryBudget

/-!
# The memory budget

What is fetched from the file outside of a replacement task is not accounted for.

`memoryBudget_kept`: the trees in memory are keys of the replacement, and take up no more than
the budget, in every run in which streams and joins ask for trees that are in memory.
-/

namespace K2Cache

open Lib

variable {T σ : Type} {P : CacheParams T} {S : CRStrategy σ} {tracked : σ → UInt64 → Prop}

/-! ## What a hit asks for -/

namespace CacheReplacement

theorem freeSpace_calls (S : CRStrategy σ) (it : List UInt64) (nextSize sizeErased : UInt64) (s : CacheReplacement σ) :
    ∃ keys : List UInt64, (freeSpace S it nextSize sizeErased s).2.dataManager = s.dataManager ++ keys.map .removeKey := by
  induction it generalizing nextSize sizeErased s with
  | nil =>
    unfold freeSpace
    split <;> exact ⟨[], by simp⟩
  | cons currentKey it ih =>
    unfold freeSpace
    split
    · split
      · exact ih _ _ _
      · obtain ⟨keys, h⟩ := ih (nextSize - s.sizeOf currentKey) (sizeErased + s.sizeOf currentKey) (s.drop S currentKey)
        refine ⟨currentKey :: keys, ?_⟩
        rw [h, drop, List.append_assoc]
        rfl
    · exact ⟨[], by simp⟩

/-- A hit retrieves no key but its own. -/
theorem hitKey_calls (S : CRStrategy σ) (key spaceRequired : UInt64) (s : CacheReplacement σ) :
    ∀ call ∈ s.callsSince (s.hitKey S key spaceRequired).2, call = .retrieveKey key ∨ ∃ k, call = .removeKey k := by
  have hnone : ∀ call ∈ s.callsSince s, call = .retrieveKey key ∨ ∃ k, call = .removeKey k := by
    intro call hcall
    rw [callsSince, List.drop_length] at hcall
    cases hcall
  have hkeys : ∀ (keys : List UInt64) (last : List DataManagerCall) (after : CacheReplacement σ),
      after.dataManager = s.dataManager ++ (keys.map .removeKey ++ last) → (∀ call ∈ last, call = .retrieveKey key) →
      ∀ call ∈ s.callsSince after, call = .retrieveKey key ∨ ∃ k, call = .removeKey k := by
    intro keys last after hafter hlast call hcall
    rw [callsSince, hafter, List.drop_left] at hcall
    rcases List.mem_append.1 hcall with hk | hl
    · obtain ⟨k, -, rfl⟩ := List.mem_map.1 hk
      exact .inr ⟨k, rfl⟩
    · exact .inl (hlast call hl)
  have hask : ∀ nextSize, (s.askStrategy S key nextSize).2.dataManager = s.dataManager := by
    intro nextSize
    unfold askStrategy
    split <;> rfl
  unfold hitKey
  split
  · exact hnone
  split
  · exact hnone
  simp only
  split
  · obtain ⟨keys, hfree⟩ := freeSpace_calls S (s.askStrategy S key (spaceRequired + s.sizeUsed)).2.prioritySet
      (spaceRequired + s.sizeUsed) 0 (s.askStrategy S key (spaceRequired + s.sizeUsed)).2
    rw [hask] at hfree
    split
    · rename_i after hr
      rw [hr] at hfree
      exact hkeys keys [] after (by rw [List.append_nil]; exact hfree) (by simp)
    · rename_i nextSize after hr
      rw [hr] at hfree
      refine hkeys keys [.retrieveKey key] _ ?_ (by simp)
      rw [loadKey, hfree, List.append_assoc]
  · refine hkeys [] [] _ ?_ (by simp)
    split
    · simpa using hask _
    · simpa using hask _

end CacheReplacement

/-! ## The manager -/

namespace Manager

variable {s : Manager T} {p : UInt64}

/-- A tree in memory is fetched as it is. -/
theorem fetchK2tree_loaded (hp : s.index.predicates.contains p = true) :
    fetchK2tree P p s = (.ok ⟨true, s.index.predicates.find? p⟩, s) := by
  have hact : activateFromLog P p s = (.ok (), s) := by
    simp [activateFromLog, Index.hasPredicateActive_eq, hp]
  rw [fetchK2tree, Act.get_bind, hp, if_pos rfl, Act.pure_bind_run, if_pos rfl, Act.bind_ok hact]
  rfl

/-- A predicate that is stored nowhere is not fetched. -/
theorem fetchK2tree_unstored (hp : s.index.predicates.contains p = false) (hs : hasPredicateStored s p = false) :
    fetchK2tree P p s = (.ok ⟨false, none⟩, s) := by
  have hload : loadSinglePredicate P p s = (.ok false, s) := by
    simp [loadSinglePredicate, hs]
  rw [fetchK2tree, Act.get_bind, hp, if_neg (by simp), Act.bind_ok hload]
  rfl

/-- The sizes are those of the index file. -/
theorem getPredicateSize_congr {s' : Manager T} (h : s'.index.metadata = s.index.metadata) :
    s'.getPredicateSize = s.getPredicateSize := by
  funext p
  simp only [getPredicateSize, h]

theorem Sound.getPredicateSize_lt {ops : TreeOps T} {E : UInt64 → Prop} {recs : Records T} (h : Sound ops E recs s)
    (p : UInt64) : s.getPredicateSize p < 2 ^ 64 := by
  unfold getPredicateSize
  cases hmd : s.index.metadata.metadataMap.find? p with
  | none => exact Nat.two_pow_pos 64
  | some md => exact (h.index.main p md hmd).2.1

/-- Only keys that were retrieved and not since removed are in memory. -/
def OnlyRetrieved (s : Manager T) (calls : List DataManagerCall) : Prop :=
  ∀ p, s.index.predicates.contains p = true → Retrieved calls p

/-- A call of the replacement. -/
theorem dataManagerCall_sound (hl : P.ops.Lawful) {recs : Records T} {calls : List DataManagerCall}
    (h : Sound P.ops (fun _ => False) recs s) (hr : s.OnlyRetrieved calls) (call : DataManagerCall) :
    ∃ s', dataManagerCall P call s = (.ok (), s') ∧ Sound P.ops (fun _ => False) recs s' ∧
      s'.index.metadata = s.index.metadata ∧ s'.OnlyRetrieved (calls ++ [call]) := by
  cases call with
  | retrieveKey key =>
    obtain ⟨f, hf, -⟩ := h.index.fileServes key
    obtain ⟨s', h1, h2, h3, -⟩ := loadSinglePredicate_sound hl h hf
    refine ⟨s', ?_, h2, h3.metadata, fun p hp => ?_⟩
    · show retrieveKey P key s = _
      rw [retrieveKey, Act.bind_ok h1]
      rfl
    · rw [retrieved_concat]
      by_cases hk : p = key
      · exact .inl (by rw [hk])
      · rw [h3.contains_other hk] at hp
        exact .inr ⟨hr p hp, by simp⟩
  | removeKey key =>
    refine ⟨s.setIndex (s.index.discardInMemoryPredicate key), rfl, h.setIndex (h.index.discard key) rfl, rfl, fun p hp => ?_⟩
    have ht := Index.touches_discard s.index key
    rw [retrieved_concat]
    by_cases hk : p = key
    · rw [hk] at hp
      simp [setIndex, index, Index.discardInMemoryPredicate, OrdMap.contains, OrdMap.find?_erase] at hp
    · have hp' : s.index.predicates.contains p = true := by
        rw [← ht.contains_other hk]
        exact hp
      refine .inr ⟨hr p hp', ?_⟩
      rw [ne_eq, DataManagerCall.removeKey.injEq]
      exact Ne.symm hk

/-- The calls of a `hit_key`, one after another. -/
theorem dataManagerCalls_sound (hl : P.ops.Lawful) {recs : Records T} {calls : List DataManagerCall}
    (h : Sound P.ops (fun _ => False) recs s) (hr : s.OnlyRetrieved calls) (more : List DataManagerCall) :
    ∃ s', Act.forEach more (dataManagerCall P) s = (.ok (), s') ∧ Sound P.ops (fun _ => False) recs s' ∧
      s'.index.metadata = s.index.metadata ∧ s'.OnlyRetrieved (calls ++ more) := by
  refine Act.forEach_ok (fun done s' => Sound P.ops (fun _ => False) recs s' ∧ s'.index.metadata = s.index.metadata ∧
    s'.OnlyRetrieved (calls ++ done)) more ?_ ⟨h, rfl, by rwa [List.append_nil]⟩
  rintro pre call post s₁ - ⟨h1, h2, h3⟩
  obtain ⟨s₂, h4, h5, h6, h7⟩ := dataManagerCall_sound hl h1 h3 call
  exact ⟨s₂, h4, h5, h6.trans h2, by rwa [← List.append_assoc]⟩

end Manager

/-! ## The invariant -/

namespace CacheServer

/-- **The trees in memory are keys of the replacement, and keep to the budget.** -/
structure WithinBudget (memoryBudgetBytes : UInt64) (s : CacheServer T σ) : Prop where
  resident : ∀ p, s.manager.index.predicates.contains p = true → p ∈ s.replacement.prioritySet
  bounded : (s.manager.index.predicates.keys.map s.manager.getPredicateSize).sum ≤ memoryBudgetBytes.toNat

/-- The patterns of a join, up to the one that ends it, have their trees in memory. -/
def JoinLoaded (s : CacheServer T σ) : List UInt64 → Prop
  | [] => True
  | p :: ps => p = 0 ∨
    if s.manager.index.predicates.contains p then JoinLoaded s ps else s.manager.hasPredicateStored p = false

/-- Streams and joins ask for trees that are in memory, or for none. -/
def AsksLoaded (s : CacheServer T σ) : MemoryCmd → Prop
  | .streamTriplePattern p => s.fullyIndexedCache.get p = none →
    s.manager.index.predicates.contains p = true ∨ s.manager.hasPredicateStored p = false
  | .bgpJoin ps => s.JoinLoaded ps
  | _ => True

variable (P S tracked) in
/-- What is kept: the accounts of the replacement, the sizes it was given, and only
retrieved trees in memory. -/
structure Accountable (recs : Records T) (memoryBudgetBytes : UInt64) (s : CacheServer T σ) : Prop where
  sound : Manager.Sound P.ops (fun _ => False) recs s.manager
  settled : s.replacement.Settled S tracked memoryBudgetBytes
  sizes : ∀ k ∈ s.replacement.prioritySet, (s.replacement.sizeOf k).toNat = s.manager.getPredicateSize k
  retrieved : s.manager.OnlyRetrieved s.replacement.dataManager

variable {recs : Records T} {memoryBudgetBytes : UInt64} {s s' : CacheServer T σ}

theorem Accountable.withinBudget (h : Accountable P S tracked recs memoryBudgetBytes s) : WithinBudget memoryBudgetBytes s := by
  have hres : ∀ p, s.manager.index.predicates.contains p = true → p ∈ s.replacement.prioritySet :=
    fun p hp => (h.settled.kept.loaded p).2 (h.retrieved p hp)
  refine ⟨hres, ?_⟩
  -- the trees in memory are some of the keys, and these add up to the size in use
  have hsub : List.Subperm s.manager.index.predicates.keys s.replacement.prioritySet := by
    refine List.subperm_of_subset (OrdMap.keys_nodup _) fun p hp => hres p ?_
    obtain ⟨t, ht⟩ := (OrdMap.mem_keys _).1 hp
    exact (OrdMap.contains_iff _).2 ⟨t, ht⟩
  obtain ⟨l, hperm, hl⟩ := hsub
  have htotal : (s.replacement.prioritySet.map s.manager.getPredicateSize).sum = s.replacement.total := by
    refine congrArg List.sum (List.map_congr_left fun k hk => ?_)
    rw [h.sizes k hk]
  have hbound := UInt64.le_iff_toNat_le.1 h.settled.bounded
  calc (s.manager.index.predicates.keys.map s.manager.getPredicateSize).sum
      = (l.map s.manager.getPredicateSize).sum := ((hperm.map _).sum_eq).symm
    _ ≤ (s.replacement.prioritySet.map s.manager.getPredicateSize).sum := (hl.map _).sum_le_sum (by simp)
    _ = s.replacement.sizeUsed.toNat := htotal.trans h.settled.used.symm
    _ ≤ memoryBudgetBytes.toNat := hbound

/-! ## The steps -/

/-- The indexed cache, the queue and the streams are not part of the accounts. -/
theorem Accountable.congr (h : Accountable P S tracked recs memoryBudgetBytes s) (hm : s'.manager = s.manager)
    (hr : ∃ u, s'.replacement = { s.replacement with inUse := u }) : Accountable P S tracked recs memoryBudgetBytes s' := by
  obtain ⟨u, hu⟩ := hr
  obtain ⟨h1, h2, h3, h4⟩ := h
  refine ⟨hm ▸ h1, ?_, ?_, ?_⟩
  · rw [hu]
    exact ⟨⟨h2.kept.nodup, h2.kept.sizes, h2.kept.loaded, h2.kept.tracked, h2.kept.sorted⟩, h2.max, h2.used, h2.bounded⟩
  · rw [hu, hm]
    exact h3
  · rw [hu, hm]
    exact h4

theorem same_marks (r : CacheReplacement σ) : ∃ u, r = { r with inUse := u } := ⟨r.inUse, rfl⟩

/-- Marks change what is in use. -/
theorem foldl_marks {f : CacheReplacement σ → UInt64 → CacheReplacement σ} (hf : ∀ r p, ∃ u, f r p = { r with inUse := u })
    (ps : List UInt64) (r : CacheReplacement σ) : ∃ u, ps.foldl f r = { r with inUse := u } := by
  induction ps generalizing r with
  | nil => exact same_marks r
  | cons p ps ih =>
    obtain ⟨u, hu⟩ := hf r p
    obtain ⟨u', hu'⟩ := ih (f r p)
    exact ⟨u', by rw [List.foldl_cons, hu', hu]⟩

theorem markUsing_marks (r : CacheReplacement σ) (p : UInt64) : ∃ u, r.markUsing p = { r with inUse := u } := ⟨_, rfl⟩

theorem markReady_marks (r : CacheReplacement σ) (p : UInt64) : ∃ u, r.markReady p = { r with inUse := u } := by
  unfold CacheReplacement.markReady
  split
  · exact same_marks r
  · exact ⟨_, rfl⟩

/-- **`hit_key`** of a predicate, with its calls. -/
theorem hitPredicate_accountable (hl : P.ops.Lawful) (hS : S.Lawful tracked) (hmax : memoryBudgetBytes.toNat < 2 ^ 63)
    (h : Accountable P S tracked recs memoryBudgetBytes s) (p : UInt64) :
    ∃ s', hitPredicate P S p s = (.ok (), s') ∧ Accountable P S tracked recs memoryBudgetBytes s' := by
  set size := UInt64.ofNat (s.manager.getPredicateSize p) with hsize
  set after := (s.replacement.hitKey S p size).2 with hafter
  have hdone := h.settled.hitKey hS hmax p size
  obtain ⟨keys, last, hcalls, -⟩ := hdone.calls
  have hsince : s.replacement.dataManager ++ s.replacement.callsSince after = after.dataManager := by
    rw [CacheReplacement.callsSince, hafter, hcalls, List.drop_left]
  obtain ⟨m, h1, h2, h3, h4⟩ := Manager.dataManagerCalls_sound hl h.sound h.retrieved (s.replacement.callsSince after)
  refine ⟨{ s with replacement := after, manager := m }, ?_, h2, hdone.settled, fun k hk => ?_, hsince ▸ h4⟩
  · have hrun : onManager (Act.forEach (s.replacement.callsSince after) (Manager.dataManagerCall P))
        { s with replacement := after } = (.ok (), { s with replacement := after, manager := m }) := by
      simp only [onManager, Act.focus, h1]
    exact hrun
  · show (after.sizeOf k).toNat = m.getPredicateSize k
    rw [Manager.getPredicateSize_congr h3]
    rcases hdone.same k hk with ⟨hk', he⟩ | ⟨rfl, he⟩
    · exact (congrArg UInt64.toNat he).trans (h.sizes k hk')
    · refine (congrArg UInt64.toNat he).trans ?_
      rw [hsize, UInt64.toNat_ofNat_of_lt' (h.sound.getPredicateSize_lt k)]

/-- A fetch of what is in memory, through the server. -/
theorem onManager_fetch_loaded {p : UInt64} (hp : s.manager.index.predicates.contains p = true) :
    onManager (Manager.fetchK2tree P p) s = (.ok ⟨true, s.manager.index.predicates.find? p⟩, s) := by
  simp only [onManager, Act.focus, Manager.fetchK2tree_loaded hp]

theorem onManager_fetch_unstored {p : UInt64} (hp : s.manager.index.predicates.contains p = false)
    (hs : s.manager.hasPredicateStored p = false) : onManager (Manager.fetchK2tree P p) s = (.ok ⟨false, none⟩, s) := by
  simp only [onManager, Act.focus, Manager.fetchK2tree_unstored hp hs]

/-! ## The indexed cache -/

/-- The server but for its indexed cache. -/
def ButFic (s s' : CacheServer T σ) : Prop :=
  s'.manager = s.manager ∧ s'.replacement = s.replacement

/-- Indexing a predicate that is in memory reads its tree there. -/
theorem keeps_fic_retrieveKey {p : UInt64} (hp : s.manager.index.predicates.contains p = true) :
    Act.Keeps (ButFic s) ((fic P : FicEnv T (CacheServer T σ)).retrieveKey P.ops p) := by
  intro s₁ h
  have hp₁ : s₁.manager.index.predicates.contains p = true := by
    rw [h.1]
    exact hp
  obtain ⟨t, ht⟩ := (OrdMap.contains_iff _).1 hp₁
  have hf : (fic P : FicEnv T (CacheServer T σ)).fetchK2tree p s₁ = (.ok ⟨true, some t⟩, s₁) := by
    rw [← ht]
    exact onManager_fetch_loaded hp₁
  rw [FicEnv.retrieveKey, Act.bind_ok hf]
  exact h

theorem keeps_fic_modifyCache (f : FullyIndexedCache → FullyIndexedCache) :
    Act.Keeps (ButFic s) ((fic P : FicEnv T (CacheServer T σ)).modifyCache f) := fun _ h => h

/-- The indexed cache asks for the predicate it was hit with, and for no other. -/
theorem keeps_fic_hitKey {p : UInt64} (hp : s.manager.index.predicates.contains p = true) (spaceRequired : UInt64) :
    Act.Keeps (ButFic s) ((fic P : FicEnv T (CacheServer T σ)).hitKey P.ops p spaceRequired) := by
  refine Act.keeps_get.bind fun s₁ => (keeps_fic_modifyCache _).bind fun _ => Act.Keeps.forEach fun call hcall => ?_
  rcases CacheReplacement.hitKey_calls _ p spaceRequired _ call hcall with rfl | ⟨k, rfl⟩
  · exact keeps_fic_retrieveKey hp
  · exact keeps_fic_modifyCache _

theorem keeps_fic_initPredicate {p : UInt64} (hp : s.manager.index.predicates.contains p = true) :
    Act.Keeps (ButFic s) ((fic P : FicEnv T (CacheServer T σ)).initPredicate P.ops p) := by
  intro s₁ h
  have hp₁ : s₁.manager.index.predicates.contains p = true := by
    rw [h.1]
    exact hp
  obtain ⟨t, ht⟩ := (OrdMap.contains_iff _).1 hp₁
  have hf : (fic P : FicEnv T (CacheServer T σ)).fetchK2tree p s₁ = (.ok ⟨true, some t⟩, s₁) := by
    rw [← ht]
    exact onManager_fetch_loaded hp₁
  unfold FicEnv.initPredicate
  rw [Act.get_bind]
  split
  · rw [Act.bind_ok hf]
    exact keeps_fic_hitKey hp _ s₁ h
  · exact h

/-! ## The tasks -/

/-- A lock marks predicates, queues a task, and has predicates in memory indexed. -/
theorem lockPredicates_accountable (requested : List UInt64) (h : Accountable P S tracked recs memoryBudgetBytes s) :
    Accountable P S tracked recs memoryBudgetBytes (lockPredicates P requested s).2 := by
  set loaded := requested.filter s.manager.index.hasPredicateActive with hloaded
  set marked := loaded.foldl (fun r p => r.markUsing p) s.replacement with hmarked
  obtain ⟨u, hu⟩ := foldl_marks (fun r p => markUsing_marks r p) loaded s.replacement
  -- from the marks on, nothing but the indexed cache, the queue and the streams is written to
  have hkept : (lockPredicates P requested s).2.manager = s.manager ∧ (lockPredicates P requested s).2.replacement = marked := by
    have hinit : Act.Keeps (ButFic { s with replacement := marked })
        ((fic P : FicEnv T (CacheServer T σ)).initStreamerPredicates P.ops loaded) := by
      refine Act.Keeps.forEach fun p hp => keeps_fic_initPredicate ?_
      rw [← Index.hasPredicateActive_eq]
      exact (List.mem_filter.1 hp).2
    unfold lockPredicates
    rw [Act.get_bind]
    simp only
    rw [Act.modify_bind]
    refine (?_ : Act.Keeps (ButFic { s with replacement := marked }) _) _ ⟨rfl, rfl⟩
    split
    · refine Act.Keeps.bind ?_ fun _ => hinit.bind fun _ => ?_
      · exact fun _ h₁ => h₁
      · exact fun _ h₁ => h₁
    · refine hinit.bind fun _ => ?_
      exact fun _ h₁ => h₁
  exact h.congr hkept.1 ⟨u, hkept.2.trans hu⟩

theorem closeStream_accountable (channelId : ℤ) (h : Accountable P S tracked recs memoryBudgetBytes s) :
    Accountable P S tracked recs memoryBudgetBytes (closeStream channelId s).2 :=
  h.congr rfl (foldl_marks markReady_marks _ _)

theorem replacementTask_accountable (hl : P.ops.Lawful) (hS : S.Lawful tracked) (hmax : memoryBudgetBytes.toNat < 2 ^ 63)
    (h : Accountable P S tracked recs memoryBudgetBytes s) :
    Accountable P S tracked recs memoryBudgetBytes (replacementTask P S s).2 := by
  have hhits : ∀ task : List UInt64, Act.Keeps (Accountable P S tracked recs memoryBudgetBytes)
      (Act.forEach task (hitPredicate P S)) := by
    refine fun task => Act.Keeps.forEach fun p _ s₁ h₁ => ?_
    obtain ⟨s₂, hrun, h₂⟩ := hitPredicate_accountable hl hS hmax h₁ p
    rw [hrun]
    exact h₂
  unfold replacementTask
  rw [Act.get_bind]
  cases hT : s.tasks with
  | nil => exact h
  | cons task tasks =>
    simp only
    rw [Act.modify_bind]
    exact hhits _ _ (h.congr rfl (same_marks _))

/-- A stream asks for a tree in memory, or for none. -/
theorem streamTriplePattern_eq {p : UInt64} (h : s.AsksLoaded (.streamTriplePattern p)) :
    streamTriplePattern P p s = (.ok (), s) := by
  unfold streamTriplePattern
  rw [Act.get_bind]
  cases hget : s.fullyIndexedCache.get p with
  | some source => rfl
  | none =>
    have hfetch : ∃ r, onManager (Manager.fetchK2tree P p) s = (.ok r, s) := by
      rcases h hget with hp | hp
      · exact ⟨_, onManager_fetch_loaded hp⟩
      · cases hc : s.manager.index.predicates.contains p with
        | true => exact ⟨_, onManager_fetch_loaded hc⟩
        | false => exact ⟨_, onManager_fetch_unstored hc hp⟩
    obtain ⟨r, hr⟩ := hfetch
    simp only
    rw [Act.bind_ok hr]
    rfl

/-- The first fetches of a join. -/
theorem doAllPredicatesHaveTrees_eq {ps : List UInt64} (h : s.JoinLoaded ps) :
    ∃ all, doAllPredicatesHaveTrees P ps s = (.ok all, s) ∧
      (all = true → ∀ p ∈ ps, s.manager.index.predicates.contains p = true) := by
  induction ps with
  | nil => exact ⟨true, rfl, fun _ => by simp⟩
  | cons p ps ih =>
    unfold doAllPredicatesHaveTrees
    by_cases hp0 : p = 0
    · rw [if_pos hp0]
      exact ⟨false, rfl, nofun⟩
    · rw [if_neg hp0]
      have hrest := h.resolve_left hp0
      cases hc : s.manager.index.predicates.contains p with
      | true =>
        rw [if_pos hc] at hrest
        obtain ⟨all, h1, h2⟩ := ih hrest
        rw [Act.bind_ok (onManager_fetch_loaded hc)]
        exact ⟨all, h1, fun hall => List.forall_mem_cons.2 ⟨hc, h2 hall⟩⟩
      | false =>
        rw [if_neg (by simp [hc])] at hrest
        rw [Act.bind_ok (onManager_fetch_unstored hc hrest)]
        exact ⟨false, rfl, nofun⟩

theorem bgpJoin_eq {ps : List UInt64} (h : s.JoinLoaded ps) : bgpJoin P ps s = (.ok (), s) := by
  obtain ⟨all, h1, h2⟩ := doAllPredicatesHaveTrees_eq (P := P) h
  rw [bgpJoin, Act.bind_ok h1]
  cases all with
  | false => rfl
  | true =>
    have hps : ∀ p ∈ ps, s.manager.index.predicates.contains p = true := h2 rfl
    clear h1 h2 h
    show Act.forEach ps _ s = _
    induction ps with
    | nil => rfl
    | cons p ps ih =>
      have hround : (do
          let _ ← onManager (Manager.fetchK2tree P p)
          pure () : Act Exn (CacheServer T σ) Unit) s = (.ok (), s) :=
        Act.bind_ok (onManager_fetch_loaded (hps p List.mem_cons_self))
      rw [Act.forEach_cons]
      exact (Act.bind_ok hround).trans (ih fun q hq => hps q (List.mem_cons_of_mem _ hq))

/-- **A task that fetches nothing from the file keeps the accounts.** -/
theorem memoryStep (hl : P.ops.Lawful) (hS : S.Lawful tracked) (hmax : memoryBudgetBytes.toNat < 2 ^ 63) {cmd : MemoryCmd}
    (hask : s.AsksLoaded cmd) (hstep : (memoryMachine P S).step s cmd = some s')
    (h : Accountable P S tracked recs memoryBudgetBytes s) : Accountable P S tracked recs memoryBudgetBytes s' := by
  have hafter : (cmd.call P S s).2 = s' := by
    simp only [memoryMachine] at hstep
    split at hstep
    · rename_i heq
      rw [heq]
      exact Option.some.inj hstep
    · cases hstep
  rw [← hafter]
  cases cmd with
  | lockPredicates requested => exact lockPredicates_accountable requested h
  | closeStream channelId => exact closeStream_accountable channelId h
  | replacementTask => exact replacementTask_accountable hl hS hmax h
  | streamTriplePattern p =>
    rw [MemoryCmd.call, streamTriplePattern_eq hask]
    exact h
  | bgpJoin ps =>
    rw [MemoryCmd.call, bgpJoin_eq hask]
    exact h

/-- A server whose manager has nothing in memory yet. -/
theorem accountable_construct {m : Manager T} (h : Manager.Sound P.ops (fun _ => False) recs m)
    (hempty : m.index.predicates = ∅) : Accountable P S tracked recs memoryBudgetBytes (construct S m memoryBudgetBytes) where
  sound := h
  settled := .construct memoryBudgetBytes
  sizes := nofun
  retrieved p hp := by
    have hnone : m.index.predicates.contains p = false := by
      rw [hempty]
      rfl
    exact absurd hp (by rw [construct, hnone]; simp)

variable (P S) in
/-- Every state a run of the tasks reaches keeps to the budget, if its streams and joins only
ask for trees that are in memory or nowhere. -/
def BudgetKept (m : Manager T) (memoryBudgetBytes : UInt64) : Prop :=
  ∀ (cmds : List MemoryCmd) (s : CacheServer T σ),
    (memoryMachine P S).Meets AsksLoaded cmds (construct S m memoryBudgetBytes) →
    (memoryMachine P S).run cmds (construct S m memoryBudgetBytes) = some s → s.WithinBudget memoryBudgetBytes

/-- **The budget**, with any strategy that keeps its own order. -/
theorem budgetKept_of_lawful (hl : P.ops.Lawful) (hS : S.Lawful tracked) (hmax : memoryBudgetBytes.toNat < 2 ^ 63)
    {m : Manager T} (hm : Manager.Sound P.ops (fun _ => False) recs m) (hempty : m.index.predicates = ∅) :
    BudgetKept P S m memoryBudgetBytes := by
  intro cmds s hasks hrun
  have h : Accountable P S tracked recs memoryBudgetBytes s :=
    Machine.invariant (fun s cmd s' hask hstep h => memoryStep hl hS hmax hask hstep h) hasks hrun
      (accountable_construct hm hempty)
  exact h.withinBudget

end CacheServer

/-- **The memory budget**, with both strategies. -/
theorem memoryBudget_kept (hl : P.ops.Lawful) {recs : Records T} {m : Manager T}
    (hm : Manager.Sound P.ops (fun _ => False) recs m) (hempty : m.index.predicates = ∅) {memoryBudgetBytes : UInt64}
    (hmax : memoryBudgetBytes.toNat < 2 ^ 63) :
    CacheServer.BudgetKept P LRUReplacementStrategy.strategy m memoryBudgetBytes ∧
      CacheServer.BudgetKept P FrequencyReplacementStrategy.strategy m memoryBudgetBytes :=
  ⟨CacheServer.budgetKept_of_lawful hl LRUReplacementStrategy.lawful hmax hm hempty,
    CacheServer.budgetKept_of_lawful hl FrequencyReplacementStrategy.lawful hmax hm hempty⟩

namespace PointTree

/-- A server with a budget on the file that holds predicate 5, after some tasks, satisfies a
check. -/
def afterTasks (memoryBudgetBytes : UInt64) (cmds : List MemoryCmd)
    (check : CacheServer PointTree LRUReplacementStrategy → Bool) : Bool :=
  match Manager.create (byteParams .binaryApp) builtDisk 0 with
  | .error _ => false
  | .ok m => ((memoryMachine (byteParams .binaryApp) LRUReplacementStrategy.strategy).run cmds
      (.construct LRUReplacementStrategy.strategy m memoryBudgetBytes)).any check

theorem afterTasks_spec {memoryBudgetBytes : UInt64} {cmds : List MemoryCmd}
    {check : CacheServer PointTree LRUReplacementStrategy → Bool} (h : afterTasks memoryBudgetBytes cmds check = true) :
    ∃ m s, Manager.create (byteParams .binaryApp) builtDisk 0 = .ok m ∧
      (memoryMachine (byteParams .binaryApp) LRUReplacementStrategy.strategy).run cmds
        (.construct LRUReplacementStrategy.strategy m memoryBudgetBytes) = some s ∧ check s = true := by
  unfold afterTasks at h
  split at h
  · cases h
  · rename_i m hc
    obtain ⟨s, hs, hcheck⟩ := (Option.any_eq_true _ _).1 h
    exact ⟨m, s, hc, hs, hcheck⟩

/-- Predicate 5 is asked for, and brought into memory. -/
def lockTasks : List MemoryCmd := [.lockPredicates [5], .replacementTask]

end PointTree

open PointTree in
/-- Predicate 5 is loaded by a replacement task before a stream asks for it. -/
theorem memoryBudget_kept_locked : ∃ m s, Manager.create (byteParams .binaryApp) builtDisk 0 = .ok m ∧
    (memoryMachine (byteParams .binaryApp) LRUReplacementStrategy.strategy).run (lockTasks ++ [.streamTriplePattern 5])
      (.construct LRUReplacementStrategy.strategy m 100) = some s ∧
    s.manager.index.predicates.keys = [5] ∧ s.WithinBudget 100 := by
  obtain ⟨m, s, hc, hrun, hcheck⟩ := afterTasks_spec
    (show afterTasks 100 (lockTasks ++ [.streamTriplePattern 5]) (fun s => s.manager.index.predicates.keys = [5]) = true by
      decide +kernel)
  obtain ⟨m', s₁, hc', hrun₁, hcheck₁⟩ := afterTasks_spec
    (show afterTasks 100 lockTasks (fun s => s.manager.index.predicates.contains 5) = true by decide +kernel)
  obtain rfl := Except.ok.inj (hc.symm.trans hc')
  have hempty : m.index.predicates = ∅ := by
    obtain ⟨l, s₀, -, hc₀, hs₀, -⟩ := create_spec (P := byteParams .binaryApp) byteOps_lawful builtDisk_fresh 0
    obtain rfl : s₀ = m := Except.ok.inj (hc₀.symm.trans hc)
    rw [hs₀]
    rfl
  refine ⟨m, s, hc, hrun, of_decide_eq_true hcheck, ?_⟩
  refine (memoryBudget_kept (P := byteParams .binaryApp) byteOps_lawful
    (Started.sound byteOps_lawful builtDisk_fresh (.lazily hc)) hempty (by decide)).1 _ s ?_ hrun
  -- only the last task asks for a tree
  rw [Machine.Meets.append_iff]
  refine ⟨⟨trivial, fun _ _ => ⟨trivial, fun _ _ => trivial⟩⟩, fun s₂ hrun₂ => ⟨fun _ => .inl ?_, fun _ _ => trivial⟩⟩
  obtain rfl := Option.some.inj (hrun₁.symm.trans hrun₂)
  exact hcheck₁

open PointTree in
/-- A stream asks for predicate 5 first: its tree is in memory, is no key of the
replacement, and is more than the budget. -/
theorem not_withinBudget_stream : ∃ m s, Manager.create (byteParams .binaryApp) builtDisk 0 = .ok m ∧
    (memoryMachine (byteParams .binaryApp) LRUReplacementStrategy.strategy).run [.streamTriplePattern 5]
      (.construct LRUReplacementStrategy.strategy m 0) = some s ∧
    s.replacement.prioritySet = [] ∧ (s.manager.index.predicates.keys.map s.manager.getPredicateSize).sum = 1 ∧
    ¬ s.WithinBudget 0 := by
  obtain ⟨m, s, hc, hrun, hcheck⟩ := afterTasks_spec
    (show afterTasks 0 [.streamTriplePattern 5] (fun s => s.replacement.prioritySet = [] &&
      (s.manager.index.predicates.keys.map s.manager.getPredicateSize).sum = 1) = true by decide +kernel)
  rw [Bool.and_eq_true, decide_eq_true_eq, decide_eq_true_eq] at hcheck
  refine ⟨m, s, hc, hrun, hcheck.1, hcheck.2, fun h => ?_⟩
  have hsum := h.bounded
  rw [hcheck.2] at hsum
  exact absurd hsum (by decide)

end K2Cache
