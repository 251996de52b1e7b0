import K2Cache.Proof.Replacement

/-!
# What a hit evicts

No key is in use: a call of `hit_key` drops keys from the front of the set until the hit key
fits (`freeSpace_drops`).

* LRU. The recency of a key is a counter that `remove_key` sets back to zero when the removed
  key has the value `low` and no key is behind it in the map, also where other keys keep
  their values. `evictsOldest_of_keepsCounters`: after a run of calls that do not set the
  counters back under a key that stays, whatever is hit next, every key evicted was last hit
  before every key that stays.
* Frequency. The simulation that decides if keys are to go asks the space map for the size
  of the hit key, which is not in it: the decision is taken for a key without size.
  `neverHotter_iff`: when no key with a higher count goes.
-/

namespace K2Cache

open Lib

/-! ## One call -/

namespace CacheReplacement

section

variable {σ : Type} {S : CRStrategy σ}

/-- A key that is behind all others is inserted at the end. -/
theorem insertKey_last {st : σ} {key : UInt64} {l : List UInt64} (h : ∀ k ∈ l, less S st k key = true) :
    insertKey S st key l = l ++ [key] := by
  induction l with
  | nil => rfl
  | cons k l ih =>
    rw [insertKey, if_pos (h k List.mem_cons_self), ih fun k' hk' => h k' (List.mem_cons_of_mem _ hk')]
    rfl

/-- The sizes of some keys, added up as the loop does. -/
def sizes (s : CacheReplacement σ) (keys : List UInt64) : UInt64 := (keys.map s.sizeOf).sum

/-- The loop dropped the first `n` keys: no fewer make enough room, and these do unless they
are all there were. -/
structure FreedFront (it : List UInt64) (nextSize : UInt64) (s : CacheReplacement σ) (n : ℕ)
    (r : Option UInt64 × CacheReplacement σ) : Prop where
  length : n ≤ it.length
  set : r.2.prioritySet = it.drop n
  unused : r.2.inUse = ∅
  max : r.2.maxSizeAllowed = s.maxSizeAllowed
  fewer : ∀ m < n, s.maxSizeAllowed < nextSize - s.sizes (it.take m)
  enough : n < it.length → nextSize - s.sizes (it.take n) ≤ s.maxSizeAllowed
  unsized : (∀ k, k ∉ it → s.sizeOf k = 0) → ∀ k, k ∉ it.drop n → r.2.sizeOf k = 0

/-- **With no key in use, the loop drops keys from the front of the set.** -/
theorem freeSpace_drops (S : CRStrategy σ) {it : List UInt64} (nextSize sizeErased : UInt64) {s : CacheReplacement σ} (hu : s.inUse = ∅)
    (hset : s.prioritySet = it) (hn : it.Nodup) : ∃ n, FreedFront it nextSize s n (freeSpace S it nextSize sizeErased s) := by
  induction it generalizing nextSize sizeErased s with
  | nil =>
    have hsame : (freeSpace S [] nextSize sizeErased s).2.prioritySet = [] ∧ (freeSpace S [] nextSize sizeErased s).2.inUse = ∅ ∧
        (freeSpace S [] nextSize sizeErased s).2.maxSizeAllowed = s.maxSizeAllowed ∧
        (freeSpace S [] nextSize sizeErased s).2.spaceMap = s.spaceMap := by
      unfold freeSpace
      split <;> exact ⟨hset, hu, rfl, rfl⟩
    obtain ⟨h1, h2, h3, h4⟩ := hsame
    refine ⟨0, le_rfl, h1, h2, h3, fun m hm => absurd hm (Nat.not_lt_zero m), fun hl => absurd hl (Nat.lt_irrefl 0), ?_⟩
    intro hz k hk
    rw [sizeOf, h4]
    exact hz k hk
  | cons currentKey it ih =>
    obtain ⟨hnk, hn'⟩ := List.nodup_cons.1 hn
    have hfree : s.isUsing currentKey = false := by
      rw [isUsing, hu]
      rfl
    have hsize : ∀ k ∈ it, (s.drop S currentKey).sizeOf k = s.sizeOf k := fun k hk => sizeOf_drop fun he => hnk (he ▸ hk)
    have hsum : ∀ m, nextSize - s.sizeOf currentKey - (s.drop S currentKey).sizes (it.take m) =
        nextSize - s.sizes ((currentKey :: it).take (m + 1)) := by
      intro m
      have hm : (it.take m).map (s.drop S currentKey).sizeOf = (it.take m).map s.sizeOf :=
        List.map_congr_left fun k hk => hsize k (List.mem_of_mem_take hk)
      rw [sizes, sizes, hm, List.take_succ_cons, List.map_cons, List.sum_cons, sub_sub]
    unfold freeSpace
    split
    · rename_i hlt
      rw [if_neg (by simp [hfree])]
      have hset' : (s.drop S currentKey).prioritySet = it := by simp [drop, hset]
      obtain ⟨n, hd⟩ := ih (nextSize - s.sizeOf currentKey) (sizeErased + s.sizeOf currentKey) (s := s.drop S currentKey) hu hset' hn'
      refine ⟨n + 1, Nat.succ_le_succ hd.length, hd.set, hd.unused, hd.max, fun m hm => ?_, fun hl => ?_, fun hz => ?_⟩
      · cases m with
        | zero => simpa [sizes] using hlt
        | succ m =>
          rw [← hsum]
          exact hd.fewer m (by omega)
      · rw [← hsum]
        exact hd.enough (by simpa using hl)
      · refine hd.unsized fun k hk => ?_
        by_cases hk' : k = currentKey
        · simp [hk', sizeOf, drop, OrdMap.find?_erase]
        · rw [sizeOf_drop hk']
          exact hz k (by simp [hk', hk])
    · rename_i hlt
      refine ⟨0, Nat.zero_le _, hset, hu, rfl, fun m hm => absurd hm (Nat.not_lt_zero m), fun _ => ?_, fun hz => hz⟩
      simpa [sizes] using hlt

/-- A call for more than the bound is ignored. -/
theorem hitKey_ignored {key spaceRequired : UInt64} {s : CacheReplacement σ} (h : s.maxSizeAllowed < spaceRequired) :
    s.hitKey S key spaceRequired = (false, s) := by
  rw [hitKey, if_pos h]

/-- A key of the set is hit. -/
theorem hitKey_present {key spaceRequired : UInt64} {s : CacheReplacement σ} (h : ¬ s.maxSizeAllowed < spaceRequired)
    (hk : s.findKey S key = some key) :
    s.hitKey S key spaceRequired =
      (true, { s with
        strategy := S.hitKey key s.strategy
        prioritySet := insertKey S (S.hitKey key s.strategy) key (s.prioritySet.erase key) }) := by
  rw [hitKey, if_neg h, hk]

/-- Another key is loaded when the loop has made room. -/
theorem hitKey_absent {key spaceRequired : UInt64} {s s' : CacheReplacement σ} (h : ¬ s.maxSizeAllowed < spaceRequired)
    (hk : s.findKey S key = none) (ha : s.askStrategy S key (spaceRequired + s.sizeUsed) = (true, s')) :
    s.hitKey S key spaceRequired =
      match freeSpace S s'.prioritySet (spaceRequired + s.sizeUsed) 0 s' with
      | (none, s) => (false, s)
      | (some nextSize, s) => (true, s.loadKey S key spaceRequired nextSize) := by
  rcases hfree : freeSpace S s'.prioritySet (spaceRequired + s.sizeUsed) 0 s' with ⟨n, s''⟩
  rw [hitKey, if_neg h, hk]
  cases n with
  | none => simp only [ha, if_true, hfree]
  | some n => simp only [ha, if_true, hfree]

/-- The strategy keeps the others. -/
theorem hitKey_refused {key spaceRequired : UInt64} {s s' : CacheReplacement σ} (h : ¬ s.maxSizeAllowed < spaceRequired)
    (hk : s.findKey S key = none) (ha : s.askStrategy S key (spaceRequired + s.sizeUsed) = (false, s')) :
    s.hitKey S key spaceRequired =
      (false, if S.shouldHitWithoutRetrieval then { s' with strategy := S.hitKey key s'.strategy } else s') := by
  rw [hitKey, if_neg h, hk]
  simp only [ha, Bool.false_eq_true, if_false]

/-- The keys after a hit of one of them. -/
theorem mem_hitKey_present {key spaceRequired : UInt64} {s : CacheReplacement σ} (h : ¬ s.maxSizeAllowed < spaceRequired)
    (hk : s.findKey S key = some key) (hn : s.prioritySet.Nodup) (k : UInt64) :
    k ∈ (s.hitKey S key spaceRequired).2.prioritySet ↔ k ∈ s.prioritySet := by
  rw [hitKey_present h hk]
  have hp : (insertKey S (S.hitKey key s.strategy) key (s.prioritySet.erase key)).Perm (key :: s.prioritySet.erase key) :=
    insertKey_perm hn.not_mem_erase
  exact (hp.trans (List.perm_cons_erase (findKey_eq_some hk).2).symm).mem_iff

/-- The keys after the loop: those it left, and the hit key if it is loaded. -/
theorem mem_hitKey_absent {key spaceRequired : UInt64} {s s' : CacheReplacement σ} {n : ℕ} (h : ¬ s.maxSizeAllowed < spaceRequired)
    (hk : s.findKey S key = none) (ha : s.askStrategy S key (spaceRequired + s.sizeUsed) = (true, s'))
    (hf : FreedFront s.prioritySet (spaceRequired + s.sizeUsed) s' n
      (freeSpace S s'.prioritySet (spaceRequired + s.sizeUsed) 0 s')) :
    (∀ k ∈ s.prioritySet.drop n, k ∈ (s.hitKey S key spaceRequired).2.prioritySet) ∧
      ∀ k ∈ (s.hitKey S key spaceRequired).2.prioritySet, k = key ∨ k ∈ s.prioritySet.drop n := by
  rw [hitKey_absent h hk ha]
  have hset' := hf.set
  generalize freeSpace S s'.prioritySet (spaceRequired + s.sizeUsed) 0 s' = r at hset' ⊢
  obtain ⟨m, s''⟩ := r
  dsimp only at hset'
  rw [← hset']
  cases m with
  | none => exact ⟨fun _ hk => hk, fun _ hk => .inr hk⟩
  | some m =>
    have hp : (s''.loadKey S key spaceRequired m).prioritySet.Perm (key :: s''.prioritySet) :=
      insertKey_perm fun hm => findKey_eq_none hk (List.mem_of_mem_drop (hset' ▸ hm))
    exact ⟨fun k hk => hp.mem_iff.2 (List.mem_cons_of_mem _ hk), fun k hk => List.mem_cons.1 (hp.mem_iff.1 hk)⟩

variable (S) in
/-- The state after calls of `hit_key`. -/
def hitAfter (maxSizeAllowed : UInt64) (calls : List (UInt64 × UInt64)) : CacheReplacement σ :=
  after S maxSizeAllowed (calls.map fun c => .hitKey c.1 c.2)

theorem hitAfter_concat (maxSizeAllowed : UInt64) (calls : List (UInt64 × UInt64)) (key spaceRequired : UInt64) :
    hitAfter S maxSizeAllowed (calls ++ [(key, spaceRequired)]) =
      ((hitAfter S maxSizeAllowed calls).hitKey S key spaceRequired).2 := by
  rw [hitAfter, List.map_append, after, List.foldl_append]
  rfl

end

end CacheReplacement

/-! ## Last hits -/

/-- The last `a` of the list comes before the last `b`. -/
def LastBefore {α : Type*} (l : List α) (a b : α) : Prop :=
  ∃ before after, l = before ++ b :: after ∧ a ∈ before ∧ a ∉ b :: after

theorem lastBefore_self {α : Type*} {l : List α} {a b : α} (ha : a ∈ l) (hab : a ≠ b) : LastBefore (l ++ [b]) a b :=
  ⟨l, [], rfl, ha, by simpa using hab⟩

theorem LastBefore.concat {α : Type*} {l : List α} {a b c : α} (h : LastBefore l a b) (hc : a ≠ c) :
    LastBefore (l ++ [c]) a b := by
  obtain ⟨before, after, rfl, ha, hn⟩ := h
  refine ⟨before, after ++ [c], by simp, ha, ?_⟩
  rw [← List.cons_append, List.mem_append, List.mem_singleton, not_or]
  exact ⟨hn, hc⟩

/-- Nothing comes after the last hit. -/
theorem not_lastBefore_last {α : Type*} {l : List α} {a b : α} : ¬ LastBefore (l ++ [a]) a b := by
  rintro ⟨before, after, h, -, hn⟩
  have hlast : (before ++ b :: after).getLast? = some a := by rw [← h, List.getLast?_concat]
  rw [List.getLast?_append_of_ne_nil _ (List.cons_ne_nil _ _)] at hlast
  exact hn (List.mem_of_getLast? hlast)

/-! ## LRU -/

namespace LRUReplacementStrategy

/-- `remove_key` of the key sets both counters to zero. -/
def resets (s : LRUReplacementStrategy) (key : UInt64) : Bool :=
  match s.keyMappingToLruValue.find? key with
  | none => false
  | some lruValue => decide (lruValue = s.low) && (s.keyMappingToLruValue.entries.find? fun e => key < e.1).isNone

theorem high_removeKey {s : LRUReplacementStrategy} {key : UInt64} (h : s.resets key = false) :
    (removeKey key s).high = s.high := by
  unfold resets at h
  unfold removeKey
  split
  · rfl
  · rename_i v hv
    rw [hv] at h
    dsimp only at h ⊢
    split
    · rename_i hlow
      split
      · rfl
      · rename_i hnone
        simp [hlow, hnone] at h
    · rfl

theorem contains_removeKey {s : LRUReplacementStrategy} {key k : UInt64} :
    (removeKey key s).keyMappingToLruValue.contains k = true ↔ k ≠ key ∧ s.keyMappingToLruValue.contains k = true := by
  rw [OrdMap.contains_iff, OrdMap.contains_iff, find?_removeKey]
  split
  · rename_i hk
    simp [hk]
  · rename_i hk
    simp [hk]

theorem contains_hitKey {s : LRUReplacementStrategy} {key k : UInt64} :
    (hitKey key s).keyMappingToLruValue.contains k = true ↔ k = key ∨ s.keyMappingToLruValue.contains k = true := by
  rw [OrdMap.contains_iff, OrdMap.contains_iff, find?_hitKey]
  split
  · rename_i hk
    simp [hk]
  · rename_i hk
    simp [hk]

/-- A hit counts on, unless it sets the counters back. -/
theorem high_hitKey {s : LRUReplacementStrategy} {key : UInt64} (h : s.resets key = false) : (hitKey key s).high = s.high + 1 :=
  high_removeKey (s := { s with high := s.high + 1 }) h

/-- The keys are those of the map, in the order of their last hits, and `high` is a new value. -/
structure InOrder (hits keys : List UInt64) (s : LRUReplacementStrategy) : Prop where
  nodup : keys.Nodup
  mapped : ∀ k, k ∈ keys ↔ s.keyMappingToLruValue.contains k = true
  below : ∀ k v, s.keyMappingToLruValue.find? k = some v → v < s.high
  hit : ∀ k ∈ keys, k ∈ hits
  order : keys.Pairwise (LastBefore hits)

/-- A key is removed, and the counters stay or no key is left. -/
theorem InOrder.removeKey {hits keys : List UInt64} {s : LRUReplacementStrategy} (h : InOrder hits keys s) (key : UInt64)
    (hr : s.resets key = true → keys.erase key = []) : InOrder hits (keys.erase key) (removeKey key s) where
  nodup := h.nodup.erase key
  mapped k := by rw [h.nodup.mem_erase_iff, h.mapped, contains_removeKey]
  below k v hv := by
    cases hres : s.resets key with
    | false =>
      rw [find?_removeKey] at hv
      split at hv
      · exact absurd hv nofun
      · rw [high_removeKey hres]
        exact h.below k v hv
    | true =>
      -- the map is empty
      have hc := contains_removeKey.1 ((OrdMap.contains_iff _).2 ⟨v, hv⟩)
      have hm : k ∈ keys.erase key := h.nodup.mem_erase_iff.2 ⟨hc.1, (h.mapped k).2 hc.2⟩
      rw [hr hres] at hm
      exact absurd hm List.not_mem_nil
  hit k hk := h.hit k (List.mem_of_mem_erase hk)
  order := h.order.sublist List.erase_sublist

/-- The key that is hit is the last one. -/
theorem InOrder.hitKey {hits keys : List UInt64} {s : LRUReplacementStrategy} (h : InOrder hits keys s) {key : UInt64}
    (hr : s.resets key = false) : InOrder (hits ++ [key]) (keys.erase key ++ [key]) (hitKey key s) where
  nodup := by
    rw [List.nodup_append_comm]
    exact List.nodup_cons.2 ⟨h.nodup.not_mem_erase, h.nodup.erase key⟩
  mapped k := by
    rw [contains_hitKey, ← h.mapped k, List.mem_append, h.nodup.mem_erase_iff, List.mem_singleton]
    tauto
  below k v hv := by
    rw [find?_hitKey] at hv
    rw [high_hitKey hr]
    split at hv
    · obtain rfl := Option.some.inj hv
      omega
    · have := h.below k v hv
      omega
  hit k hk := by
    rcases List.mem_append.1 hk with hk | hk
    · exact List.mem_append_left _ (h.hit k (List.mem_of_mem_erase hk))
    · exact List.mem_append_right _ hk
  order := by
    have hne : ∀ k ∈ keys.erase key, k ≠ key := fun k hk => (h.nodup.mem_erase_iff.1 hk).1
    refine List.pairwise_append.2 ⟨?_, List.pairwise_singleton _ _, ?_⟩
    · refine (h.order.sublist List.erase_sublist).imp_of_mem fun ha _ hab => ?_
      exact hab.concat (hne _ ha)
    · intro k hk k' hk'
      obtain rfl := List.mem_singleton.1 hk'
      exact lastBefore_self (h.hit k (List.mem_of_mem_erase hk)) (hne k hk)

/-- A key that is not among them was asked for. -/
theorem InOrder.asked {hits keys : List UInt64} {s : LRUReplacementStrategy} (h : InOrder hits keys s) {key : UInt64}
    (hk : key ∉ keys) : InOrder (hits ++ [key]) keys s where
  nodup := h.nodup
  mapped := h.mapped
  below := h.below
  hit k hk := List.mem_append_left _ (h.hit k hk)
  order := h.order.imp_of_mem fun ha _ hab => hab.concat fun he => hk (he ▸ ha)

/-- A key that is not in the map has no counters to set back. -/
theorem InOrder.resets_of_not_mem {hits keys : List UInt64} {s : LRUReplacementStrategy} (h : InOrder hits keys s)
    {key : UInt64} (hk : key ∉ keys) : s.resets key = false := by
  have hn : s.keyMappingToLruValue.find? key = none := by
    rw [← OrdMap.contains_eq_false, Bool.eq_false_iff]
    exact fun hc => hk ((h.mapped key).2 hc)
  simp only [resets, hn]

end LRUReplacementStrategy

namespace CacheReplacement

open LRUReplacementStrategy (resets InOrder)

/-- The loop sets the counters back for the last key of the set only. -/
def dropsInOrder : List UInt64 → UInt64 → CacheReplacement LRUReplacementStrategy → Bool
  | [], _, _ => true
  | currentKey :: it, nextSize, s =>
    !decide (s.maxSizeAllowed < nextSize) ||
      (!s.strategy.resets currentKey || it.isEmpty) &&
        dropsInOrder it (nextSize - s.sizeOf currentKey) (s.drop LRUReplacementStrategy.strategy currentKey)

/-- The call does not set the counters back under a key that stays: a key in the set that is
hit again, or one that is not dropped with the last. -/
def keepsCounters (key spaceRequired : UInt64) (s : CacheReplacement LRUReplacementStrategy) : Bool :=
  decide (s.maxSizeAllowed < spaceRequired) ||
    match s.findKey LRUReplacementStrategy.strategy key with
    | some _ => !s.strategy.resets key
    | none => dropsInOrder s.prioritySet (spaceRequired + s.sizeUsed) s

/-- The set is in the order of the last hits. -/
theorem freeSpace_inOrder {hits it : List UInt64} {nextSize : UInt64} (sizeErased : UInt64) {s : CacheReplacement LRUReplacementStrategy}
    (hu : s.inUse = ∅) (hset : s.prioritySet = it) (h : InOrder hits it s.strategy) (hd : dropsInOrder it nextSize s = true) :
    InOrder hits (freeSpace LRUReplacementStrategy.strategy it nextSize sizeErased s).2.prioritySet
      (freeSpace LRUReplacementStrategy.strategy it nextSize sizeErased s).2.strategy := by
  induction it generalizing nextSize sizeErased s with
  | nil =>
    unfold freeSpace
    split
    · exact hset.symm ▸ h
    · exact hset.symm ▸ h
  | cons currentKey it ih =>
    have hfree : s.isUsing currentKey = false := by
      rw [isUsing, hu]
      rfl
    have herase : (currentKey :: it).erase currentKey = it := List.erase_cons_head _ _
    unfold freeSpace
    split
    · rename_i hlt
      rw [if_neg (by simp [hfree])]
      simp only [dropsInOrder, hlt, decide_true, Bool.not_true, Bool.false_or, Bool.and_eq_true] at hd
      have hrem := h.removeKey currentKey fun hres => by
        rw [herase]
        simpa [hres] using hd.1
      rw [herase] at hrem
      exact ih (sizeErased + s.sizeOf currentKey) (s := s.drop LRUReplacementStrategy.strategy currentKey) hu (by simp [drop, hset]) hrem hd.2
    · exact hset.symm ▸ h

/-- The strategy always lets the others go. -/
theorem askStrategy_lru (key nextSize : UInt64) (s : CacheReplacement LRUReplacementStrategy) :
    s.askStrategy LRUReplacementStrategy.strategy key nextSize = (true, s) := by
  unfold askStrategy
  split <;> rfl

/-- The hit key goes to the end of the set. -/
theorem insertKey_hitKey {hits keys : List UInt64} {s : LRUReplacementStrategy} {key : UInt64} (h : InOrder hits keys s) :
    insertKey LRUReplacementStrategy.strategy (LRUReplacementStrategy.hitKey key s) key (keys.erase key) =
      keys.erase key ++ [key] := by
  refine insertKey_last fun k hk => less_iff.2 (.inl ?_)
  obtain ⟨hne, hk⟩ := h.nodup.mem_erase_iff.1 hk
  obtain ⟨v, hv⟩ := (OrdMap.contains_iff _).1 ((h.mapped k).1 hk)
  have hlt := h.below k v hv
  simp only [LRUReplacementStrategy.strategy, LRUReplacementStrategy.costFunction, LRUReplacementStrategy.find?_hitKey,
    if_neg hne, if_true, hv, Option.getD_some]
  omega

/-- A hit that counts on, in the set and in the strategy. -/
theorem inOrder_hit {hits keys : List UInt64} {s : LRUReplacementStrategy} {key : UInt64} (h : InOrder hits keys s)
    (hr : s.resets key = false) :
    InOrder (hits ++ [key])
      (insertKey LRUReplacementStrategy.strategy (LRUReplacementStrategy.hitKey key s) key (keys.erase key))
      (LRUReplacementStrategy.hitKey key s) := by
  rw [insertKey_hitKey h]
  exact h.hitKey hr

/-- The keys hit by the calls; a call for more than the bound is ignored. -/
def hits (maxSizeAllowed : UInt64) (calls : List (UInt64 × UInt64)) : List UInt64 :=
  (calls.filter fun c => c.2 ≤ maxSizeAllowed).map Prod.fst

/-- What a run of calls keeps. -/
structure LruSettled (maxSizeAllowed : UInt64) (hits : List UInt64) (s : CacheReplacement LRUReplacementStrategy) : Prop where
  max : s.maxSizeAllowed = maxSizeAllowed
  unused : s.inUse = ∅
  inOrder : InOrder hits s.prioritySet s.strategy

theorem hits_concat (maxSizeAllowed : UInt64) (calls : List (UInt64 × UInt64)) (key spaceRequired : UInt64) :
    hits maxSizeAllowed (calls ++ [(key, spaceRequired)]) =
      if maxSizeAllowed < spaceRequired then hits maxSizeAllowed calls else hits maxSizeAllowed calls ++ [key] := by
  split
  · rename_i h
    simp [hits, List.filter_append, UInt64.not_le.2 h]
  · rename_i h
    simp [hits, List.filter_append, UInt64.not_lt.1 h]

/-- **A call that does not set the counters back keeps the set in the order of the last hits.** -/
theorem LruSettled.hitKey {maxSizeAllowed key spaceRequired : UInt64} {calls : List (UInt64 × UInt64)}
    {s : CacheReplacement LRUReplacementStrategy} (h : LruSettled maxSizeAllowed (hits maxSizeAllowed calls) s)
    (hc : keepsCounters key spaceRequired s = true) :
    LruSettled maxSizeAllowed (hits maxSizeAllowed (calls ++ [(key, spaceRequired)]))
      (s.hitKey LRUReplacementStrategy.strategy key spaceRequired).2 := by
  obtain ⟨rfl, hu, hio⟩ := h
  rw [hits_concat]
  unfold keepsCounters at hc
  split
  · rename_i hlt
    rw [hitKey_ignored hlt]
    exact ⟨rfl, hu, hio⟩
  rename_i hlt
  simp only [hlt, decide_false, Bool.false_or] at hc
  cases hf : s.findKey LRUReplacementStrategy.strategy key with
  | some k =>
    obtain ⟨rfl, hk⟩ := findKey_eq_some hf
    rw [hf, Bool.not_eq_true'] at hc
    rw [hitKey_present hlt hf]
    exact ⟨rfl, hu, inOrder_hit hio hc⟩
  | none =>
    rw [hf] at hc
    have ho := freeSpace_inOrder 0 hu rfl hio hc
    obtain ⟨m, hd⟩ := freeSpace_drops LRUReplacementStrategy.strategy (spaceRequired + s.sizeUsed) 0 hu rfl hio.nodup
    have hn : key ∉ (freeSpace LRUReplacementStrategy.strategy s.prioritySet (spaceRequired + s.sizeUsed) 0 s).2.prioritySet :=
      fun hk => findKey_eq_none hf (List.mem_of_mem_drop (hd.set ▸ hk))
    rw [hitKey_absent hlt hf (askStrategy_lru key (spaceRequired + s.sizeUsed) s)]
    have hmax := hd.max
    have hunused := hd.unused
    generalize freeSpace LRUReplacementStrategy.strategy s.prioritySet (spaceRequired + s.sizeUsed) 0 s = r at ho hn hmax hunused ⊢
    obtain ⟨n, s'⟩ := r
    cases n with
    | none => exact ⟨hmax, hunused, ho.asked hn⟩
    | some n =>
      refine ⟨hmax, hunused, ?_⟩
      have hhit := inOrder_hit ho (ho.resets_of_not_mem hn)
      rwa [List.erase_of_not_mem hn] at hhit

theorem lruSettled_after {maxSizeAllowed : UInt64} (calls : List (UInt64 × UInt64))
    (h : ∀ n (hn : n < calls.length),
      keepsCounters calls[n].1 calls[n].2 (hitAfter LRUReplacementStrategy.strategy maxSizeAllowed (calls.take n)) = true) :
    LruSettled maxSizeAllowed (hits maxSizeAllowed calls) (hitAfter LRUReplacementStrategy.strategy maxSizeAllowed calls) := by
  induction calls using List.reverseRecOn with
  | nil => exact ⟨rfl, rfl, List.nodup_nil, fun _ => ⟨nofun, nofun⟩, nofun, nofun, List.Pairwise.nil⟩
  | append_singleton calls call ih =>
    rw [hitAfter_concat]
    refine LruSettled.hitKey (ih fun n hn => ?_) ?_
    · have hstep := h n (by simp only [List.length_append, List.length_singleton]; omega)
      rwa [List.getElem_append_left hn, List.take_append_of_le_length hn.le] at hstep
    · have hlast := h calls.length (by simp)
      rwa [List.getElem_concat_length rfl, List.take_left] at hlast

/-- Whatever the next call evicts was last hit before every key that stays. -/
def EvictsOldest (maxSizeAllowed : UInt64) (calls : List (UInt64 × UInt64)) (key spaceRequired : UInt64) : Prop :=
  ∀ evicted ∈ (hitAfter LRUReplacementStrategy.strategy maxSizeAllowed calls).prioritySet,
    evicted ∉ (hitAfter LRUReplacementStrategy.strategy maxSizeAllowed (calls ++ [(key, spaceRequired)])).prioritySet →
      ∀ stays ∈ (hitAfter LRUReplacementStrategy.strategy maxSizeAllowed (calls ++ [(key, spaceRequired)])).prioritySet, stays ≠ key →
        LastBefore (hits maxSizeAllowed calls) evicted stays

/-- What a call does to the set: it drops keys from the front, and the hit key joins or moves. -/
theorem hitKey_dropsFront (key spaceRequired : UInt64) {s : CacheReplacement LRUReplacementStrategy} (hu : s.inUse = ∅)
    (hn : s.prioritySet.Nodup) :
    ∃ n, (∀ k ∈ s.prioritySet.drop n, k ∈ (s.hitKey LRUReplacementStrategy.strategy key spaceRequired).2.prioritySet) ∧
      ∀ k ∈ (s.hitKey LRUReplacementStrategy.strategy key spaceRequired).2.prioritySet, k = key ∨ k ∈ s.prioritySet.drop n := by
  by_cases hlt : s.maxSizeAllowed < spaceRequired
  · rw [hitKey_ignored hlt]
    exact ⟨0, fun _ hk => hk, fun _ hk => .inr hk⟩
  cases hf : s.findKey LRUReplacementStrategy.strategy key with
  | some k =>
    obtain ⟨rfl, -⟩ := findKey_eq_some hf
    have hm := mem_hitKey_present hlt hf hn
    exact ⟨0, fun k' hk' => (hm k').2 hk', fun k' hk' => .inr ((hm k').1 hk')⟩
  | none =>
    obtain ⟨n, hd⟩ := freeSpace_drops LRUReplacementStrategy.strategy (spaceRequired + s.sizeUsed) 0 hu rfl hn
    exact ⟨n, mem_hitKey_absent hlt hf (askStrategy_lru key (spaceRequired + s.sizeUsed) s) hd⟩

/-- **LRU evicts what was hit longest ago**, after a run in which no call sets the counters
back under a key that stays. -/
theorem evictsOldest_of_keepsCounters (maxSizeAllowed : UInt64) (calls : List (UInt64 × UInt64))
    (h : ∀ n (hn : n < calls.length),
      keepsCounters calls[n].1 calls[n].2 (hitAfter LRUReplacementStrategy.strategy maxSizeAllowed (calls.take n)) = true)
    (key spaceRequired : UInt64) :
    EvictsOldest maxSizeAllowed calls key spaceRequired := by
  intro evicted he hne stays hs hk
  have hsettled := lruSettled_after calls h
  obtain ⟨n, hkept, hafter⟩ :=
    hitKey_dropsFront key spaceRequired hsettled.unused hsettled.inOrder.nodup
  rw [hitAfter_concat] at hne hs
  have hin := (hafter stays hs).resolve_left hk
  have horder := hsettled.inOrder.order
  rw [← List.take_append_drop n (hitAfter LRUReplacementStrategy.strategy maxSizeAllowed calls).prioritySet] at he horder
  have hout := (List.mem_append.1 he).resolve_right fun hm => hne (hkept evicted hm)
  exact (List.pairwise_append.1 horder).2.2 evicted hout stays hin

/-- The oldest of two keys goes, also after it was hit a second time. -/
theorem evictsOldest_of_keepsCounters_two :
    EvictsOldest 2 [(2, 1), (3, 1), (2, 1)] 4 1 ∧ 3 ∉ (hitAfter LRUReplacementStrategy.strategy 2 [(2, 1), (3, 1), (2, 1), (4, 1)]).prioritySet :=
  ⟨evictsOldest_of_keepsCounters 2 [(2, 1), (3, 1), (2, 1)] (by decide +kernel) 4 1, by decide +kernel⟩

/-- **A second hit of the only key sets the counters back**: its value stays, and the key hit
after it is evicted first. -/
theorem evictsOldest_fails : ¬ EvictsOldest 2 [(1, 1), (1, 1), (2, 1)] 3 1 := by
  intro h
  have hlast := h 2 (by decide +kernel) (by decide +kernel) 1 (by decide +kernel) (by decide)
  exact not_lastBefore_last (l := [1, 1]) hlast

/-! ## Frequency -/

open FrequencyReplacementStrategy (discardLoop)

/-- The count of hits. -/
def hitCount (s : CacheReplacement FrequencyReplacementStrategy) (key : UInt64) : ℤ := s.strategy.costFunction key

/-- The key of the set that comes first, if there is one, has a higher count. -/
def firstHotter (s : CacheReplacement FrequencyReplacementStrategy) (key : UInt64) : Bool :=
  match s.prioritySet with
  | [] => true
  | first :: _ => decide (s.hitCount key < s.hitCount first)

/-- What a run of calls keeps: only the keys of the set have a size. -/
structure FrequencySettled (s : CacheReplacement FrequencyReplacementStrategy) : Prop where
  unused : s.inUse = ∅
  nodup : s.prioritySet.Nodup
  unsized : ∀ k, k ∉ s.prioritySet → s.sizeOf k = 0

theorem getKeySize_eq {σ : Type} (s : CacheReplacement σ) (key : UInt64) :
    (getKeySize s.spaceMap key).1 = s.sizeOf key ∧
      ∀ k, sizeOf { s with spaceMap := (getKeySize s.spaceMap key).2 } k = s.sizeOf k := by
  unfold getKeySize sizeOf
  split
  · rename_i v hv
    exact ⟨by rw [hv]; rfl, fun _ => rfl⟩
  · rename_i hv
    refine ⟨by rw [hv]; rfl, fun k => ?_⟩
    dsimp only
    rw [OrdMap.find?_insert]
    split
    · rename_i hk
      rw [hk, hv]
      rfl
    · rfl

/-- **The strategy is asked about a key without size**: others go when there are any and the
first of them is no hotter. -/
theorem askStrategy_frequency {s : CacheReplacement FrequencyReplacementStrategy} {key : UInt64} (hz : s.sizeOf key = 0)
    (nextSize : UInt64) :
    ∃ m, s.askStrategy FrequencyReplacementStrategy.strategy key nextSize =
        (!decide (s.maxSizeAllowed < nextSize) || !s.firstHotter key, { s with spaceMap := m }) ∧
      ∀ k, sizeOf { s with spaceMap := m } k = s.sizeOf k := by
  obtain ⟨hreq, hsame⟩ := getKeySize_eq s key
  unfold askStrategy firstHotter
  split
  · rename_i hlt
    cases hset : s.prioritySet with
    | nil =>
      refine ⟨s.spaceMap, ?_, fun _ => rfl⟩
      simp [hlt, FrequencyReplacementStrategy.strategy, FrequencyReplacementStrategy.shouldDiscardOthersForKey]
    | cons first keys =>
      obtain ⟨-, hsame'⟩ := getKeySize_eq { s with spaceMap := (getKeySize s.spaceMap key).2 } first
      refine ⟨(getKeySize (getKeySize s.spaceMap key).2 first).2, ?_, fun k => (hsame' k).trans (hsame k)⟩
      simp only [FrequencyReplacementStrategy.strategy, FrequencyReplacementStrategy.shouldDiscardOthersForKey,
        List.isEmpty_cons, Bool.false_eq_true, if_false, discardLoop, hreq, hz, UInt64.zero_le, if_true, hitCount, hlt,
        decide_true, Bool.not_true, Bool.false_or]
      split
      · rename_i hhot
        simp [hhot]
      · rename_i hcold
        simp [hcold]
  · rename_i hlt
    exact ⟨s.spaceMap, by simp [hlt], fun _ => rfl⟩

/-- A call leaves only the keys of the set with a size. -/
theorem FrequencySettled.hitKey {s : CacheReplacement FrequencyReplacementStrategy} (h : FrequencySettled s)
    (key spaceRequired : UInt64) :
    FrequencySettled (s.hitKey FrequencyReplacementStrategy.strategy key spaceRequired).2 := by
  by_cases hlt : s.maxSizeAllowed < spaceRequired
  · rw [hitKey_ignored hlt]
    exact h
  cases hf : s.findKey FrequencyReplacementStrategy.strategy key with
  | some k =>
    obtain ⟨rfl, hk⟩ := findKey_eq_some hf
    have hm := mem_hitKey_present hlt hf h.nodup
    rw [hitKey_present hlt hf] at hm ⊢
    refine ⟨h.unused, ?_, fun k' hk' => h.unsized k' fun hs => hk' ((hm k').2 hs)⟩
    exact (insertKey_perm h.nodup.not_mem_erase).nodup_iff.2 (List.nodup_cons.2 ⟨h.nodup.not_mem_erase, h.nodup.erase k⟩)
  | none =>
    have hn : key ∉ s.prioritySet := findKey_eq_none hf
    obtain ⟨m, hask, hsame⟩ := askStrategy_frequency (h.unsized key hn) (spaceRequired + s.sizeUsed)
    have hz : ∀ k, k ∉ s.prioritySet → sizeOf { s with spaceMap := m } k = 0 := fun k hk => (hsame k).trans (h.unsized k hk)
    cases hgo : !decide (s.maxSizeAllowed < spaceRequired + s.sizeUsed) || !s.firstHotter key with
    | false =>
      rw [hgo] at hask
      rw [hitKey_refused hlt hf hask]
      exact ⟨h.unused, h.nodup, hz⟩
    | true =>
      rw [hgo] at hask
      rw [hitKey_absent hlt hf hask]
      obtain ⟨n, hd⟩ := freeSpace_drops FrequencyReplacementStrategy.strategy (spaceRequired + s.sizeUsed) 0
        (s := { s with spaceMap := m }) h.unused rfl h.nodup
      have hset := hd.set
      have hunused := hd.unused
      have hunsized := hd.unsized hz
      have hdn : (s.prioritySet.drop n).Nodup := h.nodup.sublist (List.drop_sublist _ _)
      have hkd : key ∉ s.prioritySet.drop n := fun hk => hn (List.mem_of_mem_drop hk)
      dsimp only
      generalize freeSpace FrequencyReplacementStrategy.strategy s.prioritySet (spaceRequired + s.sizeUsed) 0
        { s with spaceMap := m } = r at hset hunused hunsized ⊢
      obtain ⟨nextSize, s'⟩ := r
      dsimp only at hset hunused hunsized
      rw [← hset] at hunsized hdn hkd
      cases nextSize with
      | none => exact ⟨hunused, hdn, hunsized⟩
      | some nextSize =>
        have hp : (s'.loadKey FrequencyReplacementStrategy.strategy key spaceRequired nextSize).prioritySet.Perm
          (key :: s'.prioritySet) := insertKey_perm hkd
        refine ⟨hunused, hp.nodup_iff.2 (List.nodup_cons.2 ⟨hkd, hdn⟩), fun k hk => ?_⟩
        rw [hp.mem_iff, List.mem_cons, not_or] at hk
        simp only [sizeOf, loadKey, OrdMap.find?_insert_ne _ _ hk.1]
        exact hunsized k hk.2

theorem frequencySettled_after (maxSizeAllowed : UInt64) (calls : List (UInt64 × UInt64)) :
    FrequencySettled (hitAfter FrequencyReplacementStrategy.strategy maxSizeAllowed calls) := by
  induction calls using List.reverseRecOn with
  | nil => exact ⟨rfl, List.nodup_nil, fun _ _ => rfl⟩
  | append_singleton calls call ih =>
    rw [hitAfter_concat]
    exact ih.hitKey call.1 call.2

/-- Whatever the next call evicts has no higher count than the hit key has before it. -/
def NeverHotter (maxSizeAllowed : UInt64) (calls : List (UInt64 × UInt64)) (key spaceRequired : UInt64) : Prop :=
  ∀ evicted ∈ (hitAfter FrequencyReplacementStrategy.strategy maxSizeAllowed calls).prioritySet,
    evicted ∉ (hitAfter FrequencyReplacementStrategy.strategy maxSizeAllowed (calls ++ [(key, spaceRequired)])).prioritySet →
      (hitAfter FrequencyReplacementStrategy.strategy maxSizeAllowed calls).hitCount evicted ≤
        (hitAfter FrequencyReplacementStrategy.strategy maxSizeAllowed calls).hitCount key

/-- The keys that are no hotter make room: the call is ignored, or a hit, or refused; or no
key of the set is hotter; or some first keys are not, and their sizes are enough. -/
def ColdMakeRoom (s : CacheReplacement FrequencyReplacementStrategy) (key spaceRequired : UInt64) : Prop :=
  s.maxSizeAllowed < spaceRequired ∨ key ∈ s.prioritySet ∨ s.firstHotter key = true ∨
    (∀ k ∈ s.prioritySet, s.hitCount k ≤ s.hitCount key) ∨
      ∃ n, (∀ k ∈ s.prioritySet.take n, s.hitCount k ≤ s.hitCount key) ∧
        spaceRequired + s.sizeUsed - s.sizes (s.prioritySet.take n) ≤ s.maxSizeAllowed

/-- What the call evicts: nothing, or the keys the loop drops. -/
theorem evicted_frequency {s : CacheReplacement FrequencyReplacementStrategy} (h : FrequencySettled s)
    (key spaceRequired : UInt64) :
    (s.maxSizeAllowed < spaceRequired ∨ key ∈ s.prioritySet ∨ s.firstHotter key = true) ∧
        (∀ k ∈ s.prioritySet, k ∈ (s.hitKey FrequencyReplacementStrategy.strategy key spaceRequired).2.prioritySet) ∨
      ∃ n ≤ s.prioritySet.length,
        (∀ m < n, s.maxSizeAllowed < spaceRequired + s.sizeUsed - s.sizes (s.prioritySet.take m)) ∧
        (n < s.prioritySet.length → spaceRequired + s.sizeUsed - s.sizes (s.prioritySet.take n) ≤ s.maxSizeAllowed) ∧
        ¬ s.maxSizeAllowed < spaceRequired ∧ key ∉ s.prioritySet ∧ s.firstHotter key = false ∧
        ∀ k ∈ s.prioritySet, k ∉ (s.hitKey FrequencyReplacementStrategy.strategy key spaceRequired).2.prioritySet ↔
          k ∈ s.prioritySet.take n := by
  by_cases hlt : s.maxSizeAllowed < spaceRequired
  · rw [hitKey_ignored hlt]
    exact .inl ⟨.inl hlt, fun _ hk => hk⟩
  cases hf : s.findKey FrequencyReplacementStrategy.strategy key with
  | some k =>
    obtain ⟨rfl, hk⟩ := findKey_eq_some hf
    exact .inl ⟨.inr (.inl hk), fun k' hk' => (mem_hitKey_present hlt hf h.nodup k').2 hk'⟩
  | none =>
    have hn : key ∉ s.prioritySet := findKey_eq_none hf
    obtain ⟨m, hask, hsame⟩ := askStrategy_frequency (h.unsized key hn) (spaceRequired + s.sizeUsed)
    cases hgo : !decide (s.maxSizeAllowed < spaceRequired + s.sizeUsed) || !s.firstHotter key with
    | false =>
      rw [hgo] at hask
      rw [hitKey_refused hlt hf hask]
      rw [Bool.or_eq_false_iff] at hgo
      exact .inl ⟨.inr (.inr (by simpa using hgo.2)), fun _ hk => hk⟩
    | true =>
      rw [hgo] at hask
      obtain ⟨n, hd⟩ := freeSpace_drops FrequencyReplacementStrategy.strategy (spaceRequired + s.sizeUsed) 0
        (s := { s with spaceMap := m }) h.unused rfl h.nodup
      have hsizes : ∀ l, sizes { s with spaceMap := m } l = s.sizes l := fun l =>
        congrArg List.sum (List.map_congr_left fun k _ => hsame k)
      have hfewer : ∀ m < n, s.maxSizeAllowed < spaceRequired + s.sizeUsed - s.sizes (s.prioritySet.take m) := by
        intro m' hm'
        rw [← hsizes]
        exact hd.fewer m' hm'
      obtain ⟨hstay, hnew⟩ := mem_hitKey_absent hlt hf hask hd
      cases hhot : s.firstHotter key with
      | true =>
        -- it fits, and nothing is dropped
        have hfits : spaceRequired + s.sizeUsed ≤ s.maxSizeAllowed := by simpa [hhot] using hgo
        have h0 : n = 0 := by
          by_contra hne
          have := hfewer 0 (Nat.pos_of_ne_zero hne)
          simp only [List.take_zero, sizes, List.map_nil, List.sum_nil, sub_zero] at this
          exact absurd hfits (UInt64.not_le.2 this)
        rw [h0] at hstay
        exact .inl ⟨.inr (.inr rfl), hstay⟩
      | false =>
        refine .inr ⟨n, hd.length, hfewer, fun hl => ?_, hlt, hn, rfl, fun k hk => ⟨fun hout => ?_, fun hin hafter => ?_⟩⟩
        · rw [← hsizes]
          exact hd.enough hl
        · rw [← List.take_append_drop n s.prioritySet, List.mem_append] at hk
          exact hk.resolve_right fun hm => hout (hstay k hm)
        · rcases hnew k hafter with rfl | hm
          · exact hn hk
          · have hdis := h.nodup
            rw [← List.take_append_drop n s.prioritySet, List.nodup_append] at hdis
            exact hdis.2.2 k hin k hm rfl

/-- **When no hotter key goes**: exactly when the keys that are no hotter make room. -/
theorem neverHotter_iff (maxSizeAllowed : UInt64) (calls : List (UInt64 × UInt64)) (key spaceRequired : UInt64) :
    NeverHotter maxSizeAllowed calls key spaceRequired ↔
      ColdMakeRoom (hitAfter FrequencyReplacementStrategy.strategy maxSizeAllowed calls) key spaceRequired := by
  unfold NeverHotter
  rw [hitAfter_concat]
  have hs := frequencySettled_after maxSizeAllowed calls
  generalize hitAfter FrequencyReplacementStrategy.strategy maxSizeAllowed calls = s at hs ⊢
  rcases evicted_frequency hs key spaceRequired with ⟨hc, hstay⟩ | ⟨n, hlen, hfewer, henough, hle, hn, hcold, hout⟩
  · refine iff_of_true (fun e he hne => absurd (hstay e he) hne) ?_
    rcases hc with hc | hc | hc
    · exact .inl hc
    · exact .inr (.inl hc)
    · exact .inr (.inr (.inl hc))
  constructor
  · intro h
    have htake : ∀ k ∈ s.prioritySet.take n, s.hitCount k ≤ s.hitCount key := fun k hk =>
      h k (List.mem_of_mem_take hk) ((hout k (List.mem_of_mem_take hk)).2 hk)
    rcases hlen.lt_or_eq with hlt | rfl
    · exact .inr (.inr (.inr (.inr ⟨n, htake, henough hlt⟩)))
    · rw [List.take_length] at htake
      exact .inr (.inr (.inr (.inl htake)))
  · rintro (hc | hc | hc | hc | ⟨m, hm, hroom⟩) e he hne
    · exact absurd hc hle
    · exact absurd hc hn
    · rw [hcold] at hc
      exact absurd hc nofun
    · exact hc e he
    · -- the loop stops at the latest where there is room
      have hnm : n ≤ m := by
        by_contra hlt
        exact absurd hroom (UInt64.not_le.2 (hfewer m (by omega)))
      exact hm e (((List.take_prefix_take_left hnm).sublist.mem) ((hout e he).1 hne))

/-- **A key hit three times goes for one hit once**: two sizes are required, and the
simulation looked for none. -/
theorem neverHotter_fails : ¬ NeverHotter 2 [(1, 1), (1, 1), (1, 1), (2, 1), (3, 2)] 3 2 := by
  intro h
  have hcount := h 1 (by decide +kernel) (by decide +kernel)
  exact absurd hcount (by decide +kernel)

end CacheReplacement

end K2Cache
