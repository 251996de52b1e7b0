import K2Cache.Spec.Replacement

/-!
# The accounts of the replacement

* `prioritySet_sorted`: after every list of calls the set is in the order its comparison
  gives at that time, so the list of its keys is what the tree of a `std::set` holds.
* `replacement_accounted`: after every list of calls the size in use is the sum of the
  sizes of the keys in the set and within the bound, the set is what the data manager was
  told to load, and no subtraction goes below zero. This includes the calls that drop keys
  and give up.
-/

namespace K2Cache

open Lib

namespace CacheReplacement

variable {σ : Type} {S : CRStrategy σ}

/-! ## The set -/

/-- The comparison, spelled out. -/
theorem less_iff {st : σ} {a b : UInt64} :
    less S st a b = true ↔ S.costFunction st a < S.costFunction st b ∨ S.costFunction st a = S.costFunction st b ∧ a < b := by
  unfold less
  dsimp only
  split
  · rename_i h
    simp [h]
  · rename_i h
    simp [h]

theorem less_trichotomy (st : σ) (a b : UInt64) : less S st a b = true ∨ a = b ∨ less S st b a = true := by
  simp only [less_iff]
  rcases lt_trichotomy (S.costFunction st a) (S.costFunction st b) with h | h | h
  · exact .inl (.inl h)
  · rcases lt_trichotomy a b with h' | h' | h'
    · exact .inl (.inr ⟨h, h'⟩)
    · exact .inr (.inl h')
    · exact .inr (.inr (.inr ⟨h.symm, h'⟩))
  · exact .inr (.inr (.inl h))

theorem less_irrefl (st : σ) (a : UInt64) : less S st a a = false := by
  rw [Bool.eq_false_iff]
  intro h
  rcases less_iff.1 h with h | h
  · exact lt_irrefl _ h
  · exact lt_irrefl _ h.2

theorem less_trans {st : σ} {a b c : UInt64} (h : less S st a b = true) (h' : less S st b c = true) : less S st a c = true := by
  rw [less_iff] at *
  rcases h with h | ⟨h, hab⟩
  · rcases h' with h' | ⟨h', -⟩
    · exact .inl (h.trans h')
    · exact .inl (h' ▸ h)
  · rcases h' with h' | ⟨h', hbc⟩
    · exact .inl (h ▸ h')
    · exact .inr ⟨h.trans h', hab.trans hbc⟩

/-- A key is found where it is, and nowhere else. -/
theorem findKey_eq_some {s : CacheReplacement σ} {key k : UInt64} (h : s.findKey S key = some k) : k = key ∧ key ∈ s.prioritySet := by
  have hm : k ∈ s.prioritySet := List.mem_of_find?_eq_some h
  have hn := List.find?_some h
  simp only [Bool.and_eq_true, Bool.not_eq_true'] at hn
  have hk : k = key := by
    rcases less_trichotomy (S := S) s.strategy k key with hl | hl | hl
    · simp [hl] at hn
    · exact hl
    · simp [hl] at hn
  exact ⟨hk, hk ▸ hm⟩

theorem findKey_eq_none {s : CacheReplacement σ} {key : UInt64} (h : s.findKey S key = none) : key ∉ s.prioritySet := by
  intro hm
  have hn := List.find?_eq_none.1 h key hm
  simp [less_irrefl] at hn

/-- A key that is inserted joins the others. -/
theorem insertKey_perm {st : σ} {key : UInt64} {l : List UInt64} (h : key ∉ l) : (insertKey S st key l).Perm (key :: l) := by
  induction l with
  | nil => exact .refl _
  | cons k l ih =>
    rw [List.mem_cons, not_or] at h
    unfold insertKey
    split
    · exact ((ih h.2).cons k).trans (.swap key k l)
    split
    · exact .refl _
    · rename_i h1 h2
      rcases less_trichotomy (S := S) st k key with hl | hl | hl
      · exact absurd hl h1
      · exact absurd hl.symm h.1
      · exact absurd hl h2

/-- The set stays in order. -/
theorem insertKey_sorted {st : σ} {key : UInt64} {l : List UInt64} (hn : key ∉ l)
    (h : l.Pairwise fun a b => less S st a b = true) : (insertKey S st key l).Pairwise fun a b => less S st a b = true := by
  induction l with
  | nil => simp [insertKey]
  | cons k l ih =>
    obtain ⟨h1, h2⟩ := List.pairwise_cons.1 h
    rw [List.mem_cons, not_or] at hn
    unfold insertKey
    split
    · rename_i hk
      refine List.pairwise_cons.2 ⟨?_, ih hn.2 h2⟩
      intro x hx
      rcases List.mem_cons.1 ((insertKey_perm hn.2).mem_iff.1 hx) with rfl | hx
      · exact hk
      · exact h1 x hx
    split
    · rename_i hk
      refine List.pairwise_cons.2 ⟨?_, h⟩
      intro x hx
      rcases List.mem_cons.1 hx with rfl | hx
      · exact hk
      · exact less_trans hk (h1 x hx)
    · exact h

/-- The order does not change when all costs move by one amount. -/
theorem sorted_shift {st st' : σ} {l : List UInt64} {c : ℤ} (hc : ∀ k ∈ l, S.costFunction st' k = S.costFunction st k + c)
    (h : l.Pairwise fun a b => less S st a b = true) : l.Pairwise fun a b => less S st' a b = true := by
  refine h.imp_of_mem ?_
  intro a b ha hb hab
  rw [less_iff, hc a ha, hc b hb, add_lt_add_iff_right, add_left_inj]
  exact less_iff.1 hab

end CacheReplacement

/-! ## What both strategies keep -/

/-- A strategy has a cost for the keys it tracks, and a call moves the costs of the other
tracked keys by one amount. Asked if keys are to go, it only adds sizes. -/
structure CRStrategy.Lawful {σ : Type} (S : CRStrategy σ) (tracked : σ → UInt64 → Prop) : Prop where
  hit_self : ∀ st key, tracked (S.hitKey key st) key
  hit_other : ∀ st key k, tracked st k → tracked (S.hitKey key st) k
  hit_cost : ∀ st key, ∃ c, ∀ k, k ≠ key → tracked st k → S.costFunction (S.hitKey key st) k = S.costFunction st k + c
  remove_other : ∀ st key k, k ≠ key → tracked st k → tracked (S.removeKey key st) k
  remove_cost : ∀ st key, ∃ c, ∀ k, k ≠ key → tracked st k → S.costFunction (S.removeKey key st) k = S.costFunction st k + c
  discard_sizes : ∀ st key pq (spaceMap : OrdMap UInt64 UInt64) k v, spaceMap.find? k = some v →
    (S.shouldDiscardOthersForKey st key pq spaceMap).2.find? k = some v

namespace LRUReplacementStrategy

theorem find?_removeKey (s : LRUReplacementStrategy) (key k : UInt64) :
    (removeKey key s).keyMappingToLruValue.find? k = if k = key then none else s.keyMappingToLruValue.find? k := by
  unfold removeKey
  split
  · rename_i h
    split
    · rename_i hk
      rw [hk, h]
    · rfl
  · dsimp only
    split
    · split <;> exact OrdMap.find?_erase _ _ _
    · exact OrdMap.find?_erase _ _ _

theorem find?_hitKey (s : LRUReplacementStrategy) (key k : UInt64) :
    (hitKey key s).keyMappingToLruValue.find? k = if k = key then some s.high else s.keyMappingToLruValue.find? k := by
  unfold hitKey
  dsimp only
  rw [OrdMap.find?_insert, find?_removeKey]
  split <;> rfl

/-- The costs of the keys whose value is the same differ by the lower ends. -/
theorem cost_shift {s s' : LRUReplacementStrategy} {k : UInt64} {v : ℤ} (h : s.keyMappingToLruValue.find? k = some v)
    (h' : s'.keyMappingToLruValue.find? k = some v) : costFunction s' k = costFunction s k + (s.low - s'.low) := by
  simp only [costFunction, h, h', Option.getD_some]
  omega

theorem lawful : strategy.Lawful fun s k => s.keyMappingToLruValue.contains k = true where
  hit_self st key := by
    rw [OrdMap.contains_iff]
    exact ⟨st.high, by simp only [strategy, find?_hitKey, if_true]⟩
  hit_other st key k h := by
    obtain ⟨v, hv⟩ := (OrdMap.contains_iff _).1 h
    rw [OrdMap.contains_iff]
    simp only [strategy, find?_hitKey]
    split
    · exact ⟨_, rfl⟩
    · exact ⟨v, hv⟩
  hit_cost st key := by
    refine ⟨st.low - (hitKey key st).low, fun k hk h => ?_⟩
    obtain ⟨v, hv⟩ := (OrdMap.contains_iff _).1 h
    exact cost_shift hv ((find?_hitKey st key k).trans (by rw [if_neg hk, hv]))
  remove_other st key k hk h := by
    obtain ⟨v, hv⟩ := (OrdMap.contains_iff _).1 h
    exact (OrdMap.contains_iff _).2 ⟨v, by simp only [strategy, find?_removeKey, if_neg hk, hv]⟩
  remove_cost st key := by
    refine ⟨st.low - (removeKey key st).low, fun k hk h => ?_⟩
    obtain ⟨v, hv⟩ := (OrdMap.contains_iff _).1 h
    exact cost_shift hv ((find?_removeKey st key k).trans (by rw [if_neg hk, hv]))
  discard_sizes _ _ _ _ _ _ h := h

end LRUReplacementStrategy

/-- `get_key_size` leaves the sizes there are. -/
theorem getKeySize_sizes {spaceMap : OrdMap UInt64 UInt64} {key k v : UInt64} (h : spaceMap.find? k = some v) :
    (getKeySize spaceMap key).2.find? k = some v := by
  unfold getKeySize
  split
  · exact h
  · rename_i hn
    have hk : k ≠ key := by
      rintro rfl
      simp [h] at hn
    rw [OrdMap.find?_insert_ne _ _ hk, h]

namespace FrequencyReplacementStrategy

theorem discardLoop_sizes {s : FrequencyReplacementStrategy} {keyCost : ℤ} {requiredSize k v : UInt64} (pq : List UInt64)
    (accumulated : UInt64) {spaceMap : OrdMap UInt64 UInt64} (h : spaceMap.find? k = some v) :
    (discardLoop s keyCost requiredSize pq accumulated spaceMap).2.find? k = some v := by
  induction pq generalizing accumulated spaceMap with
  | nil => exact h
  | cons currentKey pq ih =>
    have hs : (getKeySize spaceMap currentKey).2.find? k = some v := getKeySize_sizes h
    unfold discardLoop
    dsimp only
    split
    · exact hs
    split
    · exact hs
    · exact ih _ hs

theorem lawful : strategy.Lawful fun _ _ => True where
  hit_self _ _ := trivial
  hit_other _ _ _ _ := trivial
  hit_cost st key := by
    refine ⟨0, fun k hk _ => ?_⟩
    simp only [strategy, costFunction, hitKey, OrdMap.find?_insert_ne _ _ hk, Int.add_zero]
  remove_other _ _ _ _ _ := trivial
  remove_cost _ _ := ⟨0, fun _ _ _ => (Int.add_zero _).symm⟩
  discard_sizes st key pq spaceMap k v h := by
    simp only [strategy, shouldDiscardOthersForKey]
    split
    · exact h
    · exact discardLoop_sizes _ _ (getKeySize_sizes h)

end FrequencyReplacementStrategy

/-! ## The accounts -/

/-- The key was passed to `retrieve_key`, and not since to `remove_key`. -/
def Retrieved (calls : List DataManagerCall) (key : UInt64) : Prop :=
  ∃ before after, calls = before ++ .retrieveKey key :: after ∧ .removeKey key ∉ after

/-- One call more. -/
theorem retrieved_concat {calls : List DataManagerCall} {call : DataManagerCall} {key : UInt64} :
    Retrieved (calls ++ [call]) key ↔ call = .retrieveKey key ∨ Retrieved calls key ∧ call ≠ .removeKey key := by
  constructor
  · rintro ⟨before, after, he, hn⟩
    rcases List.eq_nil_or_concat after with rfl | ⟨after', c, rfl⟩
    · exact .inl (List.append_inj_right' he rfl |> List.singleton_inj.1)
    · rw [List.concat_eq_append, ← List.cons_append, ← List.append_assoc] at he
      obtain ⟨hb, hc⟩ := List.append_inj' he rfl
      obtain rfl := List.singleton_inj.1 hc
      simp only [List.concat_eq_append, List.mem_append, List.mem_singleton, not_or] at hn
      exact .inr ⟨⟨before, after', hb, hn.1⟩, Ne.symm hn.2⟩
  · rintro (rfl | ⟨⟨before, after, rfl, hn⟩, hc⟩)
    · exact ⟨calls, [], rfl, List.not_mem_nil⟩
    · refine ⟨before, after ++ [call], by simp, ?_⟩
      rw [List.mem_append, List.mem_singleton, not_or]
      exact ⟨hn, Ne.symm hc⟩

namespace CacheReplacement

variable {σ : Type} (S : CRStrategy σ) (tracked : σ → UInt64 → Prop)

/-- The sizes of the keys in the set, added up. -/
def total (s : CacheReplacement σ) : ℕ := (s.prioritySet.map fun k => (s.sizeOf k).toNat).sum

/-- The accounts: the set has no key twice, every key of it has a size, the size in use is
the sum of these and within the bound, and the set is what the data manager holds. -/
structure Accounted (s : CacheReplacement σ) : Prop where
  nodup : s.prioritySet.Nodup
  sizes : ∀ k ∈ s.prioritySet, s.spaceMap.contains k = true
  used : s.sizeUsed.toNat = s.total
  bounded : s.sizeUsed ≤ s.maxSizeAllowed
  loaded : ∀ k, k ∈ s.prioritySet ↔ Retrieved s.dataManager k

/-- No subtraction of the loop goes below zero. -/
def Subtracts : List UInt64 → UInt64 → UInt64 → CacheReplacement σ → Prop
  | [], nextSize, sizeErased, s => s.maxSizeAllowed < nextSize → sizeErased ≤ s.sizeUsed
  | currentKey :: it, nextSize, sizeErased, s =>
    s.maxSizeAllowed < nextSize →
      if s.isUsing currentKey then Subtracts it nextSize sizeErased s
      else
        s.sizeOf currentKey ≤ nextSize ∧
          Subtracts it (nextSize - s.sizeOf currentKey) (sizeErased + s.sizeOf currentKey) (s.drop S currentKey)

/-- No subtraction of `hit_key` goes below zero. -/
def HitSubtracts (key spaceRequired : UInt64) (s : CacheReplacement σ) : Prop :=
  spaceRequired ≤ s.maxSizeAllowed → s.findKey S key = none →
    ∀ r, s.askStrategy S key (spaceRequired + s.sizeUsed) = r → r.1 = true →
      Subtracts S r.2.prioritySet (spaceRequired + s.sizeUsed) 0 r.2

/-- The set, without the size in use: the loop keeps this, and settles the size at its end. -/
structure Kept (s : CacheReplacement σ) : Prop where
  nodup : s.prioritySet.Nodup
  sizes : ∀ k ∈ s.prioritySet, s.spaceMap.contains k = true
  loaded : ∀ k, k ∈ s.prioritySet ↔ Retrieved s.dataManager k
  tracked : ∀ k ∈ s.prioritySet, tracked s.strategy k
  sorted : s.prioritySet.Pairwise fun a b => less S s.strategy a b = true

variable {S tracked}

theorem sizeOf_drop {s : CacheReplacement σ} {key k : UInt64} (h : k ≠ key) : (s.drop S key).sizeOf k = s.sizeOf k := by
  simp only [sizeOf, drop, OrdMap.find?_erase, if_neg h]

/-- What a key that is dropped leaves. -/
theorem total_drop {s : CacheReplacement σ} {key : UInt64} (hn : s.prioritySet.Nodup) (hk : key ∈ s.prioritySet) :
    s.total = (s.sizeOf key).toNat + (s.drop S key).total := by
  have hp : s.total = ((key :: s.prioritySet.erase key).map fun k => (s.sizeOf k).toNat).sum :=
    ((List.perm_cons_erase hk).map _).sum_eq
  have hs : (s.prioritySet.erase key).map (fun k => ((s.drop S key).sizeOf k).toNat) =
      (s.prioritySet.erase key).map fun k => (s.sizeOf k).toNat := by
    refine List.map_congr_left fun k hm => ?_
    rw [sizeOf_drop (hn.mem_erase_iff.1 hm).1]
  rw [hp, List.map_cons, List.sum_cons, total, ← hs]
  rfl

theorem Kept.drop {s : CacheReplacement σ} (hS : S.Lawful tracked) (h : Kept S tracked s) (key : UInt64) : Kept S tracked (s.drop S key) where
  nodup := h.nodup.erase key
  sizes k hm := by
    obtain ⟨hne, hm⟩ := h.nodup.mem_erase_iff.1 hm
    have hc := h.sizes k hm
    rw [OrdMap.contains_iff] at hc ⊢
    simpa only [CacheReplacement.drop, OrdMap.find?_erase, if_neg hne] using hc
  loaded k := by
    show k ∈ s.prioritySet.erase key ↔ Retrieved (s.dataManager ++ [.removeKey key]) k
    rw [retrieved_concat, h.nodup.mem_erase_iff, h.loaded k]
    simp [and_comm, eq_comm]
  tracked k hm := by
    obtain ⟨hne, hm⟩ := h.nodup.mem_erase_iff.1 hm
    exact hS.remove_other _ _ _ hne (h.tracked k hm)
  sorted := by
    obtain ⟨c, hc⟩ := hS.remove_cost s.strategy key
    refine sorted_shift (c := c) (fun k hm => ?_) (h.sorted.sublist List.erase_sublist)
    obtain ⟨hne, hm⟩ := h.nodup.mem_erase_iff.1 hm
    exact hc k hne (h.tracked k hm)

/-- Keys were dropped, and nothing else was asked of the data manager; the others have
their sizes. -/
structure Drops (s s' : CacheReplacement σ) : Prop where
  max : s'.maxSizeAllowed = s.maxSizeAllowed
  same : ∀ k ∈ s'.prioritySet, k ∈ s.prioritySet ∧ s'.sizeOf k = s.sizeOf k
  calls : ∃ keys : List UInt64, s'.dataManager = s.dataManager ++ keys.map .removeKey

theorem Drops.refl (s : CacheReplacement σ) : Drops s s := ⟨rfl, fun _ hk => ⟨hk, rfl⟩, [], by simp⟩

theorem Drops.trans {s s' s'' : CacheReplacement σ} (h : Drops s s') (h' : Drops s' s'') : Drops s s'' := by
  obtain ⟨l, hl⟩ := h.calls
  obtain ⟨l', hl'⟩ := h'.calls
  refine ⟨h'.max.trans h.max, fun k hk => ?_, l ++ l', by rw [hl', hl, List.map_append, List.append_assoc]⟩
  obtain ⟨h1, h2⟩ := h'.same k hk
  exact ⟨(h.same k h1).1, h2.trans (h.same k h1).2⟩

theorem drops_drop (S : CRStrategy σ) {s : CacheReplacement σ} (hn : s.prioritySet.Nodup) (key : UInt64) :
    Drops s (s.drop S key) := by
  refine ⟨rfl, fun k hk => ?_, [key], rfl⟩
  obtain ⟨hne, hm⟩ := hn.mem_erase_iff.1 hk
  exact ⟨hm, sizeOf_drop hne⟩

variable (S tracked) in
/-- What the loop ends with: either the new size, within the bound, or the size in use
without what was dropped. -/
structure Freed (required : ℕ) (s : CacheReplacement σ) (r : Option UInt64 × CacheReplacement σ) : Prop where
  kept : Kept S tracked r.2
  drops : Drops s r.2
  gaveUp : r.1 = none → r.2.sizeUsed.toNat = r.2.total ∧ r.2.sizeUsed ≤ s.sizeUsed
  found : ∀ n, r.1 = some n → n.toNat = required + r.2.total ∧ n ≤ s.maxSizeAllowed

/-- **The loop.** The sizes of the keys still there, with what was dropped, are the size in
use; with what is required they are the next size. -/
theorem freeSpace_freed (hS : S.Lawful tracked) {required : ℕ} {it : List UInt64} {nextSize sizeErased : UInt64}
    {s : CacheReplacement σ} (h : Kept S tracked s) (hused : s.sizeUsed.toNat = s.total + sizeErased.toNat)
    (hnext : nextSize.toNat = required + s.total) (hit : ∀ k ∈ it, k ∈ s.prioritySet) (hnd : it.Nodup) :
    Freed S tracked required s (freeSpace S it nextSize sizeErased s) ∧ Subtracts S it nextSize sizeErased s := by
  induction it generalizing nextSize sizeErased s with
  | nil =>
    have hle : sizeErased ≤ s.sizeUsed := UInt64.le_iff_toNat_le.2 (by omega)
    have hsub := UInt64.toNat_sub_of_le _ _ hle
    unfold freeSpace Subtracts
    refine ⟨?_, fun _ => hle⟩
    split
    · refine ⟨⟨h.nodup, h.sizes, h.loaded, h.tracked, h.sorted⟩, ⟨rfl, fun _ hk => ⟨hk, rfl⟩, [], by simp⟩,
        fun _ => ⟨?_, ?_⟩, nofun⟩
      · show (s.sizeUsed - sizeErased).toNat = s.total
        omega
      · show s.sizeUsed - sizeErased ≤ s.sizeUsed
        rw [UInt64.le_iff_toNat_le]
        omega
    · rename_i hlt
      exact ⟨h, .refl s, nofun, fun n hn => Option.some.inj hn ▸ ⟨hnext, UInt64.not_lt.1 hlt⟩⟩
  | cons currentKey it ih =>
    obtain ⟨hnk, hnd'⟩ := List.nodup_cons.1 hnd
    have hck : currentKey ∈ s.prioritySet := hit _ List.mem_cons_self
    have hit' : ∀ k ∈ it, k ∈ s.prioritySet := fun k hk => hit k (List.mem_cons_of_mem _ hk)
    unfold freeSpace Subtracts
    by_cases hlt : s.maxSizeAllowed < nextSize
    · by_cases hu : s.isUsing currentKey = true
      · -- a key in use is passed over
        simp only [hlt, hu, if_true, true_imp_iff]
        exact ih h hused hnext hit' hnd'
      · have htot : s.total = (s.sizeOf currentKey).toNat + (s.drop S currentKey).total := total_drop h.nodup hck
        have hle : s.sizeOf currentKey ≤ nextSize := UInt64.le_iff_toNat_le.2 (by omega)
        have hsub := UInt64.toNat_sub_of_le _ _ hle
        have hadd : (sizeErased + s.sizeOf currentKey).toNat = sizeErased.toNat + (s.sizeOf currentKey).toNat := by
          have := s.sizeUsed.toNat_lt
          rw [UInt64.toNat_add]
          omega
        have hused' : (s.drop S currentKey).sizeUsed.toNat =
            (s.drop S currentKey).total + (sizeErased + s.sizeOf currentKey).toNat := by
          show s.sizeUsed.toNat = _
          omega
        have hnext' : (nextSize - s.sizeOf currentKey).toNat = required + (s.drop S currentKey).total := by omega
        have hr := ih (h.drop hS currentKey) hused' hnext'
          (fun k hk => h.nodup.mem_erase_iff.2 ⟨fun he => hnk (he ▸ hk), hit' k hk⟩) hnd'
        simp only [hlt, hu, if_true, true_imp_iff]
        exact ⟨⟨hr.1.kept, (drops_drop S h.nodup currentKey).trans hr.1.drops, hr.1.gaveUp, hr.1.found⟩, hle, hr.2⟩
    · simp only [hlt, if_false, false_imp_iff, and_true]
      exact ⟨h, .refl s, nofun, fun n hn => Option.some.inj hn ▸ ⟨hnext, UInt64.not_lt.1 hlt⟩⟩

/-- Sizes that are only added change nothing for the keys in the set. -/
theorem Kept.addSizes {s : CacheReplacement σ} {spaceMap : OrdMap UInt64 UInt64} (h : Kept S tracked s)
    (hm : ∀ k v, s.spaceMap.find? k = some v → spaceMap.find? k = some v) :
    Kept S tracked { s with spaceMap := spaceMap } ∧ total { s with spaceMap := spaceMap } = s.total ∧
      Drops s { s with spaceMap := spaceMap } := by
  have hf : ∀ k ∈ s.prioritySet, ∃ v, s.spaceMap.find? k = some v ∧ spaceMap.find? k = some v := by
    intro k hk
    obtain ⟨v, hv⟩ := (OrdMap.contains_iff _).1 (h.sizes k hk)
    exact ⟨v, hv, hm k v hv⟩
  have hsame : ∀ k ∈ s.prioritySet, sizeOf { s with spaceMap := spaceMap } k = s.sizeOf k := by
    intro k hk
    obtain ⟨v, hv, hv'⟩ := hf k hk
    simp only [sizeOf, hv, hv']
  refine ⟨⟨h.nodup, fun k hk => ?_, h.loaded, h.tracked, h.sorted⟩, ?_, rfl, fun k hk => ⟨hk, hsame k hk⟩, [], by simp⟩
  · obtain ⟨v, -, hv⟩ := hf k hk
    exact (OrdMap.contains_iff _).2 ⟨v, hv⟩
  · exact congrArg List.sum (List.map_congr_left fun k hk => congrArg UInt64.toNat (hsame k hk))

/-- The set after a hit: the key is in it once, in its new place. -/
theorem Kept.hit {s : CacheReplacement σ} {key : UInt64} {keys : List UInt64} (hS : S.Lawful tracked) (hn : keys.Nodup)
    (hk : key ∉ keys) (ht : ∀ k ∈ keys, tracked s.strategy k) (hs : keys.Pairwise fun a b => less S s.strategy a b = true) :
    (insertKey S (S.hitKey key s.strategy) key keys).Nodup ∧
      (∀ k ∈ insertKey S (S.hitKey key s.strategy) key keys, tracked (S.hitKey key s.strategy) k) ∧
      (insertKey S (S.hitKey key s.strategy) key keys).Pairwise
        fun a b => less S (S.hitKey key s.strategy) a b = true := by
  have hp : (insertKey S (S.hitKey key s.strategy) key keys).Perm (key :: keys) := insertKey_perm hk
  refine ⟨hp.nodup_iff.2 (List.nodup_cons.2 ⟨hk, hn⟩), ?_, ?_⟩
  · intro k hm
    rcases List.mem_cons.1 (hp.mem_iff.1 hm) with rfl | hm
    · exact hS.hit_self _ _
    · exact hS.hit_other _ _ _ (ht k hm)
  · obtain ⟨c, hc⟩ := hS.hit_cost s.strategy key
    refine insertKey_sorted hk (sorted_shift (c := c) (fun k hm => ?_) hs)
    exact hc k (fun he => hk (he ▸ hm)) (ht k hm)

/-- A key that is loaded adds its size. -/
theorem Kept.loadKey {s : CacheReplacement σ} {key : UInt64} (hS : S.Lawful tracked)
    (h : Kept S tracked s) (spaceRequired nextSize : UInt64) (hk : key ∉ s.prioritySet) :
    Kept S tracked (s.loadKey S key spaceRequired nextSize) ∧
      (s.loadKey S key spaceRequired nextSize).total = spaceRequired.toNat + s.total ∧
      (∀ k ∈ (s.loadKey S key spaceRequired nextSize).prioritySet,
        k ∈ s.prioritySet ∧ (s.loadKey S key spaceRequired nextSize).sizeOf k = s.sizeOf k ∨
          k = key ∧ (s.loadKey S key spaceRequired nextSize).sizeOf k = spaceRequired) := by
  obtain ⟨h1, h2, h3⟩ := Kept.hit hS h.nodup hk h.tracked h.sorted
  have hp : (s.loadKey S key spaceRequired nextSize).prioritySet.Perm (key :: s.prioritySet) := insertKey_perm hk
  have hkey : (s.loadKey S key spaceRequired nextSize).sizeOf key = spaceRequired := by
    simp [sizeOf, CacheReplacement.loadKey]
  have hothers : ∀ k ∈ s.prioritySet, (s.loadKey S key spaceRequired nextSize).sizeOf k = s.sizeOf k := by
    intro k hm
    have hne : k ≠ key := fun he => hk (he ▸ hm)
    simp only [sizeOf, CacheReplacement.loadKey, OrdMap.find?_insert_ne _ _ hne]
  refine ⟨⟨h1, fun k hm => ?_, fun k => ?_, h2, h3⟩, ?_, fun k hm => ?_⟩
  · rw [OrdMap.contains_iff]
    simp only [CacheReplacement.loadKey, OrdMap.find?_insert]
    split
    · exact ⟨_, rfl⟩
    · rename_i hne
      exact (OrdMap.contains_iff _).1 (h.sizes k ((List.mem_cons.1 (hp.mem_iff.1 hm)).resolve_left hne))
  · rw [hp.mem_iff, List.mem_cons, h.loaded k]
    show _ ↔ Retrieved (s.dataManager ++ [.retrieveKey key]) k
    rw [retrieved_concat]
    simp [eq_comm]
  · unfold total
    rw [(hp.map _).sum_eq, List.map_cons, List.sum_cons, hkey,
      List.map_congr_left fun k hm => congrArg UInt64.toNat (hothers k hm)]
  · rcases List.mem_cons.1 (hp.mem_iff.1 hm) with rfl | hm
    · exact .inr ⟨rfl, hkey⟩
    · exact .inl ⟨hm, hothers k hm⟩

/-- A key that is there already changes nothing but its place. -/
theorem Kept.rehit {s : CacheReplacement σ} {key : UInt64} (hS : S.Lawful tracked) (h : Kept S tracked s)
    (hk : key ∈ s.prioritySet) :
    (insertKey S (S.hitKey key s.strategy) key (s.prioritySet.erase key)).Perm s.prioritySet ∧
      Kept S tracked { s with
        strategy := S.hitKey key s.strategy
        prioritySet := insertKey S (S.hitKey key s.strategy) key (s.prioritySet.erase key) } := by
  have hn : key ∉ s.prioritySet.erase key := h.nodup.not_mem_erase
  have hsub : (s.prioritySet.erase key).Sublist s.prioritySet := List.erase_sublist
  obtain ⟨h1, h2, h3⟩ := Kept.hit hS (h.nodup.erase key) hn (fun k hm => h.tracked k (hsub.mem hm)) (h.sorted.sublist hsub)
  have hp : (insertKey S (S.hitKey key s.strategy) key (s.prioritySet.erase key)).Perm s.prioritySet :=
    (insertKey_perm hn).trans (List.perm_cons_erase hk).symm
  exact ⟨hp, h1, fun k hm => h.sizes k (hp.mem_iff.1 hm), fun k => hp.mem_iff.trans (h.loaded k), h2, h3⟩

variable (S tracked) in
/-- What holds between two calls. -/
structure Settled (maxSizeAllowed : UInt64) (s : CacheReplacement σ) : Prop where
  kept : Kept S tracked s
  max : s.maxSizeAllowed = maxSizeAllowed
  used : s.sizeUsed.toNat = s.total
  bounded : s.sizeUsed ≤ maxSizeAllowed

theorem Settled.accounted {maxSizeAllowed : UInt64} {s : CacheReplacement σ} (h : Settled S tracked maxSizeAllowed s) :
    Accounted s :=
  ⟨h.kept.nodup, h.kept.sizes, h.used, h.max ▸ h.bounded, h.kept.loaded⟩

/-- Asking the strategy leaves the accounts as they are. -/
theorem Settled.askStrategy {maxSizeAllowed : UInt64} {s : CacheReplacement σ} (hS : S.Lawful tracked)
    (h : Settled S tracked maxSizeAllowed s) (key nextSize : UInt64) :
    Settled S tracked maxSizeAllowed (s.askStrategy S key nextSize).2 ∧
      Drops s (s.askStrategy S key nextSize).2 ∧ (s.askStrategy S key nextSize).2.prioritySet = s.prioritySet ∧
      (s.askStrategy S key nextSize).2.sizeUsed = s.sizeUsed := by
  unfold CacheReplacement.askStrategy
  split
  · obtain ⟨hk, ht, hd⟩ := h.kept.addSizes (hS.discard_sizes s.strategy key s.prioritySet s.spaceMap)
    exact ⟨⟨hk, h.max, h.used.trans ht.symm, h.bounded⟩, hd, rfl, rfl⟩
  · exact ⟨h, .refl s, rfl, rfl⟩

/-- The loop, as `hit_key` starts it. -/
theorem Settled.freeSpace {maxSizeAllowed spaceRequired : UInt64} {s : CacheReplacement σ} (hS : S.Lawful tracked)
    (hmax : maxSizeAllowed.toNat < 2 ^ 63) (h : Settled S tracked maxSizeAllowed s) (hle : spaceRequired ≤ maxSizeAllowed) :
    Freed S tracked spaceRequired.toNat s (freeSpace S s.prioritySet (spaceRequired + s.sizeUsed) 0 s) ∧
      Subtracts S s.prioritySet (spaceRequired + s.sizeUsed) 0 s := by
  have hr := UInt64.le_iff_toNat_le.1 hle
  have hb := UInt64.le_iff_toNat_le.1 h.bounded
  have hu := h.used
  have hadd : (spaceRequired + s.sizeUsed).toNat = spaceRequired.toNat + s.sizeUsed.toNat := by
    rw [UInt64.toNat_add]
    omega
  have h0 : (0 : UInt64).toNat = 0 := rfl
  exact freeSpace_freed hS h.kept (by omega) (by omega) (fun _ hk => hk) h.kept.nodup

/-- No call subtracts too much. -/
theorem Settled.hitSubtracts {maxSizeAllowed : UInt64} {s : CacheReplacement σ} (hS : S.Lawful tracked)
    (hmax : maxSizeAllowed.toNat < 2 ^ 63) (h : Settled S tracked maxSizeAllowed s) (key spaceRequired : UInt64) :
    HitSubtracts S key spaceRequired s := by
  rintro hle - r rfl -
  have hask := h.askStrategy hS key (spaceRequired + s.sizeUsed)
  obtain ⟨ha, -, -, hsize⟩ := hask
  have hf := (ha.freeSpace hS hmax (h.max ▸ hle)).2
  rwa [hsize] at hf

variable (S tracked) in
/-- What a call leaves: the accounts, the sizes of the keys that stay, and what it told the
data manager. -/
structure HitDone (maxSizeAllowed key spaceRequired : UInt64) (s : CacheReplacement σ) (r : Bool × CacheReplacement σ) :
    Prop where
  settled : Settled S tracked maxSizeAllowed r.2
  resident : r.1 = true → key ∈ r.2.prioritySet
  same : ∀ k ∈ r.2.prioritySet, k ∈ s.prioritySet ∧ r.2.sizeOf k = s.sizeOf k ∨ k = key ∧ r.2.sizeOf k = spaceRequired
  calls : ∃ (keys : List UInt64) (last : List DataManagerCall),
    r.2.dataManager = s.dataManager ++ (keys.map .removeKey ++ last) ∧ (last = [] ∨ last = [.retrieveKey key])

/-- A call that only drops keys. -/
theorem HitDone.of_drops {maxSizeAllowed key spaceRequired : UInt64} {s s' : CacheReplacement σ}
    (h : Settled S tracked maxSizeAllowed s') (hd : Drops s s') :
    HitDone S tracked maxSizeAllowed key spaceRequired s (false, s') := by
  obtain ⟨keys, hkeys⟩ := hd.calls
  exact ⟨h, nofun, fun k hk => .inl (hd.same k hk), keys, [], by rw [hkeys, List.append_nil], .inl rfl⟩

/-- **A call keeps the accounts**, whichever way it ends; where it says so, the key is there. -/
theorem Settled.hitKey {maxSizeAllowed : UInt64} {s : CacheReplacement σ} (hS : S.Lawful tracked)
    (hmax : maxSizeAllowed.toNat < 2 ^ 63) (h : Settled S tracked maxSizeAllowed s) (key spaceRequired : UInt64) :
    HitDone S tracked maxSizeAllowed key spaceRequired s (s.hitKey S key spaceRequired) := by
  unfold CacheReplacement.hitKey
  split
  · exact .of_drops h (.refl s)
  rename_i hle
  rw [UInt64.not_lt, h.max] at hle
  split
  · -- the key is there
    rename_i k hk
    obtain ⟨rfl, hk⟩ := findKey_eq_some hk
    obtain ⟨hp, hkept⟩ := h.kept.rehit hS hk
    refine ⟨⟨hkept, h.max, h.used.trans ?_, h.bounded⟩, fun _ => hp.mem_iff.2 hk,
      fun k' hk' => .inl ⟨hp.mem_iff.1 hk', rfl⟩, [], [], by simp, .inl rfl⟩
    exact ((hp.map _).sum_eq).symm
  · rename_i hk
    have hn : key ∉ s.prioritySet := findKey_eq_none hk
    obtain ⟨ha, hd, hset, hsize⟩ := h.askStrategy hS key (spaceRequired + s.sizeUsed)
    dsimp only
    generalize s.askStrategy S key (spaceRequired + s.sizeUsed) = r at ha hd hset hsize ⊢
    split
    · have hf := (ha.freeSpace hS hmax hle).1
      rw [hsize] at hf
      generalize CacheReplacement.freeSpace S r.2.prioritySet (spaceRequired + s.sizeUsed) 0 r.2 = f at hf ⊢
      obtain ⟨n, s'⟩ := f
      have hd' : Drops s s' := hd.trans hf.drops
      cases n with
      | none =>
        -- the end was reached: the size in use is settled with what was dropped
        obtain ⟨hu, hb⟩ := hf.gaveUp rfl
        exact .of_drops ⟨hf.kept, hf.drops.max.trans ha.max, hu, UInt64.le_trans hb ha.bounded⟩ hd'
      | some n =>
        obtain ⟨hu, hb⟩ := hf.found n rfl
        have hn' : key ∉ s'.prioritySet := fun hm => hn (hd'.same key hm).1
        obtain ⟨hkept, htot, hsame⟩ := hf.kept.loadKey hS spaceRequired n hn'
        obtain ⟨keys, hkeys⟩ := hd'.calls
        refine ⟨⟨hkept, hf.drops.max.trans ha.max, hu.trans htot.symm, ha.max ▸ hb⟩, fun _ => ?_, fun k hm => ?_,
          keys, [.retrieveKey key], ?_, .inr rfl⟩
        · exact (insertKey_perm hn').mem_iff.2 List.mem_cons_self
        · rcases hsame k hm with ⟨hm, he⟩ | h
          · exact .inl ⟨(hd'.same k hm).1, he.trans (hd'.same k hm).2⟩
          · exact .inr h
        · show s'.dataManager ++ [.retrieveKey key] = _
          rw [hkeys, List.append_assoc]
    · split
      · -- a hit without retrieval moves the other costs, at most
        obtain ⟨c, hc⟩ := hS.hit_cost r.2.strategy key
        refine .of_drops ⟨⟨ha.kept.nodup, ha.kept.sizes, ha.kept.loaded, fun k hm => ?_, ?_⟩, ha.max, ha.used, ha.bounded⟩
          ⟨hd.max, hd.same, hd.calls⟩
        · exact hS.hit_other _ _ _ (ha.kept.tracked k hm)
        · refine sorted_shift (c := c) (fun k hm => ?_) ha.kept.sorted
          exact hc k (fun he => hn (hset ▸ he ▸ hm)) (ha.kept.tracked k hm)
      · exact .of_drops ha hd

theorem Settled.construct (maxSizeAllowed : UInt64) :
    Settled S tracked maxSizeAllowed (CacheReplacement.construct S maxSizeAllowed) where
  kept := by
    refine ⟨List.nodup_nil, nofun, fun k => ⟨nofun, ?_⟩, nofun, List.Pairwise.nil⟩
    rintro ⟨before, after, h, -⟩
    exact absurd h (by simp [CacheReplacement.construct])
  max := rfl
  used := rfl
  bounded := UInt64.zero_le

theorem Settled.call {maxSizeAllowed : UInt64} {s : CacheReplacement σ} (hS : S.Lawful tracked)
    (hmax : maxSizeAllowed.toNat < 2 ^ 63) (h : Settled S tracked maxSizeAllowed s) (cmd : ReplacementCmd) :
    Settled S tracked maxSizeAllowed (cmd.call S s) := by
  cases cmd with
  | hitKey key spaceRequired => exact (h.hitKey hS hmax key spaceRequired).settled
  | markUsing key => exact ⟨⟨h.kept.nodup, h.kept.sizes, h.kept.loaded, h.kept.tracked, h.kept.sorted⟩, h.max, h.used, h.bounded⟩
  | markReady key =>
    simp only [ReplacementCmd.call, CacheReplacement.markReady]
    split
    · exact h
    · exact ⟨⟨h.kept.nodup, h.kept.sizes, h.kept.loaded, h.kept.tracked, h.kept.sorted⟩, h.max, h.used, h.bounded⟩

variable (S) in
/-- The state after a list of calls. -/
def after (maxSizeAllowed : UInt64) (cmds : List ReplacementCmd) : CacheReplacement σ :=
  cmds.foldl (ReplacementCmd.call S) (construct S maxSizeAllowed)

theorem settled_after {maxSizeAllowed : UInt64} (hS : S.Lawful tracked) (hmax : maxSizeAllowed.toNat < 2 ^ 63)
    (cmds : List ReplacementCmd) : Settled S tracked maxSizeAllowed (after S maxSizeAllowed cmds) := by
  have h : ∀ s, Settled S tracked maxSizeAllowed s → Settled S tracked maxSizeAllowed (cmds.foldl (ReplacementCmd.call S) s) := by
    induction cmds with
    | nil => exact fun s hs => hs
    | cons cmd cmds ih => exact fun s hs => ih _ (hs.call hS hmax cmd)
  exact h _ (.construct maxSizeAllowed)

/-- **The set is in order** after every list of calls, though the costs change. -/
theorem prioritySet_sorted {maxSizeAllowed : UInt64} (hS : S.Lawful tracked) (hmax : maxSizeAllowed.toNat < 2 ^ 63)
    (cmds : List ReplacementCmd) :
    (after S maxSizeAllowed cmds).prioritySet.Pairwise
      fun a b => less S (after S maxSizeAllowed cmds).strategy a b = true :=
  (settled_after hS hmax cmds).kept.sorted

variable (S) in
/-- The accounts are exact after a list of calls, and in and after one more `hit_key`. -/
structure AccountsExact (maxSizeAllowed : UInt64) (cmds : List ReplacementCmd) : Prop where
  bound : (after S maxSizeAllowed cmds).maxSizeAllowed = maxSizeAllowed
  accounted : Accounted (after S maxSizeAllowed cmds)
  subtracts : ∀ key spaceRequired, HitSubtracts S key spaceRequired (after S maxSizeAllowed cmds)
  resident : ∀ key spaceRequired, ((after S maxSizeAllowed cmds).hitKey S key spaceRequired).1 = true →
    key ∈ (after S maxSizeAllowed (cmds ++ [.hitKey key spaceRequired])).prioritySet

theorem accountsExact_after {maxSizeAllowed : UInt64} (hS : S.Lawful tracked) (hmax : maxSizeAllowed.toNat < 2 ^ 63)
    (cmds : List ReplacementCmd) : AccountsExact S maxSizeAllowed cmds := by
  have h := settled_after hS hmax cmds
  refine ⟨h.max, h.accounted, fun key spaceRequired => h.hitSubtracts hS hmax key spaceRequired, ?_⟩
  intro key spaceRequired ht
  rw [after, List.foldl_concat]
  exact (h.hitKey hS hmax key spaceRequired).resident ht

end CacheReplacement

/-- **The accounts of the replacement are exact**, for both strategies, after every list of
calls: those that reach the end of the set, with keys dropped on the way, are among them. -/
theorem replacement_accounted (maxSizeAllowed : UInt64) (hmax : maxSizeAllowed.toNat < 2 ^ 63) (cmds : List ReplacementCmd) :
    CacheReplacement.AccountsExact LRUReplacementStrategy.strategy maxSizeAllowed cmds ∧
      CacheReplacement.AccountsExact FrequencyReplacementStrategy.strategy maxSizeAllowed cmds :=
  ⟨CacheReplacement.accountsExact_after LRUReplacementStrategy.lawful hmax cmds,
    CacheReplacement.accountsExact_after FrequencyReplacementStrategy.lawful hmax cmds⟩

/-- Two of three keys are in use: the third is dropped, which is not enough. -/
theorem replacement_accounted_gaveUp :
    (10 : UInt64).toNat < 2 ^ 63 ∧
      CacheReplacement.AccountsExact LRUReplacementStrategy.strategy 10
        [.hitKey 1 3, .hitKey 2 3, .hitKey 3 3, .markUsing 1, .markUsing 3, .hitKey 4 8] ∧
      ((CacheReplacement.after LRUReplacementStrategy.strategy 10
        [.hitKey 1 3, .hitKey 2 3, .hitKey 3 3, .markUsing 1, .markUsing 3, .hitKey 4 8]).prioritySet = [1, 3]) :=
  ⟨by decide, (replacement_accounted 10 (by decide) _).1, by decide +kernel⟩

end K2Cache
