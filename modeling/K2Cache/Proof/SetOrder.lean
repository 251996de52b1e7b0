import K2Cache.Lib.SearchTree
import K2Cache.Proof.Replacement

/-!
# The set is in order whenever it is accessed

The comparison of the set reads the strategy. A key is out of the set when its own cost
changes, and the costs of the others move by one amount (`CRStrategy.Lawful`). So at each
access the set is in the order the comparison has then (`accesses_ordered`), which is what
makes a descent in its tree right (`SearchTree.find_eq`). The size of the cache does not
matter for this.
-/

namespace K2Cache

open Lib

namespace CacheReplacement

variable {σ : Type} {S : CRStrategy σ} {tracked : σ → UInt64 → Prop}

theorem less_strict (st : σ) : StrictOrder (less S st) := ⟨less_irrefl st, less_trans, less_trichotomy st⟩

/-- The list operation is the insertion in order. -/
theorem insertKey_eq {st : σ} {key : UInt64} {l : List UInt64} (h : key ∉ l) :
    insertKey S st key l = l.orderedInsert (fun a b => less S st a b = true) key := by
  induction l with
  | nil => rfl
  | cons k l ih =>
    rw [List.mem_cons, not_or] at h
    unfold insertKey
    rw [List.orderedInsert_cons, ih h.2]
    rcases less_trichotomy (S := S) st k key with hlt | rfl | hgt
    · rw [if_pos hlt, if_neg (by simp [(less_strict st).asymm hlt])]
    · exact absurd rfl h.1
    · rw [if_neg (by simp [(less_strict st).asymm hgt]), if_pos hgt, if_pos hgt]

/-! ## Single accesses -/

variable (S) in
/-- **The set is in order at the access**: under the comparison of that moment its keys increase, and
in any tree that holds them a descent finds those keys and no others, and inserts where
the list operation does. -/
structure OrderedAt (st : σ) (keys : List UInt64) : Prop where
  increasing : keys.Pairwise fun a b => less S st a b = true
  find : ∀ t : SearchTree UInt64, t.inorder = keys → ∀ k, t.find (less S st) k = if k ∈ keys then some k else none
  insert : ∀ t : SearchTree UInt64, t.inorder = keys → ∀ k, k ∉ keys → (t.insert (less S st) k).inorder = insertKey S st k keys

theorem OrderedAt.of_sorted {st : σ} {keys : List UInt64} (h : keys.Pairwise fun a b => less S st a b = true) :
    OrderedAt S st keys where
  increasing := h
  find t ht k := by
    subst ht
    exact SearchTree.find_eq (less_strict st) h
  insert t ht k hk := by
    subst ht
    rw [SearchTree.insert_inorder (less_strict st) h, insertKey_eq hk]

/-- The set after an operation. -/
def SetOp.keysAfter (S : CRStrategy σ) (st : σ) (keys : List UInt64) : SetOp → List UInt64
  | .find _ | .traverse => keys
  | .erase k => keys.erase k
  | .insert k => insertKey S st k keys

variable (S) in
/-- The accesses lead from one set to another, each from where the one before it ended. -/
def Leads : List (SetAccess σ) → List UInt64 → List UInt64 → Prop
  | [], keys, keys' => keys = keys'
  | a :: as, keys, keys' => a.keys = keys ∧ Leads as (SetOp.keysAfter S a.strategy keys a.op) keys'

theorem Leads.append {as bs : List (SetAccess σ)} {keys keys' keys'' : List UInt64} (h : Leads S as keys keys')
    (h' : Leads S bs keys' keys'') : Leads S (as ++ bs) keys keys'' := by
  induction as generalizing keys with
  | nil =>
    obtain rfl : keys = keys' := h
    exact h'
  | cons a as ih => exact ⟨h.1, ih h.2⟩

/-! ## Calls -/

/-- **The loop.** -/
theorem freeSpace_ordered (hS : S.Lawful tracked) (it : List UInt64) (nextSize sizeErased : UInt64)
    {s : CacheReplacement σ} (h : Kept S tracked s) :
    Kept S tracked (freeSpace S it nextSize sizeErased s).2 ∧
      (∀ k ∈ (freeSpace S it nextSize sizeErased s).2.prioritySet, k ∈ s.prioritySet) ∧
      (∀ a ∈ freeSpaceAccesses S it nextSize s, OrderedAt S a.strategy a.keys) ∧
      Leads S (freeSpaceAccesses S it nextSize s) s.prioritySet (freeSpace S it nextSize sizeErased s).2.prioritySet := by
  induction it generalizing nextSize sizeErased s with
  | nil =>
    unfold freeSpace freeSpaceAccesses
    split
    · exact ⟨⟨h.nodup, h.sizes, h.loaded, h.tracked, h.sorted⟩, fun _ hk => hk, List.forall_mem_nil _, rfl⟩
    · exact ⟨h, fun _ hk => hk, List.forall_mem_nil _, rfl⟩
  | cons currentKey it ih =>
    have hnow : OrderedAt S s.strategy s.prioritySet := .of_sorted h.sorted
    unfold freeSpace freeSpaceAccesses
    split
    · split
      · obtain ⟨h1, h2, h3, h4⟩ := ih nextSize sizeErased h
        exact ⟨h1, h2, List.forall_mem_cons.2 ⟨hnow, h3⟩, rfl, h4⟩
      · -- the key leaves the set before the strategy forgets it
        obtain ⟨h1, h2, h3, h4⟩ :=
          ih (nextSize - s.sizeOf currentKey) (sizeErased + s.sizeOf currentKey) (h.drop hS currentKey)
        refine ⟨h1, fun k hk => (h.nodup.mem_erase_iff.1 (h2 k hk)).2, ?_, rfl, rfl, h4⟩
        exact List.forall_mem_cons.2 ⟨hnow, List.forall_mem_cons.2 ⟨hnow, h3⟩⟩
    · exact ⟨h, fun _ hk => hk, List.forall_mem_nil _, rfl⟩

/-- The set with a key whose cost has changed while it was out. -/
theorem Kept.beforeInsert {s : CacheReplacement σ} {key : UInt64} {keys : List UInt64} (hS : S.Lawful tracked)
    (hk : key ∉ keys) (ht : ∀ k ∈ keys, tracked s.strategy k) (hs : keys.Pairwise fun a b => less S s.strategy a b = true) :
    OrderedAt S (S.hitKey key s.strategy) keys := by
  obtain ⟨c, hc⟩ := hS.hit_cost s.strategy key
  refine .of_sorted (sorted_shift (c := c) (fun k hm => ?_) hs)
  exact hc k (fun he => hk (he ▸ hm)) (ht k hm)

theorem Kept.ask {s : CacheReplacement σ} (hS : S.Lawful tracked) (h : Kept S tracked s) (key nextSize : UInt64) :
    Kept S tracked (s.askStrategy S key nextSize).2 ∧ (s.askStrategy S key nextSize).2.prioritySet = s.prioritySet ∧
      (s.askStrategy S key nextSize).2.strategy = s.strategy := by
  unfold CacheReplacement.askStrategy
  split
  · exact ⟨(h.addSizes (hS.discard_sizes s.strategy key s.prioritySet s.spaceMap)).1, rfl, rfl⟩
  · exact ⟨h, rfl, rfl⟩

/-- **One call**: the set is in order at its accesses, and they are the ones that lead to the
set it leaves. -/
theorem Kept.hitKey_ordered {s : CacheReplacement σ} (hS : S.Lawful tracked) (h : Kept S tracked s)
    (key spaceRequired : UInt64) :
    Kept S tracked (s.hitKey S key spaceRequired).2 ∧
      (∀ a ∈ hitKeyAccesses S key spaceRequired s, OrderedAt S a.strategy a.keys) ∧
      Leads S (hitKeyAccesses S key spaceRequired s) s.prioritySet (s.hitKey S key spaceRequired).2.prioritySet := by
  have hnow : OrderedAt S s.strategy s.prioritySet := .of_sorted h.sorted
  unfold CacheReplacement.hitKey hitKeyAccesses
  split
  · exact ⟨h, nofun, rfl⟩
  cases hf : s.findKey S key with
  | some k =>
    obtain ⟨rfl, hk⟩ := findKey_eq_some hf
    have hsub : (s.prioritySet.erase k).Sublist s.prioritySet := List.erase_sublist
    refine ⟨(h.rehit hS hk).2, ?_, rfl, rfl, rfl, rfl⟩
    refine List.forall_mem_cons.2 ⟨hnow, List.forall_mem_cons.2 ⟨hnow, List.forall_mem_singleton.2 ?_⟩⟩
    exact Kept.beforeInsert hS h.nodup.not_mem_erase (fun x hm => h.tracked x (hsub.mem hm)) (h.sorted.sublist hsub)
  | none =>
    have hn : key ∉ s.prioritySet := findKey_eq_none hf
    obtain ⟨ha, hset, hst⟩ := h.ask hS key (spaceRequired + s.sizeUsed)
    have hask : ∀ a ∈ (if s.maxSizeAllowed < spaceRequired + s.sizeUsed then
        [(⟨.traverse, s.strategy, s.prioritySet⟩ : SetAccess σ)] else []), OrderedAt S a.strategy a.keys := by
      split
      · exact List.forall_mem_singleton.2 hnow
      · nofun
    have haskLeads : Leads S (if s.maxSizeAllowed < spaceRequired + s.sizeUsed then
        [(⟨.traverse, s.strategy, s.prioritySet⟩ : SetAccess σ)] else []) s.prioritySet s.prioritySet := by
      split
      · exact ⟨rfl, rfl⟩
      · rfl
    dsimp only
    generalize s.askStrategy S key (spaceRequired + s.sizeUsed) = r at ha hset hst ⊢
    split
    · obtain ⟨h1, h2, h3, h4⟩ := freeSpace_ordered hS r.2.prioritySet (spaceRequired + s.sizeUsed) 0 ha
      generalize freeSpace S r.2.prioritySet (spaceRequired + s.sizeUsed) 0 r.2 = f at h1 h2 h4 ⊢
      obtain ⟨n, s'⟩ := f
      rw [hset] at h2 h4 h3
      rw [hset]
      cases n with
      | none =>
        refine ⟨h1, ?_, ⟨rfl, haskLeads.append ?_⟩⟩
        · refine List.forall_mem_cons.2 ⟨hnow, List.forall_mem_append.2 ⟨hask, ?_⟩⟩
          rw [List.append_nil]
          exact h3
        · rw [List.append_nil]
          exact h4
      | some n =>
        have hn' : key ∉ s'.prioritySet := fun hm => hn (h2 key hm)
        refine ⟨(h1.loadKey hS spaceRequired n hn').1, ?_, ⟨rfl, haskLeads.append (h4.append ⟨rfl, rfl⟩)⟩⟩
        refine List.forall_mem_cons.2 ⟨hnow, List.forall_mem_append.2 ⟨hask, List.forall_mem_append.2 ⟨h3, ?_⟩⟩⟩
        exact List.forall_mem_singleton.2 (Kept.beforeInsert hS hn' h1.tracked h1.sorted)
    · have hleft : (if S.shouldHitWithoutRetrieval = true then { r.2 with strategy := S.hitKey key r.2.strategy }
          else r.2).prioritySet = s.prioritySet := by
        split <;> exact hset
      rw [List.append_nil]
      refine ⟨?_, List.forall_mem_cons.2 ⟨hnow, hask⟩, rfl, ?_⟩
      · split
        · -- the key is not in the set when its cost changes
          obtain ⟨c, hc⟩ := hS.hit_cost r.2.strategy key
          refine ⟨ha.nodup, ha.sizes, ha.loaded, fun k hm => hS.hit_other _ _ _ (ha.tracked k hm), ?_⟩
          refine sorted_shift (c := c) (fun k hm => ?_) ha.sorted
          exact hc k (fun he => hn (hset ▸ he ▸ hm)) (ha.tracked k hm)
        · exact ha
      · rw [hleft]
        exact haskLeads

theorem Kept.call {s : CacheReplacement σ} (hS : S.Lawful tracked) (h : Kept S tracked s) (cmd : ReplacementCmd) :
    Kept S tracked (cmd.call S s) := by
  cases cmd with
  | hitKey key spaceRequired => exact (h.hitKey_ordered hS key spaceRequired).1
  | markUsing key => exact ⟨h.nodup, h.sizes, h.loaded, h.tracked, h.sorted⟩
  | markReady key =>
    unfold ReplacementCmd.call CacheReplacement.markReady
    dsimp only
    split
    · exact h
    · exact ⟨h.nodup, h.sizes, h.loaded, h.tracked, h.sorted⟩

theorem kept_after (hS : S.Lawful tracked) (maxSizeAllowed : UInt64) (cmds : List ReplacementCmd) :
    Kept S tracked (after S maxSizeAllowed cmds) := by
  have h : ∀ s, Kept S tracked s → Kept S tracked (cmds.foldl (ReplacementCmd.call S) s) := by
    induction cmds with
    | nil => exact fun s hs => hs
    | cons cmd cmds ih => exact fun s hs => ih _ (hs.call hS cmd)
  have hnew : Settled S tracked maxSizeAllowed (.construct S maxSizeAllowed) := .construct maxSizeAllowed
  exact h _ hnew.kept

/-- One call more. -/
theorem after_concat (maxSizeAllowed : UInt64) (cmds : List ReplacementCmd) (cmd : ReplacementCmd) :
    after S maxSizeAllowed (cmds ++ [cmd]) = cmd.call S (after S maxSizeAllowed cmds) := by
  unfold after
  rw [List.foldl_concat]

end CacheReplacement

/-! ## The costs stay small -/

/-- What bounds the costs of a strategy that was hit at most `n` times. -/
structure CRStrategy.Counts {σ : Type} (S : CRStrategy σ) (Bound : ℕ → σ → Prop) : Prop where
  zero : Bound 0 S.construct
  mono : ∀ n st, Bound n st → Bound (n + 1) st
  hit : ∀ n st key, Bound n st → Bound (n + 1) (S.hitKey key st)
  remove : ∀ n st key, Bound n st → Bound n (S.removeKey key st)
  cost : ∀ n st key, Bound n st → |S.costFunction st key| ≤ n

namespace LRUReplacementStrategy

/-- The ends and the values are counts of hits. -/
structure Bound (n : ℕ) (s : LRUReplacementStrategy) : Prop where
  low : 0 ≤ s.low ∧ s.low ≤ n
  high : 0 ≤ s.high ∧ s.high ≤ n
  values : ∀ k v, s.keyMappingToLruValue.find? k = some v → 0 ≤ v ∧ v ≤ n

theorem Bound.removeKey {n : ℕ} {s : LRUReplacementStrategy} (h : Bound n s) (key : UInt64) : Bound n (removeKey key s) := by
  have hvalues : ∀ k v, (LRUReplacementStrategy.removeKey key s).keyMappingToLruValue.find? k = some v → 0 ≤ v ∧ v ≤ n := by
    intro k v hv
    rw [find?_removeKey] at hv
    split at hv
    · cases hv
    · exact h.values k v hv
  refine ⟨?_, ?_, hvalues⟩
  · unfold LRUReplacementStrategy.removeKey
    split
    · exact h.low
    dsimp only
    split
    · split
      · rename_i next hnext
        exact h.values next.1 next.2 ((OrdMap.find?_eq_some _).2 (List.mem_of_find?_eq_some hnext))
      · exact ⟨le_rfl, Int.natCast_nonneg n⟩
    · exact h.low
  · unfold LRUReplacementStrategy.removeKey
    split
    · exact h.high
    dsimp only
    split
    · split
      · exact h.high
      · exact ⟨le_rfl, Int.natCast_nonneg n⟩
    · exact h.high

theorem counts : strategy.Counts Bound where
  zero := ⟨⟨le_rfl, le_rfl⟩, ⟨le_rfl, le_rfl⟩, fun k v h => by cases h⟩
  mono n st h := by
    obtain ⟨h1, h2, h3⟩ := h
    refine ⟨by omega, by omega, fun k v hv => ?_⟩
    have hk := h3 k v hv
    omega
  hit n st key h := by
    obtain ⟨h1, h2, h3⟩ := h
    have hhigh : Bound (n + 1) { st with high := st.high + 1 } := by
      refine ⟨by dsimp only; omega, by dsimp only; omega, fun k v hv => ?_⟩
      have hk := h3 k v hv
      omega
    obtain ⟨h4, h5, h6⟩ := hhigh.removeKey key
    refine ⟨h4, h5, fun k v hv => ?_⟩
    rw [show (strategy.hitKey key st).keyMappingToLruValue.find? k = _ from find?_hitKey st key k] at hv
    split at hv
    · rw [← Option.some.inj hv]
      omega
    · have hk := h3 k v hv
      omega
  remove n st key h := h.removeKey key
  cost n st key h := by
    obtain ⟨h1, h2, h3⟩ := h
    show |(st.keyMappingToLruValue.find? key).getD st.high - st.low| ≤ n
    cases hv : st.keyMappingToLruValue.find? key with
    | none =>
      rw [abs_le, Option.getD_none]
      omega
    | some v =>
      have hk := h3 key v hv
      rw [abs_le, Option.getD_some]
      omega

end LRUReplacementStrategy

namespace FrequencyReplacementStrategy

/-- The frequencies are counts of hits. -/
def Bound (n : ℕ) (s : FrequencyReplacementStrategy) : Prop := ∀ k v, s.frequencyMap.find? k = some v → 0 ≤ v ∧ v ≤ n

theorem counts : strategy.Counts Bound where
  zero k v h := by cases h
  mono n st h k v hv := by
    have hk := h k v hv
    omega
  hit n st key h k v hv := by
    have hfind : (strategy.hitKey key st).frequencyMap.find? k =
        if k = key then some ((st.frequencyMap.find? key).elim 1 (· + 1)) else st.frequencyMap.find? k :=
      OrdMap.find?_insert _ _ _ _
    rw [hfind] at hv
    split at hv
    · rw [← Option.some.inj hv]
      cases hf : st.frequencyMap.find? key with
      | none => exact ⟨by decide, by simp⟩
      | some w =>
        have hw := h key w hf
        rw [Option.elim_some]
        omega
    · have hk := h k v hv
      omega
  remove n st key h := h
  cost n st key h := by
    show |(st.frequencyMap.find? key).getD 0| ≤ n
    cases hv : st.frequencyMap.find? key with
    | none => simp
    | some v =>
      have hk := h key v hv
      rw [abs_le, Option.getD_some]
      omega

end FrequencyReplacementStrategy

namespace CacheReplacement

variable {σ : Type} {S : CRStrategy σ} {tracked : σ → UInt64 → Prop} {Bound : ℕ → σ → Prop}

theorem freeSpace_counts (hC : S.Counts Bound) {n : ℕ} (it : List UInt64) (nextSize sizeErased : UInt64)
    {s : CacheReplacement σ} (h : Bound n s.strategy) :
    Bound n (freeSpace S it nextSize sizeErased s).2.strategy ∧
      ∀ a ∈ freeSpaceAccesses S it nextSize s, Bound n a.strategy := by
  induction it generalizing nextSize sizeErased s with
  | nil =>
    unfold freeSpace freeSpaceAccesses
    split <;> exact ⟨h, List.forall_mem_nil _⟩
  | cons currentKey it ih =>
    unfold freeSpace freeSpaceAccesses
    split
    · split
      · obtain ⟨h1, h2⟩ := ih nextSize sizeErased h
        exact ⟨h1, List.forall_mem_cons.2 ⟨h, h2⟩⟩
      · have hdrop : Bound n (s.drop S currentKey).strategy := hC.remove n s.strategy currentKey h
        obtain ⟨h1, h2⟩ := ih (nextSize - s.sizeOf currentKey) (sizeErased + s.sizeOf currentKey) hdrop
        exact ⟨h1, List.forall_mem_cons.2 ⟨h, List.forall_mem_cons.2 ⟨h, h2⟩⟩⟩
    · exact ⟨h, List.forall_mem_nil _⟩

/-- A call hits the strategy once at most. -/
theorem hitKey_counts (hC : S.Counts Bound) {n : ℕ} {s : CacheReplacement σ} (h : Bound n s.strategy)
    (key spaceRequired : UInt64) :
    Bound (n + 1) (s.hitKey S key spaceRequired).2.strategy ∧
      ∀ a ∈ hitKeyAccesses S key spaceRequired s, Bound (n + 1) a.strategy := by
  have hnow : Bound (n + 1) s.strategy := hC.mono n _ h
  unfold CacheReplacement.hitKey hitKeyAccesses
  split
  · exact ⟨hnow, nofun⟩
  cases s.findKey S key with
  | some k =>
    refine ⟨hC.hit n _ key h, ?_⟩
    refine List.forall_mem_cons.2 ⟨hnow, List.forall_mem_cons.2 ⟨hnow, List.forall_mem_singleton.2 (hC.hit n _ key h)⟩⟩
  | none =>
    have hst : (s.askStrategy S key (spaceRequired + s.sizeUsed)).2.strategy = s.strategy := by
      unfold CacheReplacement.askStrategy
      split <;> rfl
    have hask : ∀ a ∈ (if s.maxSizeAllowed < spaceRequired + s.sizeUsed then
        [(⟨.traverse, s.strategy, s.prioritySet⟩ : SetAccess σ)] else []), Bound (n + 1) a.strategy := by
      split
      · exact List.forall_mem_singleton.2 hnow
      · nofun
    dsimp only
    generalize s.askStrategy S key (spaceRequired + s.sizeUsed) = r at hst ⊢
    have hr : Bound n r.2.strategy := hst ▸ h
    split
    · obtain ⟨h1, h2⟩ := freeSpace_counts hC r.2.prioritySet (spaceRequired + s.sizeUsed) 0 hr
      have hloop : ∀ a ∈ freeSpaceAccesses S r.2.prioritySet (spaceRequired + s.sizeUsed) r.2, Bound (n + 1) a.strategy :=
        fun a ha => hC.mono n _ (h2 a ha)
      generalize freeSpace S r.2.prioritySet (spaceRequired + s.sizeUsed) 0 r.2 = f at h1 ⊢
      obtain ⟨m, s'⟩ := f
      cases m with
      | none =>
        refine ⟨hC.mono n _ h1, List.forall_mem_cons.2 ⟨hnow, List.forall_mem_append.2 ⟨hask, ?_⟩⟩⟩
        exact List.forall_mem_append.2 ⟨hloop, nofun⟩
      | some m =>
        refine ⟨hC.hit n _ key h1, List.forall_mem_cons.2 ⟨hnow, List.forall_mem_append.2 ⟨hask, ?_⟩⟩⟩
        exact List.forall_mem_append.2 ⟨hloop, List.forall_mem_singleton.2 (hC.hit n _ key h1)⟩
    · refine ⟨?_, List.forall_mem_cons.2 ⟨hnow, List.forall_mem_append.2 ⟨hask, nofun⟩⟩⟩
      split
      · exact hC.hit n _ key hr
      · exact hC.mono n _ hr

theorem counts_after (hC : S.Counts Bound) (maxSizeAllowed : UInt64) (cmds : List ReplacementCmd) :
    Bound cmds.length (after S maxSizeAllowed cmds).strategy := by
  induction cmds using List.reverseRecOn with
  | nil => exact hC.zero
  | append_singleton cmds cmd ih =>
    rw [after_concat, List.length_append]
    cases cmd with
    | hitKey key spaceRequired => exact (hitKey_counts hC ih key spaceRequired).1
    | markUsing key => exact hC.mono _ _ ih
    | markReady key =>
      unfold ReplacementCmd.call CacheReplacement.markReady
      dsimp only
      split <;> exact hC.mono _ _ ih

/-! ## Runs -/

variable (S) in
/-- A call after others accesses the set in order, from the set they left to the one it leaves;
no cost it compares is above the number of calls; between calls the set has the keys that are
resident. -/
structure AccessesOrdered (maxSizeAllowed : UInt64) (cmds : List ReplacementCmd) : Prop where
  resident : ∀ k, k ∈ (after S maxSizeAllowed cmds).prioritySet ↔ Retrieved (after S maxSizeAllowed cmds).dataManager k
  ordered : ∀ key spaceRequired, ∀ a ∈ hitKeyAccesses S key spaceRequired (after S maxSizeAllowed cmds),
    OrderedAt S a.strategy a.keys
  leads : ∀ key spaceRequired, Leads S (hitKeyAccesses S key spaceRequired (after S maxSizeAllowed cmds))
    (after S maxSizeAllowed cmds).prioritySet (after S maxSizeAllowed (cmds ++ [.hitKey key spaceRequired])).prioritySet
  costs : ∀ key spaceRequired, ∀ a ∈ hitKeyAccesses S key spaceRequired (after S maxSizeAllowed cmds),
    ∀ k, |S.costFunction a.strategy k| ≤ cmds.length + 1

theorem accesses_ordered (hS : S.Lawful tracked) (hC : S.Counts Bound) (maxSizeAllowed : UInt64)
    (cmds : List ReplacementCmd) : AccessesOrdered S maxSizeAllowed cmds := by
  have h := kept_after hS maxSizeAllowed cmds
  have hb := counts_after hC maxSizeAllowed cmds
  refine ⟨h.loaded, fun key spaceRequired => (h.hitKey_ordered hS key spaceRequired).2.1, fun key spaceRequired => ?_,
    fun key spaceRequired a ha k => ?_⟩
  · rw [after_concat]
    exact (h.hitKey_ordered hS key spaceRequired).2.2
  · have hcost := hC.cost _ _ k ((hitKey_counts hC hb key spaceRequired).2 a ha)
    exact_mod_cast hcost

end CacheReplacement

/-- **The set is in order at every access**, for both strategies, whatever was called before. -/
theorem prioritySet_ordered_at_accesses (maxSizeAllowed : UInt64) (cmds : List ReplacementCmd) :
    CacheReplacement.AccessesOrdered LRUReplacementStrategy.strategy maxSizeAllowed cmds ∧
      CacheReplacement.AccessesOrdered FrequencyReplacementStrategy.strategy maxSizeAllowed cmds :=
  ⟨CacheReplacement.accesses_ordered LRUReplacementStrategy.lawful LRUReplacementStrategy.counts maxSizeAllowed cmds,
    CacheReplacement.accesses_ordered FrequencyReplacementStrategy.lawful FrequencyReplacementStrategy.counts
      maxSizeAllowed cmds⟩

end K2Cache
