import K2Cache.Proof.NodeIds

/-!
# New ids after the log is restored

The constructor takes `last_assigned_id` from the sequence and the map as their files say,
and restores the log into the map afterwards. New real ids get the ids after
`last_assigned_id`, one after the other, whatever the restored pairs hold.

`idsFresh_iff`: no new id is one of the log exactly if the ids of the log are not among
these next ones.
-/

namespace K2Cache

open Lib FileRWHandler NodeIdsManager

/-! ## The ids that calls give -/

/-- The real ids among the calls that have no id yet. -/
def NodeIdsManager.newReals (m : NodeIdsManager) (calls : List UInt64) : Finset UInt64 :=
  calls.toFinset.filter (fun r => m.getId r = notFoundNodeid)

variable {m₀ m : NodeIdsManager} {calls pre : List UInt64} {r : UInt64}

theorem mem_newReals : r ∈ m₀.newReals calls ↔ r ∈ calls ∧ m₀.getId r = notFoundNodeid := by
  simp [newReals]

theorem newReals_of_old (h : m₀.getId r ≠ notFoundNodeid ∨ r ∈ pre) : m₀.newReals (pre ++ [r]) = m₀.newReals pre := by
  ext r'
  rw [mem_newReals, mem_newReals, List.mem_append, List.mem_singleton]
  constructor
  · rintro ⟨hr' | rfl, hn⟩
    · exact ⟨hr', hn⟩
    · exact ⟨h.resolve_left (fun hne => hne hn), hn⟩
  · rintro ⟨hr', hn⟩
    exact ⟨.inl hr', hn⟩

theorem card_newReals_of_new (h : m₀.getId r = notFoundNodeid) (hr : r ∉ pre) :
    (m₀.newReals (pre ++ [r])).card = (m₀.newReals pre).card + 1 := by
  have hins : m₀.newReals (pre ++ [r]) = insert r (m₀.newReals pre) := by
    ext r'
    rw [Finset.mem_insert, mem_newReals, mem_newReals, List.mem_append, List.mem_singleton]
    constructor
    · rintro ⟨hr' | rfl, hn⟩
      · exact .inr ⟨hr', hn⟩
      · exact .inl rfl
    · rintro (rfl | ⟨hr', hn⟩)
      · exact ⟨.inr rfl, h⟩
      · exact ⟨.inl hr', hn⟩
  rw [hins, Finset.card_insert_of_notMem (fun hmem => hr (mem_newReals.1 hmem).1)]

theorem card_newReals_le (m₀ : NodeIdsManager) (calls : List UInt64) : (m₀.newReals calls).card ≤ calls.length :=
  (Finset.card_filter_le _ _).trans calls.toFinset_card_le

theorem card_newReals_prefix (m₀ : NodeIdsManager) (pre post : List UInt64) :
    (m₀.newReals pre).card ≤ (m₀.newReals (pre ++ post)).card := by
  refine Finset.card_le_card fun r hr => ?_
  rw [mem_newReals] at hr ⊢
  exact ⟨List.mem_append_left _ hr.1, hr.2⟩

/-- Every count below the last is that of some calls in front of a new real id. -/
theorem exists_newReals (calls : List UInt64) {j : ℕ} (hj : j < (m₀.newReals calls).card) :
    ∃ pre r post, calls = pre ++ r :: post ∧ (m₀.newReals pre).card = j ∧ m₀.getId r = notFoundNodeid ∧ r ∉ pre := by
  induction calls using List.reverseRecOn with
  | nil => simp [newReals] at hj
  | append_singleton calls r ih =>
    by_cases hlt : j < (m₀.newReals calls).card
    · obtain ⟨pre, r', post, rfl, hcard, hn, hr'⟩ := ih hlt
      exact ⟨pre, r', post ++ [r], by simp, hcard, hn, hr'⟩
    · by_cases hold : m₀.getId r ≠ notFoundNodeid ∨ r ∈ calls
      · rw [newReals_of_old hold] at hj
        exact absurd hj hlt
      · push Not at hold
        rw [card_newReals_of_new hold.1 hold.2] at hj
        exact ⟨calls, r, [], rfl, by omega, hold.1, hold.2⟩

/-- **The manager after some calls**: it has counted the new real ids, and knows them. -/
structure Assigned (m₀ : NodeIdsManager) (pre : List UInt64) (m : NodeIdsManager) : Prop where
  next : m.next = m₀.next + (m₀.newReals pre).card
  found : ∀ r, m.getId r = notFoundNodeid ↔ m₀.getId r = notFoundNodeid ∧ r ∉ pre

theorem Assigned.refl (m₀ : NodeIdsManager) : Assigned m₀ [] m₀ := ⟨by simp [newReals], by simp⟩

/-- One more call. -/
theorem Assigned.getIdOrCreate {e : NodeIdsEnv} (h : Assigned m₀ pre e.manager) (hroom : m₀.next + (pre.length + 1) < 2 ^ 64)
    (r : UInt64) : Assigned m₀ (pre ++ [r]) (e.getIdOrCreate r).2.manager := by
  by_cases hr : e.manager.getId r = notFoundNodeid
  · obtain ⟨hn, hpre⟩ := (h.found r).1 hr
    have hle := card_newReals_le m₀ pre
    have hnext := h.next
    have hid : (e.manager.lastAssignedId + 1).toNat = e.manager.next := rfl
    -- the id that is given is not the one that says there is none
    have hne : e.manager.lastAssignedId + 1 ≠ notFoundNodeid := by
      intro heq
      rw [heq, toNat_notFoundNodeid] at hid
      omega
    have hman : (e.getIdOrCreate r).2.manager = ⟨e.manager.nodesSequence,
        e.manager.nodesMap.add r (e.manager.lastAssignedId + 1), e.manager.lastAssignedId + 1, e.manager.logsNumber + 1⟩ := by
      have hif : ¬ (e.manager.getId r ≠ notFoundNodeid) := fun hne => hne hr
      simp only [NodeIdsEnv.getIdOrCreate, if_neg hif, NodeIdsEnv.logNewKv]
    have hseq : e.manager.nodesSequence.getId r = notFoundNodeid := by
      by_contra hs
      simp only [NodeIdsManager.getId, ne_eq, hs, not_false_eq_true, if_true] at hr
    rw [hman]
    constructor
    · rw [card_newReals_of_new hn hpre]
      show (e.manager.lastAssignedId + 1 + 1).toNat = _
      rw [UInt64.toNat_add, hid, Nat.mod_eq_of_lt (by simp only [UInt64.toNat_one]; omega), hnext]
      simp only [UInt64.toNat_one]
      omega
    · intro r'
      by_cases hrr : r' = r
      · subst hrr
        simp only [NodeIdsManager.getId, hseq, ne_eq, not_true_eq_false, if_false, NodesMap.getId, NodesMap.add,
          OrdMap.find?_insert_self, Option.getD_some, hne, false_iff, not_and, not_not]
        intro _
        exact List.mem_append_right _ List.mem_cons_self
      · have hsame : (⟨e.manager.nodesSequence, e.manager.nodesMap.add r (e.manager.lastAssignedId + 1),
            e.manager.lastAssignedId + 1, e.manager.logsNumber + 1⟩ : NodeIdsManager).getId r' = e.manager.getId r' := by
          simp only [NodeIdsManager.getId, NodesMap.getId, NodesMap.add, OrdMap.find?_insert_ne _ _ hrr]
        rw [hsame, h.found, List.mem_append, List.mem_singleton, not_or]
        exact ⟨fun hf => ⟨hf.1, hf.2, hrr⟩, fun hf => ⟨hf.1, hf.2.1⟩⟩
  · rw [NodeIdsEnv.getIdOrCreate_old hr]
    have hold : m₀.getId r ≠ notFoundNodeid ∨ r ∈ pre := by
      by_contra hcon
      push Not at hcon
      exact hr ((h.found r).2 hcon)
    refine ⟨by rw [newReals_of_old hold]; exact h.next, fun r' => ?_⟩
    rw [h.found, List.mem_append, List.mem_singleton, not_or]
    refine ⟨fun hf => ⟨hf.1, hf.2, ?_⟩, fun hf => ⟨hf.1, hf.2.1⟩⟩
    rintro rfl
    exact hr ((h.found r').2 hf)

/-- **The manager after a run of calls.** -/
theorem assigned_createAll (e : NodeIdsEnv) (pre : List UInt64) (hroom : e.manager.next + pre.length < 2 ^ 64) :
    Assigned e.manager pre (e.createAll pre).manager := by
  induction pre using List.reverseRecOn with
  | nil => exact Assigned.refl _
  | append_singleton pre r ih =>
    rw [List.length_append, List.length_singleton] at hroom
    have h := ih (by omega)
    have hsnoc : e.createAll (pre ++ [r]) = ((e.createAll pre).getIdOrCreate r).2 := by
      simp [NodeIdsEnv.createAll]
    rw [hsnoc]
    exact h.getIdOrCreate hroom r

/-! ## Freshness -/

/-- The id is bound in the sequence, in the map of the file or in the restored log. -/
def BoundId (s : NodesSequence) (nodesMap : NodesMap) (pairs : List (UInt64 × UInt64)) (i : UInt64) : Prop :=
  i.toNat < s.values.length ∨ (∃ r, nodesMap.imap.find? r = some i) ∨ ∃ p ∈ pairs, p.2 = i

/-- **No call gives a bound id to a new real id.** -/
def IdsFresh (bound : UInt64 → Prop) (e : NodeIdsEnv) (calls : List UInt64) : Prop :=
  ∀ pre r post, calls = pre ++ r :: post → (e.createAll pre).manager.getId r = notFoundNodeid →
    ¬ bound ((e.createAll pre).getIdOrCreate r).1

/-- The constructor that opens the files is the one over their readers. -/
theorem construct_manager {d : Disk} {e : NodeIdsEnv} (h : NodeIdsEnv.construct d = .ok e) :
    ∃ nodesMap logIs counterIs, NodesMap.fromInputStream (getReader d .mappedNodeIds) = .ok nodesMap ∧
      e.manager = .construct (.fromInputStream (getReader d .nodeIds)) nodesMap logIs counterIs := by
  unfold NodeIdsEnv.construct at h
  cases hm : NodesMap.fromInputStream (getReader d .mappedNodeIds) with
  | error x => simp [hm] at h
  | ok nodesMap =>
    simp only [hm, Except.ok.injEq] at h
    subst h
    exact ⟨nodesMap, _, _, rfl, rfl⟩

/-- The id a new real id gets. -/
theorem getIdOrCreate_next {e : NodeIdsEnv} (h : e.manager.getId r = notFoundNodeid) :
    (e.getIdOrCreate r).1.toNat = e.manager.next := by
  have hif : ¬ (e.manager.getId r ≠ notFoundNodeid) := fun hne => hne h
  simp only [NodeIdsEnv.getIdOrCreate, if_neg hif]
  rfl

/-- **Ids given after the log was restored are fresh** exactly if no id of the log is among
those after `last_assigned_id`, as many as there are new real ids in the calls. -/
theorem idsFresh_iff {s : NodesSequence} {is : IStream} {nodesMap : NodesMap} (hmap : NodesMap.fromInputStream is = .ok nodesMap)
    (logIs counterIs : IStream) {e : NodeIdsEnv} (he : e.manager = .construct s nodesMap logIs counterIs) (calls : List UInt64)
    (h : NodesLoaded s nodesMap calls.length) :
    IdsFresh (BoundId s nodesMap (restoredPairs logIs counterIs)) e calls ↔
      ∀ p ∈ restoredPairs logIs counterIs,
        let next := (findLastAssigned s nodesMap + 1).toNat
        p.2.toNat < next ∨ next + (e.manager.newReals calls).card ≤ p.2.toNat := by
  have hvalid := h.valid (fromInputStream_construct hmap)
  have hnext : e.manager.next = (findLastAssigned s nodesMap + 1).toNat := by rw [he]; rfl
  have hroom : e.manager.next + calls.length < 2 ^ 64 := by rw [hnext]; exact hvalid.room
  simp only [← hnext]
  -- what a call gives is counted from `last_assigned_id`
  have hgives : ∀ pre r post, calls = pre ++ r :: post → (e.createAll pre).manager.getId r = notFoundNodeid →
      ((e.createAll pre).getIdOrCreate r).1.toNat = e.manager.next + (e.manager.newReals pre).card := by
    intro pre r post hcalls hr
    have hlen : e.manager.next + pre.length < 2 ^ 64 := by
      have : calls.length = pre.length + (post.length + 1) := by rw [hcalls]; simp
      omega
    rw [getIdOrCreate_next hr, (assigned_createAll e pre hlen).next]
  constructor
  · intro hfresh p hp
    by_contra hcon
    push Not at hcon
    obtain ⟨pre, r, post, hcalls, hcard, hn, hr⟩ :=
      exists_newReals calls (show p.2.toNat - e.manager.next < (e.manager.newReals calls).card by omega)
    have hlen : e.manager.next + pre.length < 2 ^ 64 := by
      have : calls.length = pre.length + (post.length + 1) := by rw [hcalls]; simp
      omega
    have hnew := ((assigned_createAll e pre hlen).found r).2 ⟨hn, hr⟩
    refine hfresh pre r post hcalls hnew (.inr (.inr ⟨p, hp, UInt64.toNat_inj.1 ?_⟩))
    rw [hgives pre r post hcalls hnew, hcard]
    omega
  · intro hlog pre r post hcalls hr hbound
    have hid := hgives pre r post hcalls hr
    have hlen : e.manager.next + pre.length < 2 ^ 64 := by
      have : calls.length = pre.length + (post.length + 1) := by rw [hcalls]; simp
      omega
    obtain ⟨hn, hpre⟩ := ((assigned_createAll e pre hlen).found r).1 hr
    have hcard : (e.manager.newReals pre).card + 1 ≤ (e.manager.newReals calls).card := by
      rw [← card_newReals_of_new hn hpre, hcalls, show pre ++ r :: post = (pre ++ [r]) ++ post by simp]
      exact card_newReals_prefix _ _ _
    rcases hbound with hs | ⟨r', hf⟩ | ⟨p, hp, hpi⟩
    · have hle : s.values.length ≤ (loadedManager s nodesMap).next := hvalid.length_le
      have : (loadedManager s nodesMap).next = e.manager.next := hnext.symm
      omega
    · have hlt := hvalid.below r' _ hf
      have : (loadedManager s nodesMap).next = e.manager.next := hnext.symm
      omega
    · have := hlog p hp
      rw [hpi] at this
      omega

/-- A log whose counter tells how many pairs it holds is restored as it is. -/
theorem restoredPairs_eq {pairs : List (UInt64 × UInt64)} (hlen : pairs.length < 2 ^ 64) {logIs counterIs : IStream}
    (hlog : logIs.Ahead (pairs.flatMap fun p => u64Bytes p.1 ++ u64Bytes p.2))
    (hcounter : counterIs.Ahead (u64Bytes (UInt64.ofNat pairs.length))) : restoredPairs logIs counterIs = pairs := by
  have hn : (UInt64.ofNat pairs.length).toNat = pairs.length := UInt64.toNat_ofNat_of_lt' (by rw [UInt64.size]; omega)
  have h1 := IStream.reads_readU64 _ _ hcounter
  have h2 := IStream.Reads.many (fun p _ => NodesMap.readPair_reads p) _ hlog
  simp only [restoredPairs, h1, hn, h2]

/-- A process that restores this log beside `fewNodes`. -/
def loggedEnv (pairs : List (UInt64 × UInt64)) : NodeIdsEnv :=
  ⟨idsDisk fewNodes.1 fewNodes.2, .construct fewNodes.1 fewNodes.2
    (.ofBytes (pairs.flatMap fun p => u64Bytes p.1 ++ u64Bytes p.2)) (.ofBytes (u64Bytes (UInt64.ofNat pairs.length)))⟩

/-- A log of a known id, and the log of an earlier process. -/
theorem idsFresh_iff_few :
    IdsFresh (BoundId fewNodes.1 fewNodes.2 [(30, 3)]) (loggedEnv [(30, 3)]) [40, 30, 50] ∧
      ¬ IdsFresh (BoundId fewNodes.1 fewNodes.2 [(30, 5)]) (loggedEnv [(30, 5)]) [5, 40] := by
  obtain ⟨hmap, -, hload⟩ := fewNodes_loaded
  have hpairs : ∀ p : UInt64 × UInt64, restoredPairs
      (.ofBytes ([p].flatMap fun p => u64Bytes p.1 ++ u64Bytes p.2)) (.ofBytes (u64Bytes (UInt64.ofNat [p].length))) = [p] :=
    fun p => restoredPairs_eq (by simp) (IStream.ahead_self _) (IStream.ahead_self _)
  constructor
  · have h := idsFresh_iff hmap _ _ (e := loggedEnv [(30, 3)]) rfl [40, 30, 50] (hload _ (by decide +kernel))
    rw [hpairs] at h
    refine h.2 fun p hp => .inl ?_
    rw [List.mem_singleton.1 hp]
    decide +kernel
  · have h := idsFresh_iff hmap _ _ (e := loggedEnv [(30, 5)]) rfl [5, 40] (hload _ (by decide +kernel))
    rw [hpairs] at h
    rw [h]
    intro hcon
    have hcard : (findLastAssigned fewNodes.1 fewNodes.2 + 1).toNat = 5 ∧
        ((loggedEnv [(30, 5)]).manager.newReals [5, 40]).card = 1 := by decide +kernel
    have := hcon (30, 5) List.mem_cons_self
    simp only [hcard] at this
    simp at this

/-- **The first id given after a restart is the one of the log.** -/
theorem idsFresh_fails : restoredPairs (.ofBytes (u64Bytes 30 ++ u64Bytes 5)) (.ofBytes (u64Bytes 1)) = [(30, 5)] ∧
    ¬ IdsFresh (BoundId fewNodes.1 fewNodes.2 [(30, 5)]) (loggedEnv [(30, 5)]) [40] := by
  refine ⟨by decide, fun h => ?_⟩
  refine h [] 40 [] rfl (by decide +kernel) (.inr (.inr ⟨(30, 5), List.mem_cons_self, ?_⟩))
  decide +kernel

end K2Cache
