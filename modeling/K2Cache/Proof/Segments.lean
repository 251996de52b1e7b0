import K2Cache.Proof.Frame
import K2Cache.Proof.Refine

/-!
# The segments the index has registered

A call makes at most one segment, and it makes it before it reads a tree; what else it does
leaves the segments alone. So its effect on them is that of one of three functions of a
`SegmentView`. A load that finds the slot of its new segment taken drops the only reference
to the one that was there (`Replaces`); every other call keeps the references and the
segments the same (`Held`).
-/

namespace K2Cache

open Lib

variable {T : Type} {P : CacheParams T} {s s' : Manager T}

/-- What a call can change of the segments, and the metadata it reads them from. -/
structure SegmentView where
  metadata : PredicatesCacheMetadata
  segmentsMap : OrdMap UInt64 ℕ
  full : Option ℕ
  memory : MemoryManager

/-- The segments of an index. -/
def Index.segmentView (x : Index T) : SegmentView := ⟨x.metadata, x.memorySegmentsMap, x.fullMemorySegment, x.memory⟩

namespace SegmentView

/-- The new segment of a tree of the index file. -/
def loadSingle (v : SegmentView) (p : UInt64) : SegmentView :=
  match v.metadata.metadataMap.find? p with
  | none => v
  | some md =>
    let segment := v.memory.newMemorySegment md.treeSizeInMemory
    { v with memory := segment.2, segmentsMap := v.segmentsMap.insert md.predicateId segment.1 }

/-- The new segment of all trees. -/
def loadAll (v : SegmentView) : SegmentView :=
  match v.metadata.predicatesIds.mapM v.metadata.metadataMap.find? with
  | none => v
  | some mds =>
    let segment := v.memory.newMemorySegment (mds.map PredicateMetadata.treeSizeInMemory).sum
    { v with memory := segment.2, full := some segment.1 }

def discard (v : SegmentView) (p : UInt64) : SegmentView :=
  { v with
    memory := (v.segmentsMap.find? p).elim v.memory v.memory.freeSegment
    segmentsMap := v.segmentsMap.erase p }

/-- A segment that is registered. -/
def Registered (v : SegmentView) (id : ℕ) : Prop := ∃ size, (id, size) ∈ v.memory.segments

/-- A segment something refers to. -/
def Referred (v : SegmentView) (id : ℕ) : Prop := (∃ p, v.segmentsMap.find? p = some id) ∨ v.full = some id

/-- **No segment is orphaned**: those registered are those of the map and the full one. -/
def NoOrphan (v : SegmentView) : Prop := ∀ id, v.Registered id ↔ v.Referred id

/-- The references are to different segments, all of them registered, and there are no others. -/
structure Held (v : SegmentView) : Prop where
  noOrphan : v.NoOrphan
  below : ∀ id, v.Registered id → id < v.memory.next
  injective : ∀ p q id, v.segmentsMap.find? p = some id → v.segmentsMap.find? q = some id → p = q
  full : ∀ p id, v.segmentsMap.find? p = some id → v.full ≠ some id
  keys : ∀ p md, v.metadata.metadataMap.find? p = some md → md.predicateId = p
  listed : ∀ p ∈ v.metadata.predicatesIds, v.metadata.metadataMap.contains p = true

variable {v : SegmentView} {p : UInt64} {id : ℕ}

/-! ## Registering and freeing -/

theorem registered_new {size : ℕ} {m : OrdMap UInt64 ℕ} {f : Option ℕ} :
    ({ v with memory := (v.memory.newMemorySegment size).2, segmentsMap := m, full := f } : SegmentView).Registered id ↔
      v.Registered id ∨ id = v.memory.next := by
  unfold Registered MemoryManager.newMemorySegment
  constructor
  · rintro ⟨n, hn⟩
    rcases List.mem_append.1 hn with hn | hn
    · exact .inl ⟨n, hn⟩
    · exact .inr (Prod.mk.inj (List.mem_singleton.1 hn)).1
  · intro h
    rcases h with ⟨n, hn⟩ | rfl
    · exact ⟨n, List.mem_append_left _ hn⟩
    · exact ⟨size, List.mem_append_right _ (List.mem_singleton.2 rfl)⟩

theorem registered_free {gone : ℕ} {m : OrdMap UInt64 ℕ} :
    ({ v with memory := v.memory.freeSegment gone, segmentsMap := m } : SegmentView).Registered id ↔
      v.Registered id ∧ id ≠ gone := by
  unfold Registered MemoryManager.freeSegment
  simp only [List.mem_filter, decide_eq_true_eq]
  constructor
  · rintro ⟨n, h1, h2⟩
    exact ⟨⟨n, h1⟩, h2⟩
  · rintro ⟨⟨n, h1⟩, h2⟩
    exact ⟨n, h1, h2⟩

/-- The next segment is not one of those that are there. -/
theorem Held.not_next (h : Held v) : ¬ v.Referred v.memory.next := by
  intro hr
  exact absurd (h.below _ ((h.noOrphan _).2 hr)) (lt_irrefl _)

/-! ## One load, one discard -/

/-- The index file has no such predicate. -/
theorem loadSingle_absent (hm : v.metadata.metadataMap.contains p = false) : v.loadSingle p = v := by
  unfold loadSingle
  rw [(OrdMap.contains_eq_false _).1 hm]

theorem Held.loadSingle_eq (h : Held v) (hm : v.metadata.metadataMap.contains p = true) :
    ∃ size, v.loadSingle p =
      { v with
        memory := (v.memory.newMemorySegment size).2
        segmentsMap := v.segmentsMap.insert p v.memory.next
        full := v.full } := by
  obtain ⟨md, hmd⟩ := (OrdMap.contains_iff _).1 hm
  refine ⟨md.treeSizeInMemory, ?_⟩
  unfold loadSingle
  rw [hmd]
  dsimp only
  rw [h.keys p md hmd]
  rfl

/-- Keys that are all there are all found. -/
theorem mapM_find {m : OrdMap UInt64 PredicateMetadata} {ids : List UInt64} (h : ∀ p ∈ ids, m.contains p = true) :
    ∃ mds, ids.mapM m.find? = some mds := by
  induction ids with
  | nil => exact ⟨[], rfl⟩
  | cons q ids ih =>
    obtain ⟨md, hmd⟩ := (OrdMap.contains_iff _).1 (h q List.mem_cons_self)
    obtain ⟨mds, hmds⟩ := ih fun r hr => h r (List.mem_cons_of_mem _ hr)
    exact ⟨md :: mds, by simp [List.mapM_cons, hmd, hmds]⟩

theorem Held.loadAll_eq (h : Held v) :
    ∃ size, v.loadAll =
      { v with
        memory := (v.memory.newMemorySegment size).2
        segmentsMap := v.segmentsMap
        full := some v.memory.next } := by
  obtain ⟨mds, hmds⟩ := mapM_find h.listed
  refine ⟨(mds.map PredicateMetadata.treeSizeInMemory).sum, ?_⟩
  unfold loadAll
  rw [hmds]
  rfl

/-- A predicate loaded into a slot of its own. -/
theorem Held.loadSingle (h : Held v) (hfree : v.metadata.metadataMap.contains p = true → v.segmentsMap.contains p = false) :
    Held (v.loadSingle p) := by
  cases hm : v.metadata.metadataMap.contains p with
  | false =>
    rw [loadSingle_absent hm]
    exact h
  | true =>
    obtain ⟨size, he⟩ := h.loadSingle_eq hm
    have hnone := (OrdMap.contains_eq_false _).1 (hfree hm)
    have hnext := h.not_next
    rw [he]
    refine ⟨fun id => ?_, fun id hid => ?_, fun q r id hq hr => ?_, fun q id hq => ?_, h.keys, h.listed⟩
    · rw [registered_new, h.noOrphan]
      constructor
      · rintro ((⟨q, hq⟩ | hf) | rfl)
        · refine .inl ⟨q, (OrdMap.find?_insert_ne _ _ ?_).trans hq⟩
          rintro rfl
          rw [hnone] at hq
          cases hq
        · exact .inr hf
        · exact .inl ⟨p, OrdMap.find?_insert_self _ _ _⟩
      · rintro (⟨q, hq⟩ | hf)
        · rw [OrdMap.find?_insert] at hq
          split at hq
          · exact .inr (Option.some.inj hq).symm
          · exact .inl (.inl ⟨q, hq⟩)
        · exact .inl (.inr hf)
    · rcases registered_new.1 hid with hid | rfl
      · exact (h.below id hid).trans (Nat.lt_succ_self _)
      · exact Nat.lt_succ_self _
    · rw [OrdMap.find?_insert] at hq hr
      by_cases hqp : q = p
      · by_cases hrp : r = p
        · rw [hqp, hrp]
        · rw [if_pos hqp] at hq
          rw [if_neg hrp, ← Option.some.inj hq] at hr
          exact absurd (.inl ⟨r, hr⟩) hnext
      · rw [if_neg hqp] at hq
        by_cases hrp : r = p
        · rw [if_pos hrp] at hr
          rw [← Option.some.inj hr] at hq
          exact absurd (.inl ⟨q, hq⟩) hnext
        · rw [if_neg hrp] at hr
          exact h.injective q r id hq hr
    · rw [OrdMap.find?_insert] at hq
      split at hq
      · rw [← Option.some.inj hq]
        exact fun hf => hnext (.inr hf)
      · exact h.full q id hq

/-- All predicates loaded, with no full segment before. -/
theorem Held.loadAll (h : Held v) (hfree : v.full = none) : Held v.loadAll := by
  obtain ⟨size, he⟩ := h.loadAll_eq
  have hnext := h.not_next
  rw [he]
  refine ⟨fun id => ?_, fun id hid => ?_, h.injective, fun q id hq hf => ?_, h.keys, h.listed⟩
  · rw [registered_new, h.noOrphan]
    constructor
    · rintro ((hq | hf) | rfl)
      · exact .inl hq
      · rw [hfree] at hf
        cases hf
      · exact .inr rfl
    · rintro (hq | hf)
      · exact .inl (.inl hq)
      · exact .inr (Option.some.inj hf).symm
  · rcases registered_new.1 hid with hid | rfl
    · exact (h.below id hid).trans (Nat.lt_succ_self _)
    · exact Nat.lt_succ_self _
  · rw [← Option.some.inj hf] at hq
    exact hnext (.inl ⟨q, hq⟩)

theorem Held.discard (h : Held v) (p : UInt64) : Held (v.discard p) := by
  cases hp : v.segmentsMap.find? p with
  | none =>
    have he : v.segmentsMap.erase p = v.segmentsMap := by
      refine OrdMap.ext_find? fun q => ?_
      rw [OrdMap.find?_erase]
      split
      · rename_i hq
        rw [hq, hp]
      · rfl
    unfold SegmentView.discard
    rw [hp, he]
    exact h
  | some gone =>
    have hv : v.discard p = { v with memory := v.memory.freeSegment gone, segmentsMap := v.segmentsMap.erase p } := by
      unfold SegmentView.discard
      rw [hp]
      rfl
    have hfind : ∀ q id, (v.segmentsMap.erase p).find? q = some id ↔ v.segmentsMap.find? q = some id ∧ id ≠ gone := by
      intro q id
      rw [OrdMap.find?_erase]
      constructor
      · intro hq
        split at hq
        · cases hq
        · rename_i hne
          refine ⟨hq, ?_⟩
          rintro rfl
          exact hne (h.injective q p _ hq hp)
      · rintro ⟨hq, hne⟩
        rw [if_neg ?_]
        · exact hq
        · rintro rfl
          exact hne (Option.some.inj (hq.symm.trans hp))
    rw [hv]
    refine ⟨fun id => ?_, fun id hid => h.below id (registered_free.1 hid).1,
      fun q r id hq hr => h.injective q r id ((hfind q id).1 hq).1 ((hfind r id).1 hr).1,
      fun q id hq => h.full q id ((hfind q id).1 hq).1, h.keys, h.listed⟩
    rw [registered_free, h.noOrphan]
    constructor
    · rintro ⟨⟨q, hq⟩ | hf, hne⟩
      · exact .inl ⟨q, (hfind q id).2 ⟨hq, hne⟩⟩
      · exact .inr hf
    · rintro (⟨q, hq⟩ | hf)
      · exact ⟨.inl ⟨q, ((hfind q id).1 hq).1⟩, ((hfind q id).1 hq).2⟩
      · refine ⟨.inr hf, ?_⟩
        rintro rfl
        exact h.full p id hp hf

/-! ## The slot is taken -/

/-- The segment that was in the slot stays registered, and nothing refers to it. -/
theorem Held.loadSingle_orphan (h : Held v) (hm : v.metadata.metadataMap.contains p = true)
    (ht : v.segmentsMap.contains p = true) : ¬ (v.loadSingle p).NoOrphan := by
  obtain ⟨size, he⟩ := h.loadSingle_eq hm
  obtain ⟨old, hold⟩ := (OrdMap.contains_iff _).1 ht
  have hreg : v.Registered old := (h.noOrphan old).2 (.inl ⟨p, hold⟩)
  rw [he]
  intro hno
  rcases (hno old).1 (registered_new.2 (.inl hreg)) with ⟨q, hq⟩ | hf
  · rw [OrdMap.find?_insert] at hq
    split at hq
    · have hlt := h.below old hreg
      have heq := Option.some.inj hq
      omega
    · rename_i hne
      exact hne (h.injective q p old hq hold)
  · exact h.full p old hold hf

theorem Held.loadAll_orphan (h : Held v) {old : ℕ} (hf : v.full = some old) : ¬ v.loadAll.NoOrphan := by
  obtain ⟨size, he⟩ := h.loadAll_eq
  have hreg : v.Registered old := (h.noOrphan old).2 (.inr hf)
  rw [he]
  intro hno
  rcases (hno old).1 (registered_new.2 (.inl hreg)) with ⟨q, hq⟩ | hnew
  · exact h.full q old hq hf
  · have hlt := h.below old hreg
    have heq := Option.some.inj hnew
    omega

end SegmentView

/-! ## What the calls do -/

namespace Index

/-- What does not load a tree leaves the segments alone. -/
theorem segmentView_merging (ops : TreeOps T) (v : SegmentView) : Merging ops (fun x : Index T => x.segmentView = v) :=
  ⟨fun _ _ h => h, fun _ _ _ _ h => h⟩

theorem loadFromMainIndex_view (ops : TreeOps T) (p : UInt64) (x : Index T) :
    (loadFromMainIndex ops p x).2.segmentView = x.segmentView.loadSingle p := by
  unfold loadFromMainIndex SegmentView.loadSingle
  show _ = match x.metadata.metadataMap.find? p with | none => _ | some md => _
  cases x.metadata.metadataMap.find? p with
  | none => rfl
  | some md =>
    dsimp only
    split <;> rfl

theorem keeps_loadTrees (ops : TreeOps T) (v : SegmentView) (ps : List UInt64) (room : ℕ) :
    Act.Keeps (fun x : Index T => x.segmentView = v) (loadTrees ops ps room) := by
  induction ps generalizing room with
  | nil => exact Act.keeps_pure ()
  | cons p ps ih =>
    intro x h
    unfold loadTrees
    split
    · exact ih _ _ h
    · exact h

theorem loadAllFromMainIndex_view (ops : TreeOps T) (x : Index T) :
    (loadAllFromMainIndex ops x).2.segmentView = x.segmentView.loadAll := by
  unfold loadAllFromMainIndex SegmentView.loadAll
  show _ = match x.metadata.predicatesIds.mapM x.metadata.metadataMap.find? with | none => _ | some mds => _
  cases x.metadata.predicatesIds.mapM x.metadata.metadataMap.find? with
  | none => rfl
  | some mds => exact keeps_loadTrees ops _ _ _ _ rfl

end Index

namespace Manager

variable {v : SegmentView} {p : UInt64}

/-- The segments of the manager's index. -/
def segmentView (s : Manager T) : SegmentView := s.index.segmentView

/-- What keeps the segments of the index keeps those of the manager. -/
theorem view_of_keeps {α : Type} {y : Act Exn (Manager T) α}
    (hy : ∀ v d, Act.Keeps (OnDisk (fun x : Index T => x.segmentView = v) d) y) (s : Manager T) :
    (y s).2.segmentView = s.segmentView := (hy s.segmentView _ s ⟨rfl, rfl⟩).index

theorem loadSinglePredicate_view (p : UInt64) (s : Manager T) :
    (loadSinglePredicate P p s).2.segmentView = s.segmentView.loadSingle p := by
  have hrecover : ∀ (b : Bool) (s₁ : Manager T),
      ((Act.when b (LogEnv.recoverPredicate P.logger p) >>= fun _ => pure true : Act Exn (Manager T) Bool) s₁).2.segmentView =
        s₁.segmentView := by
    intro b s₁
    refine view_of_keeps (fun v d => ?_) s₁
    exact (Act.Keeps.when (keeps_recoverPredicate (Index.segmentView_merging P.ops v) p)).bind fun _ => Act.keeps_pure _
  unfold loadSinglePredicate
  rw [Act.get_bind]
  cases hm : s.index.isStoredInMainIndex p with
  | false =>
    have habsent : s.segmentView.loadSingle p = s.segmentView := SegmentView.loadSingle_absent hm
    rw [habsent]
    split
    · rw [Act.when_false, Act.pure_bind_run]
      exact hrecover _ s
    · rfl
  | true =>
    have hst : hasPredicateStored s p = true := by simp [hasPredicateStored, hm]
    rw [if_pos hst, Act.when_true]
    have hload := Index.loadFromMainIndex_view P.ops p s.index
    rcases hr : Index.loadFromMainIndex P.ops p s.index with ⟨r, x⟩
    rw [hr] at hload
    cases r with
    | error e =>
      have hon : onIndex (Index.loadFromMainIndex P.ops p) s =
          (.error e, { s with merger := { s.merger with ref := x } }) := by
        unfold onIndex Act.focus
        rw [hr]
      rw [Act.bind_error hon]
      exact hload
    | ok u =>
      have hon : onIndex (Index.loadFromMainIndex P.ops p) s = (.ok u, { s with merger := { s.merger with ref := x } }) := by
        unfold onIndex Act.focus
        rw [hr]
      rw [Act.bind_ok hon, hrecover]
      exact hload

theorem keeps_activateFromLog (hI : Index.Merging P.ops fun x : Index T => x.segmentView = v) (p : UInt64)
    (d : Option Bytes) : Act.Keeps (OnDisk (fun x : Index T => x.segmentView = v) d) (activateFromLog P p) := by
  refine Act.keeps_get.bind fun e => ?_
  split
  · exact (keeps_addPredicate hI p).bind fun _ => keeps_recoverPredicate hI p
  · exact Act.keeps_pure _

theorem fetchK2tree_view (p : UInt64) (s : Manager T) :
    (fetchK2tree P p s).2.segmentView =
      if s.index.predicates.contains p then s.segmentView else s.segmentView.loadSingle p := by
  have hrest : ∀ (found : Bool) (s₁ : Manager T),
      ((if found then do
          activateFromLog P p
          let s' ← Act.get
          pure ⟨true, s'.index.predicates.find? p⟩
        else pure ⟨false, none⟩ : Act Exn (Manager T) (PredicateFetchResult T)) s₁).2.segmentView = s₁.segmentView := by
    intro found s₁
    refine view_of_keeps (fun v d => ?_) s₁
    split
    · exact (keeps_activateFromLog (Index.segmentView_merging P.ops v) p d).bind fun _ =>
        Act.keeps_get.bind fun _ => Act.keeps_pure _
    · exact Act.keeps_pure _
  unfold fetchK2tree
  rw [Act.get_bind]
  split
  · exact hrest true s
  · have hload := loadSinglePredicate_view (P := P) p s
    rcases hr : loadSinglePredicate P p s with ⟨r, s₁⟩
    rw [hr] at hload
    cases r with
    | error e =>
      rw [Act.bind_error hr]
      exact hload
    | ok found =>
      rw [Act.bind_ok hr]
      exact (hrest found s₁).trans hload

theorem loadAllPredicates_view (s : Manager T) : (loadAllPredicates P s).2.segmentView = s.segmentView.loadAll := by
  have hload := Index.loadAllFromMainIndex_view P.ops s.index
  unfold loadAllPredicates
  rcases hr : Index.loadAllFromMainIndex P.ops s.index with ⟨r, x⟩
  rw [hr] at hload
  cases r with
  | error e =>
    have hon : onIndex (Index.loadAllFromMainIndex P.ops) s = (.error e, { s with merger := { s.merger with ref := x } }) := by
      unfold onIndex Act.focus
      rw [hr]
    rw [Act.bind_error hon]
    exact hload
  | ok u =>
    have hon : onIndex (Index.loadAllFromMainIndex P.ops) s = (.ok u, { s with merger := { s.merger with ref := x } }) := by
      unfold onIndex Act.focus
      rw [hr]
    rw [Act.bind_ok hon, Act.get_bind]
    refine (view_of_keeps (fun v d => ?_) _).trans hload
    exact Act.Keeps.when (keeps_recoverAll (Index.segmentView_merging P.ops v))

theorem removeKey_view (p : UInt64) (s : Manager T) :
    ((removeKey p : Act Exn (Manager T) Unit) s).2.segmentView = s.segmentView.discard p := rfl

end Manager

/-! ## Runs -/

/-- The calls that make and free segments. -/
inductive SegmentCall where
  | loadSinglePredicate (p : UInt64)
  | fetchK2tree (p : UInt64)
  | loadAllPredicates
  | discardInMemoryPredicate (p : UInt64)

/-- A call, whether it returns or throws. -/
def segmentStep (P : CacheParams T) (s : Manager T) : SegmentCall → Manager T
  | .loadSinglePredicate p => (Manager.loadSinglePredicate P p s).2
  | .fetchK2tree p => (Manager.fetchK2tree P p s).2
  | .loadAllPredicates => (Manager.loadAllPredicates P s).2
  | .discardInMemoryPredicate p => (Manager.removeKey p s).2

/-- The index under these calls. -/
def segmentMachine (P : CacheParams T) : Machine (Manager T) SegmentCall := ⟨fun s c => some (segmentStep P s c)⟩

/-- **The call loads what has a segment already**: a predicate of the index file whose
segment is in the map, or all predicates a second time. -/
def Replaces (s : Manager T) : SegmentCall → Prop
  | .loadSinglePredicate p => s.index.isStoredInMainIndex p = true ∧ s.index.memorySegmentsMap.contains p = true
  | .fetchK2tree p =>
    s.index.predicates.contains p = false ∧ s.index.isStoredInMainIndex p = true ∧ s.index.memorySegmentsMap.contains p = true
  | .loadAllPredicates => s.index.fullMemorySegment.isSome = true
  | .discardInMemoryPredicate _ => False

/-- An index that was just made, on its own or in a manager. -/
def JustMade (P : CacheParams T) (s : Manager T) : Prop :=
  (∃ d, s = Manager.openIndex d) ∨ ∃ d uninit, Manager.create P d uninit = .ok s

theorem readEntries_listed (n : ℕ) (m : OrdMap UInt64 PredicateMetadata) (ids : List UInt64) (is : IStream)
    (hm : ∀ p ∈ ids, m.contains p = true) :
    ∀ p ∈ (PredicatesCacheMetadata.readEntries n m ids is).1.2,
      (PredicatesCacheMetadata.readEntries n m ids is).1.1.contains p = true := by
  induction n generalizing m ids is with
  | zero => exact hm
  | succ n ih =>
    refine ih _ _ _ fun p hp => ?_
    rw [OrdMap.contains, OrdMap.find?_insert]
    rcases List.mem_append.1 hp with hp | hp
    · split
      · rfl
      · exact hm p hp
    · rw [if_pos (List.mem_singleton.1 hp)]
      rfl

theorem construct_held (d : Disk) : (Index.construct d : Index T).segmentView.Held where
  noOrphan id := by simp [SegmentView.Registered, SegmentView.Referred, Index.segmentView, Index.construct]
  below id h := by
    obtain ⟨size, hs⟩ := h
    cases hs
  injective p q id h := by cases h
  full p id h := by cases h
  keys p md h := (initialMetadata_entry h).1
  listed := readEntries_listed _ _ _ _ fun p hp => by cases hp

theorem justMade_held (h : JustMade P s) : s.segmentView.Held := by
  rcases h with ⟨d, rfl⟩ | ⟨d, uninit, hc⟩
  · exact construct_held d
  · unfold Manager.create at hc
    split at hc
    · cases hc
    · rename_i l hl
      have hview := Manager.view_of_keeps (fun v d => Manager.keeps_recoverAll (P := P) (Index.segmentView_merging P.ops v))
        (⟨d, l, ⟨false, (Index.construct d : Index T).setUpdateLogger⟩⟩ : Manager T)
      have hheld : (Manager.construct P d l (Index.construct d)).2.segmentView.Held := by
        have h₀ : (Index.construct d : Index T).segmentView.Held := construct_held d
        unfold Manager.construct
        rw [hview]
        exact h₀
      split at hc
      · rename_i s₁ hs₁
        rw [hs₁] at hheld
        rw [← Except.ok.inj hc]
        exact hheld
      · cases hc

/-- A call that replaces nothing keeps the references. -/
theorem segmentStep_held {c : SegmentCall} (h : s.segmentView.Held) (hc : ¬ Replaces s c) :
    (segmentStep P s c).segmentView.Held := by
  cases c with
  | loadSinglePredicate p =>
    show (Manager.loadSinglePredicate P p s).2.segmentView.Held
    rw [Manager.loadSinglePredicate_view]
    exact h.loadSingle fun hm => Bool.eq_false_iff.2 fun ht => hc ⟨hm, ht⟩
  | fetchK2tree p =>
    show (Manager.fetchK2tree P p s).2.segmentView.Held
    rw [Manager.fetchK2tree_view]
    split
    · exact h
    · rename_i hp
      exact h.loadSingle fun hm => Bool.eq_false_iff.2 fun ht => hc ⟨Bool.eq_false_iff.2 hp, hm, ht⟩
  | loadAllPredicates =>
    show (Manager.loadAllPredicates P s).2.segmentView.Held
    rw [Manager.loadAllPredicates_view]
    exact h.loadAll (Option.not_isSome_iff_eq_none.1 hc)
  | discardInMemoryPredicate p => exact h.discard p

/-- One that does orphans a segment. -/
theorem segmentStep_orphan {c : SegmentCall} (h : s.segmentView.Held) (hc : Replaces s c) :
    ¬ (segmentStep P s c).segmentView.NoOrphan := by
  cases c with
  | loadSinglePredicate p =>
    show ¬ (Manager.loadSinglePredicate P p s).2.segmentView.NoOrphan
    rw [Manager.loadSinglePredicate_view]
    exact h.loadSingle_orphan hc.1 hc.2
  | fetchK2tree p =>
    show ¬ (Manager.fetchK2tree P p s).2.segmentView.NoOrphan
    rw [Manager.fetchK2tree_view, hc.1, if_neg Bool.false_ne_true]
    exact h.loadSingle_orphan hc.2.1 hc.2.2
  | loadAllPredicates =>
    show ¬ (Manager.loadAllPredicates P s).2.segmentView.NoOrphan
    rw [Manager.loadAllPredicates_view]
    obtain ⟨old, hold⟩ := Option.isSome_iff_exists.1 hc
    exact h.loadAll_orphan hold
  | discardInMemoryPredicate p => exact hc.elim

/-- Once nothing is in the map, only the full segment stays registered. -/
theorem SegmentView.NoOrphan.only_full {v : SegmentView} (h : v.NoOrphan) (hempty : v.segmentsMap = ∅) {id : ℕ}
    (hid : v.Registered id) : v.full = some id := by
  rcases (h id).1 hid with ⟨p, hp⟩ | hf
  · rw [hempty] at hp
    cases hp
  · exact hf

/-- What the run is to have in every state: no orphan, and no segment but the full one
when each predicate loaded on its own has been discarded. -/
def SegmentView.Accounted (v : SegmentView) : Prop :=
  v.NoOrphan ∧ (v.segmentsMap = ∅ → ∀ id, v.Registered id → v.full = some id)

theorem SegmentView.NoOrphan.accounted {v : SegmentView} (h : v.NoOrphan) : v.Accounted :=
  ⟨h, fun hempty _ hid => h.only_full hempty hid⟩

/-- **No segment is orphaned** in any state of a run exactly when no call of it loads what has
a segment already. -/
theorem segments_not_orphaned (h : JustMade P s) (cs : List SegmentCall) :
    (∀ cs₁ cs₂ s', cs = cs₁ ++ cs₂ → (segmentMachine P).run cs₁ s = some s' → s'.segmentView.Accounted) ↔
      (segmentMachine P).Meets (fun s c => ¬ Replaces s c) cs s := by
  have key : ∀ (cs : List SegmentCall) (s : Manager T), s.segmentView.Held →
      ((∀ cs₁ cs₂ s', cs = cs₁ ++ cs₂ → (segmentMachine P).run cs₁ s = some s' → s'.segmentView.Accounted) ↔
        (segmentMachine P).Meets (fun s c => ¬ Replaces s c) cs s) := by
    intro cs
    induction cs with
    | nil =>
      intro s hs
      refine ⟨fun _ => trivial, fun _ cs₁ cs₂ s' he hrun => ?_⟩
      obtain ⟨rfl, -⟩ := List.append_eq_nil_iff.1 he.symm
      rw [← Option.some.inj hrun]
      exact hs.noOrphan.accounted
    | cons c cs ih =>
      intro s hs
      constructor
      · intro hall
        have hc : ¬ Replaces s c := fun hr => segmentStep_orphan hs hr (hall [c] cs _ rfl rfl).1
        refine ⟨hc, fun s₁ hs₁ => ?_⟩
        have hheld := segmentStep_held (P := P) hs hc
        rw [Option.some.inj hs₁] at hheld
        refine (ih s₁ hheld).1 fun cs₁ cs₂ s' he hrun => hall (c :: cs₁) cs₂ s' (by rw [he]; rfl) ?_
        rw [Machine.run, hs₁]
        exact hrun
      · rintro ⟨hc, hrest⟩ cs₁ cs₂ s' he hrun
        cases cs₁ with
        | nil =>
          rw [← Option.some.inj hrun]
          exact hs.noOrphan.accounted
        | cons c₁ cs₁ =>
          obtain ⟨rfl, htail⟩ := List.cons.inj he
          obtain ⟨s₁, hs₁, hrun⟩ := Machine.run_cons hrun
          have hheld := segmentStep_held (P := P) hs hc
          rw [Option.some.inj hs₁] at hheld
          exact (ih s₁ hheld).2 (hrest s₁ hs₁) cs₁ cs₂ s' htail hrun
  exact key cs s (justMade_held h)

open PointTree in
/-- Predicate 5 is discarded before it is loaded again. -/
theorem segments_not_orphaned_reloaded :
    ∃ s', (segmentMachine (cacheParams .binaryApp)).run
        [.loadSinglePredicate 5, .discardInMemoryPredicate 5, .fetchK2tree 5] (Manager.openIndex indexDisk) = some s' ∧
      s'.segmentView.Accounted := by
  have hmeets : (segmentMachine (cacheParams .binaryApp)).Meets (fun s c => ¬ Replaces s c)
      [.loadSinglePredicate 5, .discardInMemoryPredicate 5, .fetchK2tree 5] (Manager.openIndex indexDisk) := by
    refine ⟨?_, fun s₁ hs₁ => ?_⟩
    · show ¬ ((_ : Bool) = true ∧ (_ : Bool) = true)
      decide +kernel
    obtain rfl := Option.some.inj hs₁
    refine ⟨id, fun s₂ hs₂ => ?_⟩
    obtain rfl := Option.some.inj hs₂
    refine ⟨?_, fun _ _ => trivial⟩
    show ¬ ((_ : Bool) = false ∧ (_ : Bool) = true ∧ (_ : Bool) = true)
    decide +kernel
  refine ⟨_, rfl, ?_⟩
  exact (segments_not_orphaned (P := cacheParams .binaryApp) (.inl ⟨indexDisk, rfl⟩) _).2 hmeets _ [] _
    (List.append_nil _).symm rfl

open PointTree in
/-- A query fetches predicate 5, and the replacement strategy retrieves it again. -/
theorem segments_orphaned_by_retrieval :
    ∃ s', (segmentMachine (cacheParams .binaryApp)).run
        [.fetchK2tree 5, .loadSinglePredicate 5, .discardInMemoryPredicate 5] (Manager.openIndex indexDisk) = some s' ∧
      ¬ s'.segmentView.Accounted := by
  refine ⟨_, rfl, fun h => ?_⟩
  have hreg := h.2 (by decide +kernel) 0 ⟨1, by decide +kernel⟩
  revert hreg
  decide +kernel

end K2Cache
