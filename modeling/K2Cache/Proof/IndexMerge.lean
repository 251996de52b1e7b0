import K2Cache.Spec.Manager

/-!
# What the calls of the index do to a predicate's tree

`Touches p x x'`: of the trees in memory, only the one of `p` may have changed
between `x` and `x'`, and what the index keeps beside them is in order. One lemma
per call says what the tree of `p` is afterwards, as a set of points; a predicate
that is not loaded counts as empty there (`Index.held`).

* `mergeAddTree_spec`, `mergeDeleteTree_spec`, `mergeRecord_spec`: a record merged into
  the index acts as its patch.
* `mergeUpdate_spec`: a batch acts as its patches on the loaded predicates, and leaves
  the others unloaded.
* `loadFromMainIndex_spec`: the tree of the index file.
-/

namespace K2Cache

open Lib

variable {T : Type} {ops : TreeOps T}

namespace Index

/-- Changed trees are loaded and new ones are changed ones. -/
structure Tidy (x : Index T) : Prop where
  dirtyLoaded : ∀ p, x.dirtyPredicates.contains p = true → x.predicates.contains p = true
  newDirty : ∀ p, x.newPredicates.contains p = true → x.dirtyPredicates.contains p = true

/-- The points of a predicate's tree in memory. -/
def held (ops : TreeOps T) (x : Index T) (p : UInt64) : Set Point := ops.pointsOpt (x.predicates.find? p)

/-- The index file and what is known of it are the same. -/
structure SameFile (x x' : Index T) : Prop where
  is : x'.is.data = x.is.data ∧ x'.is.fail = x.is.fail
  metadata : x'.metadata = x.metadata
  hasUpdateLogger : x'.hasUpdateLogger = x.hasUpdateLogger
  tidy : x.Tidy → x'.Tidy

/-- Only the tree of `p` may have changed. -/
structure Touches (p : UInt64) (x x' : Index T) : Prop extends SameFile x x' where
  other : ∀ q, q ≠ p → x'.predicates.find? q = x.predicates.find? q

variable {p : UInt64} {x x' x'' : Index T}

theorem SameFile.refl (x : Index T) : SameFile x x := ⟨⟨rfl, rfl⟩, rfl, rfl, id⟩

theorem SameFile.trans (h : SameFile x x') (h' : SameFile x' x'') : SameFile x x'' :=
  ⟨⟨h'.is.1.trans h.is.1, h'.is.2.trans h.is.2⟩, h'.metadata.trans h.metadata,
    h'.hasUpdateLogger.trans h.hasUpdateLogger, h'.tidy ∘ h.tidy⟩

theorem Touches.refl (p : UInt64) (x : Index T) : Touches p x x := ⟨SameFile.refl x, fun _ _ => rfl⟩

theorem Touches.trans (h : Touches p x x') (h' : Touches p x' x'') : Touches p x x'' :=
  ⟨h.toSameFile.trans h'.toSameFile, fun q hq => (h'.other q hq).trans (h.other q hq)⟩

theorem Touches.held_other (h : Touches p x x') {q : UInt64} (hq : q ≠ p) : x'.held ops q = x.held ops q := by
  rw [held, held, h.other q hq]

theorem Touches.contains_other (h : Touches p x x') {q : UInt64} (hq : q ≠ p) :
    x'.predicates.contains q = x.predicates.contains q := by
  rw [OrdMap.contains, OrdMap.contains, h.other q hq]

theorem hasPredicateActive_eq (x : Index T) (p : UInt64) : x.hasPredicateActive p = x.predicates.contains p := by
  unfold hasPredicateActive
  cases h : x.newPredicates.contains p with
  | false => rw [Bool.or_false]
  | true => rw [x.newLoaded p h, Bool.or_true]

theorem held_of_find? {t : T} (h : x.predicates.find? p = some t) : x.held ops p = ops.points t := by
  rw [held, h]
  rfl

theorem held_of_none (h : x.predicates.find? p = none) : x.held ops p = ∅ := by
  rw [held, h]
  rfl

theorem touches_setTree (x : Index T) (p : UInt64) (t : T) : Touches p x (x.setTree p t) := by
  refine ⟨⟨⟨rfl, rfl⟩, rfl, rfl, fun h => ⟨fun q hq => ?_, h.newDirty⟩⟩, fun q hq => OrdMap.find?_insert_ne _ _ hq⟩
  have := h.dirtyLoaded q hq
  simp only [setTree, OrdMap.contains, OrdMap.find?_insert] at this ⊢
  split
  · rfl
  · exact this

theorem contains_insert_unit (m : IdSet) (p q : UInt64) :
    (m.insert p ()).contains q = (decide (q = p) || m.contains q) := by
  simp only [OrdMap.contains, OrdMap.find?_insert]
  by_cases h : q = p <;> simp [h]

/-- A predicate that is loaded can be marked. -/
theorem touches_markDirty {t : T} (h : x.predicates.find? p = some t) : Touches p x (x.markDirty p) := by
  refine ⟨⟨⟨rfl, rfl⟩, rfl, rfl, fun ht => ⟨fun q hq => ?_, fun q hq => ?_⟩⟩, fun q _ => rfl⟩
  · rw [markDirty, contains_insert_unit, Bool.or_eq_true, decide_eq_true_eq] at hq
    rcases hq with rfl | hq
    · simp [markDirty, OrdMap.contains, h]
    · exact ht.dirtyLoaded q hq
  · rw [markDirty, contains_insert_unit, ht.newDirty q hq, Bool.or_true]

theorem touches_addPredicate (ops : TreeOps T) (x : Index T) (p : UInt64) : Touches p x (x.addPredicate ops p) := by
  refine ⟨⟨⟨rfl, rfl⟩, rfl, rfl, fun h => ⟨fun q hq => ?_, fun q hq => ?_⟩⟩,
    fun q hq => OrdMap.find?_insert_ne _ _ hq⟩
  · simp only [addPredicate, contains_insert_unit, Bool.or_eq_true, decide_eq_true_eq] at hq
    simp only [addPredicate, setTree, OrdMap.contains, OrdMap.find?_insert]
    split
    · rfl
    · rename_i hqp
      exact h.dirtyLoaded q (hq.resolve_left hqp)
  · simp only [addPredicate, contains_insert_unit, Bool.or_eq_true, decide_eq_true_eq] at hq ⊢
    exact hq.imp_right (h.newDirty q)

theorem addPredicate_find? (ops : TreeOps T) (x : Index T) (p : UInt64) :
    (x.addPredicate ops p).predicates.find? p = some (ops.empty x.k2treeConfig) := OrdMap.find?_insert_self _ _ _

theorem touches_discard (x : Index T) (p : UInt64) : Touches p x (x.discardInMemoryPredicate p) := by
  refine ⟨⟨⟨rfl, rfl⟩, rfl, rfl, fun h => ⟨fun q hq => ?_, fun q hq => ?_⟩⟩,
    fun q hq => by simp [discardInMemoryPredicate, OrdMap.find?_erase, hq]⟩
  · simp only [discardInMemoryPredicate, OrdMap.contains, OrdMap.find?_erase] at hq ⊢
    split at hq
    · simp at hq
    · rename_i hqp
      rw [if_neg hqp]
      exact h.dirtyLoaded q hq
  · simp only [discardInMemoryPredicate, OrdMap.contains, OrdMap.find?_erase] at hq ⊢
    split at hq
    · simp at hq
    · rename_i hqp
      rw [if_neg hqp]
      exact h.newDirty q hq

/-! ## Merging -/

/-- A merge into a loaded tree. -/
theorem mergeOpTree_loaded (ops : TreeOps T) (op : T → T → T) (create : Bool) (toMerge : T) {t : T}
    (h : x.predicates.find? p = some t) :
    ∃ x', mergeOpTree ops op create p toMerge x = (.ok (), x') ∧ Touches p x x' ∧
      x'.predicates.find? p = some (op t toMerge) := by
  have hc : x.hasPredicateActive p = true := by rw [hasPredicateActive_eq, OrdMap.contains, h]; rfl
  have hs : (x.setTree p (op t toMerge)).predicates.find? p = some (op t toMerge) := OrdMap.find?_insert_self _ _ _
  refine ⟨(x.setTree p (op t toMerge)).markDirty p, ?_, (touches_setTree x p _).trans (touches_markDirty hs), hs⟩
  simp [mergeOpTree, hc, h]

variable (hl : ops.Lawful)
include hl

/-- **`merge_add_tree`** makes the tree if there is none. -/
theorem mergeAddTree_spec (x : Index T) (p : UInt64) (a : T) :
    ∃ x', mergeAddTree ops p a x = (.ok (), x') ∧ Touches p x x' ∧ x'.predicates.contains p = true ∧
      x'.held ops p = x.held ops p ∪ ops.points a := by
  cases hp : x.predicates.find? p with
  | some t =>
    obtain ⟨x', h1, h2, h3⟩ := mergeOpTree_loaded ops ops.insertAll true a hp
    refine ⟨x', h1, h2, by simp [OrdMap.contains, h3], ?_⟩
    rw [held_of_find? h3, held_of_find? hp, hl.points_insertAll]
  | none =>
    have hc : x.hasPredicateActive p = false := by rw [hasPredicateActive_eq, OrdMap.contains, hp]; rfl
    obtain ⟨x', h1, h2, h3⟩ := mergeOpTree_loaded ops ops.insertAll true a (addPredicate_find? ops x p)
    refine ⟨x', ?_, (touches_addPredicate ops x p).trans h2, by simp [OrdMap.contains, h3], ?_⟩
    · -- the call on `x` is the call on `x` with the predicate added
      have hc' : (x.addPredicate ops p).hasPredicateActive p = true := by
        rw [hasPredicateActive_eq, OrdMap.contains, addPredicate_find?]
        rfl
      rw [← h1]
      simp [mergeAddTree, mergeOpTree, hc, hc']
    · rw [held_of_find? h3, held_of_none hp, hl.points_insertAll, hl.points_empty]

/-- **`merge_delete_tree`** leaves a predicate alone that is not loaded. -/
theorem mergeDeleteTree_spec (x : Index T) (p : UInt64) (d : T) :
    ∃ x', mergeDeleteTree ops p d x = (.ok (), x') ∧ Touches p x x' ∧
      x'.predicates.contains p = x.predicates.contains p ∧ x'.held ops p = x.held ops p \ ops.points d := by
  cases hp : x.predicates.find? p with
  | some t =>
    obtain ⟨x', h1, h2, h3⟩ := mergeOpTree_loaded ops ops.removeAll false d hp
    refine ⟨x', h1, h2, by simp [OrdMap.contains, h3, hp], ?_⟩
    rw [held_of_find? h3, held_of_find? hp, hl.points_removeAll]
  | none =>
    have hc : x.hasPredicateActive p = false := by rw [hasPredicateActive_eq, OrdMap.contains, hp]; rfl
    refine ⟨x, by simp [mergeDeleteTree, mergeOpTree, hc], Touches.refl p x, rfl, ?_⟩
    rw [held_of_none hp, Set.empty_sdiff]

/-- The two merges of an update, one after the other. -/
def mergeRecord (ops : TreeOps T) (p : UInt64) (add del : Option T) : Act Exn (Index T) Unit := do
  Act.forSome add (mergeAddTree ops p)
  Act.forSome del (mergeDeleteTree ops p)

/-- **A record acts as its patch.** -/
theorem mergeRecord_spec (x : Index T) (u : PredicateUpdate T) :
    ∃ x', mergeRecord ops u.predicateId u.addUpdate u.delUpdate x = (.ok (), x') ∧ Touches u.predicateId x x' ∧
      (x.predicates.contains u.predicateId = true → x'.predicates.contains u.predicateId = true) ∧
      x'.held ops u.predicateId = (u.patch ops).apply (x.held ops u.predicateId) := by
  obtain ⟨p, a, d⟩ := u
  simp only
  -- the adds
  obtain ⟨x₁, h1, t1, c1, e1⟩ : ∃ x₁, Act.forSome a (mergeAddTree ops p) x = (.ok (), x₁) ∧ Touches p x x₁ ∧
      (x.predicates.contains p = true → x₁.predicates.contains p = true) ∧
      x₁.held ops p = x.held ops p ∪ ops.pointsOpt a := by
    cases a with
    | none => exact ⟨x, rfl, Touches.refl p x, id, by simp [TreeOps.pointsOpt]⟩
    | some a =>
      obtain ⟨x₁, h1, t1, c1, e1⟩ := mergeAddTree_spec hl x p a
      exact ⟨x₁, h1, t1, fun _ => c1, e1⟩
  -- the deletes
  obtain ⟨x₂, h2, t2, c2, e2⟩ : ∃ x₂, Act.forSome d (mergeDeleteTree ops p) x₁ = (.ok (), x₂) ∧ Touches p x₁ x₂ ∧
      (x₁.predicates.contains p = true → x₂.predicates.contains p = true) ∧
      x₂.held ops p = x₁.held ops p \ ops.pointsOpt d := by
    cases d with
    | none => exact ⟨x₁, rfl, Touches.refl p x₁, id, by simp [TreeOps.pointsOpt]⟩
    | some d =>
      obtain ⟨x₂, h2, t2, c2, e2⟩ := mergeDeleteTree_spec hl x₁ p d
      exact ⟨x₂, h2, t2, fun h => c2.trans h, e2⟩
  refine ⟨x₂, ?_, t1.trans t2, c2 ∘ c1, ?_⟩
  · rw [mergeRecord, Act.bind_ok h1]
    exact h2
  · rw [e2, e1]
    rfl

omit hl in
theorem patch_apply_of_noUpdate {u : K2TreeUpdates T} (hk : u.getKind = .noUpdate) (S : Set Point) :
    (u.patch ops).apply S = S := by
  obtain ⟨p, a, d⟩ := u
  cases a <;> cases d <;> simp [K2TreeUpdates.getKind] at hk
  simp [K2TreeUpdates.patch, K2TreeUpdates.toPredicateUpdate, PredicateUpdate.patch, TreeOps.pointsOpt, Patch.apply]

/-- One update of a batch. -/
theorem mergeOneUpdate_spec (x : Index T) (u : K2TreeUpdates T) :
    ∃ x', mergeOneUpdate ops u x = (.ok (), x') ∧ Touches u.predicateId x x' ∧
      x'.predicates.contains u.predicateId = x.predicates.contains u.predicateId ∧
      (x.predicates.contains u.predicateId = true →
        x'.held ops u.predicateId = (u.patch ops).apply (x.held ops u.predicateId)) := by
  cases hc : x.predicates.contains u.predicateId with
  | false =>
    refine ⟨x, ?_, Touches.refl _ x, hc, by simp⟩
    simp [mergeOneUpdate, hasPredicateActive_eq, hc]
  | true =>
    obtain ⟨x', h1, h2, h3, h4⟩ := mergeRecord_spec hl x u.toPredicateUpdate
    refine ⟨x', ?_, h2, h3 hc, fun _ => h4⟩
    rw [← h1]
    simp only [mergeOneUpdate, Act.get_bind, hasPredicateActive_eq, hc, if_true]
    rfl

/-- The updates of a batch that concern a predicate. -/
abbrev updatesOf (us : List (K2TreeUpdates T)) (p : UInt64) : List (K2TreeUpdates T) :=
  us.filter (fun u => u.getKind ≠ .noUpdate ∧ u.predicateId = p)

/-- **A batch acts as its patches** on a predicate that is loaded, and loads none. -/
theorem mergeUpdate_spec (x : Index T) (us : List (K2TreeUpdates T)) :
    ∃ x', mergeUpdate ops us x = (.ok (), x') ∧ SameFile x x' ∧ ∀ p,
      x'.predicates.contains p = x.predicates.contains p ∧
      (x.predicates.contains p = true → x'.held ops p =
        Patch.applyAll ((updatesOf us p).map (K2TreeUpdates.patch ops)) (x.held ops p)) := by
  -- the invariant of the loop speaks of the updates done so far
  refine Act.forEach_ok (fun pre x₁ => SameFile x x₁ ∧ ∀ p,
      x₁.predicates.contains p = x.predicates.contains p ∧
      (x.predicates.contains p = true → x₁.held ops p =
        Patch.applyAll ((updatesOf pre p).map (K2TreeUpdates.patch ops)) (x.held ops p))) us ?_
    ⟨SameFile.refl x, fun p => ⟨rfl, fun _ => rfl⟩⟩
  rintro pre u post x₁ - ⟨hs, hp⟩
  obtain ⟨x₂, h1, h2, h3, h4⟩ := mergeOneUpdate_spec hl x₁ u
  refine ⟨x₂, h1, hs.trans h2.toSameFile, fun p => ?_⟩
  by_cases hup : p = u.predicateId
  · subst hup
    refine ⟨h3.trans (hp _).1, fun hc => ?_⟩
    rw [h4 ((hp _).1.trans hc), (hp _).2 hc]
    by_cases hk : u.getKind = .noUpdate
    · rw [patch_apply_of_noUpdate hk]
      simp [updatesOf, List.filter_append, hk]
    · simp [updatesOf, List.filter_append, hk, Patch.applyAll_append]
  · refine ⟨(h2.contains_other hup).trans (hp p).1, fun hc => ?_⟩
    rw [h2.held_other hup, (hp p).2 hc]
    simp [updatesOf, List.filter_append, Ne.symm hup]

/-! ## Loading -/

omit hl in
/-- The tree a metadata entry of the file points to. -/
structure HoldsTree (ops : TreeOps T) (data : Bytes) (md : PredicateMetadata) (t : T) : Prop where
  ahead : ops.writeToOstream t <+: data.drop md.treeOffset
  size : md.treeSize = (ops.writeToOstream t).length
  memory : ops.measure t ≤ md.treeSizeInMemory

/-- An entry points to one tree. -/
theorem HoldsTree.unique {data : Bytes} {md : PredicateMetadata} {t t' : T} (h : HoldsTree ops data md t)
    (h' : HoldsTree ops data md t') : t = t' := by
  have h1 := hl.read_write t _ (IStream.ahead_seekg (s := .ofBytes data) rfl h.ahead)
  have h2 := hl.read_write t' _ (IStream.ahead_seekg (s := .ofBytes data) rfl h'.ahead)
  exact Except.ok.inj (congrArg Prod.fst (h1.symm.trans h2))

/-- **The tree of the index file** takes the place of the one in memory. -/
theorem loadFromMainIndex_spec {md : PredicateMetadata} {t : T} (hmd : x.metadata.metadataMap.find? p = some md)
    (hid : md.predicateId = p) (hf : x.is.fail = false) (ht : HoldsTree ops x.is.data md t) :
    ∃ x', loadFromMainIndex ops p x = (.ok (), x') ∧ Touches p x x' ∧ x'.predicates.find? p = some t := by
  have hread := hl.read_segment t md.treeSizeInMemory ht.memory _ (IStream.ahead_seekg hf ht.ahead)
  simp only [loadFromMainIndex, hmd, hread, hid]
  have htouch := touches_setTree x p t
  refine ⟨_, rfl, ⟨⟨⟨?_, ?_⟩, rfl, rfl, fun h => ⟨(htouch.tidy h).dirtyLoaded, (htouch.tidy h).newDirty⟩⟩,
    htouch.other⟩, OrdMap.find?_insert_self _ _ _⟩
  · simp [IStream.seekg, hf]
  · simp [IStream.seekg, hf]

end Index

end K2Cache
