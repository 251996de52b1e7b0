import K2Cache.Proof.SoundIndex
import K2Cache.Proof.Refine

/-!
# An index without a logger

Such an index is sound in every state it reaches, and a fetch returns what it serves.

* `indexStep`: every call returns and keeps the index sound.
* `syncToPersistent_serves`: a sync returns; the index serves the same afterwards, and so
  does one opened on the new file.
* `sync_writes_served`: this after every run.
-/

namespace K2Cache

open Lib

variable {T : Type} {P : CacheParams T} {ops : TreeOps T} {s : Manager T}

namespace Index

/-- **The invariant of an index without a logger.** -/
structure Plain (ops : TreeOps T) (x : Index T) : Prop where
  sound : x.Sound ops
  noLogger : x.hasUpdateLogger = false

/-- A mark before a load is a mark after it. -/
theorem loadFromMainIndex_markDirty (ops : TreeOps T) (p : UInt64) (x : Index T) :
    loadFromMainIndex ops p (x.markDirty p) =
      ((loadFromMainIndex ops p x).1, (loadFromMainIndex ops p x).2.markDirty p) := by
  have hmeta : (x.markDirty p).metadata = x.metadata := rfl
  have his : (x.markDirty p).is = x.is := rfl
  cases hmd : x.metadata.metadataMap.find? p with
  | none => simp only [loadFromMainIndex, hmeta, hmd]
  | some md =>
    rcases hr : ops.readIntoSegment md.treeSizeInMemory (x.is.seekg md.treeOffset) with ⟨r, s⟩
    cases r <;> simp only [loadFromMainIndex, hmeta, his, hmd, hr] <;> rfl

end Index

namespace Manager

/-! ## Calls -/

variable (hl : P.ops.Lawful)
include hl

/-- The tree of the file comes into memory. -/
theorem loadSinglePredicate_stored (h : s.index.Plain P.ops) {p : UInt64} {t : T}
    (ht : s.index.FileServes P.ops p (some t)) :
    ∃ x', loadSinglePredicate P p s = (.ok true, s.setIndex x') ∧ Index.loadFromMainIndex P.ops p s.index = (.ok (), x') ∧
      x'.predicates.find? p = some t ∧ x'.Plain P.ops ∧ Index.Touches p s.index x' := by
  obtain ⟨md, hmd, htree⟩ := ht
  obtain ⟨x', h1, h2, h3, h4⟩ := loadSinglePredicate_plain hl h.noLogger h.sound.good hmd (h.sound.main p md hmd).1 htree
  have hkeep := (Index.SoundBut.stable hl).load p s.index h.sound
  rw [h2] at hkeep
  exact ⟨x', h1, h2, h4, ⟨hkeep, h3.hasUpdateLogger.trans h.noLogger⟩, h3⟩

/-- **`fetch_k2tree` returns what is served.** -/
theorem fetchK2tree_plain (h : s.index.Plain P.ops) (p : UInt64) :
    ∃ o s', fetchK2tree P p s = (.ok ⟨o.isSome, o⟩, s') ∧ s.index.Serves P.ops p o ∧ s'.index.Plain P.ops ∧
      Index.Touches p s.index s'.index ∧ s'.index.predicates.find? p = o := by
  have hlog : ∀ x' : Index T, x'.hasUpdateLogger = false → (s.setIndex x').isStoredInUpdatesLog p = false := by
    intro x' hx'
    simp [isStoredInUpdatesLog, hx']
  have hact : ∀ x' : Index T, x'.hasUpdateLogger = false → activateFromLog P p (s.setIndex x') = (.ok (), s.setIndex x') := by
    intro x' hx'
    simp [activateFromLog, hlog x' hx']
  cases hp : s.index.predicates.find? p with
  | some t =>
    have hc : s.index.predicates.contains p = true := (OrdMap.contains_iff _).2 ⟨t, hp⟩
    refine ⟨some t, s, ?_, .inl ⟨t, hp, rfl⟩, h, .refl p _, hp⟩
    have hs : s.setIndex s.index = s := rfl
    have hact' := hact s.index h.noLogger
    rw [hs] at hact'
    rw [fetchK2tree, Act.get_bind, hc, if_pos rfl, Act.pure_bind_run, if_pos rfl, Act.bind_ok hact', Act.get_bind, hp]
    rfl
  | none =>
    have hc : s.index.predicates.contains p = false := (OrdMap.contains_eq_false _).2 hp
    cases hmd : s.index.metadata.metadataMap.find? p with
    | some md =>
      obtain ⟨-, -, t, ht⟩ := h.sound.main p md hmd
      obtain ⟨x', h1, -, h2, h3, h4⟩ := loadSinglePredicate_stored hl h ⟨md, hmd, ht⟩
      refine ⟨some t, s.setIndex x', ?_, .inr ⟨hp, md, hmd, ht⟩, h3, h4, h2⟩
      have hif : (if s.index.predicates.contains p then pure true else loadSinglePredicate P p : Act Exn (Manager T) Bool) s =
          (.ok true, s.setIndex x') := by
        rw [hc]
        exact h1
      rw [fetchK2tree, Act.get_bind, Act.bind_ok hif, if_pos rfl, Act.bind_ok (hact x' h3.noLogger), Act.get_bind,
        setIndex_index, h2]
      rfl
    | none =>
      have hst : s.hasPredicateStored p = false := by
        rw [hasPredicateStored, Index.isStoredInMainIndex, (OrdMap.contains_eq_false _).2 hmd]
        exact hlog s.index h.noLogger
      refine ⟨none, s, ?_, .inr ⟨hp, hmd⟩, h, .refl p _, hp⟩
      have hif : (if s.index.predicates.contains p then pure true else loadSinglePredicate P p : Act Exn (Manager T) Bool) s =
          (.ok false, s) := by
        rw [hc]
        simp [loadSinglePredicate, hst]
      rw [fetchK2tree, Act.get_bind, Act.bind_ok hif]
      rfl

/-- **`insert_point` returns.** -/
theorem insertPoint_plain (h : s.index.Plain P.ops) (subject p object : UInt64) :
    ∃ s', insertPoint P subject p object s = (.ok (), s') ∧ s'.index.Plain P.ops := by
  -- the predicate is in memory before the mark, or becomes so after it
  obtain ⟨x', t, hact, ht, hx'⟩ : ∃ (x' : Index T) (t : T), activate P p (s.setIndex (s.index.markDirty p)) = (.ok (), s.setIndex (x'.markDirty p)) ∧
      x'.predicates.find? p = some t ∧ x'.Plain P.ops := by
    have hstored : (s.setIndex (s.index.markDirty p)).hasPredicateStored p = s.index.isStoredInMainIndex p := by
      have : (s.setIndex (s.index.markDirty p)).isStoredInUpdatesLog p = false := by
        simp [isStoredInUpdatesLog, Index.markDirty, h.noLogger]
      rw [hasPredicateStored, this, Bool.or_false]
      rfl
    have hactive : (s.setIndex (s.index.markDirty p)).index.hasPredicateActive p = s.index.predicates.contains p :=
      Index.hasPredicateActive_eq s.index p
    cases hp : s.index.predicates.find? p with
    | some t =>
      have hc : s.index.predicates.contains p = true := (OrdMap.contains_iff _).2 ⟨t, hp⟩
      refine ⟨s.index, t, ?_, hp, h⟩
      simp only [activate, Act.get_bind, hactive, hc, Bool.not_true, Bool.and_false, Bool.false_eq_true, if_false]
      rfl
    | none =>
      have hc : s.index.predicates.contains p = false := (OrdMap.contains_eq_false _).2 hp
      cases hmd : s.index.metadata.metadataMap.find? p with
      | some md =>
        have hm : s.index.isStoredInMainIndex p = true := (OrdMap.contains_iff _).2 ⟨md, hmd⟩
        obtain ⟨hid, -, t, ht⟩ := h.sound.main p md hmd
        obtain ⟨x', -, h1, h2, h3, -⟩ := loadSinglePredicate_stored hl h ⟨md, hmd, ht⟩
        refine ⟨x', t, ?_, h2, h3⟩
        have hload := Index.loadFromMainIndex_markDirty P.ops p s.index
        rw [h1] at hload
        have hsingle : loadSinglePredicate P p (s.setIndex (s.index.markDirty p)) = (.ok true, s.setIndex (x'.markDirty p)) := by
          obtain ⟨x₁, h4, h5, -⟩ := loadSinglePredicate_plain (s := s.setIndex (s.index.markDirty p)) hl h.noLogger
            h.sound.good hmd hid ht
          rw [setIndex_index, hload] at h5
          obtain rfl : x'.markDirty p = x₁ := congrArg Prod.snd h5
          exact h4
        simp only [activate, Act.get_bind, hactive, hstored, hc, hm, Bool.not_false, Bool.and_true, if_true, retrieveKey]
        rw [Act.bind_ok hsingle]
        rfl
      | none =>
        have hm : s.index.isStoredInMainIndex p = false := (OrdMap.contains_eq_false _).2 hmd
        refine ⟨s.index.addPredicate P.ops p, _, ?_, Index.addPredicate_find? P.ops s.index p,
          h.sound.addPredicate p, h.noLogger⟩
        simp only [activate, Act.get_bind, hactive, hstored, hc, hm, Bool.not_false, Bool.and_true, Bool.false_eq_true, if_false,
          if_true]
        rfl
  refine ⟨s.setIndex ((x'.markDirty p).setTree p (P.ops.insert t (subject, object))), ?_,
    hx'.sound.change ((OrdMap.contains_iff _).2 ⟨t, ht⟩), hx'.noLogger⟩
  have hmark : onIndex (Act.modify (fun x : Index T => x.markDirty p)) s = (.ok (), s.setIndex (s.index.markDirty p)) := rfl
  have ht' : (s.setIndex (x'.markDirty p)).index.predicates.find? p = some t := ht
  rw [insertPoint, Act.bind_ok hmark, Act.bind_ok hact, Act.get_bind, ht']
  rfl

/-- **`sync_to_persistent` returns**, and neither the index nor one that is opened on the
new file serves anything else. -/
theorem syncToPersistent_serves (hsized : ∀ t, P.ops.measure t < 2 ^ 64) (h : s.index.Plain P.ops) :
    ∃ s', syncToPersistent P s = (.ok (), s') ∧ s'.index.Plain P.ops ∧
      ∀ p o, s.index.Serves P.ops p o → s'.index.Serves P.ops p o ∧
        ((s'.disk.bytes (FileRWHandler.file .index)).length < 2 ^ 64 →
          (openIndex s'.disk : Manager T).index.Plain P.ops ∧ (openIndex s'.disk : Manager T).index.Serves P.ops p o) := by
  obtain ⟨s', h1, h2⟩ := syncToPersistent_sound hl hsized h.sound
  refine ⟨s', h1, ⟨h2.sound, h2.hasUpdateLogger.trans h.noLogger⟩, fun p o ho => ⟨h2.same ho, fun hlen => ?_⟩⟩
  obtain ⟨h3, h4⟩ := h2.file.opened hlen
  exact ⟨⟨h3, rfl⟩, h4 p o (h2.serves p o ho)⟩

end Manager

/-! ## Runs -/

/-- The machine of the calls on an index; a call that throws ends the run. -/
def indexMachine (P : CacheParams T) : Machine (Manager T) IndexOp where
  step s op :=
    match op.call P s with
    | (.ok _, s') => some s'
    | (.error _, _) => none

/-- **One step**: every call returns and keeps the invariant. -/
theorem indexStep (hl : P.ops.Lawful) (hsized : ∀ t, P.ops.measure t < 2 ^ 64) (op : IndexOp) (h : s.index.Plain P.ops) :
    ∃ s', (indexMachine P).step s op = some s' ∧ s'.index.Plain P.ops := by
  have key : ∀ s', op.call P s = (.ok (), s') → (indexMachine P).step s op = some s' := by
    intro s' hs
    simp [indexMachine, hs]
  cases op with
  | addPredicate p => exact ⟨_, key _ rfl, h.sound.addPredicate p, h.noLogger⟩
  | insertPoint subject p object =>
    obtain ⟨s', h1, h2⟩ := Manager.insertPoint_plain hl h subject p object
    exact ⟨s', key s' h1, h2⟩
  | fetchK2tree p =>
    obtain ⟨o, s', h1, -, h2, -⟩ := Manager.fetchK2tree_plain hl h p
    exact ⟨s', key s' (Act.bind_ok h1), h2⟩
  | discardInMemoryPredicate p => exact ⟨_, key _ rfl, h.sound.discard p, h.noLogger⟩
  | syncToPersistent =>
    obtain ⟨s', h1, h2, -⟩ := Manager.syncToPersistent_serves hl hsized h
    exact ⟨s', key s' h1, h2⟩

/-- An index opened on a well-formed file. -/
theorem openIndex_plain {d : Disk} (hd : ValidIndex ops d) : (Manager.openIndex d : Manager T).index.Plain ops := by
  refine ⟨⟨hd.header, fun p hp => hp, fun p _ hp => hp, fun p md hmd => ?_, ?_, ?_⟩, rfl⟩
  · have hmd' : (initialMetadata d).1.metadataMap.find? p = some md := hmd
    obtain ⟨hid, hmem⟩ := initialMetadata_entry hmd'
    obtain ⟨t, ht⟩ := hd.trees p md hmd'
    refine ⟨hid, hmem, t, ?_⟩
    have hdata : (Manager.openIndex d : Manager T).index.is.data = d.bytes (FileRWHandler.file .index) := initialMetadata_data d
    rw [hdata]
    exact ht
  · intro p t hp
    cases hp
  · intro p hp
    cases hp

/-- **A sync writes what is served.** After every run of calls on an index without a logger
`sync_to_persistent` returns, and an index opened on its file answers every fetch as the
live one does, before and after the sync. -/
theorem sync_writes_served (hl : P.ops.Lawful) (hsized : ∀ t, P.ops.measure t < 2 ^ 64) {d : Disk} (hd : ValidIndex P.ops d)
    (calls : List IndexOp) :
    ∃ s s', (indexMachine P).run calls (Manager.openIndex d) = some s ∧ Manager.syncToPersistent P s = (.ok (), s') ∧
      ((s'.disk.bytes (FileRWHandler.file .index)).length < 2 ^ 64 →
        ∀ p, ∃ before after fresh s₁ s₂ s₃, Manager.fetchK2tree P p s = (.ok before, s₁) ∧
          Manager.fetchK2tree P p s' = (.ok after, s₂) ∧
          Manager.fetchK2tree P p (Manager.openIndex s'.disk) = (.ok fresh, s₃) ∧
          fresh.doesExist = after.doesExist ∧ fresh.doesExist = before.doesExist ∧
          fresh.result.map P.ops.points = after.result.map P.ops.points ∧
          fresh.result.map P.ops.points = before.result.map P.ops.points) := by
  obtain ⟨s, hrun, hs⟩ := Machine.runs (fun s op hs => indexStep hl hsized op hs) calls (openIndex_plain hd)
  obtain ⟨s', hsync, hs', hserves⟩ := Manager.syncToPersistent_serves hl hsized hs
  refine ⟨s, s', hrun, hsync, fun hlen p => ?_⟩
  obtain ⟨o, s₁, h1, h2, -⟩ := Manager.fetchK2tree_plain hl hs p
  obtain ⟨h3, h4⟩ := hserves p o h2
  obtain ⟨h5, h6⟩ := h4 hlen
  obtain ⟨o', s₂, h7, h8, -⟩ := Manager.fetchK2tree_plain hl hs' p
  obtain ⟨o'', s₃, h9, h10, -⟩ := Manager.fetchK2tree_plain hl h5 p
  obtain rfl := Index.Serves.unique hl h3 h8
  obtain rfl := Index.Serves.unique hl h6 h10
  exact ⟨_, _, _, s₁, s₂, s₃, h1, h7, h9, rfl, rfl, rfl, rfl⟩

namespace PointTree

theorem builtDisk_valid : ValidIndex byteOps builtDisk := by
  refine ⟨by decide +kernel, fun p md h => ?_⟩
  have hentries : (initialMetadata builtDisk).1.metadataMap.entries = [(5, entry)] := by decide +kernel
  rw [OrdMap.find?_eq_some, hentries, List.mem_singleton, Prod.mk.injEq] at h
  obtain ⟨-, rfl⟩ := h
  exact ⟨ofList [(1, 1)], by decide +kernel, by decide +kernel, by decide +kernel⟩

end PointTree

open PointTree in
/-- A predicate that is new, written, changed and written again, one that is changed and
one that is discarded with its changes. -/
theorem sync_writes_served_twice : ∃ s s', (indexMachine (byteParams .binary)).run
      [.insertPoint 1 3 1, .syncToPersistent, .insertPoint 2 3 2, .insertPoint 4 5 4, .addPredicate 9,
        .discardInMemoryPredicate 9] (Manager.openIndex builtDisk) = some s ∧
    Manager.syncToPersistent (byteParams .binary) s = (.ok (), s') ∧
    ∀ p, ∃ after fresh s₂ s₃, Manager.fetchK2tree (byteParams .binary) p s' = (.ok after, s₂) ∧
      Manager.fetchK2tree (byteParams .binary) p (Manager.openIndex s'.disk) = (.ok fresh, s₃) ∧
      fresh.doesExist = after.doesExist ∧ fresh.result.map byteOps.points = after.result.map byteOps.points := by
  obtain ⟨s, s', hrun, hsync, hall⟩ := sync_writes_served (P := byteParams .binary) byteOps_lawful
    (fun _ => Nat.one_lt_two_pow (by decide)) builtDisk_valid
    [.insertPoint 1 3 1, .syncToPersistent, .insertPoint 2 3 2, .insertPoint 4 5 4, .addPredicate 9, .discardInMemoryPredicate 9]
  refine ⟨s, s', hrun, hsync, fun p => ?_⟩
  have hsmall : (((indexMachine (byteParams .binary)).run [.insertPoint 1 3 1, .syncToPersistent, .insertPoint 2 3 2,
      .insertPoint 4 5 4, .addPredicate 9, .discardInMemoryPredicate 9] (Manager.openIndex builtDisk)).all fun s =>
        decide (((Manager.syncToPersistent (byteParams .binary) s).2.disk.bytes (FileRWHandler.file .index)).length < 2 ^ 64)) =
      true := by decide +kernel
  rw [hrun] at hsmall
  simp only [Option.all_some, hsync, decide_eq_true_eq] at hsmall
  obtain ⟨_, after, fresh, _, s₂, s₃, -, h2, h3, h4, -, h5, -⟩ := hall hsmall p
  exact ⟨after, fresh, s₂, s₃, h2, h3, h4, h5⟩

end K2Cache
