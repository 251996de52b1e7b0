import K2Cache.Proof.BulkLoad

/-!
# Sound indexes

What an index serves of a predicate is the tree in memory, and else that of its file
(`Index.Serves`). The index is sound (`Index.Sound`) if changed trees are in memory, trees
in memory that have not changed are those of the file, and every predicate in memory is
new or stored, so that a sync misses none. Nothing is said here of a logger: what it does
to the index are steps that keep the index sound (`SoundBut.stable`).

* `syncToPersistent_sound`: a sync of a sound index returns, and its file has what the
  index serves.
* `HasIndexFile.opened`: an index opened on the file has it too.
-/

namespace K2Cache

open Lib

variable {T : Type} {P : CacheParams T} {ops : TreeOps T} {s : Manager T}

namespace Index

/-- What the file has of a predicate. -/
def FileServes (ops : TreeOps T) (x : Index T) (p : UInt64) : Option T → Prop
  | some t => ∃ md, x.metadata.metadataMap.find? p = some md ∧ HoldsTree ops x.is.data md t
  | none => x.metadata.metadataMap.find? p = none

/-- What the index serves of a predicate: the tree in memory, else that of the file. -/
def Serves (ops : TreeOps T) (x : Index T) (p : UInt64) (o : Option T) : Prop :=
  (∃ t, x.predicates.find? p = some t ∧ o = some t) ∨ (x.predicates.find? p = none ∧ x.FileServes ops p o)

variable {x x' : Index T} {p : UInt64}

theorem FileServes.unique (hl : ops.Lawful) {o o' : Option T} (h : x.FileServes ops p o) (h' : x.FileServes ops p o') :
    o = o' := by
  cases o with
  | none =>
    cases o' with
    | none => rfl
    | some t' =>
      obtain ⟨md, hmd, -⟩ := h'
      rw [show x.metadata.metadataMap.find? p = none from h] at hmd
      cases hmd
  | some t =>
    obtain ⟨md, hmd, ht⟩ := h
    cases o' with
    | none =>
      rw [show x.metadata.metadataMap.find? p = none from h'] at hmd
      cases hmd
    | some t' =>
      obtain ⟨md', hmd', ht'⟩ := h'
      obtain rfl : md = md' := Option.some.inj (hmd.symm.trans hmd')
      rw [HoldsTree.unique hl ht ht']

theorem Serves.unique (hl : ops.Lawful) {o o' : Option T} (h : x.Serves ops p o) (h' : x.Serves ops p o') : o = o' := by
  rcases h with ⟨t, ht, rfl⟩ | ⟨hn, h⟩
  · rcases h' with ⟨t', ht', rfl⟩ | ⟨hn', -⟩
    · exact ht.symm.trans ht'
    · rw [ht] at hn'
      cases hn'
  · rcases h' with ⟨t', ht', rfl⟩ | ⟨-, h'⟩
    · rw [hn] at ht'
      cases ht'
    · exact h.unique hl h'

/-- **A sound index**, but for predicates in `E` that may be marked without being loaded. -/
structure SoundBut (ops : TreeOps T) (E : UInt64 → Prop) (x : Index T) : Prop where
  good : x.is.fail = false
  newDirty : ∀ p, x.newPredicates.contains p = true → x.dirtyPredicates.contains p = true
  dirtyLoaded : ∀ p, ¬ E p → x.dirtyPredicates.contains p = true → x.predicates.contains p = true
  main : ∀ p md, x.metadata.metadataMap.find? p = some md →
    md.predicateId = p ∧ md.treeSizeInMemory < 2 ^ 64 ∧ ∃ t, HoldsTree ops x.is.data md t
  clean : ∀ p t, x.predicates.find? p = some t → x.dirtyPredicates.contains p = false → x.FileServes ops p (some t)
  known : ∀ p, x.predicates.contains p = true → x.newPredicates.contains p = true ∨ x.isStoredInMainIndex p = true

/-- **A sound index.** -/
abbrev Sound (ops : TreeOps T) (x : Index T) : Prop := SoundBut ops (fun _ => False) x

theorem SoundBut.tidy (h : Sound ops x) : x.Tidy := ⟨fun p => h.dirtyLoaded p id, h.newDirty⟩

theorem contains_insert_other (m : IdSet) {p q : UInt64} (h : q ≠ p) : (m.insert p ()).contains q = m.contains q := by
  rw [contains_insert_unit, decide_eq_false h, Bool.false_or]

theorem contains_insert_self (m : IdSet) (p : UInt64) : (m.insert p ()).contains p = true := by
  rw [contains_insert_unit, decide_eq_true rfl, Bool.true_or]

theorem contains_erase_other (m : IdSet) {p q : UInt64} (h : q ≠ p) : (m.erase p).contains q = m.contains q := by
  simp [OrdMap.contains, OrdMap.find?_erase, h]

variable {E : UInt64 → Prop}

/-- A step on the tree of one predicate. -/
theorem SoundBut.touch (h : SoundBut ops E x) (ht : Touches p x x')
    (hdirty : ∀ q, q ≠ p → x'.dirtyPredicates.contains q = x.dirtyPredicates.contains q)
    (hnew : ∀ q, q ≠ p → x'.newPredicates.contains q = x.newPredicates.contains q)
    (hmarked : x'.newPredicates.contains p = true → x'.dirtyPredicates.contains p = true)
    (hloaded : ¬ E p → x'.dirtyPredicates.contains p = true → x'.predicates.contains p = true)
    (hclean : ∀ t, x'.predicates.find? p = some t → x'.dirtyPredicates.contains p = false → x.FileServes ops p (some t))
    (hknown : x'.predicates.contains p = true → x'.newPredicates.contains p = true ∨ x.isStoredInMainIndex p = true) :
    SoundBut ops E x' := by
  refine ⟨ht.is.2.trans h.good, fun q hq => ?_, fun q he hq => ?_, fun q md hq => ?_, fun q t hq hd => ?_, fun q hq => ?_⟩
  · by_cases hqp : q = p
    · subst hqp
      exact hmarked hq
    · rw [hnew q hqp] at hq
      rw [hdirty q hqp]
      exact h.newDirty q hq
  · by_cases hqp : q = p
    · subst hqp
      exact hloaded he hq
    · rw [hdirty q hqp] at hq
      rw [ht.contains_other hqp]
      exact h.dirtyLoaded q he hq
  · rw [ht.is.1]
    exact h.main q md (ht.metadata ▸ hq)
  · show ∃ md, _
    rw [ht.metadata, ht.is.1]
    by_cases hqp : q = p
    · subst hqp
      exact hclean t hq hd
    · rw [ht.other q hqp] at hq
      rw [hdirty q hqp] at hd
      exact h.clean q t hq hd
  · rw [isStoredInMainIndex, ht.metadata]
    by_cases hqp : q = p
    · subst hqp
      exact hknown hq
    · rw [ht.contains_other hqp] at hq
      rw [hnew q hqp]
      exact h.known q hq

theorem SoundBut.addPredicate (h : SoundBut ops E x) (p : UInt64) : SoundBut ops E (x.addPredicate ops p) := by
  have hmark : (x.addPredicate ops p).dirtyPredicates.contains p = true := contains_insert_self _ p
  refine h.touch (touches_addPredicate ops x p) (fun q hq => contains_insert_other _ hq) (fun q hq => contains_insert_other _ hq)
    (fun _ => hmark) (fun _ _ => ?_) (fun t _ hd => ?_) fun _ => .inl (contains_insert_self _ p)
  · rw [OrdMap.contains, addPredicate_find?]
    rfl
  · rw [hmark] at hd
    cases hd

/-- A changed tree takes the place of one in memory. -/
theorem SoundBut.change (h : SoundBut ops E x) {t : T} (hp : x.predicates.contains p = true) :
    SoundBut ops E ((x.setTree p t).markDirty p) := by
  have hmark : ((x.setTree p t).markDirty p).dirtyPredicates.contains p = true := contains_insert_self _ p
  have hset : (x.setTree p t).predicates.find? p = some t := OrdMap.find?_insert_self _ _ _
  refine h.touch ((touches_setTree x p t).trans (touches_markDirty hset)) (fun q hq => contains_insert_other _ hq)
    (fun _ _ => rfl) (fun _ => hmark) (fun _ _ => ?_) (fun t' _ hd => ?_) fun _ => h.known p hp
  · exact (OrdMap.contains_iff _).2 ⟨t, hset⟩
  · rw [hmark] at hd
    cases hd

theorem SoundBut.discard (h : SoundBut ops E x) (p : UInt64) : SoundBut ops E (x.discardInMemoryPredicate p) := by
  have hgone : (x.discardInMemoryPredicate p).predicates.find? p = none := by
    simp [discardInMemoryPredicate, OrdMap.find?_erase]
  have hmark : (x.discardInMemoryPredicate p).dirtyPredicates.contains p = false := by
    simp [discardInMemoryPredicate, OrdMap.contains, OrdMap.find?_erase]
  have hnew : (x.discardInMemoryPredicate p).newPredicates.contains p = false := by
    simp [discardInMemoryPredicate, OrdMap.contains, OrdMap.find?_erase]
  refine h.touch (touches_discard x p) (fun q hq => contains_erase_other _ hq) (fun q hq => contains_erase_other _ hq)
    (fun hn => ?_) (fun _ hd => ?_) (fun t ht _ => ?_) fun hc => ?_
  · rw [hnew] at hn
    cases hn
  · rw [hmark] at hd
    cases hd
  · rw [hgone] at ht
    cases ht
  · rw [OrdMap.contains, hgone] at hc
    cases hc

/-- A mark before there is a tree. -/
theorem SoundBut.mark (h : Sound ops x) (p : UInt64) : SoundBut ops (fun q => q = p) (x.markDirty p) := by
  have hself : (x.markDirty p).dirtyPredicates.contains p = true := contains_insert_self _ p
  have hother : ∀ q, q ≠ p → (x.markDirty p).dirtyPredicates.contains q = x.dirtyPredicates.contains q :=
    fun q hq => contains_insert_other _ hq
  refine ⟨h.good, fun q hq => ?_, fun q hq hd => ?_, h.main, fun q t hq hd => ?_, h.known⟩
  · by_cases hqp : q = p
    · rw [hqp]
      exact hself
    · rw [hother q hqp]
      exact h.newDirty q hq
  · rw [hother q hq] at hd
    exact h.dirtyLoaded q id hd
  · have hqp : q ≠ p := by
      rintro rfl
      rw [hself] at hd
      cases hd
    rw [hother q hqp] at hd
    exact h.clean q t hq hd

/-- The tree that a mark has been waiting for is changed. -/
theorem SoundBut.setMarked (h : SoundBut ops (fun q => q = p) x) (hd : x.dirtyPredicates.contains p = true) {t t' : T}
    (ht : x.predicates.find? p = some t) : Sound ops (x.setTree p t') := by
  have hset : (x.setTree p t').predicates.find? p = some t' := OrdMap.find?_insert_self _ _ _
  have hc : (x.setTree p t').predicates.contains p = true := (OrdMap.contains_iff _).2 ⟨t', hset⟩
  have hbut : SoundBut ops (fun q => q = p) (x.setTree p t') := by
    refine h.touch (touches_setTree x p t') (fun _ _ => rfl) (fun _ _ => rfl) (fun _ => hd) (fun _ _ => hc) (fun _ _ hd' => ?_)
      fun _ => h.known p ((OrdMap.contains_iff _).2 ⟨t, ht⟩)
    rw [show (x.setTree p t').dirtyPredicates = x.dirtyPredicates from rfl, hd] at hd'
    cases hd'
  refine ⟨hbut.good, hbut.newDirty, fun q _ hq => ?_, hbut.main, hbut.clean, hbut.known⟩
  by_cases hqp : q = p
  · rw [hqp]
    exact hc
  · exact hbut.dirtyLoaded q hqp hq

/-- A load marks nothing. -/
theorem loadFromMainIndex_marks (ops : TreeOps T) (p : UInt64) (x : Index T) :
    (loadFromMainIndex ops p x).2.dirtyPredicates = x.dirtyPredicates ∧
      (loadFromMainIndex ops p x).2.newPredicates = x.newPredicates := by
  unfold loadFromMainIndex
  split
  · exact ⟨rfl, rfl⟩
  · simp only
    split <;> exact ⟨rfl, rfl⟩

/-- The tree of the file comes into memory. -/
theorem SoundBut.load (hl : ops.Lawful) (h : SoundBut ops E x) {t : T} (ht : x.FileServes ops p (some t)) :
    ∃ x', loadFromMainIndex ops p x = (.ok (), x') ∧ Touches p x x' ∧ x'.predicates.find? p = some t ∧
      SoundBut ops E x' := by
  obtain ⟨md, hmd, htree⟩ := ht
  obtain ⟨x', h1, h2, h3⟩ := loadFromMainIndex_spec hl hmd (h.main p md hmd).1 h.good htree
  have hmarks := loadFromMainIndex_marks ops p x
  rw [h1] at hmarks
  obtain ⟨hdirty, hnew⟩ := hmarks
  refine ⟨x', h1, h2, h3, h.touch h2 (fun q _ => by rw [hdirty]) (fun q _ => by rw [hnew]) (fun hn => ?_) (fun _ _ => ?_)
    (fun t' ht' _ => ?_) fun _ => .inr ((OrdMap.contains_iff _).2 ⟨md, hmd⟩)⟩
  · rw [hnew] at hn
    rw [hdirty]
    exact h.newDirty p hn
  · exact (OrdMap.contains_iff _).2 ⟨t, h3⟩
  · obtain rfl : t = t' := Option.some.inj (h3.symm.trans ht')
    exact ⟨md, hmd, htree⟩

theorem SoundBut.stable (hl : ops.Lawful) : Stable ops (SoundBut ops E : Index T → Prop) := by
  refine ⟨fun _ p h => h.addPredicate p, fun _ p t hp h => h.change hp, fun p x h => ?_⟩
  cases hmd : x.metadata.metadataMap.find? p with
  | none =>
    simp only [loadFromMainIndex, hmd]
    exact h
  | some md =>
    obtain ⟨-, -, t, ht⟩ := h.main p md hmd
    obtain ⟨x', h1, -, -, h2⟩ := h.load hl ⟨md, hmd, ht⟩
    rw [h1]
    exact h2

end Index

/-! ## Syncs -/

namespace Manager

/-- What a sync leaves: the trees in memory, the logger, all files but that of the index,
and an index file with what the index serves. -/
structure Synced (P : CacheParams T) (s s' : Manager T) : Prop where
  sound : s'.index.Sound P.ops
  predicates : s'.index.predicates = s.index.predicates
  hasUpdateLogger : s'.index.hasUpdateLogger = s.index.hasUpdateLogger
  logger : s'.logger = s.logger
  refSet : s'.merger.refSet = s.merger.refSet
  disk : ∀ q : Path, q.1 ≠ .index → s'.disk q = s.disk q
  file : HasIndexFile P s'
  serves : ∀ p o, s.index.Serves P.ops p o → s'.index.FileServes P.ops p o

/-- The index serves the same. -/
theorem Synced.same (h : Synced P s s') {p : UInt64} {o : Option T} (ho : s.index.Serves P.ops p o) :
    s'.index.Serves P.ops p o := by
  have hfile := h.serves p o ho
  rcases ho with ⟨t, ht, rfl⟩ | ⟨hn, -⟩
  · exact .inl ⟨t, by rw [h.predicates, ht], rfl⟩
  · exact .inr ⟨by rw [h.predicates, hn], hfile⟩

/-- **`sync_to_persistent` returns**, and the new file has what the index serves. -/
theorem syncToPersistent_sound (hl : P.ops.Lawful) (hsized : ∀ t, P.ops.measure t < 2 ^ 64) (h : s.index.Sound P.ops) :
    ∃ s', syncToPersistent P s = (.ok (), s') ∧ Synced P s s' := by
  have hmain : ∀ p md, s.index.metadata.metadataMap.find? p = some md → ∃ t, Index.HoldsTree P.ops s.index.is.data md t :=
    fun p md hmd => (h.main p md hmd).2.2
  rcases syncToPersistent_cases h.good hmain with ⟨e, _, -, hu, -⟩ | ⟨m, data, trees, h1, hlay, hsrc⟩
  · exact absurd hu (h.tidy.not_unwritable e)
  -- a tree of the new file is the one that is served
  have hentry : ∀ p md, m.find? p = some md → ∃ t, Index.HoldsTree P.ops data md t ∧ s.index.Serves P.ops p (some t) ∧
      md.treeSizeInMemory < 2 ^ 64 := by
    intro p md hmd
    obtain ⟨t, ht, hfrom⟩ := hsrc p md hmd
    refine ⟨t, ht, ?_⟩
    rcases hfrom with ⟨-, hp, hmem⟩ | ⟨old, hd, hold, hot, hmem⟩
    · exact ⟨.inl ⟨t, hp, rfl⟩, by rw [hmem]; exact hsized t⟩
    · refine ⟨?_, by rw [hmem]; exact (h.main p old hold).2.1⟩
      cases hp : s.index.predicates.find? p with
      | none => exact .inr ⟨hp, old, hold, hot⟩
      | some t' =>
        have hfile : s.index.FileServes P.ops p (some t) := ⟨old, hold, hot⟩
        exact .inl ⟨t', hp, hfile.unique hl (h.clean p t' hp hd)⟩
  -- nothing that is known is missing from it
  have hkeys : ∀ p, m.find? p = none → s.index.Serves P.ops p none := by
    intro p hp
    have hall : ¬ (s.index.newPredicates.contains p = true ∨ s.index.metadata.metadataMap.contains p = true) := by
      rw [← Index.mem_allPredicates, ← hlay.keys p, OrdMap.contains, hp]
      simp
    rw [not_or, Bool.not_eq_true, Bool.not_eq_true] at hall
    refine .inr ⟨?_, (OrdMap.contains_eq_false _).1 hall.2⟩
    by_contra hne
    have hc : s.index.predicates.contains p = true := by
      rw [OrdMap.contains, Option.isSome_iff_ne_none]
      exact hne
    rcases h.known p hc with hn | hn
    · simp [hall.1] at hn
    · rw [Index.isStoredInMainIndex, hall.2] at hn
      cases hn
  have hserves : ∀ p o, s.index.Serves P.ops p o → (o = none ∧ m.find? p = none) ∨
      ∃ t md, o = some t ∧ m.find? p = some md ∧ Index.HoldsTree P.ops data md t := by
    intro p o ho
    cases hmd : m.find? p with
    | none => exact .inl ⟨ho.unique hl (hkeys p hmd), rfl⟩
    | some md =>
      obtain ⟨t, ht, hs, -⟩ := hentry p md hmd
      exact .inr ⟨t, md, ho.unique hl hs, rfl, ht⟩
  refine ⟨_, h1, ⟨rfl, h.newDirty, h.dirtyLoaded, fun p md hmd => ?_, fun p t hp hd => ?_, fun p hp => ?_⟩, rfl, rfl, rfl, rfl,
    fun q hq => ?_, ?_, fun p o ho => ?_⟩
  · obtain ⟨t, ht, -, hmem⟩ := hentry p md hmd
    obtain ⟨_, hplaced⟩ := hlay.placed p md hmd
    exact ⟨hplaced.predicateId, hmem, t, ht⟩
  · rcases hserves p (some t) (.inl ⟨t, hp, rfl⟩) with ⟨hnone, -⟩ | ⟨t', md, heq, hmd, ht'⟩
    · cases hnone
    · obtain rfl : t = t' := Option.some.inj heq
      exact ⟨md, hmd, ht'⟩
  · refine (h.known p hp).imp_right fun hm => ?_
    exact (hlay.keys p).2 ((Index.mem_allPredicates _ _).2 (.inr hm))
  · simp only
    exact FileRWHandler.replaceFile_other hq
  · refine ⟨_, data, ⟨⟨trees, hlay⟩, fun p md hmd => ?_⟩, ?_, rfl, rfl, rfl, h.newDirty⟩
    · obtain ⟨_, -, -, hmem⟩ := hentry p md hmd
      exact hmem
    · simp only
      exact FileRWHandler.replaceFile_file _ _ _ rfl _
  · rcases hserves p o ho with ⟨rfl, hmd⟩ | ⟨t, md, rfl, hmd, ht⟩
    · exact hmd
    · exact ⟨md, hmd, ht⟩

end Manager

/-- **An index opened on the file** serves what the file has. -/
theorem HasIndexFile.opened (h : HasIndexFile P s) (hlen : (s.disk.bytes (FileRWHandler.file .index)).length < 2 ^ 64) :
    (Manager.openIndex s.disk : Manager T).index.Sound P.ops ∧
      ∀ p o, s.index.FileServes P.ops p o → (Manager.openIndex s.disk : Manager T).index.Serves P.ops p o := by
  obtain ⟨md, data, hfile, hon⟩ := h
  obtain ⟨trees, hlay⟩ := hfile.layout
  rw [Disk.bytes, hon.file, Option.getD_some] at hlen
  obtain ⟨o1, o2, o3⟩ := Manager.openIndex_spec (T := T) hon.file hlay hlen hfile.memory
  refine ⟨⟨o3, fun p hp => hp, fun p _ hp => hp, fun p e he => ?_, fun p t hp => ?_, fun p hp => ?_⟩, fun p o ho => .inr ⟨rfl, ?_⟩⟩
  · rw [o1] at he
    rw [o2]
    exact ⟨(hfile.holdsTree he).1, hfile.memory p e he, (hfile.holdsTree he).2⟩
  · cases hp
  · cases hp
  · cases o with
    | none =>
      show (Manager.openIndex s.disk : Manager T).index.metadata.metadataMap.find? p = none
      rw [o1, ← hon.index.metadata]
      exact ho
    | some t =>
      obtain ⟨e, he, ht⟩ := ho
      refine ⟨e, ?_, ?_⟩
      · rw [o1, ← hon.index.metadata]
        exact he
      · rw [o2, ← hon.index.data]
        exact ht

end K2Cache
