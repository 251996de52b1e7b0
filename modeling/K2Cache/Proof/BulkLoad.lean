import K2Cache.Lib.Machine
import K2Cache.Proof.Builder
import K2Cache.Proof.Frame

/-!
# Bulk and single loading

`load_all_predicates` reads the trees in the order of the predicate ids, from the first
tree on; `load_single_predicate` seeks the tree of an entry. The two agree on a file that
lists no predicate twice. The builder writes such files; `sync_to_persistent` does if no
predicate is new and stored at once, which `new_predicates` never forgets: a predicate
that stays new over two syncs is listed twice.

* `keeps_call`: no other call touches the file, whether it returns or throws.
* `loadsAgree_iff_nodup`: bulk and single loading agree on a file without repetitions.
* `loadsAgree_iff`: in a run, on all its files if and only if its syncs are clean.
-/

namespace K2Cache

open Lib

variable {T : Type} {P : CacheParams T} {s s' : Manager T} {md : PredicatesCacheMetadata} {data : Bytes}

/-- The contents of an index file. -/
structure IndexFile (ops : TreeOps T) (md : PredicatesCacheMetadata) (data : Bytes) : Prop where
  layout : ∃ trees, Index.Layout ops md trees data
  memory : ∀ p e, md.metadataMap.find? p = some e → e.treeSizeInMemory < 2 ^ 64

/-- Trees whose recorded sizes are their own. -/
theorem IndexFile.of_layout {ops : TreeOps T} {trees : List T} (hsized : ∀ t, ops.measure t < 2 ^ 64)
    (hlay : Index.Layout ops md trees data)
    (hmem : ∀ p e, md.metadataMap.find? p = some e → ∃ t, Index.HoldsTree ops data e t ∧ e.treeSizeInMemory = ops.measure t) :
    IndexFile ops md data := by
  refine ⟨⟨_, hlay⟩, fun p e he => ?_⟩
  obtain ⟨t, -, hm⟩ := hmem p e he
  rw [hm]
  exact hsized t

theorem IndexFile.holdsTree {ops : TreeOps T} (h : IndexFile ops md data) {p : UInt64} {e : PredicateMetadata}
    (he : md.metadataMap.find? p = some e) : e.predicateId = p ∧ ∃ t, Index.HoldsTree ops data e t := by
  obtain ⟨trees, hlay⟩ := h.layout
  obtain ⟨t, ht⟩ := hlay.placed p e he
  exact ⟨ht.predicateId, t, hlay.holdsTree ht⟩

/-! ## Calls that leave the file alone -/

/-- The index has the file with these contents open. -/
structure Index.OnFile (md : PredicatesCacheMetadata) (data : Bytes) (x : Index T) : Prop where
  metadata : x.metadata = md
  data : x.is.data = data
  good : x.is.fail = false
  newDirty : ∀ p, x.newPredicates.contains p = true → x.dirtyPredicates.contains p = true

namespace Index

variable {ops : TreeOps T} {x : Index T}

theorem OnFile.setTree (h : OnFile md data x) (p : UInt64) (t : T) : OnFile md data (x.setTree p t) :=
  ⟨h.metadata, h.data, h.good, h.newDirty⟩

theorem OnFile.markDirty (h : OnFile md data x) (p : UInt64) : OnFile md data (x.markDirty p) := by
  refine ⟨h.metadata, h.data, h.good, fun q hq => ?_⟩
  rw [Index.markDirty, contains_insert_unit, h.newDirty q hq, Bool.or_true]

theorem OnFile.addPredicate (h : OnFile md data x) (p : UInt64) : OnFile md data (x.addPredicate ops p) := by
  refine ⟨h.metadata, h.data, h.good, fun q hq => ?_⟩
  simp only [Index.addPredicate, contains_insert_unit, Bool.or_eq_true, decide_eq_true_eq] at hq ⊢
  exact hq.imp_right (h.newDirty q)

theorem OnFile.discard (h : OnFile md data x) (p : UInt64) : OnFile md data (x.discardInMemoryPredicate p) := by
  refine ⟨h.metadata, h.data, h.good, fun q hq => ?_⟩
  simp only [discardInMemoryPredicate, OrdMap.contains, OrdMap.find?_erase] at hq ⊢
  by_cases hqp : q = p
  · simp [hqp] at hq
  · rw [if_neg hqp] at hq ⊢
    exact h.newDirty q hq

theorem keeps_loadFromMainIndex (hl : ops.Lawful) (hfile : IndexFile ops md data) (p : UInt64) :
    Act.Keeps (OnFile md data) (loadFromMainIndex ops p) := by
  intro x h
  cases hmd : x.metadata.metadataMap.find? p with
  | none =>
    simp only [loadFromMainIndex, hmd]
    exact h
  | some e =>
    obtain ⟨hid, t, ht⟩ := hfile.holdsTree (h.metadata ▸ hmd)
    have hread := hl.read_segment t e.treeSizeInMemory ht.memory _ (IStream.ahead_seekg h.good (by rw [h.data]; exact ht.ahead))
    simp only [loadFromMainIndex, hmd, hread]
    refine ⟨h.metadata, ?_, ?_, h.newDirty⟩
    · simp [IStream.seekg, h.good, h.data]
    · simp [IStream.seekg, h.good]

theorem OnFile.stable (hl : ops.Lawful) (hfile : IndexFile ops md data) : Stable ops (OnFile md data : Index T → Prop) :=
  ⟨fun _ p h => h.addPredicate p, fun _ p t _ h => (h.setTree p t).markDirty p, keeps_loadFromMainIndex hl hfile⟩

end Index

/-- The disk and the index of the state have the file with these contents. -/
abbrev OnFile (md : PredicatesCacheMetadata) (data : Bytes) : Manager T → Prop := OnDisk (Index.OnFile md data) (some data)

namespace Manager

variable (hfile : IndexFile P.ops md data)
include hfile

theorem keeps_insertPoint (hl : P.ops.Lawful) (subject p object : UInt64) :
    Act.Keeps (OnFile md data) (insertPoint P subject p object) := by
  have hI := Index.OnFile.stable hl hfile
  refine (keeps_onIndex (Act.keeps_modify fun _ h => h.markDirty p)).bind fun _ => (keeps_activate hI p).bind fun _ =>
    Act.keeps_get.bind fun e => ?_
  cases e.index.predicates.find? p with
  | none => exact Act.keeps_throw _
  | some t => exact keeps_onIndex (Act.keeps_modify fun _ h => h.setTree p _)

/-- **`sync_to_persistent`** replaces the file by one that lists `all_predicates`. -/
theorem syncToPersistent_onFile (hsized : ∀ t, P.ops.measure t < 2 ^ 64) (h : OnFile md data s) :
    (∃ s', syncToPersistent P s = (.error .nullDereference, s')) ∨
    ∃ md' data' s', syncToPersistent P s = (.ok (), s') ∧ IndexFile P.ops md' data' ∧ OnFile md' data' s' ∧
      md'.predicatesIds = s.index.allPredicates := by
  have hmain : ∀ p e, s.index.metadata.metadataMap.find? p = some e → ∃ t, Index.HoldsTree P.ops s.index.is.data e t := by
    intro p e he
    rw [h.index.data]
    exact (hfile.holdsTree (h.index.metadata ▸ he)).2
  rcases syncToPersistent_cases h.index.good hmain with ⟨e, s', h1, hu, -⟩ | ⟨m, data', trees, h1, h2, h3⟩
  · rcases hu with ⟨rfl, -⟩ | ⟨p, hn, hd⟩
    · exact .inl ⟨s', h1⟩
    · simp [h.index.newDirty p hn] at hd
  · refine .inr ⟨_, data', _, h1, ⟨⟨trees, h2⟩, fun p e he => ?_⟩, ⟨?_, rfl, rfl, rfl, h.index.newDirty⟩, rfl⟩
    · obtain ⟨t, -, hsrc⟩ := h3 p e he
      rcases hsrc with ⟨-, -, hmem⟩ | ⟨old, -, hold, -, hmem⟩
      · rw [hmem]
        exact hsized t
      · rw [hmem]
        exact hfile.memory p old (h.index.metadata ▸ hold)
    · simp only
      exact FileRWHandler.replaceFile_file _ _ _ rfl _

end Manager

/-! ## Loading -/

/-- **Bulk and single loading agree** on the index file of a disk: an index opened on it
has every predicate id once, and gives each predicate the same points either way. -/
structure LoadsAgree (P : CacheParams T) (d : Disk) : Prop where
  nodup : (Manager.openIndex d : Manager T).index.metadata.predicatesIds.Nodup
  agree : ∃ s, Manager.loadAllPredicates P (Manager.openIndex d) = (.ok (), s) ∧
    ∀ p, (Manager.openIndex d : Manager T).index.isStoredInMainIndex p = true →
      ∃ s' t t', Manager.loadSinglePredicate P p (Manager.openIndex d) = (.ok true, s') ∧
        s.index.predicates.find? p = some t ∧ s'.index.predicates.find? p = some t' ∧ P.ops.points t = P.ops.points t'

/-- `load_single_predicate` of an index without a logger. -/
theorem loadSinglePredicate_plain (hl : P.ops.Lawful) (hn : s.index.hasUpdateLogger = false) (hf : s.index.is.fail = false)
    {p : UInt64} {e : PredicateMetadata} {t : T} (he : s.index.metadata.metadataMap.find? p = some e)
    (hid : e.predicateId = p) (ht : Index.HoldsTree P.ops s.index.is.data e t) :
    ∃ x', Manager.loadSinglePredicate P p s = (.ok true, s.setIndex x') ∧
      Index.loadFromMainIndex P.ops p s.index = (.ok (), x') ∧ Index.Touches p s.index x' ∧ x'.predicates.find? p = some t := by
  obtain ⟨x', h1, h2, h3⟩ := Index.loadFromMainIndex_spec hl he hid hf ht
  have hm : s.index.isStoredInMainIndex p = true := (OrdMap.contains_iff _).2 ⟨e, he⟩
  have hlog : s.isStoredInUpdatesLog p = false := by simp [Manager.isStoredInUpdatesLog, hn]
  refine ⟨x', ?_, h1, h2, h3⟩
  have hload : Act.when (s.index.isStoredInMainIndex p) (Manager.onIndex (Index.loadFromMainIndex P.ops p)) s =
      (.ok (), s.setIndex x') := by
    rw [hm, Act.when_true, Manager.onIndex_run, h1]
  have hst : s.hasPredicateStored p = true := by rw [Manager.hasPredicateStored, hm, Bool.true_or]
  simp only [Manager.loadSinglePredicate, Act.get_bind, hst, if_true]
  rw [Act.bind_ok hload, hlog]
  rfl

/-- **They agree if no predicate is listed twice.** -/
theorem loadsAgree_iff_nodup (hl : P.ops.Lawful) (hfile : IndexFile P.ops md data) (h : OnFile md data s)
    (hlen : data.length < 2 ^ 64) : LoadsAgree P s.disk ↔ md.predicatesIds.Nodup := by
  obtain ⟨trees, hlay⟩ := hfile.layout
  obtain ⟨h1, h2, h3⟩ := Manager.openIndex_spec (T := T) h.file hlay hlen hfile.memory
  set o : Manager T := Manager.openIndex s.disk with ho
  constructor
  · intro hagree
    rw [← h1]
    exact hagree.nodup
  · intro hnodup
    refine ⟨by rw [← ho, h1]; exact hnodup, ?_⟩
    obtain ⟨x', h4, h5, h6, -⟩ := Index.Layout.loadAll hl (x := o.index) (by rw [h1, h2]; exact hlay) h3 (by rw [h1]; exact hnodup)
    have hn : o.index.hasUpdateLogger = false := rfl
    refine ⟨o.setIndex x', ?_, fun p hp => ?_⟩
    · have hload : Manager.onIndex (Index.loadAllFromMainIndex P.ops) o = (.ok (), o.setIndex x') := by
        rw [Manager.onIndex_run, h4]
      rw [Manager.loadAllPredicates, Act.bind_ok hload, Act.get_bind, Manager.setIndex_index, h5.hasUpdateLogger, hn]
      rfl
    · obtain ⟨e, he⟩ := (OrdMap.contains_iff _).1 hp
      have he' : md.metadataMap.find? p = some e := by
        rw [← h1]
        exact he
      obtain ⟨hid, t, ht⟩ := hfile.holdsTree he'
      rw [← h2] at ht
      obtain ⟨y, h7, -, -, h8⟩ := loadSinglePredicate_plain hl hn h3 he hid ht
      exact ⟨_, t, t, h7, h6 p e t he ht, h8, rfl⟩

/-! ## Runs -/

/-- The calls on an index. -/
inductive IndexOp where
  | addPredicate (p : UInt64)
  | insertPoint (subject p object : UInt64)
  | fetchK2tree (p : UInt64)
  | discardInMemoryPredicate (p : UInt64)
  | syncToPersistent

/-- The call. -/
def IndexOp.call (P : CacheParams T) : IndexOp → Act Exn (Manager T) Unit
  | addPredicate p => Manager.addPredicate P p
  | insertPoint subject p object => Manager.insertPoint P subject p object
  | fetchK2tree p => do
    let _ ← Manager.fetchK2tree P p
    pure ()
  | discardInMemoryPredicate p => Manager.removeKey p
  | syncToPersistent => Manager.syncToPersistent P

/-- The calls on an index and its logger. -/
inductive StoreOp (T : Type) where
  | index (op : IndexOp)
  | log (us : List (K2TreeUpdates T))

/-- The call. -/
def StoreOp.call (P : CacheParams T) : StoreOp T → Act Exn (Manager T) Unit
  | index op => op.call P
  | log us => LogEnv.log P.logger us

/-- The machine of these calls: a call that throws leaves a state to go on from, one that
uses a null pointer ends the run. -/
def storeMachine (P : CacheParams T) : Machine (Manager T) (StoreOp T) where
  step s op :=
    match op.call P s with
    | (.error .nullDereference, _) => none
    | (_, s') => some s'

theorem storeMachine_step {op : StoreOp T} (h : (storeMachine P).step s op = some s') : s' = (op.call P s).2 := by
  simp only [storeMachine] at h
  split at h
  · cases h
  · rename_i heq
    rw [heq]
    exact (Option.some.inj h).symm

/-- A call that is not a sync leaves the file alone. -/
theorem keeps_call (hl : P.ops.Lawful) (hfile : IndexFile P.ops md data) (op : StoreOp T) (hop : op ≠ .index .syncToPersistent) :
    Act.Keeps (OnFile md data) (op.call P) := by
  have hI := Index.OnFile.stable hl hfile
  cases op with
  | log us => exact Manager.keeps_log hI.merging us
  | index op =>
    cases op with
    | addPredicate p => exact Manager.keeps_addPredicate hI.merging p
    | insertPoint subject p object => exact Manager.keeps_insertPoint hfile hl subject p object
    | fetchK2tree p => exact (Manager.keeps_fetchK2tree hI p).bind fun _ => Act.keeps_pure _
    | discardInMemoryPredicate p => exact Manager.keeps_removeKey (fun x p h => h.discard p) p
    | syncToPersistent => exact absurd rfl hop

/-- The state has an index file. -/
def HasIndexFile (P : CacheParams T) (s : Manager T) : Prop :=
  ∃ md data, IndexFile P.ops md data ∧ OnFile md data s

/-- **One step**: the state still has an index file, the same one unless the step is a sync,
which lists `all_predicates`. -/
theorem storeStep (hl : P.ops.Lawful) (hsized : ∀ t, P.ops.measure t < 2 ^ 64) {op : StoreOp T} (h : HasIndexFile P s)
    (hstep : (storeMachine P).step s op = some s') :
    HasIndexFile P s' ∧
      (op = .index .syncToPersistent → s'.index.metadata.predicatesIds = s.index.allPredicates) ∧
      (op ≠ .index .syncToPersistent → s'.index.metadata.predicatesIds = s.index.metadata.predicatesIds) := by
  obtain ⟨md, data, hfile, hon⟩ := h
  by_cases hop : op = .index .syncToPersistent
  · subst hop
    rcases Manager.syncToPersistent_onFile hfile hsized hon with ⟨s₁, h1⟩ | ⟨md', data', s₁, h1, h2, h3, h4⟩
    · simp [storeMachine, StoreOp.call, IndexOp.call, h1] at hstep
    · have hs := storeMachine_step hstep
      simp only [StoreOp.call, IndexOp.call, h1] at hs
      subst hs
      exact ⟨⟨md', data', h2, h3⟩, fun _ => by rw [h3.index.metadata]; exact h4, fun hne => absurd rfl hne⟩
  · have hkeep := keeps_call hl hfile op hop s hon
    rw [← storeMachine_step hstep] at hkeep
    exact ⟨⟨md, data, hfile, hkeep⟩, fun heq => absurd heq hop,
      fun _ => by rw [hkeep.index.metadata, ← hon.index.metadata]⟩

/-- No predicate is new and stored in the index file at once. -/
def Index.NoneNewAndStored (x : Index T) : Prop :=
  ∀ p, x.newPredicates.contains p = true → x.isStoredInMainIndex p = false

theorem Index.allPredicates_nodup (x : Index T) : x.allPredicates.Nodup ↔ x.NoneNewAndStored := by
  rw [allPredicates, (List.perm_insertionSort _ _).nodup_iff, List.nodup_append']
  simp only [OrdMap.keys_nodup, true_and, List.disjoint_left, OrdMap.mem_keys, ← OrdMap.contains_iff, NoneNewAndStored,
    isStoredInMainIndex, Bool.not_eq_true]

/-- An index just opened on the files of a disk, with or without a logger. -/
def JustOpened (s : Manager T) : Prop :=
  s.index = Index.construct s.disk ∨ s.index = (Index.construct s.disk).setUpdateLogger

theorem JustOpened.onFile {ops : TreeOps T} (h : JustOpened s) (hd : s.disk (FileRWHandler.file .index) = some data)
    (hfile : IndexFile ops md data) (hlen : data.length < 2 ^ 64) : OnFile md data s := by
  obtain ⟨trees, hlay⟩ := hfile.layout
  obtain ⟨h1, h2, h3⟩ := Manager.openIndex_spec (T := T) hd hlay hlen hfile.memory
  refine ⟨hd, ?_⟩
  rcases h with h | h
  · rw [h]
    exact ⟨h1, h2, h3, fun p hp => hp⟩
  · rw [h]
    exact ⟨h1, h2, h3, fun p hp => hp⟩

open PredicatesIndexFileBuilder in
/-- **Bulk and single loading agree on every file of a run** from a built one, if and only
if every sync that the run completes finds no predicate that is new and stored at once. -/
theorem loadsAgree_iff (hl : P.ops.Lawful) (hsized : ∀ t, P.ops.measure t < 2 ^ 64) (input : IStream) (config : K2TreeConfig)
    (hc : Contiguous (inputTriples input))
    (hsizes : ∀ r ∈ runs (inputTriples input), (P.ops.writeToOstream (runTree P.ops config r)).length < 2 ^ 64) :
    ∃ md out, build P.ops P.md5calc input config = .ok (md, out) ∧
      ∀ s₀ : Manager T, s₀.disk (FileRWHandler.file .index) = some out.buf → JustOpened s₀ → ∀ ops : List (StoreOp T),
        (∀ pre s, pre <+: ops → (storeMachine P).run pre s₀ = some s →
          (s.disk.bytes (FileRWHandler.file .index)).length < 2 ^ 64) →
        ((∀ pre s, pre <+: ops → (storeMachine P).run pre s₀ = some s → LoadsAgree P s.disk) ↔
          ∀ pre s s', pre ++ [.index .syncToPersistent] <+: ops → (storeMachine P).run pre s₀ = some s →
            (storeMachine P).step s (.index .syncToPersistent) = some s' → s.index.NoneNewAndStored) := by
  obtain ⟨m, out, hb, hlay, hmem⟩ := build_spec P.md5calc input config fun r hr => ⟨hsized _, hsizes r hr⟩
  refine ⟨_, out, hb, fun s₀ hd hopen ops hfit => ?_⟩
  have hfile : IndexFile P.ops ⟨m, (runs (inputTriples input)).map Prod.fst, config⟩ out.buf := .of_layout hsized hlay hmem
  have hlen : out.buf.length < 2 ^ 64 := by
    have := hfit [] s₀ List.nil_prefix rfl
    rwa [Disk.bytes, hd] at this
  have hon := hopen.onFile hd hfile hlen
  -- every state of the run has an index file, and loading agrees on it if no id is listed twice
  have hinv : ∀ pre s, (storeMachine P).run pre s₀ = some s → HasIndexFile P s := fun pre s hrun =>
    Machine.always (fun s op s' hstep hs => (storeStep hl hsized hs hstep).1) hrun ⟨_, _, hfile, hon⟩
  have hagree : ∀ pre s, pre <+: ops → (storeMachine P).run pre s₀ = some s →
      (LoadsAgree P s.disk ↔ s.index.metadata.predicatesIds.Nodup) := by
    intro pre s hpre hrun
    obtain ⟨md, data, h1, h2⟩ := hinv pre s hrun
    have hlen := hfit pre s hpre hrun
    rw [Disk.bytes, h2.file, Option.getD_some] at hlen
    rw [h2.index.metadata]
    exact loadsAgree_iff_nodup hl h1 h2 hlen
  constructor
  · intro hall pre s s' hpre hrun hstep
    have hrun' := Machine.run_concat.2 ⟨s, hrun, hstep⟩
    have hnodup := (hagree _ s' hpre hrun').1 (hall _ s' hpre hrun')
    rw [(storeStep hl hsized (hinv pre s hrun) hstep).2.1 rfl] at hnodup
    exact s.index.allPredicates_nodup.1 hnodup
  · -- the ids of a state are those of the last sync before it
    intro hclean pre
    induction pre using List.reverseRecOn with
    | nil =>
      intro s hpre hrun
      obtain rfl : s₀ = s := Option.some.inj hrun
      rw [hagree [] s₀ hpre hrun, hon.index.metadata]
      exact runs_nodup hc
    | append_singleton pre op ih =>
      intro s hpre hrun
      obtain ⟨s₁, hrun₁, hstep⟩ := Machine.run_concat.1 hrun
      have hpre₁ : pre <+: ops := (List.prefix_append _ _).trans hpre
      obtain ⟨-, hsync, hother⟩ := storeStep hl hsized (hinv pre s₁ hrun₁) hstep
      rw [hagree _ s hpre hrun]
      by_cases hop : op = .index .syncToPersistent
      · subst hop
        rw [hsync rfl]
        exact s₁.index.allPredicates_nodup.2 (hclean pre s₁ s hpre hrun₁ hstep)
      · rw [hother hop]
        exact (hagree pre s₁ hpre₁ hrun₁).1 (ih s₁ hpre₁ hrun₁)

namespace PointTree

/-- The manager over trees of one byte. -/
def byteParams (mode : OpenMode) : CacheParams PointTree := ⟨byteOps, fun _ => PredicateMetadata.zero.k2treeHash, mode⟩

/-- The input with the triple `(1, 5, 1)`. -/
def oneTriple : IStream := .ofBytes (u64Bytes 1 ++ u64Bytes 1 ++ u64Bytes 5 ++ u64Bytes 1)

/-- The file built from it. -/
def builtBytes : Bytes :=
  match PredicatesIndexFileBuilder.build byteOps (byteParams .binary).md5calc oneTriple ⟨32, 256, 10⟩ with
  | .ok r => r.2.buf
  | .error _ => []

/-- A disk with that file. -/
def builtDisk : Disk := fun q => if q = FileRWHandler.file .index then some builtBytes else none

theorem inputTriples_oneTriple : inputTriples oneTriple = [⟨1, 5, 1⟩] := by decide +kernel

theorem oneTriple_contiguous : Contiguous (inputTriples oneTriple) := by
  intro a b c x y hl
  have := congrArg List.length hl
  rw [inputTriples_oneTriple] at this
  simp only [List.length_append, List.length_cons, List.length_nil] at this
  omega

theorem oneTriple_sizes (r : UInt64 × List RDFTriple) (hr : r ∈ runs (inputTriples oneTriple)) :
    (byteOps.writeToOstream (PredicatesIndexFileBuilder.runTree byteOps ⟨32, 256, 10⟩ r)).length < 2 ^ 64 := by
  rw [inputTriples_oneTriple] at hr
  obtain rfl : r = (5, [⟨1, 5, 1⟩]) := by simpa [runs] using hr
  decide +kernel

theorem builtDisk_file {md : PredicatesCacheMetadata} {out : OStream}
    (hb : PredicatesIndexFileBuilder.build byteOps (byteParams .binary).md5calc oneTriple ⟨32, 256, 10⟩ = .ok (md, out)) :
    builtDisk (FileRWHandler.file .index) = some out.buf := by
  show some builtBytes = _
  simp only [builtBytes]
  rw [hb]

end PointTree

open PointTree PredicatesIndexFileBuilder in
/-- A predicate is added and written. -/
theorem loadsAgree_iff_added : ∃ s, (storeMachine (byteParams .binary)).run
      [.index (.insertPoint 1 3 1), .index .syncToPersistent] (Manager.openIndex builtDisk) = some s ∧
    LoadsAgree (byteParams .binary) s.disk := by
  obtain ⟨md, out, hb, hiff⟩ := loadsAgree_iff (P := byteParams .binary) byteOps_lawful
    (fun _ => Nat.one_lt_two_pow (by decide)) oneTriple ⟨32, 256, 10⟩ oneTriple_contiguous oneTriple_sizes
  have hbytes := builtDisk_file hb
  set ops : List (StoreOp PointTree) := [.index (.insertPoint 1 3 1), .index .syncToPersistent] with hops
  have hsmall : ∀ pre ∈ ops.inits, ((storeMachine (byteParams .binary)).run pre (Manager.openIndex builtDisk)).all
      (fun s => decide ((s.disk.bytes (FileRWHandler.file .index)).length < 2 ^ 64)) = true := by decide +kernel
  have hclean : ((storeMachine (byteParams .binary)).run [.index (.insertPoint 1 3 1)] (Manager.openIndex builtDisk)).all
      (fun s => decide s.index.allPredicates.Nodup) = true := by decide +kernel
  have hsome : ((storeMachine (byteParams .binary)).run ops (Manager.openIndex builtDisk)).isSome = true := by decide +kernel
  obtain ⟨s, hs⟩ := Option.isSome_iff_exists.1 hsome
  refine ⟨s, hs, (hiff (Manager.openIndex builtDisk) hbytes (.inl rfl) ops ?_).2 ?_ ops s List.prefix_rfl hs⟩
  · intro pre s hpre hrun
    have := hsmall pre ((List.mem_inits _ _).2 hpre)
    rw [hrun] at this
    simpa using this
  · intro pre s s' hpre hrun _
    -- the only sync is the second call
    have hlen := hpre.length_le
    obtain rfl : pre = [.index (.insertPoint 1 3 1)] := by
      match pre, hpre with
      | [], h => simp [hops] at h
      | [a], h => simpa [hops] using (List.cons_prefix_cons.1 h).1
      | a :: b :: l, _ => simp [hops] at hlen
    rw [hrun] at hclean
    exact s.index.allPredicates_nodup.1 (by simpa using hclean)

open PointTree in
/-- A new predicate is written twice: the second file lists it twice, and bulk loading runs
over the end of the file. -/
theorem loadsAgree_fails : Contiguous (inputTriples oneTriple) ∧ JustOpened (Manager.openIndex builtDisk : Manager PointTree) ∧
    ∃ s, (storeMachine (byteParams .binary)).run
        [.index (.insertPoint 1 3 1), .index .syncToPersistent, .index .syncToPersistent] (Manager.openIndex builtDisk) = some s ∧
      ¬ LoadsAgree (byteParams .binary) s.disk ∧
      (Manager.openIndex s.disk : Manager PointTree).index.metadata.predicatesIds = [3, 3, 5] ∧
      ∃ e s', Manager.loadAllPredicates (byteParams .binary) (Manager.openIndex s.disk) = (.error e, s') := by
  refine ⟨oneTriple_contiguous, .inl rfl, ?_⟩
  set run := (storeMachine (byteParams .binary)).run
    [.index (.insertPoint 1 3 1), .index .syncToPersistent, .index .syncToPersistent] (Manager.openIndex builtDisk) with hrun
  have hids : (run.map fun s => (Manager.openIndex s.disk : Manager PointTree).index.metadata.predicatesIds) =
      some [3, 3, 5] := by decide +kernel
  have hload : (run.map fun s => (Manager.loadAllPredicates (byteParams .binary) (Manager.openIndex s.disk)).1.toOption) =
      some none := by decide +kernel
  obtain ⟨s, hs, hids⟩ := Option.map_eq_some_iff.1 hids
  rw [hs, Option.map_some, Option.some.injEq] at hload
  refine ⟨s, hs, fun h => ?_, hids, ?_⟩
  · have := h.nodup
    rw [hids] at this
    exact absurd this (by decide)
  · rcases hr : Manager.loadAllPredicates (byteParams .binary) (Manager.openIndex s.disk) with ⟨r, s'⟩
    rw [hr] at hload
    cases r with
    | ok _ => simp [Except.toOption] at hload
    | error e => exact ⟨e, s', rfl⟩

end K2Cache
