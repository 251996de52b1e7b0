import K2Cache.Proof.FullSync
import K2Cache.Proof.PlainIndex

/-!
# Runs with full synchronisations

The manager is created on an index file and may load all of it at once (`Started`). From
then on its calls come in any order (`FullOp`); in every state of such a run the index is
sound and the log has its records (`fullStep`). So a full sync in any of these states keeps
what was served (`fullSync_loses_nothing`).
-/

namespace K2Cache

open Lib

variable {T : Type} {P : CacheParams T} {recs : Records T} {s s' : Manager T} {p : UInt64}

namespace Manager

variable (hl : P.ops.Lawful)
include hl

/-! ## Single calls -/

/-- **`log`** on a log file that keeps what it has. -/
theorem log_sound (happ : P.logMode.app = true) (us : List (K2TreeUpdates T)) (h : Sound P.ops (fun _ => False) recs s) :
    ∃ s', LogEnv.log P.logger us s = (.ok (), s') ∧ Sound P.ops (fun _ => False) (recs.pushAll us) s' := by
  obtain ⟨x', h1, h2, -⟩ := Index.mergeUpdate_spec hl s.index us
  have hrun := log_forward h.log.refSet h1
  have hinv := logInv_log (P := P.logger) us (h.log.registered.openWriter (P := P.logger) (.inl happ))
  have hkeep := keeps_log (P := P) (Index.SoundBut.stable hl).merging us s ⟨rfl, h.index⟩
  rw [hrun] at hinv hkeep
  refine ⟨_, hrun, ⟨hinv.registered, fun r hr => ?_, h.log.refSet⟩, hkeep.index, h2.hasUpdateLogger.trans h.hasUpdateLogger⟩
  -- `log` has closed the reader
  cases hr

/-- The predicate is loaded, or added. -/
theorem activate_sound {E : UInt64 → Prop} (p : UInt64) (h : Sound P.ops E recs s) :
    ∃ s', activate P p s = (.ok (), s') ∧ Sound P.ops E recs s' := by
  cases hc : s.index.predicates.contains p with
  | true =>
    refine ⟨s, ?_, h⟩
    simp [activate, Index.hasPredicateActive_eq, hc]
  | false =>
    cases hst : hasPredicateStored s p with
    | true =>
      obtain ⟨f, hf, -⟩ := h.index.fileServes p
      obtain ⟨s', h1, h2, -⟩ := loadSinglePredicate_sound hl h hf
      refine ⟨s', ?_, h2⟩
      simp only [activate, Act.get_bind, Index.hasPredicateActive_eq, hc, hst, Bool.not_false, Bool.and_true, if_true,
        retrieveKey]
      rw [Act.bind_ok h1]
      rfl
    | false =>
      refine ⟨s.setIndex (s.index.addPredicate P.ops p), ?_, h.setIndex (h.index.addPredicate p) rfl⟩
      simp only [activate, Act.get_bind, Index.hasPredicateActive_eq, hc, hst, Bool.not_false, Bool.and_true, Bool.false_eq_true,
        if_false, if_true]
      rfl

omit hl in
/-- A predicate that is marked stays marked. -/
theorem marked_stable (ops : TreeOps T) (p : UInt64) :
    Index.Stable ops (fun x : Index T => x.dirtyPredicates.contains p = true) := by
  have hinsert : ∀ (m : IdSet) (q : UInt64), m.contains p = true → (m.insert q ()).contains p = true := by
    intro m q hm
    rw [Index.contains_insert_unit, hm, Bool.or_true]
  refine ⟨fun x q hx => hinsert _ q hx, fun x q t _ hx => hinsert _ q hx, fun q x hx => ?_⟩
  rw [(Index.loadFromMainIndex_marks ops q x).1]
  exact hx

/-- **`insert_point`**, if it returns. -/
theorem insertPoint_sound {subject object : UInt64} (h : Sound P.ops (fun _ => False) recs s)
    (hrun : insertPoint P subject p object s = (.ok (), s')) : Sound P.ops (fun _ => False) recs s' := by
  -- the mark comes before the tree
  set s₁ : Manager T := s.setIndex (s.index.markDirty p) with hs₁
  have i1 : Sound P.ops (fun q => q = p) recs s₁ := h.setIndex (Index.SoundBut.mark h.index p) rfl
  obtain ⟨s₂, h2, i2⟩ := activate_sound hl p i1
  have hmark₂ := keeps_activate (P := P) (marked_stable P.ops p) p s₁ ⟨rfl, Index.contains_insert_self _ p⟩
  rw [h2] at hmark₂
  have honIndex : onIndex (Act.modify (fun x : Index T => x.markDirty p)) s = (.ok (), s₁) := rfl
  rw [insertPoint, Act.bind_ok honIndex, Act.bind_ok h2, Act.get_bind] at hrun
  cases ht : s₂.index.predicates.find? p with
  | none =>
    rw [ht] at hrun
    cases hrun
  | some t =>
    rw [ht] at hrun
    obtain rfl : s₂.setIndex (s₂.index.setTree p (P.ops.insert t (subject, object))) = s' := congrArg Prod.snd hrun
    exact i2.setIndex (i2.index.setMarked hmark₂.index ht) rfl

/-- **`sync_to_persistent`.** -/
theorem syncToPersistent_soundly (hsized : ∀ t, P.ops.measure t < 2 ^ 64) (h : Sound P.ops (fun _ => False) recs s) :
    ∃ s', syncToPersistent P s = (.ok (), s') ∧ Sound P.ops (fun _ => False) recs s' := by
  obtain ⟨s', h1, y1⟩ := syncToPersistent_sound hl hsized h.index
  exact ⟨s', h1, h.log.congr y1.logger y1.refSet (y1.disk _ (by decide)), y1.sound,
    y1.hasUpdateLogger.trans h.hasUpdateLogger⟩

end Manager

/-! ## Runs -/

/-- The calls of a run. -/
inductive FullOp (T : Type) where
  | store (op : StoreOp T)
  | retrieveKey (p : UInt64)
  | compactLogs
  | syncLogsToIndexes
  | fullSync

/-- The call. -/
def FullOp.call (P : CacheParams T) : FullOp T → Act Exn (Manager T) Unit
  | store op => op.call P
  | retrieveKey p => Manager.retrieveKey P p
  | compactLogs => LogEnv.compactLogs P.logger
  | syncLogsToIndexes => Manager.syncLogsToIndexes P
  | fullSync => Manager.fullSyncLogsAndMemoryWithPersistent P

/-- The machine of these calls; a call that throws ends the run. -/
def fullMachine (P : CacheParams T) : Machine (Manager T) (FullOp T) where
  step s op :=
    match op.call P s with
    | (.ok _, s') => some s'
    | (.error _, _) => none

theorem fullMachine_step {op : FullOp T} (h : (fullMachine P).step s op = some s') : op.call P s = (.ok (), s') := by
  simp only [fullMachine] at h
  split at h
  · rename_i heq
    rw [heq, Option.some.inj h]
  · cases h

/-- The index is sound, and the log has its records. -/
def Durable (ops : TreeOps T) (s : Manager T) : Prop := ∃ recs, Manager.Sound ops (fun _ => False) recs s

section Runs

variable (hl : P.ops.Lawful) (happ : P.logMode.app = true) (hpos : ∀ t, 0 < P.ops.measure t)
  (hsized : ∀ t, P.ops.measure t < 2 ^ 63)
include hl happ hpos hsized

/-- **One step.** -/
theorem fullStep {op : FullOp T} (hstep : (fullMachine P).step s op = some s') (h : Durable P.ops s) : Durable P.ops s' := by
  have hsized' : ∀ t, P.ops.measure t < 2 ^ 64 := fun t => (hsized t).trans (by norm_num)
  obtain ⟨recs, h⟩ := h
  have hcall := fullMachine_step hstep
  -- a call that returns leaves the state its lemma speaks of
  have key : ∀ (recs' : Records T), (∃ s₁, op.call P s = (.ok (), s₁) ∧ Manager.Sound P.ops (fun _ => False) recs' s₁) →
      Durable P.ops s' := by
    rintro recs' ⟨s₁, h1, h2⟩
    obtain rfl : s₁ = s' := congrArg Prod.snd (h1.symm.trans hcall)
    exact ⟨recs', h2⟩
  cases op with
  | store op =>
    cases op with
    | log us => exact key _ (Manager.log_sound hl happ us h)
    | index op =>
      cases op with
      | addPredicate p => exact key recs ⟨_, rfl, h.setIndex (h.index.addPredicate p) rfl⟩
      | insertPoint subject p object => exact ⟨recs, Manager.insertPoint_sound hl h hcall⟩
      | fetchK2tree p =>
        obtain ⟨o, s₁, h1, h2, -⟩ := Manager.fetchK2tree_sound hl h p
        exact key recs ⟨s₁, Act.bind_ok h1, h2⟩
      | discardInMemoryPredicate p => exact key recs ⟨_, rfl, h.setIndex (h.index.discard p) rfl⟩
      | syncToPersistent => exact key recs (Manager.syncToPersistent_soundly hl hsized' h)
  | retrieveKey p =>
    obtain ⟨f, hf, -⟩ := h.index.fileServes p
    obtain ⟨s₁, h1, h2, -⟩ := Manager.loadSinglePredicate_sound hl h hf
    exact key recs ⟨s₁, Act.bind_ok h1, h2⟩
  | compactLogs =>
    obtain ⟨s₁, h1, h2, -⟩ := Manager.compactLogs_sound hl h
    exact key _ ⟨s₁, h1, h2⟩
  | syncLogsToIndexes =>
    obtain ⟨s₁, h1, h2, -⟩ := syncLogsToIndexes_spec hl hpos hsized False h (fun hJ => hJ.elim)
    exact key _ ⟨s₁, h1, h2⟩
  | fullSync =>
    obtain ⟨s₁, h1, h2, -⟩ := fullSync_spec hl hpos hsized h
    exact key _ ⟨s₁, h1, h2⟩

end Runs

/-! ## The start -/

/-- The index file has its trees in the order of its header, which lists no predicate
twice. -/
def InOrder (ops : TreeOps T) (d : Disk) : Prop :=
  ∃ md data, d (FileRWHandler.file .index) = some data ∧ data.length < 2 ^ 64 ∧ IndexFile ops md data ∧ md.predicatesIds.Nodup

/-- **A manager as `CacheContainerFactory::create` starts it**: without a replacement
strategy all predicates are loaded. -/
inductive Started (P : CacheParams T) (d : Disk) (uninit : ℤ) : Manager T → Prop where
  | lazily {s : Manager T} (hc : Manager.create P d uninit = .ok s) : Started P d uninit s
  | eagerly {s s' : Manager T} (hc : Manager.create P d uninit = .ok s) (hd : InOrder P.ops d)
      (hload : Manager.loadAllPredicates P s = (.ok (), s')) : Started P d uninit s'

theorem Started.sound (hl : P.ops.Lawful) {d : Disk} (hd : FreshLog P.ops d) {uninit : ℤ} (h : Started P d uninit s) :
    Manager.Sound P.ops (fun _ => False) (fun _ => []) s := by
  obtain ⟨l, s₀, -, hc₀, hs₀, hinv⟩ := create_spec hl hd uninit
  have hx := (openIndex_plain hd.toValidIndex).sound
  have hsound : Manager.Sound P.ops (fun _ => False) (fun _ => []) s₀ := by
    refine ⟨hinv.log, ?_, hinv.index.hasUpdateLogger⟩
    rw [hs₀]
    exact ⟨hx.good, hx.newDirty, hx.dirtyLoaded, hx.main, hx.clean, hx.known⟩
  cases h with
  | lazily hc =>
    obtain rfl : s₀ = s := Except.ok.inj (hc₀.symm.trans hc)
    exact hsound
  | eagerly hc horder hload =>
    obtain rfl := Except.ok.inj (hc₀.symm.trans hc)
    obtain ⟨md, data, hfile, hlen, hif, hnodup⟩ := horder
    obtain ⟨trees, hlay⟩ := hif.layout
    obtain ⟨o1, o2, o3⟩ := Manager.openIndex_spec (T := T) hfile hlay hlen hif.memory
    have hindex : s₀.index = (Index.construct d : Index T).setUpdateLogger := by rw [hs₀]; rfl
    have hmeta : s₀.index.metadata = md := by rw [hindex]; exact o1
    have hdata : s₀.index.is.data = data := by rw [hindex]; exact o2
    obtain ⟨x', h1, h2, h3, h4⟩ := Index.Layout.loadAll hl (x := s₀.index) (by rw [hmeta, hdata]; exact hlay)
      hsound.index.good (by rw [hmeta]; exact hnodup)
    -- there is no log to replay
    have hnolog : FileRWHandler.fileExists (s₀.setIndex x').disk .updateLog = false := by
      have hdisk : (s₀.setIndex x').disk = d := by rw [hs₀]; rfl
      rw [hdisk, FileRWHandler.fileExists, hd.noLog]
      rfl
    have hrun : Manager.loadAllPredicates P s₀ = (.ok (), LogEnv.closeWriter (s₀.setIndex x')) := by
      have hon : Manager.onIndex (Index.loadAllFromMainIndex P.ops) s₀ = (.ok (), s₀.setIndex x') := by
        rw [Manager.onIndex_run, h1]
      rw [Manager.loadAllPredicates, Act.bind_ok hon, Act.get_bind, Manager.setIndex_index, h2.hasUpdateLogger,
        hsound.hasUpdateLogger, Act.when_true, LogEnv.recoverAll, Act.modify_bind, Act.get_bind, if_neg]
      · rfl
      · rw [show (LogEnv.closeWriter (s₀.setIndex x')).disk = (s₀.setIndex x').disk from rfl, hnolog]
        simp
    obtain rfl : LogEnv.closeWriter (s₀.setIndex x') = s := congrArg Prod.snd (hrun.symm.trans hload)
    have hempty : ∀ p, s₀.index.predicates.find? p = none := by
      intro p
      rw [hindex]
      rfl
    refine ⟨⟨hsound.log.registered, hsound.log.reader, hsound.log.refSet⟩, ?_, h2.hasUpdateLogger.trans hsound.hasUpdateLogger⟩
    have hfiles : ∀ p o, s₀.index.FileServes P.ops p o → x'.FileServes P.ops p o :=
      fun p o ho => ho.congr h2.metadata h2.is.1
    have hloaded : ∀ p t, x'.predicates.find? p = some t → s₀.index.FileServes P.ops p (some t) := by
      intro p t ht
      obtain ⟨f, hf, hm⟩ := hsound.index.fileServes p
      cases f with
      | none =>
        rw [h4 p hm, hempty p] at ht
        cases ht
      | some t' =>
        obtain ⟨e, he, hte⟩ := hf
        obtain rfl : t' = t := Option.some.inj ((h3 p e t' he hte).symm.trans ht)
        exact ⟨e, he, hte⟩
    show Index.Sound P.ops x'
    refine ⟨h2.is.2.trans hsound.index.good, fun p hp => ?_, fun p _ hp => ?_, fun p e he => ?_, fun p t ht _ => ?_, fun p hp => ?_⟩
    · rw [h2.newPredicates, hindex] at hp
      cases hp
    · rw [h2.dirtyPredicates, hindex] at hp
      cases hp
    · rw [h2.is.1]
      exact hsound.index.main p e (h2.metadata ▸ he)
    · exact hfiles p (some t) (hloaded p t ht)
    · obtain ⟨t, ht⟩ := (OrdMap.contains_iff _).1 hp
      obtain ⟨e, he, -⟩ := hfiles p (some t) (hloaded p t ht)
      exact .inr ((OrdMap.contains_iff _).2 ⟨e, he⟩)

/-- **A full sync loses nothing.** On a log file that keeps what it has, in every state a run
reaches: if compaction leaves every net update as it is, a full sync returns with an empty
log and the same predicates in memory, and an index opened on its file serves of every
predicate what was fetched before. -/
theorem fullSync_loses_nothing (hl : P.ops.Lawful) (happ : P.logMode.app = true) (hpos : ∀ t, 0 < P.ops.measure t)
    (hsized : ∀ t, P.ops.measure t < 2 ^ 63) {d : Disk} (hd : FreshLog P.ops d) {uninit : ℤ} {s₀ s : Manager T}
    (hs₀ : Started P d uninit s₀) (calls : List (FullOp T)) (hrun : (fullMachine P).run calls s₀ = some s)
    (hnet : ∀ s₁, LogEnv.compactLogs P.logger s = (.ok (), s₁) → ∀ p S, s₁.netUpdate P.ops p S = s.netUpdate P.ops p S) :
    ∃ s', Manager.fullSyncLogsAndMemoryWithPersistent P s = (.ok (), s') ∧
      s'.logger.logsNumber = 0 ∧ (∀ p, s'.logger.hasPredicateStored p = false) ∧
      (∀ p, s'.index.hasPredicateActive p = s.index.hasPredicateActive p) ∧
      ((s'.disk.bytes (FileRWHandler.file .index)).length < 2 ^ 64 →
        ∀ p, ∃ before fresh s₁ s₂, Manager.fetchK2tree P p s = (.ok before, s₁) ∧
          Manager.fetchK2tree P p (Manager.openIndex s'.disk) = (.ok fresh, s₂) ∧
          fresh.doesExist = before.doesExist ∧ fresh.result.map P.ops.points = before.result.map P.ops.points) := by
  obtain ⟨recs, h⟩ := Machine.always (I := Durable P.ops) (fun s op s' hstep h => fullStep hl happ hpos hsized hstep h) hrun
    ⟨_, hs₀.sound hl hd⟩
  obtain ⟨s', h1, -, htotal, hoffsets, hactive, hfile, hserves⟩ := fullSync_spec hl hpos hsized h
  refine ⟨s', h1, htotal, fun p => ?_, fun p => ?_, fun hlen p => ?_⟩
  · rw [UpdatesLogger.hasPredicateStored, hoffsets]
    rfl
  · rw [Index.hasPredicateActive_eq, Index.hasPredicateActive_eq]
    exact hactive p
  · -- the compacted records do what the records did
    obtain ⟨s₁, hcompact, hsound₁, -⟩ := Manager.compactLogs_sound hl h
    have hpatches : ∀ S, Patch.applyAll ((recs.compact P.ops).patches P.ops p) S = Patch.applyAll (recs.patches P.ops p) S := by
      intro S
      rw [← netUpdate_registered hl hsound₁.log.registered, ← netUpdate_registered hl h.log.registered]
      exact hnet s₁ hcompact p S
    have hreplay : ∀ f, (recs.compact P.ops).replay P.ops p f = recs.replay P.ops p f := by
      intro f
      have hempty : (recs.compact P.ops p).isEmpty = (recs p).isEmpty := by
        rw [Records.compact]
        split <;> rename_i hr
        · rw [hr]
        · simp [hr]
      rw [Records.replay, Records.replay, hempty, hpatches]
    obtain ⟨before, s₂, h2, -, -, -, hbefore⟩ := Manager.fetchK2tree_sound hl h p
    have hcompacted : Manager.Serves P.ops (recs.compact P.ops) s p (before.map P.ops.points) := by
      rcases hbefore with hb | ⟨hn, f, hf, ho⟩
      · exact .inl hb
      · exact .inr ⟨hn, f, hf, by rw [hreplay]; exact ho⟩
    obtain ⟨f, hf, hpoints⟩ := hserves p _ hcompacted
    obtain ⟨hopen, hopens⟩ := hfile.opened hlen
    obtain ⟨fresh, s₃, h3, hfresh, -⟩ := Manager.fetchK2tree_plain hl ⟨hopen, rfl⟩ p
    obtain rfl := (hopens p f hf).unique hl hfresh
    refine ⟨_, _, s₂, s₃, h2, h3, ?_, hpoints.symm⟩
    have := congrArg Option.isSome hpoints
    rw [Option.isSome_map, Option.isSome_map] at this
    exact this.symm

namespace PointTree

/-- Predicate 5 of the file is changed in the log and evicted, 9 is only in the log, 3 only in
memory. -/
def syncCalls : List (FullOp PointTree) :=
  [.store (.log [inserting 5 [(2, 2)], inserting 9 [(3, 3)]]), .retrieveKey 5, .store (.index (.insertPoint 8 3 8)),
    .store (.index (.discardInMemoryPredicate 5))]

/-- The state these calls reach satisfies a check. -/
def afterCalls (check : Manager PointTree → Bool) : Bool :=
  match Manager.create (byteParams .binaryApp) builtDisk 0 with
  | .error _ => false
  | .ok s₀ => ((fullMachine (byteParams .binaryApp)).run syncCalls s₀).any check

theorem afterCalls_spec {check : Manager PointTree → Bool} (h : afterCalls check = true) :
    ∃ s₀ s, Manager.create (byteParams .binaryApp) builtDisk 0 = .ok s₀ ∧
      (fullMachine (byteParams .binaryApp)).run syncCalls s₀ = some s ∧ check s = true := by
  unfold afterCalls at h
  split at h
  · cases h
  · rename_i s₀ hc
    obtain ⟨s, hs, hcheck⟩ := (Option.any_eq_true _ _).1 h
    exact ⟨s₀, s, hc, hs, hcheck⟩

/-- Compaction leaves the records of predicates 5 and 9 as they are, and the new index file
is small. -/
def syncCheck (s : Manager PointTree) : Bool :=
  let s₁ := (LogEnv.compactLogs (byteParams .binaryApp).logger s).2
  s.logger.offsetsMap.keys = [5, 9] && s₁.logger.offsetsMap.keys = [5, 9] &&
    s₁.recordsOf byteOps 5 = s.recordsOf byteOps 5 && s₁.recordsOf byteOps 9 = s.recordsOf byteOps 9 &&
    ((Manager.fullSyncLogsAndMemoryWithPersistent (byteParams .binaryApp) s).2.disk.bytes
      (FileRWHandler.file .index)).length < 2 ^ 64

theorem syncCheck_netUpdate {s s₁ : Manager PointTree} (h : syncCheck s = true)
    (hs₁ : LogEnv.compactLogs (byteParams .binaryApp).logger s = (.ok (), s₁)) (p : UInt64) (S : Set Point) :
    s₁.netUpdate byteOps p S = s.netUpdate byteOps p S := by
  simp only [syncCheck, hs₁, Bool.and_eq_true, decide_eq_true_eq] at h
  obtain ⟨⟨⟨⟨hkeys, hkeys₁⟩, h5⟩, h9⟩, -⟩ := h
  have hnone : ∀ e : Manager PointTree, e.logger.offsetsMap.keys = [5, 9] → p ≠ 5 → p ≠ 9 → e.recordsOf byteOps p = [] := by
    intro e he hp5 hp9
    have hp : e.logger.offsetsMap.find? p = none := by
      by_contra hne
      have hmem := (OrdMap.mem_keys e.logger.offsetsMap).2 (Option.ne_none_iff_exists'.1 hne)
      rw [he] at hmem
      simp [hp5, hp9] at hmem
    rw [LogEnv.recordsOf, hp]
    rfl
  have hrecords : s₁.recordsOf byteOps p = s.recordsOf byteOps p := by
    by_cases hp5 : p = 5
    · rw [hp5, h5]
    · by_cases hp9 : p = 9
      · rw [hp9, h9]
      · rw [hnone s₁ hkeys₁ hp5 hp9, hnone s hkeys hp5 hp9]
  rw [LogEnv.netUpdate, LogEnv.netUpdate, hrecords]

theorem builtDisk_fresh : FreshLog byteOps builtDisk := ⟨builtDisk_valid, rfl, rfl⟩

end PointTree

open PointTree in
/-- The four kinds of predicates: in the file and the log, only in the log, only in memory,
nowhere. -/
theorem fullSync_loses_nothing_evicted : ∃ s₀ s s', Manager.create (byteParams .binaryApp) builtDisk 0 = .ok s₀ ∧
    (fullMachine (byteParams .binaryApp)).run syncCalls s₀ = some s ∧
    Manager.fullSyncLogsAndMemoryWithPersistent (byteParams .binaryApp) s = (.ok (), s') ∧ s'.logger.logsNumber = 0 ∧
    ∀ p, ∃ before fresh s₁ s₂, Manager.fetchK2tree (byteParams .binaryApp) p s = (.ok before, s₁) ∧
      Manager.fetchK2tree (byteParams .binaryApp) p (Manager.openIndex s'.disk) = (.ok fresh, s₂) ∧
      fresh.doesExist = before.doesExist ∧ fresh.result.map byteOps.points = before.result.map byteOps.points := by
  obtain ⟨s₀, s, hc, hrun, hcheck⟩ := afterCalls_spec (show afterCalls syncCheck = true by decide +kernel)
  obtain ⟨s', h1, h2, -, -, h3⟩ := fullSync_loses_nothing (P := byteParams .binaryApp) byteOps_lawful rfl
    (fun _ => Nat.one_pos) (fun _ => Nat.one_lt_two_pow (by decide)) builtDisk_fresh (.lazily hc) syncCalls hrun
    (fun s₁ hs₁ => syncCheck_netUpdate hcheck hs₁)
  refine ⟨s₀, s, s', hc, hrun, h1, h2, h3 ?_⟩
  simp only [syncCheck, Bool.and_eq_true, decide_eq_true_eq, h1] at hcheck
  exact hcheck.2

end K2Cache
