import K2Cache.Proof.Replay

/-!
# What the calls keep of the index

Every call of the manager works on the index through three steps: a predicate is added,
a changed tree takes the place of one in memory, a tree of the index file is loaded. What
these preserve (`Index.Stable`) the calls preserve, whether they return or throw, and
none of them but `sync_to_persistent` writes the index file (`OnDisk`).
-/

namespace K2Cache

open Lib

variable {T : Type} {P : CacheParams T} {s s' : Manager T} {I : Index T → Prop} {d : Option Bytes}

/-- **What the steps on an index preserve.** -/
structure Index.Stable (ops : TreeOps T) (I : Index T → Prop) : Prop where
  add : ∀ x p, I x → I (x.addPredicate ops p)
  merge : ∀ x p t, x.predicates.contains p = true → I x → I ((x.setTree p t).markDirty p)
  load : ∀ p, Act.Keeps I (loadFromMainIndex ops p)

/-- What the steps preserve by which the logger gives back what it reads. -/
structure Index.Merging (ops : TreeOps T) (I : Index T → Prop) : Prop where
  add : ∀ x p, I x → I (x.addPredicate ops p)
  merge : ∀ x p t, x.predicates.contains p = true → I x → I ((x.setTree p t).markDirty p)

theorem Index.Stable.merging {ops : TreeOps T} (hI : Index.Stable ops I) : Index.Merging ops I := ⟨hI.add, hI.merge⟩

namespace Index

variable {ops : TreeOps T} (hI : Merging ops I)
include hI

theorem Merging.mergeOpTree (op : T → T → T) (create : Bool) (p : UInt64) (toMerge : T) :
    Act.Keeps I (mergeOpTree ops op create p toMerge) := by
  intro x h
  unfold Index.mergeOpTree
  split
  · exact h
  · have h₁ : I (if x.hasPredicateActive p then x else x.addPredicate ops p) := by
      split
      · exact h
      · exact hI.add x p h
    simp only
    split
    · exact h₁
    · rename_i t ht
      exact hI.merge _ p _ ((OrdMap.contains_iff _).2 ⟨t, ht⟩) h₁

theorem Merging.mergeUpdate (us : List (K2TreeUpdates T)) : Act.Keeps I (mergeUpdate ops us) := by
  refine Act.Keeps.forEach fun u _ => Act.keeps_get.bind fun x => ?_
  split
  · exact (Act.Keeps.forSome (fun t => hI.mergeOpTree _ _ _ t) _).bind fun _ =>
      Act.Keeps.forSome (fun t => hI.mergeOpTree _ _ _ t) _
  · exact Act.keeps_pure ()

end Index

/-- The index file has these contents, and `I` holds of the index. -/
structure OnDisk (I : Index T → Prop) (d : Option Bytes) (s : Manager T) : Prop where
  file : s.disk (FileRWHandler.file .index) = d
  index : I s.index

/-- The logger has its files and its own state. -/
theorem OnDisk.congr (h : OnDisk I d s) (hd : s'.disk (FileRWHandler.file .index) = s.disk (FileRWHandler.file .index))
    (hx : s'.index = s.index) : OnDisk I d s' := ⟨hd.trans h.file, hx ▸ h.index⟩

namespace Manager

/-! ## Fetches -/

/-- What the parts of a fetch preserve. -/
structure FetchKeeps (P : CacheParams T) (J : Manager T → Prop) : Prop where
  load : ∀ p, Act.Keeps J (onIndex (Index.loadFromMainIndex P.ops p))
  add : ∀ p, Act.Keeps J (addPredicate P p)
  recover : ∀ p, Act.Keeps J (LogEnv.recoverPredicate P.logger p)

namespace FetchKeeps

variable {J : Manager T → Prop} (h : FetchKeeps P J)
include h

theorem loadSinglePredicate (p : UInt64) : Act.Keeps J (loadSinglePredicate P p) := by
  refine Act.keeps_get.bind fun e => ?_
  split
  · exact (Act.Keeps.when (h.load p)).bind fun _ => (Act.Keeps.when (h.recover p)).bind fun _ => Act.keeps_pure _
  · exact Act.keeps_pure _

theorem activateFromLog (p : UInt64) : Act.Keeps J (activateFromLog P p) := by
  refine Act.keeps_get.bind fun e => ?_
  split
  · exact (h.add p).bind fun _ => h.recover p
  · exact Act.keeps_pure _

theorem fetchK2tree (p : UInt64) : Act.Keeps J (fetchK2tree P p) := by
  refine Act.keeps_get.bind fun e => Act.Keeps.bind ?_ fun found => ?_
  · split
    · exact Act.keeps_pure _
    · exact h.loadSinglePredicate p
  · split
    · exact (h.activateFromLog p).bind fun _ => Act.keeps_get.bind fun _ => Act.keeps_pure _
    · exact Act.keeps_pure _

end FetchKeeps

/-! ## Single calls -/

theorem keeps_onIndex {α : Type} {y : Act Exn (Index T) α} (hy : Act.Keeps I y) : Act.Keeps (OnDisk I d) (onIndex y) :=
  fun _ h => ⟨h.file, hy _ h.index⟩

theorem keeps_forward {y : Act Exn (Index T) Unit} (hy : Act.Keeps I y) :
    Act.Keeps (OnDisk I d) (LogEnv.onMerger (PCMMergerWrapper.forward y) : Act Exn (Manager T) Unit) := by
  intro s h
  refine ⟨h.file, ?_⟩
  show I (PCMMergerWrapper.forward y s.merger).2.ref
  cases hr : s.merger.refSet with
  | true =>
    have hcheck : PCMMergerWrapper.noRefCheck s.merger = (.ok (), s.merger) := by simp [PCMMergerWrapper.noRefCheck, hr]
    rw [PCMMergerWrapper.forward, Act.bind_ok hcheck]
    exact hy _ h.index
  | false =>
    have hcheck : PCMMergerWrapper.noRefCheck s.merger =
        (.error (.noRefException "wrapper doesn't have ref set: on PCMMergerWrapper"), s.merger) := by
      simp [PCMMergerWrapper.noRefCheck, hr]
    rw [PCMMergerWrapper.forward, Act.bind_error hcheck]
    exact h.index

theorem keeps_removeKey (hdiscard : ∀ x p, I x → I (x.discardInMemoryPredicate p)) (p : UInt64) :
    Act.Keeps (OnDisk I d) (removeKey p : Act Exn (Manager T) Unit) :=
  keeps_onIndex (Act.keeps_modify fun x h => hdiscard x p h)

section Merging

variable (hI : Index.Merging P.ops I)
include hI

theorem keeps_mergeUpdate (u : PredicateUpdate T) : Act.Keeps (OnDisk I d) (LogEnv.mergeUpdate P.logger u) :=
  (Act.Keeps.forSome (fun t => keeps_forward (hI.mergeOpTree _ _ _ t)) _).bind fun _ =>
    Act.Keeps.forSome (fun t => keeps_forward (hI.mergeOpTree _ _ _ t)) _

theorem keeps_recoverPredicate (p : UInt64) : Act.Keeps (OnDisk I d) (LogEnv.recoverPredicate P.logger p) := by
  refine Act.keeps_get.bind fun e => ?_
  split
  · refine (Act.keeps_modify fun s h => h.congr rfl rfl).bind fun _ => ?_
    cases e.logger.offsetsMap.find? p with
    | none => exact Act.keeps_throw _
    | some offsets =>
      refine Act.Keeps.forEach fun off _ => Act.Keeps.bind (fun s h => h.congr rfl rfl) fun u => ?_
      exact keeps_mergeUpdate hI u
  · exact Act.keeps_pure ()

theorem keeps_recoverRecords (n : ℕ) : Act.Keeps (OnDisk I d) (LogEnv.recoverRecords P.logger n) := by
  induction n with
  | zero => exact Act.keeps_pure ()
  | succ n ih =>
    refine Act.Keeps.bind (fun s h => h.congr rfl rfl) fun u => ?_
    exact (keeps_mergeUpdate hI u).bind fun _ => ih

theorem keeps_recoverUpdates (n : ℕ) : Act.Keeps (OnDisk I d) (LogEnv.recoverUpdates P.logger n) := by
  induction n with
  | zero => exact Act.keeps_pure ()
  | succ n ih =>
    refine Act.Keeps.bind (Act.Keeps.bind (fun s h => h.congr rfl rfl) fun count => ?_) fun _ => ih
    exact keeps_recoverRecords hI _

theorem keeps_recoverAll : Act.Keeps (OnDisk I d) (LogEnv.recoverAll P.logger) := by
  refine (Act.keeps_modify fun s h => h.congr rfl rfl).bind fun _ => Act.keeps_get.bind fun e => ?_
  split
  · exact (Act.keeps_modify fun s h => h.congr rfl rfl).bind fun _ => keeps_recoverUpdates hI _
  · exact Act.keeps_pure ()

theorem keeps_addPredicate (p : UInt64) : Act.Keeps (OnDisk I d) (addPredicate P p) :=
  keeps_onIndex (Act.keeps_modify fun x h => hI.add x p h)

theorem keeps_log (us : List (K2TreeUpdates T)) : Act.Keeps (OnDisk I d) (LogEnv.log P.logger us) := by
  have hother : ∀ (d : Disk) (q : Path) (bs : Option Bytes), q.1 ≠ .index →
      d.set q bs (FileRWHandler.file .index) = d (FileRWHandler.file .index) := by
    intro d q bs hq
    refine Disk.set_ne _ _ ?_
    rintro rfl
    exact hq rfl
  have hopen : ∀ s : Manager T, OnDisk I d s → OnDisk I d (LogEnv.openWriter P.logger s) := by
    intro s h
    refine h.congr ?_ rfl
    show (if s.logger.writerOpen then s.disk else s.disk.openOut _ _) _ = _
    split
    · rfl
    · unfold Disk.openOut
      split <;> exact hother _ _ _ (by decide)
  have happend : ∀ s : Manager T, OnDisk I d s → OnDisk I d (LogEnv.appendBatch P.logger us s) := by
    intro s h
    refine h.congr ?_ rfl
    simp only [LogEnv.appendBatch]
    exact hother _ _ _ (by decide)
  have hsync : ∀ s : Manager T, OnDisk I d s → OnDisk I d (LogEnv.syncOffsets s) := by
    intro s h
    exact h.congr (syncOffsets_other s (by decide)) rfl
  have hcount : ∀ s : Manager T, OnDisk I d s → OnDisk I d (LogEnv.countUpdate s) := by
    intro s h
    exact h.congr (countUpdate_other s (by decide)) rfl
  exact (Act.keeps_modify hopen).bind fun _ => (Act.keeps_modify happend).bind fun _ => (Act.keeps_modify hsync).bind
    fun _ => (keeps_forward (hI.mergeUpdate us)).bind fun _ => Act.keeps_modify hcount

end Merging

section Stable

variable (hI : Index.Stable P.ops I)
include hI

theorem fetchKeeps : FetchKeeps P (OnDisk I d) :=
  ⟨fun p => keeps_onIndex (hI.load p), keeps_addPredicate hI.merging, keeps_recoverPredicate hI.merging⟩

theorem keeps_loadSinglePredicate (p : UInt64) : Act.Keeps (OnDisk I d) (loadSinglePredicate P p) :=
  (fetchKeeps hI).loadSinglePredicate p

theorem keeps_retrieveKey (p : UInt64) : Act.Keeps (OnDisk I d) (retrieveKey P p) :=
  (keeps_loadSinglePredicate hI p).bind fun _ => Act.keeps_pure _

theorem keeps_fetchK2tree (p : UInt64) : Act.Keeps (OnDisk I d) (fetchK2tree P p) := (fetchKeeps hI).fetchK2tree p

theorem keeps_activate (p : UInt64) : Act.Keeps (OnDisk I d) (activate P p) := by
  refine Act.keeps_get.bind fun e => ?_
  simp only
  split
  · exact keeps_retrieveKey hI p
  · split
    · exact keeps_addPredicate hI.merging p
    · exact Act.keeps_pure _

end Stable

end Manager

end K2Cache
