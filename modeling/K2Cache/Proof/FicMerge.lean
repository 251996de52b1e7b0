import K2Cache.Proof.CachedStream
import K2Cache.Proof.LogMerger
import K2Cache.Proof.Refine
import K2Cache.Spec.FicManager

/-!
# Merges and the indexed cache

`mergeOpTree_cases`: a merge does to the index what it does without an indexed cache, and
leaves an indexed predicate with the points of the merged tree.

* `erases_loadSinglePredicate`, `erases_fetchK2tree` and so on: without its indexed cache,
  the manager is the one without.
* `Synced`: indexed predicates that are in memory have the points of their trees.
* `Since`: indexed predicates are as they were, or have been made of the tree in memory.
-/

namespace K2Cache

open Lib

variable {T : Type} {ops : TreeOps T}

/-! ## Indexed predicates -/

namespace FullyIndexedPredicate

/-- **The predicate has these pairs**, whichever way it is asked. -/
structure Indexes (src : FullyIndexedPredicate) (S : Set Point) : Prop where
  has : ∀ s o, src.has s o = true ↔ (s, o) ∈ S
  objects : ∀ s o, o ∈ src.getObjects s ↔ (s, o) ∈ S
  subjects : ∀ s o, s ∈ src.getSubjects o ↔ (s, o) ∈ S
  allSubjects : ∀ s, s ∈ src.subjects.keys ↔ ∃ o, (s, o) ∈ S
  allObjects : ∀ o, o ∈ src.objects.keys ↔ ∃ s, (s, o) ∈ S

theorem indexes_construct (hl : ops.Lawful) (t : T) : (construct ops t).Indexes (ops.points t) := by
  refine ⟨fun s o => ?_, fun s o => mem_getObjects hl, fun s o => mem_getSubjects hl, fun s => ?_, fun o => ?_⟩
  · rw [has_construct hl]
    rfl
  · refine (mem_subjects_foldl _ _ s).trans ⟨?_, ?_⟩
    · rintro (h | ⟨x, hx, rfl⟩)
      · exact absurd h (by simp [OrdMap.mem_keys])
      · exact ⟨x.2, (hl.mem_fullScan t x).1 hx⟩
    · rintro ⟨o, h⟩
      exact .inr ⟨(s, o), (hl.mem_fullScan t _).2 h, rfl⟩
  · refine (mem_objects_foldl _ _ o).trans ⟨?_, ?_⟩
    · rintro (h | ⟨x, hx, rfl⟩)
      · exact absurd h (by simp [OrdMap.mem_keys])
      · exact ⟨x.1, (hl.mem_fullScan t x).1 hx⟩
    · rintro ⟨s, h⟩
      exact .inr ⟨(s, o), (hl.mem_fullScan t _).2 h, rfl⟩

/-- The pairs of an indexed predicate. -/
def pairs (src : FullyIndexedPredicate) : Set Point := {x | src.has x.1 x.2 = true}

theorem Indexes.pairs {src : FullyIndexedPredicate} {S : Set Point} (h : src.Indexes S) : src.pairs = S :=
  Set.ext fun x => h.has x.1 x.2

end FullyIndexedPredicate

namespace FullyIndexedCache

variable (c : FullyIndexedCache) (p q : UInt64) (src : FullyIndexedPredicate)

theorem get_setSource : (c.setSource p src).get q = if q = p then some src else c.get q := by
  unfold get setSource
  rw [OrdMap.find?_insert]

theorem get_removeKey : (c.removeKey p).get q = if q = p then none else c.get q := by
  unfold get removeKey
  rw [OrdMap.find?_erase]

/-- An indexed predicate is indexed again. -/
def resync : FullyIndexedCache := if c.cachedPredicatesSources.contains p then c.setSource p src else c

theorem get_resync : (c.resync p src).get q = if q = p then (c.get p).map fun _ => src else c.get q := by
  unfold resync
  cases h : c.cachedPredicatesSources.contains p with
  | true =>
    obtain ⟨old, hold⟩ := (OrdMap.contains_iff _).1 h
    rw [if_pos rfl, get_setSource, show c.get p = some old from hold]
    rfl
  | false =>
    have hnone : c.get p = none := (OrdMap.contains_eq_false _).1 h
    rw [if_neg (by simp), hnone]
    by_cases hqp : q = p
    · rw [if_pos hqp, hqp, hnone]
      rfl
    · rw [if_neg hqp]

end FullyIndexedCache

/-! ## Merges -/

namespace FicIndex

variable {p : UInt64} {s : FicIndex T}

/-- What `merge_op_tree` does to an index: nothing, or it leaves a tree of the predicate. -/
theorem index_mergeOpTree_cases (ops : TreeOps T) (op : T → T → T) (create : Bool) (p : UInt64) (toMerge : T) (x : Index T) :
    ((!x.hasPredicateActive p && !create) = true ∧ Index.mergeOpTree ops op create p toMerge x = (.ok (), x)) ∨
      ((!x.hasPredicateActive p && !create) = false ∧ ∃ x' t', Index.mergeOpTree ops op create p toMerge x = (.ok (), x') ∧
        x'.predicates.find? p = some t' ∧ ∀ q, q ≠ p → x'.predicates.find? q = x.predicates.find? q) := by
  unfold Index.mergeOpTree
  cases hskip : !x.hasPredicateActive p && !create with
  | true => exact .inl ⟨rfl, rfl⟩
  | false =>
    right
    set x₁ := if x.hasPredicateActive p then x else x.addPredicate ops p with hx₁
    -- the predicate has a tree then
    obtain ⟨t, ht⟩ : ∃ t, x₁.predicates.find? p = some t := by
      rw [hx₁]
      cases hact : x.hasPredicateActive p with
      | true =>
        rw [Index.hasPredicateActive_eq] at hact
        exact (OrdMap.contains_iff _).1 hact
      | false => exact ⟨_, Index.addPredicate_find? ops x p⟩
    have hother : ∀ q, q ≠ p → x₁.predicates.find? q = x.predicates.find? q := by
      intro q hq
      rw [hx₁]
      split
      · rfl
      · exact (Index.touches_addPredicate ops x p).other q hq
    refine ⟨rfl, (x₁.setTree p (op t toMerge)).markDirty p, op t toMerge, ?_, OrdMap.find?_insert_self _ _ _, fun q hq => ?_⟩
    · simp only [Bool.false_eq_true, if_false, ht]
    · exact (OrdMap.find?_insert_ne _ _ hq).trans (hother q hq)

/-- A resync of a predicate in memory. -/
theorem resyncPredicate_run {t : T} (h : s.index.predicates.find? p = some t) :
    mergedFetcher.resyncPredicate ops p s = (.ok (), ⟨s.index, s.fic.resync p (.construct ops t)⟩) := by
  unfold FicEnv.resyncPredicate FullyIndexedCache.resync
  rw [Act.get_bind]
  cases hc : (mergedFetcher.cache s).cachedPredicatesSources.contains p with
  | false =>
    have hc' : s.fic.cachedPredicatesSources.contains p = false := hc
    rw [hc', if_neg (by simp), if_neg (by simp)]
    rfl
  | true =>
    have hc' : s.fic.cachedPredicatesSources.contains p = true := hc
    have hfetch : mergedFetcher.fetchK2tree p s = (.ok ⟨true, some t⟩, s) := by
      rw [← h]
      rfl
    rw [hc', if_pos rfl, if_pos rfl, FicEnv.retrieveKey, Act.bind_ok hfetch]
    rfl

/-- **A merge with the indexed cache beside it.** -/
theorem mergeOpTree_cases (ops : TreeOps T) (op : T → T → T) (create : Bool) (p : UInt64) (toMerge : T) (s : FicIndex T) :
    (Index.mergeOpTree ops op create p toMerge s.index = (.ok (), s.index) ∧
        mergeOpTree ops op create p toMerge s = (.ok (), s)) ∨
      ∃ x' t', Index.mergeOpTree ops op create p toMerge s.index = (.ok (), x') ∧ x'.predicates.find? p = some t' ∧
        (∀ q, q ≠ p → x'.predicates.find? q = s.index.predicates.find? q) ∧
        mergeOpTree ops op create p toMerge s = (.ok (), ⟨x', s.fic.resync p (.construct ops t')⟩) := by
  unfold mergeOpTree
  rw [Act.get_bind]
  rcases index_mergeOpTree_cases ops op create p toMerge s.index with ⟨hskip, h1⟩ | ⟨hskip, x', t', h1, h2, h3⟩
  · rw [if_pos hskip]
    exact .inl ⟨h1, rfl⟩
  · have hon : onIndex (Index.mergeOpTree ops op create p toMerge) s = (.ok (), { s with index := x' }) := by
      unfold onIndex Act.focus
      rw [h1]
    rw [if_neg (by simp [hskip]), Act.bind_ok hon]
    exact .inr ⟨x', t', h1, h2, h3, resyncPredicate_run (s := { s with index := x' }) h2⟩

/-! ### The index is the one without -/

theorem erases_mergeOpTree (op : T → T → T) (create : Bool) (p : UInt64) (toMerge : T) :
    Act.Erases index (mergeOpTree ops op create p toMerge) (Index.mergeOpTree ops op create p toMerge) := by
  intro s
  rcases mergeOpTree_cases ops op create p toMerge s with ⟨h1, h2⟩ | ⟨x', t', h1, -, -, h2⟩
  · rw [h1, h2]
    exact ⟨rfl, rfl⟩
  · rw [h1, h2]
    exact ⟨rfl, rfl⟩

theorem erases_mergeUpdate (us : List (K2TreeUpdates T)) :
    Act.Erases index (mergeUpdate ops us) (Index.mergeUpdate ops us) := by
  refine Act.Erases.forEach (fun u => ?_) us
  refine Act.erases_get_bind fun s => Act.Erases.ite Iff.rfl ?_ (Act.erases_pure ())
  exact (Act.Erases.forSome (fun t => erases_mergeOpTree _ _ _ t) _).bind fun _ =>
    Act.Erases.forSome (fun t => erases_mergeOpTree _ _ _ t) _

/-! ### What merges keep -/

/-- What `merge_op_tree` keeps all merges keep. -/
theorem keeps_mergeUpdate {I : FicIndex T → Prop}
    (h : ∀ op create p t, Act.Keeps I (mergeOpTree ops op create p t)) (us : List (K2TreeUpdates T)) :
    Act.Keeps I (mergeUpdate ops us) := by
  refine Act.Keeps.forEach fun u _ => Act.keeps_get.bind fun s => ?_
  split
  · exact (Act.Keeps.forSome (fun t => h _ _ _ t) _).bind fun _ => Act.Keeps.forSome (fun t => h _ _ _ t) _
  · exact Act.keeps_pure ()

/-- **In memory and indexed, a predicate has the same points in both.** -/
def Synced (ops : TreeOps T) (s : FicIndex T) : Prop :=
  ∀ p t src, s.index.predicates.find? p = some t → s.fic.get p = some src → src.Indexes (ops.points t)

/-- **Indexed predicates are as they were in `c`**, or made of the tree in memory. -/
def Since (ops : TreeOps T) (c : FullyIndexedCache) (s : FicIndex T) : Prop :=
  ∀ p src, s.fic.get p = some src →
    c.get p = some src ∨ ∃ t, s.index.predicates.find? p = some t ∧ src = .construct ops t

theorem Since.refl (s : FicIndex T) : Since ops s.fic s := fun _ _ h => .inl h

theorem keeps_synced (hl : ops.Lawful) (op : T → T → T) (create : Bool) (p : UInt64) (toMerge : T) :
    Act.Keeps (Synced ops) (mergeOpTree ops op create p toMerge) := by
  intro s h
  rcases mergeOpTree_cases ops op create p toMerge s with ⟨-, h2⟩ | ⟨x', t', -, hp, hother, h2⟩
  · rw [h2]
    exact h
  · rw [h2]
    intro q t src ht hsrc
    rw [FullyIndexedCache.get_resync] at hsrc
    by_cases hqp : q = p
    · subst hqp
      rw [if_pos rfl] at hsrc
      obtain ⟨_, -, rfl⟩ := Option.map_eq_some_iff.1 hsrc
      obtain rfl : t' = t := Option.some.inj (hp.symm.trans ht)
      exact FullyIndexedPredicate.indexes_construct hl t'
    · rw [if_neg hqp] at hsrc
      exact h q t src ((hother q hqp).symm.trans ht) hsrc

theorem keeps_since {c : FullyIndexedCache} (op : T → T → T) (create : Bool) (p : UInt64) (toMerge : T) :
    Act.Keeps (Since ops c) (mergeOpTree ops op create p toMerge) := by
  intro s h
  rcases mergeOpTree_cases ops op create p toMerge s with ⟨-, h2⟩ | ⟨x', t', -, hp, hother, h2⟩
  · rw [h2]
    exact h
  · rw [h2]
    intro q src hsrc
    rw [FullyIndexedCache.get_resync] at hsrc
    by_cases hqp : q = p
    · subst hqp
      rw [if_pos rfl] at hsrc
      obtain ⟨_, -, rfl⟩ := Option.map_eq_some_iff.1 hsrc
      exact .inr ⟨t', hp, rfl⟩
    · rw [if_neg hqp] at hsrc
      refine (h q src hsrc).imp_right ?_
      rintro ⟨t, ht, rfl⟩
      exact ⟨t, (hother q hqp).trans ht, rfl⟩

end FicIndex

/-! ## The wrapper -/

namespace PCMMergerWrapper

/-- The wrapper of a manager without the indexed cache. -/
def withoutFic (w : PCMMergerWrapper (FicIndex T)) : PCMMergerWrapper (Index T) := ⟨w.refSet, w.ref.index⟩

theorem erases_forward {x : Act Exn (FicIndex T) Unit} {y : Act Exn (Index T) Unit} (h : Act.Erases FicIndex.index x y) :
    Act.Erases withoutFic (forward x) (forward y) := by
  refine Act.Erases.bind (fun w => ?_) fun _ => h.focus (fun _ => rfl) fun _ _ => rfl
  unfold noRefCheck
  show (_ = (if w.refSet then _ else _ : Except Exn Unit × _).1) ∧ _
  cases hr : w.refSet with
  | true => simp [withoutFic, hr]
  | false => simp [withoutFic, hr]

theorem keeps_forward {I : FicIndex T → Prop} {x : Act Exn (FicIndex T) Unit} (h : Act.Keeps I x) :
    Act.Keeps (fun w => I w.ref) (forward x) := by
  refine Act.Keeps.bind (fun w hw => ?_) fun _ w hw => h w.ref hw
  unfold noRefCheck
  split
  · exact hw
  · exact hw

end PCMMergerWrapper

variable {P : CacheParams T}

theorem ficLogger_erases : LoggerParams.Erases PCMMergerWrapper.withoutFic P.ficLogger P.logger where
  ops := rfl
  logMode := rfl
  add _ t := PCMMergerWrapper.erases_forward (FicIndex.erases_mergeOpTree _ _ _ t)
  delete _ t := PCMMergerWrapper.erases_forward (FicIndex.erases_mergeOpTree _ _ _ t)
  update us := PCMMergerWrapper.erases_forward (FicIndex.erases_mergeUpdate us)

theorem ficLogger_keeps {I : FicIndex T → Prop} (h : ∀ op create p t, Act.Keeps I (FicIndex.mergeOpTree P.ops op create p t)) :
    MergerKeeps P.ficLogger fun w => I w.ref where
  add _ t := PCMMergerWrapper.keeps_forward (h _ _ _ t)
  delete _ t := PCMMergerWrapper.keeps_forward (h _ _ _ t)
  update us := PCMMergerWrapper.keeps_forward (FicIndex.keeps_mergeUpdate h us)

/-! ## The manager -/

namespace FicManager

/-- An action of the index. -/
theorem erases_onIndex {α : Type} (x : Act Exn (Index T) α) : Act.Erases manager (onIndex x) (Manager.onIndex x) :=
  fun _ => ⟨rfl, rfl⟩

theorem erases_recoverPredicate (p : UInt64) :
    Act.Erases manager (LogEnv.recoverPredicate P.ficLogger p) (LogEnv.recoverPredicate P.logger p) :=
  ficLogger_erases.recoverPredicate p

theorem erases_log (us : List (K2TreeUpdates T)) : Act.Erases manager (LogEnv.log P.ficLogger us) (LogEnv.log P.logger us) :=
  ficLogger_erases.log us

theorem erases_loadSinglePredicate (p : UInt64) :
    Act.Erases manager (loadSinglePredicate P p) (Manager.loadSinglePredicate P p) := by
  refine Act.erases_get_bind fun s => Act.Erases.ite Iff.rfl ?_ (Act.erases_pure _)
  refine (Act.Erases.when rfl (erases_onIndex _)).bind fun _ => ?_
  exact (Act.Erases.when rfl (erases_recoverPredicate p)).bind fun _ => Act.erases_pure _

theorem erases_activateFromLog (p : UInt64) : Act.Erases manager (activateFromLog P p) (Manager.activateFromLog P p) := by
  refine Act.erases_get_bind fun s => Act.Erases.ite Iff.rfl ?_ (Act.erases_pure _)
  exact (erases_onIndex _).bind fun _ => erases_recoverPredicate p

theorem erases_fetchK2tree (p : UInt64) : Act.Erases manager (fetchK2tree P p) (Manager.fetchK2tree P p) := by
  refine Act.erases_get_bind fun s => Act.Erases.bind ?_ fun found => Act.Erases.ite Iff.rfl ?_ (Act.erases_pure _)
  · exact Act.Erases.ite Iff.rfl (Act.erases_pure _) (erases_loadSinglePredicate p)
  · exact (erases_activateFromLog p).bind fun _ => Act.erases_get_bind fun _ => Act.erases_pure _

theorem erases_loadAllPredicates : Act.Erases manager (loadAllPredicates P) (Manager.loadAllPredicates P) :=
  (erases_onIndex _).bind fun _ => Act.erases_get_bind fun _ => Act.Erases.when rfl ficLogger_erases.recoverAll

/-- **`fetch_k2tree` of a predicate in memory** returns its tree, and changes nothing: what a
resync fetches. -/
theorem fetchK2tree_active {p : UInt64} {s : FicManager T} {t : T} (h : s.index.predicates.find? p = some t) :
    fetchK2tree P p s = (.ok ⟨true, some t⟩, s) := by
  have hc : s.index.predicates.contains p = true := (OrdMap.contains_iff _).2 ⟨t, h⟩
  have hact : activateFromLog P p s = (.ok (), s) := by
    simp [activateFromLog, Index.hasPredicateActive_eq, hc]
  simp only [fetchK2tree, Act.get_bind, hc, if_true, Act.pure_bind_run]
  rw [Act.bind_ok hact, Act.get_bind, h]
  rfl

end FicManager

end K2Cache
