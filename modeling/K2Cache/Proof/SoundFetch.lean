import K2Cache.Proof.SoundIndex

/-!
# Loading from a sound index and its log

A predicate that is not in memory is served as its tree of the file with its records of
the log replayed on it (`Records.replay`). The index and the log are independent here: the
index is sound, the log has its records.

* `loadSinglePredicate_sound`, `fetchK2tree_sound`: both return, and leave the predicate in
  memory as it is served.
-/

namespace K2Cache

open Lib

variable {T : Type} {P : CacheParams T} {recs : Records T} {s s' : Manager T} {p : UInt64} {E : UInt64 → Prop}

/-- The points of a predicate's tree of the file, if there is one, with its records
replayed on it. -/
def Records.replay (ops : TreeOps T) (recs : Records T) (p : UInt64) (o : Option T) : Option (Set Point) :=
  if o.isNone && (recs p).isEmpty then none else some (Patch.applyAll (recs.patches ops p) (ops.pointsOpt o))

theorem Records.replay_nil {ops : TreeOps T} (h : recs p = []) (o : Option T) : recs.replay ops p o = o.map ops.points := by
  cases o with
  | none => simp [Records.replay, h]
  | some t =>
    simp only [Records.replay, Records.patches, h, Option.isNone_some, Bool.false_and, Bool.false_eq_true, if_false]
    rfl

theorem Records.replay_known {ops : TreeOps T} {o : Option T} (h : o ≠ none ∨ recs p ≠ []) :
    recs.replay ops p o = some (Patch.applyAll (recs.patches ops p) (ops.pointsOpt o)) := by
  rw [Records.replay, if_neg]
  simp only [Bool.and_eq_true, Option.isNone_iff_eq_none, List.isEmpty_iff, not_and_or]
  exact h

/-- **What the manager serves of a predicate.** -/
def Manager.Serves (ops : TreeOps T) (recs : Records T) (s : Manager T) (p : UInt64) (o : Option (Set Point)) : Prop :=
  (∃ t, s.index.predicates.find? p = some t ∧ o = some (ops.points t)) ∨
    (s.index.predicates.find? p = none ∧ ∃ f, s.index.FileServes ops p f ∧ o = recs.replay ops p f)

/-- The log is as it was. -/
theorem LogPart.congr {ops : TreeOps T} (h : LogPart ops recs s) (hlogger : s'.logger = s.logger)
    (href : s'.merger.refSet = s.merger.refSet)
    (hdisk : s'.disk (FileRWHandler.file .updateLog) = s.disk (FileRWHandler.file .updateLog)) : LogPart ops recs s' := by
  have hbytes : s'.logBytes = s.logBytes := Disk.bytes_congr hdisk
  refine ⟨?_, fun r hr => ?_, href.trans h.refSet⟩
  · rw [hbytes, hlogger]
    exact h.registered
  · rw [hlogger] at hr
    rw [hbytes]
    exact h.reader r hr

/-- The file has a tree of the predicate, or none. -/
theorem Index.SoundBut.fileServes {ops : TreeOps T} {x : Index T} (h : Index.SoundBut ops E x) (p : UInt64) :
    ∃ f, x.FileServes ops p f ∧ (x.isStoredInMainIndex p = f.isSome) := by
  cases hmd : x.metadata.metadataMap.find? p with
  | none => exact ⟨none, hmd, (OrdMap.contains_eq_false _).2 hmd⟩
  | some md =>
    obtain ⟨-, -, t, ht⟩ := h.main p md hmd
    exact ⟨some t, ⟨md, hmd, ht⟩, (OrdMap.contains_iff _).2 ⟨md, hmd⟩⟩

namespace Manager

/-- A manager whose index is sound, with its log. -/
structure Sound (ops : TreeOps T) (E : UInt64 → Prop) (recs : Records T) (s : Manager T) : Prop where
  log : LogPart ops recs s
  index : Index.SoundBut ops E s.index
  hasUpdateLogger : s.index.hasUpdateLogger = true

theorem Sound.stored_iff {ops : TreeOps T} (h : Sound ops E recs s) : s.isStoredInUpdatesLog p = true ↔ recs p ≠ [] := by
  rw [isStoredInUpdatesLog, h.hasUpdateLogger, Bool.true_and, UpdatesLogger.hasPredicateStored,
    OrdMap.contains, Option.isSome_iff_ne_none, ne_eq, h.log.registered.find?_eq_none]

/-- Another index in the place of this one. -/
theorem Sound.setIndex {ops : TreeOps T} (h : Sound ops E recs s) {x : Index T} {E' : UInt64 → Prop}
    (hx : Index.SoundBut ops E' x) (hlog : x.hasUpdateLogger = s.index.hasUpdateLogger) : Sound ops E' recs (s.setIndex x) :=
  ⟨⟨h.log.registered, h.log.reader, h.log.refSet⟩, hx, hlog.trans h.hasUpdateLogger⟩

variable (hl : P.ops.Lawful)
include hl

/-- **`recover_predicate`** replays the records on the tree in memory. -/
theorem recoverPredicate_sound (h : Sound P.ops E recs s) (hp : recs p ≠ []) :
    ∃ s' : Manager T, LogEnv.recoverPredicate P.logger p s = (.ok (), s') ∧ Sound P.ops E recs s' ∧
      Index.Touches p s.index s'.index ∧
      (s.index.predicates.contains p = true → s'.index.predicates.contains p = true) ∧
      s'.index.held P.ops p = Patch.applyAll (recs.patches P.ops p) (s.index.held P.ops p) := by
  obtain ⟨s', h1, h2, h3, h4, h5⟩ := recoverPredicate_spec hl h.log hp
  have hkeep := keeps_recoverPredicate (P := P) (Index.SoundBut.stable hl).merging p s ⟨rfl, h.index⟩
  rw [h1] at hkeep
  exact ⟨s', h1, ⟨h2, hkeep.index, h3.hasUpdateLogger.trans h.hasUpdateLogger⟩, h3, h4, h5⟩

/-- **`load_single_predicate`**: what is served of a predicate that was not in memory is
there then. -/
theorem loadSinglePredicate_sound (h : Sound P.ops E recs s) {f : Option T} (hf : s.index.FileServes P.ops p f) :
    ∃ s' : Manager T, loadSinglePredicate P p s = (.ok (recs.replay P.ops p f).isSome, s') ∧ Sound P.ops E recs s' ∧
      Index.Touches p s.index s'.index ∧ (f ≠ none → s'.index.predicates.contains p = true) ∧
      (s.index.predicates.find? p = none →
        s'.index.held P.ops p = Patch.applyAll (recs.patches P.ops p) (P.ops.pointsOpt f)) ∧
      (recs.replay P.ops p f = none → s' = s) := by
  have hmain : s.index.isStoredInMainIndex p = f.isSome := by
    obtain ⟨f', hf', hm⟩ := h.index.fileServes p
    rw [hm, hf.unique hl hf']
  have hstored : hasPredicateStored s p = (recs.replay P.ops p f).isSome := by
    rw [Bool.eq_iff_iff, hasPredicateStored, Bool.or_eq_true, h.stored_iff, hmain]
    by_cases hk : f ≠ none ∨ recs p ≠ []
    · rw [Records.replay_known hk, Option.isSome_iff_ne_none]
      simpa using hk
    · rw [not_or, not_not, not_not] at hk
      simp [Records.replay, hk]
  -- the tree of the file, or none
  obtain ⟨s₁, h1, i1, t1, c1, e1⟩ : ∃ s₁ : Manager T,
      Act.when (s.index.isStoredInMainIndex p) (onIndex (Index.loadFromMainIndex P.ops p)) s = (.ok (), s₁) ∧
      Sound P.ops E recs s₁ ∧ Index.Touches p s.index s₁.index ∧ (f ≠ none → s₁.index.predicates.contains p = true) ∧
      (s.index.predicates.find? p = none → s₁.index.held P.ops p = P.ops.pointsOpt f) := by
    rw [hmain]
    cases f with
    | none => exact ⟨s, rfl, h, Index.Touches.refl p _, fun hn => absurd rfl hn, fun hp => by rw [Index.held_of_none hp]; rfl⟩
    | some t =>
      obtain ⟨x', h1, h2, h3, h4⟩ := h.index.load hl hf
      refine ⟨s.setIndex x', ?_, h.setIndex h4 h2.hasUpdateLogger, h2, fun _ => (OrdMap.contains_iff _).2 ⟨t, h3⟩, fun _ => ?_⟩
      · rw [Option.isSome_some, Act.when_true, onIndex_run, h1]
      · rw [setIndex_index, Index.held_of_find? h3]
        rfl
  -- the records of the log, if there are some
  obtain ⟨s₂, h2, i2, t2, c2, e2⟩ : ∃ s₂ : Manager T,
      Act.when (s.isStoredInUpdatesLog p) (LogEnv.recoverPredicate P.logger p) s₁ = (.ok (), s₂) ∧
      Sound P.ops E recs s₂ ∧ Index.Touches p s₁.index s₂.index ∧
      (s₁.index.predicates.contains p = true → s₂.index.predicates.contains p = true) ∧
      s₂.index.held P.ops p = Patch.applyAll (recs.patches P.ops p) (s₁.index.held P.ops p) := by
    by_cases hr : recs p = []
    · have hn : s.isStoredInUpdatesLog p = false := by
        rw [Bool.eq_false_iff, ne_eq, h.stored_iff, not_not]
        exact hr
      rw [hn]
      refine ⟨s₁, rfl, i1, Index.Touches.refl p _, id, ?_⟩
      rw [Records.patches, hr]
      rfl
    · rw [h.stored_iff.2 hr, Act.when_true]
      exact recoverPredicate_sound hl i1 hr
  cases hst : (recs.replay P.ops p f).isSome with
  | true =>
    refine ⟨s₂, ?_, i2, t1.trans t2, c2 ∘ c1, fun hp => by rw [e2, e1 hp], fun hn => by simp [hn] at hst⟩
    simp only [loadSinglePredicate, Act.get_bind, hstored, hst, if_true]
    rw [Act.bind_ok h1, Act.bind_ok h2]
    rfl
  | false =>
    have hk : ¬ (f ≠ none ∨ recs p ≠ []) := by
      intro hk
      rw [Records.replay_known hk] at hst
      cases hst
    rw [not_or, not_not, not_not] at hk
    refine ⟨s, ?_, h, Index.Touches.refl p _, fun hn => absurd hk.1 hn, fun hp => ?_, fun _ => rfl⟩
    · simp [loadSinglePredicate, hstored, hst]
    · rw [Index.held_of_none hp, Records.patches, hk.1, hk.2]
      rfl

/-- The tree of a predicate that only the log knows, and only removes points from. -/
theorem activateFromLog_sound (h : Sound P.ops E recs s) (hp : s.index.predicates.contains p = true ∨ recs p ≠ []) :
    ∃ s' : Manager T, activateFromLog P p s = (.ok (), s') ∧ Sound P.ops E recs s' ∧ Index.Touches p s.index s'.index ∧
      s'.index.predicates.contains p = true ∧
      (s.index.predicates.contains p = true → s' = s) ∧
      (s.index.predicates.contains p = false → s'.index.held P.ops p = Patch.applyAll (recs.patches P.ops p) ∅) := by
  cases hc : s.index.predicates.contains p with
  | true =>
    refine ⟨s, ?_, h, Index.Touches.refl p _, hc, fun _ => rfl, by simp⟩
    simp [activateFromLog, Index.hasPredicateActive_eq, hc]
  | false =>
    have hr : recs p ≠ [] := hp.resolve_left (by simp [hc])
    -- an empty tree, and the records replayed on it
    obtain ⟨s', h1, h2, h3, h4, h5⟩ := recoverPredicate_sound hl
      (h.setIndex (x := s.index.addPredicate P.ops p) (h.index.addPredicate p) rfl) hr
    have hadd := Index.addPredicate_find? P.ops s.index p
    refine ⟨s', ?_, h2, (Index.touches_addPredicate P.ops s.index p).trans h3,
      h4 (by rw [setIndex_index, OrdMap.contains, hadd]; rfl), by simp, fun _ => ?_⟩
    · simp only [activateFromLog, Act.get_bind, Index.hasPredicateActive_eq, hc, h.stored_iff.2 hr]
      exact h1
    · rw [h5, setIndex_index, Index.held_of_find? hadd, hl.points_empty]

/-- **`fetch_k2tree` returns what is served**, and leaves it in memory. -/
theorem fetchK2tree_sound (h : Sound P.ops E recs s) (p : UInt64) :
    ∃ (o : Option T) (s' : Manager T), fetchK2tree P p s = (.ok ⟨o.isSome, o⟩, s') ∧ Sound P.ops E recs s' ∧
      Index.Touches p s.index s'.index ∧ s'.index.predicates.find? p = o ∧
      Manager.Serves P.ops recs s p (o.map P.ops.points) := by
  cases hp : s.index.predicates.find? p with
  | some t =>
    have hc : s.index.predicates.contains p = true := (OrdMap.contains_iff _).2 ⟨t, hp⟩
    obtain ⟨s', h1, h2, h3, -, h4, -⟩ := activateFromLog_sound (p := p) hl h (.inl hc)
    obtain rfl : s' = s := h4 hc
    refine ⟨some t, s', ?_, h2, h3, hp, .inl ⟨t, hp, rfl⟩⟩
    rw [fetchK2tree, Act.get_bind, hc, if_pos rfl, Act.pure_bind_run, if_pos rfl, Act.bind_ok h1, Act.get_bind, hp]
    rfl
  | none =>
    have hc : s.index.predicates.contains p = false := (OrdMap.contains_eq_false _).2 hp
    obtain ⟨f, hf, -⟩ := h.index.fileServes p
    obtain ⟨s₁, h1, i1, t1, c1, e1, n1⟩ := loadSinglePredicate_sound hl h hf
    have hif : (if s.index.predicates.contains p then pure true else loadSinglePredicate P p : Act Exn (Manager T) Bool) s =
        (.ok (recs.replay P.ops p f).isSome, s₁) := by
      rw [hc]
      exact h1
    by_cases hk : f ≠ none ∨ recs p ≠ []
    · obtain ⟨s₂, h2, i2, t2, c2, e2, e3⟩ := activateFromLog_sound (p := p) hl i1 (hk.imp_left c1)
      obtain ⟨t, ht⟩ := (OrdMap.contains_iff _).1 c2
      have hpoints : P.ops.points t = Patch.applyAll (recs.patches P.ops p) (P.ops.pointsOpt f) := by
        rw [← Index.held_of_find? ht]
        cases hc₁ : s₁.index.predicates.contains p with
        | true => rw [e2 hc₁, e1 hp]
        | false =>
          -- the file has no tree, and what was replayed on nothing is replayed again
          have hnone : f = none := by
            by_contra hn
            rw [c1 hn] at hc₁
            cases hc₁
          rw [e3 hc₁, hnone]
          rfl
      refine ⟨some t, s₂, ?_, i2, t1.trans t2, ht, .inr ⟨hp, f, hf, ?_⟩⟩
      · rw [fetchK2tree, Act.get_bind, Act.bind_ok hif, Records.replay_known hk, Option.isSome_some, if_pos rfl,
          Act.bind_ok h2, Act.get_bind, ht]
        rfl
      · rw [Records.replay_known hk, Option.map_some, hpoints]
    · rw [not_or, not_not, not_not] at hk
      have hnone : recs.replay P.ops p f = none := by simp [Records.replay, hk]
      rw [hnone] at hif
      refine ⟨none, s₁, ?_, i1, t1, by rw [n1 hnone, hp], .inr ⟨hp, f, hf, ?_⟩⟩
      · rw [fetchK2tree, Act.get_bind, Act.bind_ok hif]
        rfl
      · rw [hnone]
        rfl

end Manager

end K2Cache
