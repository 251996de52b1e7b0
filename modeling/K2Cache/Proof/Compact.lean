import K2Cache.Proof.LogFile
import K2Cache.Spec.PointTree

/-!
# What compaction keeps of a predicate's records

`compact_predicate` folds `merge_with` over the records of a predicate.
`merge_with` keeps the trees the first record has and never makes one it lacks:
compared with the patches of the records, applied one after another,

* a first record without deletes loses the later deletes (`mergeAll_addUpdate` is all
  there is), which shows at the points of the set the later records remove;
* a first record without adds loses the later adds, which shows at the points the
  later records add and the set does not have.

`compactPredicate_patch_iff` says that this is all it loses.
-/

namespace K2Cache

open Lib

variable {T μ : Type}

namespace PredicateUpdate

section Points

variable {ops : TreeOps T} (hl : ops.Lawful)

theorem foldl_mergeAddPoint (ops : TreeOps T) (l : List Point) (u : PredicateUpdate T) :
    l.foldl (mergeAddPoint ops) u =
      ⟨u.predicateId, u.addUpdate.map (l.foldl ops.insert ·), u.delUpdate.map (l.foldl ops.remove ·)⟩ := by
  induction l generalizing u with
  | nil => simp
  | cons x l ih => simp [ih, mergeAddPoint, Function.comp_def]

theorem foldl_mergeDelPoint (ops : TreeOps T) (l : List Point) (u : PredicateUpdate T) :
    l.foldl (mergeDelPoint ops) u =
      ⟨u.predicateId, u.addUpdate.map (l.foldl ops.remove ·), u.delUpdate.map (l.foldl ops.insert ·)⟩ := by
  induction l generalizing u with
  | nil => simp
  | cons x l ih => simp [ih, mergeDelPoint, Function.comp_def]

/-- `merge_with`, on the trees that are there. -/
theorem mergeWith_eq (ops : TreeOps T) (u v : PredicateUpdate T) :
    u.mergeWith ops v =
      ⟨u.predicateId,
        u.addUpdate.map (fun t => v.delUpdate.elim (v.addUpdate.elim t (ops.insertAll t))
          (ops.removeAll (v.addUpdate.elim t (ops.insertAll t)))),
        u.delUpdate.map (fun t => v.delUpdate.elim (v.addUpdate.elim t (ops.removeAll t))
          (ops.insertAll (v.addUpdate.elim t (ops.removeAll t))))⟩ := by
  obtain ⟨q, a, d⟩ := v
  cases a <;> cases d <;>
    simp [mergeWith, foldl_mergeAddPoint, foldl_mergeDelPoint, TreeOps.insertAll, TreeOps.removeAll,
      Function.comp_def]

theorem mergeWith_predicateId (ops : TreeOps T) (u v : PredicateUpdate T) :
    (u.mergeWith ops v).predicateId = u.predicateId := by
  rw [mergeWith_eq]

include hl

/-- The adds after a merge, where there is a tree for them: those of the later record
are put in, its deletes taken out. -/
theorem mergeWith_addUpdate (u v : PredicateUpdate T) :
    (u.mergeWith ops v).addUpdate.map ops.points =
      u.addUpdate.map (fun t => (ops.points t ∪ (v.patch ops).add) \ (v.patch ops).del) := by
  rw [mergeWith_eq]
  simp only [Option.map_map, patch]
  congr 1
  funext t
  cases v.addUpdate <;> cases v.delUpdate <;>
    simp [TreeOps.pointsOpt, hl.points_insertAll, hl.points_removeAll]

theorem mergeWith_delUpdate (u v : PredicateUpdate T) :
    (u.mergeWith ops v).delUpdate.map ops.points =
      u.delUpdate.map (fun t => (ops.points t \ (v.patch ops).add) ∪ (v.patch ops).del) := by
  rw [mergeWith_eq]
  simp only [Option.map_map, patch]
  congr 1
  funext t
  cases v.addUpdate <;> cases v.delUpdate <;>
    simp [TreeOps.pointsOpt, hl.points_insertAll, hl.points_removeAll]

end Points

/-- The fold of `merge_with` over the records after the first. -/
def mergeAll (ops : TreeOps T) (u : PredicateUpdate T) (us : List (PredicateUpdate T)) : PredicateUpdate T :=
  us.foldl (mergeWith ops) u

theorem mergeAll_predicateId (ops : TreeOps T) (u : PredicateUpdate T) (us : List (PredicateUpdate T)) :
    (mergeAll ops u us).predicateId = u.predicateId := by
  induction us generalizing u with
  | nil => rfl
  | cons v us ih => exact (ih _).trans (mergeWith_predicateId ops u v)

variable {ops : TreeOps T} (hl : ops.Lawful)
include hl

/-- **The adds of the merged record**, if the first record has any: those of all
records in sequence. -/
theorem mergeAll_addUpdate (u : PredicateUpdate T) (us : List (PredicateUpdate T)) :
    (mergeAll ops u us).addUpdate.map ops.points =
      u.addUpdate.map (fun t => (Patch.seqAll ⟨ops.points t, ∅⟩ (us.map (patch ops))).add) := by
  -- the adds of a sequence do not depend on the deletes it starts with
  have hadd : ∀ (A D : Set Point) (vs : List (Patch Point)),
      (Patch.seqAll ⟨A, D⟩ vs).add = (Patch.seqAll ⟨A, ∅⟩ vs).add := by
    intro A D vs
    ext x
    rw [Patch.mem_seqAll_add, Patch.mem_seqAll_add]
  induction us generalizing u with
  | nil => simp [mergeAll, Patch.seqAll]
  | cons v us ih =>
    have h1 := mergeWith_addUpdate hl u v
    have h2 := ih (u.mergeWith ops v)
    have h3 := congrArg (Option.map fun A => (Patch.seqAll ⟨A, ∅⟩ (us.map (patch ops))).add) h1
    rw [Option.map_map, Option.map_map] at h3
    refine h2.trans (h3.trans ?_)
    congr 1
    funext t
    simp only [List.map_cons, Patch.seqAll_cons, Function.comp_apply, Patch.seq]
    rw [hadd]
    exact (hadd _ _ _).symm

/-- **The deletes of the merged record**, if the first record has any. -/
theorem mergeAll_delUpdate (u : PredicateUpdate T) (us : List (PredicateUpdate T)) :
    (mergeAll ops u us).delUpdate.map ops.points =
      u.delUpdate.map (fun t => (Patch.seqAll ⟨∅, ops.points t⟩ (us.map (patch ops))).del) := by
  have hdel : ∀ (A D : Set Point) (vs : List (Patch Point)),
      (Patch.seqAll ⟨A, D⟩ vs).del = (Patch.seqAll ⟨∅, D⟩ vs).del := by
    intro A D vs
    ext x
    rw [Patch.mem_seqAll_del, Patch.mem_seqAll_del]
  induction us generalizing u with
  | nil => simp [mergeAll, Patch.seqAll]
  | cons v us ih =>
    have h1 := mergeWith_delUpdate hl u v
    have h2 := ih (u.mergeWith ops v)
    have h3 := congrArg (Option.map fun D => (Patch.seqAll ⟨∅, D⟩ (us.map (patch ops))).del) h1
    rw [Option.map_map, Option.map_map] at h3
    refine h2.trans (h3.trans ?_)
    congr 1
    funext t
    simp only [List.map_cons, Patch.seqAll_cons, Function.comp_apply, Patch.seq]
    rw [hdel]
    exact (hdel _ _ _).symm

/-- The adds of the merged record, point by point. -/
theorem mem_mergeAll_add (u : PredicateUpdate T) (us : List (PredicateUpdate T)) (x : Point) :
    x ∈ ((mergeAll ops u us).patch ops).add ↔ u.addUpdate.isSome = true ∧
      (Patch.verdict (us.map (patch ops)) x = some true ∨
        (Patch.verdict (us.map (patch ops)) x = none ∧ x ∈ (u.patch ops).add)) := by
  have h := mergeAll_addUpdate hl u us
  simp only [patch] at h ⊢
  cases hu : u.addUpdate with
  | none =>
    rw [hu, Option.map_none, Option.map_eq_none_iff] at h
    simp [h, TreeOps.pointsOpt]
  | some t =>
    rw [hu, Option.map_some, Option.map_eq_some_iff] at h
    obtain ⟨t', ht', hp⟩ := h
    simp only [ht', TreeOps.pointsOpt, Option.isSome_some, true_and]
    rw [hp, Patch.mem_seqAll_add]

/-- The deletes of the merged record, point by point. -/
theorem mem_mergeAll_del (u : PredicateUpdate T) (us : List (PredicateUpdate T)) (x : Point) :
    x ∈ ((mergeAll ops u us).patch ops).del ↔ u.delUpdate.isSome = true ∧
      (Patch.verdict (us.map (patch ops)) x = some false ∨
        (Patch.verdict (us.map (patch ops)) x = none ∧ x ∈ (u.patch ops).del)) := by
  have h := mergeAll_delUpdate hl u us
  simp only [patch] at h ⊢
  cases hu : u.delUpdate with
  | none =>
    rw [hu, Option.map_none, Option.map_eq_none_iff] at h
    simp [h, TreeOps.pointsOpt]
  | some t =>
    rw [hu, Option.map_some, Option.map_eq_some_iff] at h
    obtain ⟨t', ht', hp⟩ := h
    simp only [ht', TreeOps.pointsOpt, Option.isSome_some, true_and]
    rw [hp, Patch.mem_seqAll_del]

/-- **Where one merged record and the records in sequence agree**: a point the later
records add needs a tree for adds or to be there already; one they remove needs a tree for
deletes or not to be there. -/
theorem mem_mergeAll_iff (u : PredicateUpdate T) (us : List (PredicateUpdate T)) (S : Set Point) (x : Point) :
    (x ∈ ((mergeAll ops u us).patch ops).apply S ↔ x ∈ Patch.applyAll ((u :: us).map (patch ops)) S) ↔
      (u.addUpdate = none → Patch.verdict (us.map (patch ops)) x = some true → x ∈ S) ∧
      (u.delUpdate = none → Patch.verdict (us.map (patch ops)) x = some false → x ∉ S) := by
  have hA : x ∈ (u.patch ops).add → u.addUpdate ≠ none := fun h hn => by simp [patch, hn, TreeOps.pointsOpt] at h
  have hD : x ∈ (u.patch ops).del → u.delUpdate ≠ none := fun h hn => by simp [patch, hn, TreeOps.pointsOpt] at h
  simp only [Patch.apply, Set.mem_sdiff, Set.mem_union, mem_mergeAll_add hl, mem_mergeAll_del hl]
  rw [Patch.mem_applyAll, List.map_cons, Patch.verdict_cons, Patch.wordOn]
  -- what the later records say of the point decides, then whether the first one has it
  cases Patch.verdict (us.map (patch ops)) x with
  | none =>
    by_cases hd : x ∈ (u.patch ops).del
    · simp [hd, Option.isSome_iff_ne_none, hD hd]
    · by_cases ha : x ∈ (u.patch ops).add
      · simp [hd, ha, Option.isSome_iff_ne_none, hA ha]
      · simp [hd, ha]
  | some b =>
    cases b with
    | false => cases u.delUpdate <;> simp
    | true => cases u.addUpdate <;> simp

end PredicateUpdate

/-! ## compact_predicate -/

section Run

variable {P : LoggerParams T μ} {p : UInt64}

theorem compactRecords_run (hl : P.ops.Lawful) {offs : List ℕ} {us : List (K2TreeUpdates T)} {e : LogEnv μ}
    (m : PredicateUpdate T) (hf : e.currentReader.fail = false)
    (hlog : List.Forall₂ (LoggedAt P.ops e.currentReader.data p) offs us) :
    ∃ s, LogEnv.compactRecords P p offs (some m) (e.setReader e.currentReader) =
        (.ok (some (m.mergeAll P.ops (us.map K2TreeUpdates.toPredicateUpdate))), e.setReader s) ∧
      s.data = e.currentReader.data ∧ s.fail = false := by
  induction offs generalizing us e m with
  | nil =>
    cases hlog
    exact ⟨_, rfl, rfl, hf⟩
  | cons off offs ih =>
    cases hlog with
    | cons h hs =>
      rename_i u us
      obtain ⟨s, h1, h2, h3⟩ := LogEnv.withReader_recover (e := e.setReader e.currentReader) hl h hf
      rw [LogEnv.setReader_setReader] at h1
      obtain ⟨s', h4, h5, h6⟩ := ih (e := e.setReader s) (m.mergeWith P.ops u.toPredicateUpdate) h3
        (by rw [LogEnv.setReader_currentReader, h2]; exact hs)
      refine ⟨s', ?_, h5.trans h2, h6⟩
      have hp : u.toPredicateUpdate.predicateId = p := h.predicate
      rw [LogEnv.compactRecords, Act.bind_ok h1, if_neg (by simp [hp])]
      exact h4

/-- **What `compact_predicate` returns** on a registered predicate: its records
merged. -/
theorem compactPredicate_run (hl : P.ops.Lawful) {offs : List ℕ} {u : K2TreeUpdates T} {us : List (K2TreeUpdates T)}
    {e : LogEnv μ} (hoffs : e.logger.offsetsMap.find? p = some offs) (hf : e.currentReader.fail = false)
    (hlog : List.Forall₂ (LoggedAt P.ops e.currentReader.data p) offs (u :: us)) :
    ∃ s, LogEnv.compactPredicate P p e =
        (.ok (some (u.toPredicateUpdate.mergeAll P.ops (us.map K2TreeUpdates.toPredicateUpdate))), e.setReader s) ∧
      s.data = e.currentReader.data ∧ s.fail = false := by
  cases hlog with
  | cons h hs =>
    rename_i off offs
    obtain ⟨s, h1, h2, h3⟩ := LogEnv.withReader_recover hl h hf
    obtain ⟨s', h4, hd, hg⟩ := compactRecords_run (e := e.setReader s) hl u.toPredicateUpdate h3
      (by rw [LogEnv.setReader_currentReader, h2]; exact hs)
    refine ⟨s', ?_, hd.trans h2, hg⟩
    have hp : u.toPredicateUpdate.predicateId = p := h.predicate
    have h5 : LogEnv.compactRecords P p (off :: offs) none e =
        (.ok (some (u.toPredicateUpdate.mergeAll P.ops (us.map K2TreeUpdates.toPredicateUpdate))), e.setReader s') := by
      rw [LogEnv.compactRecords, Act.bind_ok h1, if_neg (by simp [hp])]
      exact h4
    simp only [LogEnv.compactPredicate, Act.get_bind, hoffs]
    rw [Act.bind_ok h5]
    rfl

/-- The last word of the later records on a point: `some true` if they add it last,
`some false` if they remove it last. -/
noncomputable def lastWord (ops : TreeOps T) (us : List (K2TreeUpdates T)) (x : Point) : Option Bool :=
  Patch.verdict (us.map (K2TreeUpdates.patch ops)) x

/-- The records after the first change nothing the first has no tree for. -/
structure CompactionSafe (ops : TreeOps T) (u : K2TreeUpdates T) (us : List (K2TreeUpdates T)) (S : Set Point) :
    Prop where
  adds : u.k2treeAdd = none → ∀ x, lastWord ops us x = some true → x ∈ S
  dels : u.k2treeDel = none → ∀ x, lastWord ops us x = some false → x ∉ S

/-- **Compaction keeps the meaning of a predicate's records on a set exactly if** the
later records add no point outside it, where the first record has no adds, and remove
no point of it, where the first record has no deletes. -/
theorem compactPredicate_patch_iff (hl : P.ops.Lawful) {offs : List ℕ} {u : K2TreeUpdates T}
    {us : List (K2TreeUpdates T)} {e : LogEnv μ} (hoffs : e.logger.offsetsMap.find? p = some offs)
    (hf : e.currentReader.fail = false)
    (hlog : List.Forall₂ (LoggedAt P.ops e.currentReader.data p) offs (u :: us)) :
    ∃ c e', LogEnv.compactPredicate P p e = (.ok (some c), e') ∧ ∀ S : Set Point,
      ((c.patch P.ops).apply S = Patch.applyAll ((u :: us).map (K2TreeUpdates.patch P.ops)) S ↔
        CompactionSafe P.ops u us S) := by
  obtain ⟨s, hc, -⟩ := compactPredicate_run hl hoffs hf hlog
  refine ⟨_, _, hc, fun S => ?_⟩
  have hmap : us.map (K2TreeUpdates.patch P.ops) =
      (us.map K2TreeUpdates.toPredicateUpdate).map (PredicateUpdate.patch P.ops) := by
    rw [List.map_map]
    rfl
  have hx := PredicateUpdate.mem_mergeAll_iff hl u.toPredicateUpdate (us.map K2TreeUpdates.toPredicateUpdate) S
  simp only [List.map_cons, ← hmap] at hx
  rw [Set.ext_iff]
  constructor
  · intro h
    exact ⟨fun hn x => ((hx x).1 (h x)).1 hn, fun hn x => ((hx x).1 (h x)).2 hn⟩
  · intro h x
    exact (hx x).2 ⟨fun hn => h.adds hn x, fun hn => h.dels hn x⟩

open PointTree in
/-- One record that adds `(1, 1)` and one that removes `(2, 2)`, logged for predicate 7. -/
def insertThenDelete : LogEnv Unit :=
  ((LogEnv.log (params .binary) [inserting 7 [(1, 1)]] >>= fun _ =>
    LogEnv.log (params .binary) [deleting 7 [(2, 2)]]) freshEnv).2

open PointTree in
theorem insertThenDelete_logged :
    insertThenDelete.logger.offsetsMap.find? 7 = some [4, 38] ∧ insertThenDelete.currentReader.fail = false ∧
      List.Forall₂ (LoggedAt ops insertThenDelete.currentReader.data 7) [4, 38]
        [inserting 7 [(1, 1)], deleting 7 [(2, 2)]] := by
  refine ⟨by decide, by decide, ?_⟩
  refine .cons ⟨rfl, by decide, by decide⟩ (.cons ⟨rfl, by decide, by decide⟩ .nil)

open PointTree in
/-- The condition is met at the empty set, which has nothing to remove. -/
theorem compactPredicate_patch_iff_empty :
    ∃ c e', LogEnv.compactPredicate (params .binary) 7 insertThenDelete = (.ok (some c), e') ∧
      (c.patch ops).apply ∅ =
        Patch.applyAll ([inserting 7 [(1, 1)], deleting 7 [(2, 2)]].map (K2TreeUpdates.patch ops)) ∅ := by
  obtain ⟨h1, h2, h3⟩ := insertThenDelete_logged
  obtain ⟨c, e', hc, hS⟩ := compactPredicate_patch_iff (P := params .binary) ops_lawful h1 h2 h3
  exact ⟨c, e', hc, (hS ∅).2 ⟨by simp [inserting], by simp⟩⟩

open PointTree in
/-- **The later delete is lost**: the compacted record leaves `(2, 2)` where the two
records remove it. -/
theorem compactPredicate_loses_delete :
    ∃ c, (LogEnv.compactPredicate (params .binary) 7 insertThenDelete).1 = .ok (some c) ∧
      (c.patch ops).apply {(2, 2)} ≠
        Patch.applyAll ([inserting 7 [(1, 1)], deleting 7 [(2, 2)]].map (K2TreeUpdates.patch ops)) {(2, 2)} := by
  refine ⟨⟨7, some (ofList [(1, 1)]), none⟩, by decide, fun h => ?_⟩
  have hin : ((2, 2) : Point) ∈ ((⟨7, some (ofList [(1, 1)]), none⟩ : PredicateUpdate PointTree).patch ops).apply
      {(2, 2)} := by
    simp [Patch.apply, PredicateUpdate.patch, TreeOps.pointsOpt]
  rw [h] at hin
  have hdel : ((2, 2) : Point) ∈ ops.points (ofList [(2, 2)]) := by
    simp [TreeOps.points, ops, ofList]
  simp [Patch.apply, K2TreeUpdates.patch, PredicateUpdate.patch, TreeOps.pointsOpt, deleting,
    K2TreeUpdates.toPredicateUpdate, hdel] at hin

end Run

end K2Cache
