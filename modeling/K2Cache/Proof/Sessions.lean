import K2Cache.Proof.NodeIds
import K2Cache.Proof.Refine
import K2Cache.Spec.Updater

/-!
# What the sessions commit

A session's trees hold the triples it was told to add, and for every delete `(s, p, o)`
the triple `(s, p, s)` (`SessionOk`). A commit applies them as one patch of the served
triples, all adds before all deletes, and does so with everything the session has ever
received (`serverStep`, `serverRun`).
-/

namespace K2Cache

open Lib NodeIdsManager

variable {T : Type}

/-! ## Operations -/

/-- What a session receives. -/
inductive SessionOp where
  | add (t : TripleNodeId)
  | del (t : TripleNodeId)
deriving DecidableEq, Repr

/-- The operations of a batch, adds first. -/
def batchOps (triplesToAdd triplesToDelete : List TripleNodeId) : List SessionOp :=
  triplesToAdd.map .add ++ triplesToDelete.map .del

/-- The triple `delete_triple` removes in place of `t`. -/
def reflexive (t : TripleNodeId) : TripleNodeId := ⟨t.subject, t.predicate, t.subject⟩

/-- **What a session does to the served triples** when it commits. -/
def sessionPatch (ops : List SessionOp) : Patch TripleNodeId where
  add := {t | .add t ∈ ops}
  del := {t | ∃ t', .del t' ∈ ops ∧ t'.predicate ≠ 0 ∧ t'.subject ≠ 0 ∧ t = reflexive t'}

/-! ## Trees of triples -/

/-- The ids of a triple: its predicate's, and the point. -/
def IdsOf (m : NodeIdsManager) (t : TripleNodeId) (p : UInt64) (x : Point) : Prop :=
  m.Maps t.predicate p ∧ m.Maps t.subject x.1 ∧ m.Maps t.object x.2

theorem IdsOf.inj {m : NodeIdsManager} {n : ℕ} (hm : m.Valid n) {t t' : TripleNodeId} {p : UInt64} {x : Point}
    (h : IdsOf m t p x) (h' : IdsOf m t' p x) : t = t' := by
  obtain ⟨s, q, o⟩ := t
  obtain ⟨s', q', o'⟩ := t'
  have h1 := h.1.inj hm h'.1
  have h2 := h.2.1.inj hm h'.2.1
  have h3 := h.2.2.inj hm h'.2.2
  simp_all

theorem IdsOf.unique {m : NodeIdsManager} {n : ℕ} (hm : m.Valid n) {t : TripleNodeId} {p p' : UInt64} {x x' : Point}
    (h : IdsOf m t p x) (h' : IdsOf m t p' x') : p = p' ∧ x = x' :=
  ⟨h.1.unique hm h'.1, Prod.ext (h.2.1.unique hm h'.2.1) (h.2.2.unique hm h'.2.2)⟩

/-- The second manager knows all ids of the first. -/
def Grows (m m' : NodeIdsManager) : Prop := ∀ r i, m.Maps r i → m'.Maps r i

theorem Grows.trans {m m' m'' : NodeIdsManager} (h : Grows m m') (h' : Grows m' m'') : Grows m m'' :=
  fun r i hi => h' r i (h r i hi)

theorem IdsOf.grow {m m' : NodeIdsManager} (h : Grows m m') {t : TripleNodeId} {p : UInt64} {x : Point}
    (hx : IdsOf m t p x) : IdsOf m' t p x := ⟨h _ _ hx.1, h _ _ hx.2.1, h _ _ hx.2.2⟩

/-- **The trees hold the ids of these triples.** -/
structure HoldsTriples (ops : TreeOps T) (m : NodeIdsManager) (trees : OrdMap UInt64 T) (S : Set TripleNodeId) : Prop where
  mapped : ∀ t ∈ S, ∃ p x, IdsOf m t p x
  points : ∀ p x, x ∈ ops.pointsOpt (trees.find? p) ↔ ∃ t ∈ S, IdsOf m t p x

variable {ops : TreeOps T} {m m' : NodeIdsManager} {trees : OrdMap UInt64 T} {S : Set TripleNodeId} {n : ℕ}

theorem holdsTriples_empty (ops : TreeOps T) (m : NodeIdsManager) : HoldsTriples ops m ∅ ∅ :=
  ⟨by simp, by simp [TreeOps.pointsOpt]⟩

theorem HoldsTriples.grow (h : HoldsTriples ops m trees S) (hg : Grows m m') (hm : m'.Valid n) :
    HoldsTriples ops m' trees S := by
  refine ⟨fun t ht => ?_, fun p x => ?_⟩
  · obtain ⟨p, x, hx⟩ := h.mapped t ht
    exact ⟨p, x, hx.grow hg⟩
  · rw [h.points]
    constructor
    · rintro ⟨t, ht, hx⟩
      exact ⟨t, ht, hx.grow hg⟩
    · rintro ⟨t, ht, hx⟩
      obtain ⟨p', x', hx'⟩ := h.mapped t ht
      obtain ⟨rfl, rfl⟩ := hx.unique hm (hx'.grow hg)
      exact ⟨t, ht, hx'⟩

theorem HoldsTriples.insert (hl : ops.Lawful) (h : HoldsTriples ops m trees S) (hm : m.Valid n) {t : TripleNodeId}
    {p : UInt64} {x : Point} (hx : IdsOf m t p x) :
    HoldsTriples ops m (UpdaterSession.bulkInsert ops trees p x) (S ∪ {t}) := by
  have hpoints : ∀ p' y, y ∈ ops.pointsOpt ((UpdaterSession.bulkInsert ops trees p x).find? p') ↔
      y ∈ ops.pointsOpt (trees.find? p') ∨ p' = p ∧ y = x := by
    intro p' y
    rw [UpdaterSession.bulkInsert, OrdMap.find?_insert]
    by_cases hp : p' = p
    · subst hp
      rw [if_pos rfl, TreeOps.pointsOpt, hl.points_insert]
      cases trees.find? p' with
      | none => simp [hl.points_empty, TreeOps.pointsOpt]
      | some tree => simp [TreeOps.pointsOpt, or_comm]
    · simp [hp]
  refine ⟨fun t' ht' => ?_, fun p' y => ?_⟩
  · rcases ht' with ht' | rfl
    · exact h.mapped t' ht'
    · exact ⟨p, x, hx⟩
  · rw [hpoints, h.points]
    constructor
    · rintro (⟨t', ht', hy⟩ | ⟨rfl, rfl⟩)
      · exact ⟨t', .inl ht', hy⟩
      · exact ⟨t, .inr rfl, hx⟩
    · rintro ⟨t', ht' | rfl, hy⟩
      · exact .inl ⟨t', ht', hy⟩
      · exact .inr (hy.unique hm hx)

/-! ## Sessions -/

/-- **A session holds what it has received.** -/
structure SessionOk (ops : TreeOps T) (m : NodeIdsManager) (ss : UpdaterSession T) (received : List SessionOp) : Prop where
  added : HoldsTriples ops m ss.addedTriples (sessionPatch received).add
  removed : HoldsTriples ops m ss.removedTriples (sessionPatch received).del

theorem SessionOk.grow {ss : UpdaterSession T} {received : List SessionOp} (h : SessionOk ops m ss received)
    (hg : Grows m m') (hm : m'.Valid n) : SessionOk ops m' ss received :=
  ⟨h.added.grow hg hm, h.removed.grow hg hm⟩

/-- Three ids are asked for, one after the other. -/
theorem getIdOrCreate_three {e : NodeIdsEnv} (h : e.manager.Valid (n + 3)) (r₁ r₂ r₃ : UInt64) :
    let a := e.getIdOrCreate r₁
    let b := a.2.getIdOrCreate r₂
    let c := b.2.getIdOrCreate r₃
    c.2.manager.Valid n ∧ Grows e.manager c.2.manager ∧
      c.2.manager.Maps r₁ a.1 ∧ c.2.manager.Maps r₂ b.1 ∧ c.2.manager.Maps r₃ c.1 := by
  obtain ⟨h1, m1⟩ := NodeIdsEnv.getIdOrCreate_spec (r := r₁) h
  obtain ⟨h2, m2⟩ := NodeIdsEnv.getIdOrCreate_spec (r := r₂) h1
  obtain ⟨h3, m3⟩ := NodeIdsEnv.getIdOrCreate_spec (r := r₃) h2
  refine ⟨h3, fun r i hi => ?_, ?_, ?_, ?_⟩
  · exact (m3 r i).2 (.inl ((m2 r i).2 (.inl ((m1 r i).2 (.inl hi)))))
  · exact (m3 _ _).2 (.inl ((m2 _ _).2 (.inl ((m1 _ _).2 (.inr ⟨rfl, rfl⟩)))))
  · exact (m3 _ _).2 (.inl ((m2 _ _).2 (.inr ⟨rfl, rfl⟩)))
  · exact (m3 _ _).2 (.inr ⟨rfl, rfl⟩)

theorem sessionPatch_add (received : List SessionOp) (t : TripleNodeId) :
    (sessionPatch (received ++ [.add t])).add = (sessionPatch received).add ∪ {t} ∧
      (sessionPatch (received ++ [.add t])).del = (sessionPatch received).del := by
  constructor
  · ext t'
    simp [sessionPatch, or_comm]
  · ext t'
    simp [sessionPatch]

theorem sessionPatch_del (received : List SessionOp) (t : TripleNodeId) :
    (sessionPatch (received ++ [.del t])).add = (sessionPatch received).add ∧
      (sessionPatch (received ++ [.del t])).del = if t.predicate ≠ 0 ∧ t.subject ≠ 0 then
        (sessionPatch received).del ∪ {reflexive t} else (sessionPatch received).del := by
  constructor
  · ext t'
    simp [sessionPatch]
  · ext t'
    split
    · rename_i h
      simp only [sessionPatch, List.mem_append, List.mem_singleton, SessionOp.del.injEq, Set.mem_union,
        Set.mem_singleton_iff, Set.mem_ofPred_eq]
      constructor
      · rintro ⟨u, hu | rfl, h1, h2, rfl⟩
        · exact .inl ⟨u, hu, h1, h2, rfl⟩
        · exact .inr rfl
      · rintro (⟨u, hu, h1, h2, rfl⟩ | rfl)
        · exact ⟨u, .inl hu, h1, h2, rfl⟩
        · exact ⟨t, .inr rfl, h.1, h.2, rfl⟩
    · rename_i h
      simp only [sessionPatch, List.mem_append, List.mem_singleton, SessionOp.del.injEq, Set.mem_ofPred_eq]
      constructor
      · rintro ⟨u, hu | rfl, h1, h2, rfl⟩
        · exact ⟨u, hu, h1, h2, rfl⟩
        · exact absurd ⟨h1, h2⟩ h
      · rintro ⟨u, hu, h1, h2, rfl⟩
        exact ⟨u, .inl hu, h1, h2, rfl⟩

/-- What a session does with an operation. -/
def SessionOp.call (ops : TreeOps T) (st : UpdaterSession T × NodeIdsEnv) : SessionOp → UpdaterSession T × NodeIdsEnv
  | .add t => UpdaterSession.addTriple ops st t
  | .del t => UpdaterSession.deleteTriple ops st t

/-- **One operation**: the session holds it, and no id is lost. -/
theorem SessionOk.call (hl : ops.Lawful) {ss : UpdaterSession T} {e : NodeIdsEnv} {received : List SessionOp}
    (h : SessionOk ops e.manager ss received) (hv : e.manager.Valid (n + 3)) (op : SessionOp) :
    let st := op.call ops (ss, e)
    st.2.manager.Valid n ∧ Grows e.manager st.2.manager ∧ SessionOk ops st.2.manager st.1 (received ++ [op]) := by
  cases op with
  | add t =>
    have hids := getIdOrCreate_three hv t.predicate t.subject t.object
    simp only [SessionOp.call, UpdaterSession.addTriple] at hids ⊢
    generalize e.getIdOrCreate t.predicate = p at hids ⊢
    generalize p.2.getIdOrCreate t.subject = s at hids ⊢
    generalize s.2.getIdOrCreate t.object = o at hids ⊢
    obtain ⟨hv', hg, hp, hs, ho⟩ := hids
    obtain ⟨hadd, hdel⟩ := sessionPatch_add received t
    refine ⟨hv', hg, ?_, ?_⟩
    · rw [hadd]
      exact (h.added.grow hg hv').insert hl hv' ⟨hp, hs, ho⟩
    · rw [hdel]
      exact h.removed.grow hg hv'
  | del t =>
    obtain ⟨hadd, hdel⟩ := sessionPatch_del received t
    by_cases hz : t.predicate ≠ 0 ∧ t.subject ≠ 0
    · have hids := getIdOrCreate_three hv t.subject t.predicate t.subject
      simp only [SessionOp.call, UpdaterSession.deleteTriple, if_neg hz.1, if_neg hz.2] at hids ⊢
      generalize e.getIdOrCreate t.subject = s at hids ⊢
      generalize s.2.getIdOrCreate t.predicate = p at hids ⊢
      generalize p.2.getIdOrCreate t.subject = o at hids ⊢
      obtain ⟨hv', hg, hs, hp, ho⟩ := hids
      refine ⟨hv', hg, ?_, ?_⟩
      · rw [hadd]
        exact h.added.grow hg hv'
      · rw [hdel, if_pos hz]
        exact (h.removed.grow hg hv').insert hl hv' ⟨hp, hs, ho⟩
    · -- an id that is zero: the operation is dropped
      have hsame : SessionOp.call ops (ss, e) (.del t) = (ss, e) := by
        simp only [SessionOp.call, UpdaterSession.deleteTriple]
        by_cases hp : t.predicate = 0
        · rw [if_pos hp]
        · have hs : t.subject = 0 := by
            by_contra hs
            exact hz ⟨hp, hs⟩
          rw [if_neg hp, if_pos hs]
      have hv' : e.manager.Valid n := by
        have hroom := hv.room
        exact ⟨hv.increasing, hv.inverse, hv.above, hv.outside, hv.below, hv.length_le, by omega⟩
      simp only [hsame]
      refine ⟨hv', fun _ _ hi => hi, ?_, ?_⟩
      · rw [hadd]
        exact h.added
      · rw [hdel, if_neg hz]
        exact h.removed

/-- **Some operations.** -/
theorem SessionOk.callAll (hl : ops.Lawful) (todo : List SessionOp) {ss : UpdaterSession T} {e : NodeIdsEnv}
    {received : List SessionOp} (h : SessionOk ops e.manager ss received)
    (hv : e.manager.Valid (n + 3 * todo.length)) :
    let st := todo.foldl (SessionOp.call ops) (ss, e)
    st.2.manager.Valid n ∧ Grows e.manager st.2.manager ∧ SessionOk ops st.2.manager st.1 (received ++ todo) := by
  induction todo generalizing ss e received with
  | nil => exact ⟨hv, fun _ _ hi => hi, by simpa using h⟩
  | cons op todo ih =>
    have hlen : n + 3 * (op :: todo).length = n + 3 * todo.length + 3 := by
      rw [List.length_cons]
      ring
    rw [hlen] at hv
    obtain ⟨h1, h2, h3⟩ := h.call hl hv op
    obtain ⟨h4, h5, h6⟩ := ih h3 h1
    refine ⟨h4, h2.trans h5, ?_⟩
    rw [List.append_assoc] at h6
    exact h6

/-! ## Commits -/

theorem getKind_add (p : UInt64) (a : T) (r : Option T) : (⟨p, some a, r⟩ : K2TreeUpdates T).getKind ≠ .noUpdate := by
  cases r <;> simp [K2TreeUpdates.getKind]

theorem getKind_del (p : UInt64) (r : T) : (⟨p, none, some r⟩ : K2TreeUpdates T).getKind ≠ .noUpdate := by
  simp [K2TreeUpdates.getKind]

/-- A session logs one update for each predicate it has a tree of. -/
theorem updatesOf_logUpdates (ss : UpdaterSession T) (p : UInt64) : Index.updatesOf ss.logUpdates p =
    match ss.addedTriples.find? p, ss.removedTriples.find? p with
    | some a, r => [⟨p, some a, r⟩]
    | none, some r => [⟨p, none, some r⟩]
    | none, none => [] := by
  have hadded : (ss.addedTriples.entries.map fun kv =>
        (⟨kv.1, some kv.2, ss.removedTriples.find? kv.1⟩ : K2TreeUpdates T)).filter
          (fun u => u.getKind ≠ .noUpdate ∧ u.predicateId = p) =
      ((ss.addedTriples.find? p).map fun a => ⟨p, some a, ss.removedTriples.find? p⟩).toList := by
    rw [List.filter_map]
    have hfilter : ss.addedTriples.entries.filter ((fun u : K2TreeUpdates T => decide (u.getKind ≠ .noUpdate ∧
        u.predicateId = p)) ∘ fun kv => ⟨kv.1, some kv.2, ss.removedTriples.find? kv.1⟩) =
        ss.addedTriples.entries.filter fun kv => kv.1 = p := by
      refine List.filter_congr fun kv _ => ?_
      exact decide_eq_decide.2 (and_iff_right (getKind_add kv.1 kv.2 _))
    rw [hfilter, OrdMap.filter_entries]
    cases ss.addedTriples.find? p <;> rfl
  have hremoved : ((ss.removedTriples.entries.filter fun kv =>
        kv.1 ∉ ss.addedTriples.keys.filter fun p => ss.removedTriples.contains p).map fun kv =>
          (⟨kv.1, none, some kv.2⟩ : K2TreeUpdates T)).filter (fun u => u.getKind ≠ .noUpdate ∧ u.predicateId = p) =
      if ss.addedTriples.contains p then [] else
        ((ss.removedTriples.find? p).map fun r => ⟨p, none, some r⟩).toList := by
    rw [List.filter_map, List.filter_filter]
    have hfilter : ss.removedTriples.entries.filter (fun kv => ((fun u : K2TreeUpdates T => decide (u.getKind ≠ .noUpdate ∧
        u.predicateId = p)) ∘ fun kv => ⟨kv.1, none, some kv.2⟩) kv &&
          decide (kv.1 ∉ ss.addedTriples.keys.filter fun p => ss.removedTriples.contains p)) =
        if ss.addedTriples.contains p then [] else ss.removedTriples.entries.filter fun kv => kv.1 = p := by
      have hmem : ∀ kv ∈ ss.removedTriples.entries, (kv.1 ∈ ss.addedTriples.keys.filter fun p =>
          ss.removedTriples.contains p) ↔ ss.addedTriples.contains kv.1 = true := by
        intro kv hkv
        have hc : ss.removedTriples.contains kv.1 = true :=
          (ss.removedTriples.contains_iff).2 ⟨kv.2, ss.removedTriples.find?_eq_some.2 hkv⟩
        rw [List.mem_filter, OrdMap.mem_keys, ← OrdMap.contains_iff]
        simp [hc]
      cases hc : ss.addedTriples.contains p with
      | true =>
        refine List.filter_eq_nil_iff.2 fun kv hkv => ?_
        by_cases hp : kv.1 = p
        · have := (hmem kv hkv).2 (by rw [hp, hc])
          simp [this]
        · simp [hp]
      | false =>
        refine List.filter_congr fun kv hkv => ?_
        by_cases hp : kv.1 = p
        · have hnot := mt (hmem kv hkv).1 (by rw [hp, hc]; simp)
          rw [decide_eq_true hnot, decide_eq_true hp, Bool.and_true]
          exact decide_eq_true ⟨getKind_del kv.1 kv.2, hp⟩
        · simp [hp]
    rw [hfilter]
    split
    · rfl
    · rw [OrdMap.filter_entries]
      cases ss.removedTriples.find? p <;> rfl
  rw [UpdaterSession.logUpdates, Index.updatesOf, List.filter_append, hadded, hremoved, OrdMap.contains]
  cases ss.addedTriples.find? p with
  | some a => rfl
  | none => cases ss.removedTriples.find? p <;> rfl

/-- **What the log gets of a predicate**: its adds, then its deletes. -/
theorem applyAll_logUpdates (ops : TreeOps T) (ss : UpdaterSession T) (p : UInt64) (S : Set Point) :
    Patch.applyAll ((Index.updatesOf ss.logUpdates p).map (K2TreeUpdates.patch ops)) S =
      (S ∪ ops.pointsOpt (ss.addedTriples.find? p)) \ ops.pointsOpt (ss.removedTriples.find? p) := by
  rw [updatesOf_logUpdates]
  cases ss.addedTriples.find? p with
  | some a => rfl
  | none =>
    cases ss.removedTriples.find? p with
    | some r => rfl
    | none => simp [TreeOps.pointsOpt]

/-! ## The server -/

/-- A commit loses nothing of the log: its file is open, or empty, or opened to append. -/
def LogKept (P : CacheParams T) (s : Manager T) : Prop :=
  P.logMode.app = true ∨ s.logger.writerOpen = true ∨ s.logger.offsetsMap = ∅

namespace ServerCmd

/-- The request names a session that was begun, and a commit loses nothing of the log. -/
def Ready (P : CacheParams T) (srv : Server T) : ServerCmd → Prop
  | updateTriplesBatch updateId _ _ => srv.updatersSessions.contains updateId = true
  | doneUpdateTriples updateId => srv.updatersSessions.contains updateId = true ∧ LogKept P srv.manager
  | _ => True

/-- What the sessions have received after a request. -/
def receive (received : ℤ → List SessionOp) : ServerCmd → ℤ → List SessionOp
  | updateTriplesBatch updateId toAdd toDelete =>
    Function.update received updateId (received updateId ++ batchOps toAdd toDelete)
  | _ => received

/-- The ids a request may create. -/
def newIds : ServerCmd → ℕ
  | updateTriplesBatch _ toAdd toDelete => 3 * (batchOps toAdd toDelete).length
  | _ => 0

/-- What a request does to the served triples. -/
def patch (received : ℤ → List SessionOp) : ServerCmd → Patch TripleNodeId
  | doneUpdateTriples updateId => sessionPatch (received updateId)
  | _ => ⟨∅, ∅⟩

end ServerCmd

/-- **The invariant of the server.** -/
structure ServerInv (P : CacheParams T) (init : Store) (srv : Server T) (recs : Records T)
    (received : ℤ → List SessionOp) (n : ℕ) : Prop where
  cache : CacheInv P init srv.manager recs
  ids : srv.nodeIds.manager.Valid n
  sessions : ∀ id ss, srv.updatersSessions.find? id = some ss → SessionOk P.ops srv.nodeIds.manager ss (received id)
  begun : ∀ id ss, srv.updatersSessions.find? id = some ss → id < srv.currentUpdateSessionId
  unborn : ∀ id, srv.currentUpdateSessionId ≤ id → received id = []
  assigned : ∀ p x, x ∈ recs.target P.ops init p → ∃ t, IdsOf srv.nodeIds.manager t p x

variable {P : CacheParams T} {init : Store} {recs : Records T} {srv : Server T} {received : ℤ → List SessionOp}

/-- A fetch finds the points of the abstract store. -/
theorem fetchK2tree_has_iff (hl : P.ops.Lawful) {s : Manager T} (h : CacheInv P init s recs) (p : UInt64) (x : Point) :
    (∃ r s' tree, Manager.fetchK2tree P p s = (.ok r, s') ∧ r.result = some tree ∧ P.ops.has tree x = true) ↔
      x ∈ recs.target P.ops init p := by
  obtain ⟨r, s', hfetch, -, -, hres⟩ := Manager.fetchK2tree_spec hl p h
  unfold Records.served at hres
  constructor
  · rintro ⟨r₁, s₁, tree, h1, h2, h3⟩
    rw [hfetch] at h1
    cases h1
    rw [h2, Option.map_some] at hres
    split at hres
    · cases hres
    · rw [← Option.some.inj hres]
      exact h3
  · intro hx
    split at hres
    · rename_i hn
      rw [Records.target, Records.patches, hn.1, hn.2] at hx
      simp at hx
    · obtain ⟨tree, htree, hpoints⟩ := Option.map_eq_some_iff.1 hres
      rw [← hpoints] at hx
      exact ⟨r, s', tree, hfetch, htree, hx⟩

/-- **A triple is served exactly if the abstract store has its point.** -/
theorem ServerInv.present_iff (hl : P.ops.Lawful) (h : ServerInv P init srv recs received n) (t : TripleNodeId) :
    srv.Present P t ↔ ∃ p x, IdsOf srv.nodeIds.manager t p x ∧ x ∈ recs.target P.ops init p := by
  simp only [Server.Present, fetchK2tree_has_iff hl h.cache]
  constructor
  · rintro ⟨hs, hp, ho, hx⟩
    exact ⟨_, _, ⟨(getId_found_iff h.ids).1 hp, (getId_found_iff h.ids).1 hs, (getId_found_iff h.ids).1 ho⟩, hx⟩
  · rintro ⟨p, x, hids, hx⟩
    have hp := hids.1.getId h.ids
    have hs := hids.2.1.getId h.ids
    have ho := hids.2.2.getId h.ids
    rw [hp, hs, ho]
    exact ⟨hids.2.1.found h.ids, hids.1.found h.ids, hids.2.2.found h.ids, hx⟩

/-- A call of the manager that changes nothing that is served. -/
theorem ServerInv.onManager (hl : P.ops.Lawful) (h : ServerInv P init srv recs received n) {x : Act Exn (Manager T) Unit}
    {s' : Manager T} (hx : x srv.manager = (.ok (), s')) (hs' : CacheInv P init s' recs) :
    ∃ srv', ServerCmd.onManager x srv = (.ok (), srv') ∧ ServerInv P init srv' recs received n ∧
      {t | srv'.Present P t} = {t | srv.Present P t} := by
  have hinv : ServerInv P init { srv with manager := s' } recs received n :=
    ⟨hs', h.ids, h.sessions, h.begun, h.unborn, h.assigned⟩
  refine ⟨{ srv with manager := s' }, ?_, hinv, ?_⟩
  · simp only [ServerCmd.onManager, Act.focus, hx]
  · ext t
    exact (hinv.present_iff hl t).trans (h.present_iff hl t).symm

/-- **A batch**: the session holds it, and what is served stays. -/
theorem ServerInv.batch (hl : P.ops.Lawful) {id : ℤ} {toAdd toDelete : List TripleNodeId}
    (h : ServerInv P init srv recs received (n + 3 * (batchOps toAdd toDelete).length))
    (hid : srv.updatersSessions.contains id = true) :
    ∃ srv', Server.processUpdateTriplesBatch P id toAdd toDelete srv = (.ok (), srv') ∧
      ServerInv P init srv' recs (ServerCmd.receive received (.updateTriplesBatch id toAdd toDelete)) n ∧
      {t | srv'.Present P t} = {t | srv.Present P t} := by
  obtain ⟨ss, hss⟩ := (OrdMap.contains_iff _).1 hid
  have hfold : toDelete.foldl (UpdaterSession.deleteTriple P.ops)
      (toAdd.foldl (UpdaterSession.addTriple P.ops) (ss, srv.nodeIds)) =
      (batchOps toAdd toDelete).foldl (SessionOp.call P.ops) (ss, srv.nodeIds) := by
    rw [batchOps, List.foldl_append, List.foldl_map, List.foldl_map]
    rfl
  obtain ⟨h1, h2, h3⟩ := (h.sessions id ss hss).callAll hl (batchOps toAdd toDelete) h.ids
  simp only [Server.processUpdateTriplesBatch, hss, hfold]
  generalize (batchOps toAdd toDelete).foldl (SessionOp.call P.ops) (ss, srv.nodeIds) = st at h1 h2 h3
  have hinv : ServerInv P init { srv with updatersSessions := srv.updatersSessions.insert id st.1, nodeIds := st.2 }
      recs (ServerCmd.receive received (.updateTriplesBatch id toAdd toDelete)) n := by
    refine ⟨h.cache, h1, fun id' ss' hss' => ?_, fun id' ss' hss' => ?_, fun id' hid' => ?_, fun p x hx => ?_⟩
    · simp only [OrdMap.find?_insert] at hss'
      by_cases heq : id' = id
      · subst heq
        rw [if_pos rfl] at hss'
        cases hss'
        simpa [ServerCmd.receive] using h3
      · rw [if_neg heq] at hss'
        have hother := (h.sessions id' ss' hss').grow h2 h1
        simpa [ServerCmd.receive, heq] using hother
    · simp only [OrdMap.find?_insert] at hss'
      by_cases heq : id' = id
      · exact heq ▸ h.begun id ss hss
      · rw [if_neg heq] at hss'
        exact h.begun id' ss' hss'
    · have hne : id' ≠ id := by
        rintro rfl
        exact absurd (h.begun id' ss hss) (not_lt.2 hid')
      simpa [ServerCmd.receive, hne] using h.unborn id' hid'
    · obtain ⟨t, ht⟩ := h.assigned p x hx
      exact ⟨t, ht.grow h2⟩
  refine ⟨_, rfl, hinv, ?_⟩
  ext t
  refine (hinv.present_iff hl t).trans (Iff.trans ?_ (h.present_iff hl t).symm)
  constructor
  · rintro ⟨p, x, hids, hx⟩
    -- the point was stored, so its ids were known before
    obtain ⟨t', ht'⟩ := h.assigned p x hx
    obtain rfl := hids.inj h1 (ht'.grow h2)
    exact ⟨p, x, ht', hx⟩
  · rintro ⟨p, x, hids, hx⟩
    exact ⟨p, x, hids.grow h2, hx⟩

/-- **A commit** applies all that its session has received. -/
theorem ServerInv.done (hl : P.ops.Lawful) {id : ℤ} (h : ServerInv P init srv recs received n)
    (hid : srv.updatersSessions.contains id = true) (hlog : LogKept P srv.manager) :
    ∃ srv' recs', Server.processDoneUpdateTriples P id srv = (.ok (), srv') ∧
      ServerInv P init srv' recs' received n ∧
      {t | srv'.Present P t} = (sessionPatch (received id)).apply {t | srv.Present P t} := by
  obtain ⟨ss, hss⟩ := (OrdMap.contains_iff _).1 hid
  obtain ⟨s', hs', hcache⟩ := Manager.log_spec hl ss.logUpdates h.cache
    (h.cache.log.registered.openWriter (P := P.logger) hlog)
  have hok := h.sessions id ss hss
  -- the points of a predicate after the commit
  have htarget : ∀ p, (recs.pushAll ss.logUpdates).target P.ops init p = (recs.target P.ops init p ∪
      P.ops.pointsOpt (ss.addedTriples.find? p)) \ P.ops.pointsOpt (ss.removedTriples.find? p) := by
    intro p
    rw [← applyAll_logUpdates, Records.target, Records.patches, Records.pushAll_updatesOf, List.map_append,
      Patch.applyAll_append]
    rfl
  have hinv : ServerInv P init { srv with manager := s' } (recs.pushAll ss.logUpdates) received n := by
    refine ⟨hcache, h.ids, h.sessions, h.begun, h.unborn, fun p x hx => ?_⟩
    rw [htarget] at hx
    rcases hx.1 with hx | hx
    · exact h.assigned p x hx
    · obtain ⟨t, -, ht⟩ := (hok.added.points p x).1 hx
      exact ⟨t, ht⟩
  refine ⟨{ srv with manager := s' }, recs.pushAll ss.logUpdates, ?_, hinv, ?_⟩
  · simp only [Server.processDoneUpdateTriples, hss, hs']
  · ext t
    refine (hinv.present_iff hl t).trans ?_
    simp only [htarget, Patch.apply, Set.mem_sdiff, Set.mem_union, hok.added.points, hok.removed.points,
      Set.mem_ofPred_eq, h.present_iff hl]
    constructor
    · rintro ⟨p, x, hids, hin, hout⟩
      refine ⟨?_, fun hdel => hout ⟨t, hdel, hids⟩⟩
      rcases hin with hin | ⟨t', ht', hids'⟩
      · exact .inl ⟨p, x, hids, hin⟩
      · obtain rfl := hids.inj h.ids hids'
        exact .inr ht'
    · rintro ⟨hin, hout⟩
      have hnot : ∀ p x, IdsOf srv.nodeIds.manager t p x →
          ¬ ∃ t' ∈ (sessionPatch (received id)).del, IdsOf srv.nodeIds.manager t' p x := by
        rintro p x hids ⟨t', ht', hids'⟩
        obtain rfl := hids.inj h.ids hids'
        exact hout ht'
      rcases hin with ⟨p, x, hids, hx⟩ | hadd
      · exact ⟨p, x, hids, .inl hx, hnot p x hids⟩
      · obtain ⟨p, x, hids⟩ := hok.added.mapped t hadd
        exact ⟨p, x, hids, .inr ⟨t, hadd, hids⟩, hnot p x hids⟩

theorem ServerInv.begin (hl : P.ops.Lawful) (h : ServerInv P init srv recs received n) :
    ServerInv P init srv.beginUpdateSession.2 recs received n ∧
      {t | srv.beginUpdateSession.2.Present P t} = {t | srv.Present P t} := by
  have hinv : ServerInv P init srv.beginUpdateSession.2 recs received n := by
    refine ⟨h.cache, h.ids, fun id ss hss => ?_, fun id ss hss => ?_, fun id hid => ?_, h.assigned⟩
    · simp only [Server.beginUpdateSession, OrdMap.find?_insert] at hss
      by_cases heq : id = srv.currentUpdateSessionId
      · rw [if_pos heq] at hss
        cases hss
        rw [h.unborn id heq.ge]
        have hadd : (sessionPatch []).add = ∅ := by simp [sessionPatch]
        have hdel : (sessionPatch []).del = ∅ := by simp [sessionPatch]
        refine ⟨?_, ?_⟩
        · rw [hadd]
          exact holdsTriples_empty _ _
        · rw [hdel]
          exact holdsTriples_empty _ _
      · rw [if_neg heq] at hss
        exact h.sessions id ss hss
    · simp only [Server.beginUpdateSession, OrdMap.find?_insert] at hss ⊢
      by_cases heq : id = srv.currentUpdateSessionId
      · omega
      · rw [if_neg heq] at hss
        have := h.begun id ss hss
        omega
    · simp only [Server.beginUpdateSession] at hid
      exact h.unborn id (by omega)
  refine ⟨hinv, ?_⟩
  ext t
  exact (hinv.present_iff hl t).trans (h.present_iff hl t).symm

/-- **One step of the server.** -/
theorem serverStep (hl : P.ops.Lawful) (cmd : ServerCmd) (h : ServerInv P init srv recs received (n + cmd.newIds))
    (hr : cmd.Ready P srv) :
    ∃ srv' recs', (serverMachine P).step srv cmd = some srv' ∧ ServerInv P init srv' recs' (cmd.receive received) n ∧
      {t | srv'.Present P t} = (cmd.patch received).apply {t | srv.Present P t} := by
  have key : ∀ srv', cmd.call P srv = (.ok (), srv') → (serverMachine P).step srv cmd = some srv' := by
    intro srv' hcall
    simp [serverMachine, hcall]
  have hempty : ∀ S : Set TripleNodeId, (⟨∅, ∅⟩ : Patch TripleNodeId).apply S = S := by
    intro S
    simp [Patch.apply]
  cases cmd with
  | beginUpdateSession =>
    obtain ⟨h1, h2⟩ := ServerInv.begin hl h
    exact ⟨_, recs, key _ rfl, h1, h2.trans (hempty _).symm⟩
  | updateTriplesBatch id toAdd toDelete =>
    obtain ⟨srv', h1, h2, h3⟩ := ServerInv.batch hl h hr
    exact ⟨srv', recs, key _ h1, h2, h3.trans (hempty _).symm⟩
  | doneUpdateTriples id =>
    obtain ⟨srv', recs', h1, h2, h3⟩ := ServerInv.done hl h hr.1 hr.2
    exact ⟨srv', recs', key _ h1, h2, h3⟩
  | fetchK2tree p =>
    obtain ⟨r, s', h1, h2, -⟩ := Manager.fetchK2tree_spec hl p h.cache
    have hx : (Manager.fetchK2tree P p >>= fun _ => pure ()) srv.manager = (.ok (), s') := Act.bind_ok h1
    obtain ⟨srv', h3, h4, h5⟩ := ServerInv.onManager hl h hx h2
    exact ⟨srv', recs, key _ h3, h4, h5.trans (hempty _).symm⟩
  | retrieveKey p =>
    obtain ⟨b, s', h1, h2, -⟩ := Manager.loadSinglePredicate_spec hl p h.cache
    have hx : Manager.retrieveKey P p srv.manager = (.ok (), s') := Act.bind_ok h1
    obtain ⟨srv', h3, h4, h5⟩ := ServerInv.onManager hl h hx h2
    exact ⟨srv', recs, key _ h3, h4, h5.trans (hempty _).symm⟩
  | discardInMemoryPredicate p =>
    obtain ⟨s', h1, h2⟩ := Manager.removeKey_spec p h.cache
    obtain ⟨srv', h3, h4, h5⟩ := ServerInv.onManager hl h h1 h2
    exact ⟨srv', recs, key _ h3, h4, h5.trans (hempty _).symm⟩
  | syncToPersistent =>
    obtain ⟨s', h1, h2⟩ := Manager.syncToPersistent_spec hl h.cache
    obtain ⟨srv', h3, h4, h5⟩ := ServerInv.onManager hl h h1 h2
    exact ⟨srv', recs, key _ h3, h4, h5.trans (hempty _).symm⟩

/-! ## Runs -/

/-- The ids a run may create. -/
def newIds (cmds : List ServerCmd) : ℕ := (cmds.map ServerCmd.newIds).sum

/-- What the sessions have received, and the triples the commits so far leave. -/
def follow (L : (ℤ → List SessionOp) × Set TripleNodeId) (cmd : ServerCmd) :
    (ℤ → List SessionOp) × Set TripleNodeId :=
  (cmd.receive L.1, (cmd.patch L.1).apply L.2)

/-- **A run of the server** gets to its end, and follows its commits. -/
theorem serverRun (hl : P.ops.Lawful) (cmds : List ServerCmd)
    (h : ServerInv P init srv recs received (n + newIds cmds)) (hr : (serverMachine P).Meets (fun s c => c.Ready P s) cmds srv) :
    ∃ srv' recs', (serverMachine P).run cmds srv = some srv' ∧
      ServerInv P init srv' recs' (cmds.foldl follow (received, {t | srv.Present P t})).1 n ∧
      {t | srv'.Present P t} = (cmds.foldl follow (received, {t | srv.Present P t})).2 := by
  induction cmds generalizing srv recs received with
  | nil => exact ⟨srv, recs, rfl, h, rfl⟩
  | cons cmd cmds ih =>
    have hids : n + newIds (cmd :: cmds) = n + newIds cmds + cmd.newIds := by
      simp only [newIds, List.map_cons, List.sum_cons]
      ring
    rw [hids] at h
    obtain ⟨srv₁, recs₁, h1, h2, h3⟩ := serverStep hl cmd h hr.1
    obtain ⟨srv', recs', h4, h5, h6⟩ := ih h2 (hr.2 srv₁ h1)
    rw [h3] at h5 h6
    refine ⟨srv', recs', ?_, h5, h6⟩
    rw [Machine.run, h1]
    exact h4

/-! ## The start -/

/-- An id of the sequence or of the map. -/
def AssignedId (s : NodesSequence) (m : NodesMap) (i : UInt64) : Prop :=
  i.toNat < s.values.length ∨ ∃ r, m.imap.find? r = some i

/-- **A disk to start from**: an index file and no log; node ids as `NodesLoaded` has them,
with room for `n` more; every id in the index file is one of them. -/
structure ServerDisk (P : CacheParams T) (d : Disk) (nodesMap : NodesMap) (n : ℕ) : Prop where
  fresh : FreshLog P.ops d
  map : NodesMap.fromInputStream (FileRWHandler.getReader d .mappedNodeIds) = .ok nodesMap
  loaded : NodesLoaded (.fromInputStream (FileRWHandler.getReader d .nodeIds)) nodesMap n
  assigned : ∀ p pts, initialStore P.ops d p = some pts → ∀ x ∈ pts, ∀ i ∈ [p, x.1, x.2],
    AssignedId (.fromInputStream (FileRWHandler.getReader d .nodeIds)) nodesMap i

theorem AssignedId.maps {s : NodesSequence} {nodesMap : NodesMap} {i : UInt64} (h : AssignedId s nodesMap i) :
    ∃ r, (loadedManager s nodesMap).Maps r i := by
  rcases h with hlt | ⟨r, hr⟩
  · exact ⟨s.values[i.toNat], .inl (List.getElem?_eq_getElem hlt)⟩
  · exact ⟨r, .inr hr⟩

theorem ServerDisk.create (hl : P.ops.Lawful) {d : Disk} {nodesMap : NodesMap} (h : ServerDisk P d nodesMap n) (uninit : ℤ) :
    ∃ srv, Server.create P d uninit = .ok srv ∧
      ServerInv P (initialStore P.ops d) srv (fun _ => []) (fun _ => []) n := by
  obtain ⟨-, s, -, hcreate, -, hcache⟩ := create_spec hl h.fresh uninit
  obtain ⟨e, hcon, hman, -, -⟩ := construct_spec h.map
  refine ⟨⟨s, e, ∅, 0⟩, by simp only [Server.create, hcreate, hcon], hcache, ?_, by simp, by simp, by simp, ?_⟩
  · show e.manager.Valid n
    rw [hman]
    exact h.loaded.valid (fromInputStream_construct h.map)
  · intro p x hx
    have hinit : x ∈ (initialStore P.ops d p).getD ∅ := hx
    cases hp : initialStore P.ops d p with
    | none => simp [hp] at hinit
    | some pts =>
      rw [hp] at hinit
      have hassigned := h.assigned p pts hp x hinit
      obtain ⟨q, hq⟩ := (hassigned p (by simp)).maps
      obtain ⟨a, ha⟩ := (hassigned x.1 (by simp)).maps
      obtain ⟨b, hb⟩ := (hassigned x.2 (by simp)).maps
      refine ⟨⟨a, q, b⟩, ?_⟩
      show IdsOf e.manager _ p x
      rw [hman]
      exact ⟨hq, ha, hb⟩

end K2Cache
