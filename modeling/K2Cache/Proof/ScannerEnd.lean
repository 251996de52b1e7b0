import K2Cache.Proof.SharedSource

/-!
# The scanner of all points reads past its set

`has_next` moves the iterator and reads it in one step, also to the end of the set, and the
constructor reads it at the start of a set that may be empty. `scans_eq`: of a scan
exactly one read is past the end, and what it gives is looked up.
-/

namespace K2Cache

open Lib

variable {T : Type} {ops : TreeOps T}

/-! ## The maps have the ids -/

/-- The ids of the sets are keys of the maps. -/
structure Indexed (p : FullyIndexedPredicate) : Prop where
  subjects : ∀ s ∈ p.subjects.keys, p.hasKey (.objectsOf s) = true
  objects : ∀ o ∈ p.objects.keys, p.hasKey (.subjectsOf o) = true

theorem contains_insert {m : OrdMap UInt64 (List UInt64)} {k k' : UInt64} {v : List UInt64}
    (h : k' = k ∨ m.contains k' = true) : (m.insert k v).contains k' = true := by
  rw [OrdMap.contains, OrdMap.find?_insert]
  split
  · rfl
  · rename_i hne
    exact h.resolve_left hne

theorem contains_afterAt {m : OrdMap UInt64 (List UInt64)} {k k' : UInt64} (h : m.contains k' = true) :
    (afterAt m k).contains k' = true := by
  unfold afterAt
  split
  · exact h
  · exact contains_insert (.inr h)

theorem hasKey_lookup {p : FullyIndexedPredicate} {r r' : VectorRef} (h : p.hasKey r' = true) :
    (p.lookup r).hasKey r' = true := by
  cases r <;> cases r'
  case objectsOf.objectsOf => exact contains_afterAt h
  case subjectsOf.subjectsOf => exact contains_afterAt h
  all_goals exact h

theorem Indexed.lookup {p : FullyIndexedPredicate} (h : Indexed p) (r : VectorRef) : Indexed (p.lookup r) := by
  refine ⟨fun s hs => hasKey_lookup (h.subjects s ?_), fun o ho => hasKey_lookup (h.objects o ?_)⟩
  · rwa [FullyIndexedPredicate.subjects_lookup] at hs
  · rwa [FullyIndexedPredicate.objects_lookup] at ho

theorem mem_keys_insert {m : OrdMap UInt64 Unit} {k k' : UInt64} (h : k' ∈ (m.insert k ()).keys) : k' = k ∨ k' ∈ m.keys := by
  rw [OrdMap.mem_keys, OrdMap.find?_insert] at h
  split at h
  · rename_i he
    exact .inl he
  · exact .inr (OrdMap.mem_keys _ |>.2 h)

theorem Indexed.addPoint {p : FullyIndexedPredicate} (h : Indexed p) (x : Point) : Indexed (p.addPoint x) := by
  refine ⟨fun s hs => contains_insert ?_, fun o ho => contains_insert ?_⟩
  · exact (mem_keys_insert hs).imp_right (h.subjects s)
  · exact (mem_keys_insert ho).imp_right (h.objects o)

theorem indexed_construct (t : T) : Indexed (.construct ops t) := by
  have h : ∀ (l : List Point) (p : FullyIndexedPredicate), Indexed p → Indexed (l.foldl FullyIndexedPredicate.addPoint p) := by
    intro l
    induction l with
    | nil => exact fun _ hp => hp
    | cons x l ih => exact fun p hp => ih _ (hp.addPoint x)
  exact h _ _ ⟨nofun, nofun⟩

namespace Shared

variable {pastEnd : ℕ → UInt64}

/-! ## Calls make lookups -/

section Keeps

variable {P : FullyIndexedPredicate → Prop}

theorem moveTo_keeps (hP : ∀ p r, P p → P (p.lookup r)) (it : List UInt64) (s : CachedSubjectObjectScanner)
    {c : CachedSource} (h : P c.predicate) : P (s.moveTo pastEnd it c).2.predicate := by
  unfold CachedSubjectObjectScanner.moveTo
  cases it <;> exact hP _ _ h

theorem skip_keeps (hP : ∀ p r, P p → P (p.lookup r)) (it : List UInt64) (s : CachedSubjectObjectScanner)
    {c : CachedSource} (h : P c.predicate) : P (CachedSubjectObjectScanner.skip pastEnd it s c).2.predicate := by
  induction it generalizing s c with
  | nil => exact h
  | cons e it ih =>
    unfold CachedSubjectObjectScanner.skip
    split
    · exact ih _ (moveTo_keeps hP it s h)
    · exact h

/-- What every lookup keeps, every call keeps. -/
theorem call_keeps (hP : ∀ p r, P p → P (p.lookup r)) {st st' : State} {call : Call}
    (hstep : (machine pastEnd).step st call = some st') (h : P st.source.predicate) : P st'.source.predicate := by
  cases call with
  | has subjectId objectId =>
    obtain rfl := Option.some.inj hstep
    exact hP _ (.subjectsOf objectId) (hP _ (.objectsOf subjectId) h)
  | get r =>
    obtain rfl := Option.some.inj hstep
    exact hP _ r h
  | scan k =>
    obtain rfl := Option.some.inj hstep
    match k with
    | .all => exact moveTo_keeps hP _ _ h
    | .vector (.objectsOf s) => exact hP _ (.objectsOf s) h
    | .vector (.subjectsOf o) => exact hP _ (.subjectsOf o) h
  | hasNext i =>
    obtain ⟨o, -, rfl⟩ := Option.map_eq_some_iff.1 hstep
    unfold State.hasNext
    cases o.scanner with
    | subjectObject s => exact skip_keeps hP _ s h
    | object objects pos v => exact h
    | subject subjects pos v => exact h
  | next i =>
    obtain ⟨o, -, hnext⟩ := Option.bind_eq_some_iff.1 hstep
    unfold State.next at hnext
    split at hnext
    · split at hnext
      · cases hnext
      · obtain rfl := Option.some.inj hnext
        exact h
    · cases hnext

end Keeps

theorem indexed_run {t : T} {calls : List Call} {st : State} (h : (machine pastEnd).run calls (start ops t) = some st) :
    Indexed st.source.predicate :=
  Machine.always (I := fun st : State => Indexed st.source.predicate)
    (fun _ _ _ hstep hi => call_keeps (P := Indexed) (fun _ r hp => hp.lookup r) hstep hi) h (indexed_construct t)

/-! ## One scan -/

/-- The source after a read past the end. -/
def afterEnd (pastEnd : ℕ → UInt64) (dir : Bool) (c : CachedSource) : CachedSource :=
  ⟨c.predicate.lookup (CachedSubjectObjectScanner.activeElements dir (pastEnd c.endReads)), c.endReads + 1⟩

/-- The iterator has elements ahead and the source is as it was, or it is at the end and was
read there. -/
structure Reading (pastEnd : ℕ → UInt64) (dir : Bool) (c₀ : CachedSource) (s : CachedSubjectObjectScanner)
    (c : CachedSource) : Prop where
  direction : s.leftRightDir = dir
  keys : ∀ e ∈ s.baseSetIt, c₀.predicate.hasKey (CachedSubjectObjectScanner.activeElements dir e) = true
  source : c = if s.baseSetIt = [] then afterEnd pastEnd dir c₀ else c₀

variable {dir : Bool} {c₀ : CachedSource}

theorem Reading.moveTo {it : List UInt64} {s : CachedSubjectObjectScanner} (hdir : s.leftRightDir = dir)
    (hkeys : ∀ e ∈ it, c₀.predicate.hasKey (CachedSubjectObjectScanner.activeElements dir e) = true) :
    Reading pastEnd dir c₀ (s.moveTo pastEnd it c₀).1 (s.moveTo pastEnd it c₀).2 := by
  subst hdir
  refine ⟨rfl, hkeys, ?_⟩
  cases it with
  | nil => rfl
  | cons e it =>
    have hlookup := (FullyIndexedPredicate.lookup_eq_self _).2 (hkeys e List.mem_cons_self)
    exact congrArg (fun p => (⟨p, c₀.endReads⟩ : CachedSource)) hlookup

/-- The loop moves on from elements only. -/
theorem Reading.skip {it : List UInt64} {s : CachedSubjectObjectScanner} {c : CachedSource} (hit : s.baseSetIt = it)
    (h : Reading pastEnd dir c₀ s c) :
    Reading pastEnd dir c₀ (CachedSubjectObjectScanner.skip pastEnd it s c).1
      (CachedSubjectObjectScanner.skip pastEnd it s c).2 := by
  induction it generalizing s c with
  | nil => exact h
  | cons e it ih =>
    unfold CachedSubjectObjectScanner.skip
    split
    · obtain rfl : c = c₀ := h.source.trans (if_neg (by rw [hit]; exact List.cons_ne_nil e it))
      refine ih rfl (.moveTo h.direction fun e' he' => h.keys e' ?_)
      rw [hit]
      exact List.mem_cons_of_mem _ he'
    · exact h

theorem Reading.next {s s' : CachedSubjectObjectScanner} {c : CachedSource} {x : Point} (h : Reading pastEnd dir c₀ s c)
    (hnext : s.next c = .ok (x, s')) : Reading pastEnd dir c₀ s' c := by
  unfold CachedSubjectObjectScanner.next at hnext
  split at hnext
  · cases hnext
  · obtain ⟨-, rfl⟩ := Prod.mk.inj (Except.ok.inj hnext)
    exact ⟨h.direction, h.keys, h.source⟩

/-- **A scan ends** behind a read past the end. -/
theorem Reading.scans {s : CachedSubjectObjectScanner} {c c' : CachedSource} {l : List Point}
    (hs : Scans pastEnd s c l c') (h : Reading pastEnd dir c₀ s c) :
    c' = afterEnd pastEnd dir c₀ := by
  induction hs with
  | done hfalse =>
    refine (h.skip rfl).source.trans (if_pos ?_)
    simpa [CachedSubjectObjectScanner.hasNext] using hfalse
  | more htrue hnext hrest ih => exact ih ((h.skip rfl).next hnext)

/-- Which set a new scanner walks. -/
def direction (c : CachedSource) : Bool := c.predicate.subjects.size ≤ c.predicate.objects.size

theorem reading_construct (h : Indexed c₀.predicate) :
    Reading pastEnd (direction c₀) c₀ (CachedSubjectObjectScanner.construct pastEnd c₀).1
      (CachedSubjectObjectScanner.construct pastEnd c₀).2 := by
  refine .moveTo rfl ?_
  cases hdir : direction c₀ with
  | true =>
    unfold direction at hdir
    rw [hdir, if_pos rfl]
    exact h.subjects
  | false =>
    unfold direction at hdir
    rw [hdir, if_neg Bool.false_ne_true]
    exact h.objects

/-- A scan comes to its end. -/
theorem exists_scans {p : FullyIndexedPredicate} (n : ℕ) {s : CachedSubjectObjectScanner} {c : CachedSource}
    (h : SameAnswers p c.predicate) (hn : ((CachedSourceScanner.subjectObject s).ahead p).length < n) :
    ∃ l c', Scans pastEnd s c l c' := by
  induction n generalizing s c with
  | zero => omega
  | succ n ih =>
    obtain ⟨h1, h2, -, h4⟩ := (CachedSourceScanner.subjectObject s).hasNext_spec pastEnd h
    cases hmore : (s.hasNext pastEnd c).1 with
    | false => exact ⟨[], _, .done hmore⟩
    | true =>
      obtain ⟨x, hx⟩ := h4 hmore
      obtain ⟨s', hnext, hcons⟩ := hx _ h1
      obtain ⟨r, hr, he⟩ : ∃ r, (s.hasNext pastEnd c).2.1.next (s.hasNext pastEnd c).2.2 = .ok r ∧
          (r.1, CachedSourceScanner.subjectObject r.2) = (x, s') := by
        change Except.map _ ((s.hasNext pastEnd c).2.1.next (s.hasNext pastEnd c).2.2) = _ at hnext
        cases hr : (s.hasNext pastEnd c).2.1.next (s.hasNext pastEnd c).2.2 with
        | error e =>
          rw [hr] at hnext
          cases hnext
        | ok r =>
          rw [hr] at hnext
          exact ⟨r, rfl, Except.ok.inj hnext⟩
      obtain ⟨rfl, rfl⟩ := Prod.mk.inj he
      have hlen := congrArg List.length (h2.symm.trans hcons)
      rw [List.length_cons] at hlen
      obtain ⟨l, c', hrest⟩ := ih h1 (s := r.2) (by omega)
      exact ⟨r.1 :: l, c', .more hmore hr hrest⟩

/-- **A scan reads past the end of its set once**, and looks up what it gets. -/
theorem scans_eq (pastEnd : ℕ → UInt64) (h : Indexed c₀.predicate) :
    (∃ l c', Scans pastEnd (CachedSubjectObjectScanner.construct pastEnd c₀).1
      (CachedSubjectObjectScanner.construct pastEnd c₀).2 l c') ∧
    ∀ l c', Scans pastEnd (CachedSubjectObjectScanner.construct pastEnd c₀).1
      (CachedSubjectObjectScanner.construct pastEnd c₀).2 l c' → c' = afterEnd pastEnd (direction c₀) c₀ :=
  ⟨exists_scans _ (construct_spec pastEnd .all (.rfl' c₀.predicate)).2 (Nat.lt_succ_self _),
    fun _ _ hs => (reading_construct h).scans hs⟩

/-! ## Scans of a cached source -/

/-- A scan of all points never reads past the end of its set, and leaves the maps as they are. -/
def ReadsInside (pastEnd : ℕ → UInt64) (c : CachedSource) : Prop :=
  ∀ l c', Scans pastEnd (CachedSubjectObjectScanner.construct pastEnd c).1
    (CachedSubjectObjectScanner.construct pastEnd c).2 l c' → c'.endReads = c.endReads ∧ c'.predicate = c.predicate

theorem not_readsInside (h : Indexed c₀.predicate) : ¬ ReadsInside pastEnd c₀ := by
  intro hinside
  obtain ⟨⟨l, c', hs⟩, hall⟩ := scans_eq pastEnd h
  have hreads := (hinside l c' hs).1
  rw [hall l c' hs] at hreads
  exact Nat.succ_ne_self _ hreads

/-- **No scan stays inside its set**, whatever was called before. It reads past the end once. The
answers are as before; the maps are if what was read is one of the ids. -/
theorem scan_reads_past_end {t : T} {pastEnd : ℕ → UInt64} {calls : List Call} {st : State}
    (hrun : (machine pastEnd).run calls (start ops t) = some st) :
    ¬ ReadsInside pastEnd st.source ∧
      (∃ l c', Scans pastEnd (CachedSubjectObjectScanner.construct pastEnd st.source).1
        (CachedSubjectObjectScanner.construct pastEnd st.source).2 l c') ∧
      ∀ l c', Scans pastEnd (CachedSubjectObjectScanner.construct pastEnd st.source).1
        (CachedSubjectObjectScanner.construct pastEnd st.source).2 l c' →
          c'.endReads = st.source.endReads + 1 ∧ SameAnswers st.source.predicate c'.predicate ∧
          (c'.predicate = st.source.predicate ↔ st.source.predicate.hasKey (CachedSubjectObjectScanner.activeElements
            (direction st.source) (pastEnd st.source.endReads)) = true) := by
  have hindexed := indexed_run hrun
  obtain ⟨hex, hall⟩ := scans_eq pastEnd hindexed
  refine ⟨not_readsInside hindexed, hex, fun l c' hs => ?_⟩
  obtain rfl := hall l c' hs
  exact ⟨rfl, (SameAnswers.rfl' _).lookup _, FullyIndexedPredicate.lookup_eq_self _⟩

open PointTree

/-- A source that was asked before it is scanned. -/
theorem scan_reads_past_end_asked : ∃ st,
    (machine fun _ => 7).run [.has 5 1, .scan .all, .hasNext 0] (start PointTree.ops (ofList [(2, 3), (1, 1)])) = some st ∧
    ¬ ReadsInside (fun _ => 7) st.source := by
  obtain ⟨st, hst⟩ : ∃ st, (machine fun _ => 7).run [.has 5 1, .scan .all, .hasNext 0]
      (start PointTree.ops (ofList [(2, 3), (1, 1)])) = some st := ⟨_, rfl⟩
  exact ⟨st, hst, (scan_reads_past_end hst).1⟩

/-- The source of an empty tree: the constructor reads past the end. -/
theorem not_readsInside_empty : ¬ ReadsInside (fun _ => 7) (.construct PointTree.ops (ofList [])) :=
  not_readsInside (indexed_construct _)

end Shared

end K2Cache
