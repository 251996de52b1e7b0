import K2Cache.Proof.CachedStream
import K2Cache.Spec.SharedSource

/-!
# The shared source refines its tree

A lookup inserts empty vectors, so that no answer changes (`SameAnswers.lookup`), and a
scanner of the shared source does what one with a copy of the source does, whatever is read
past the end (`CachedSourceScanner.hasNext_spec`). With that the calls of a run keep
`Follows`: a scanner has visited the front of what it had ahead of it when it was made.

`refinesTree_iff`: every run has the answers of the tree, and its scanners visit exactly
their points, if and only if no `int` has to walk `2 ^ 31` of them.
-/

namespace K2Cache

open Lib

variable {T : Type} {ops : TreeOps T}

/-! ## Lookups -/

theorem vectorAt_afterAt (m : OrdMap UInt64 (List UInt64)) (k k' : UInt64) : vectorAt (afterAt m k) k' = vectorAt m k' := by
  unfold afterAt
  split
  · rfl
  · rename_i hk
    rw [vectorAt_insert]
    split
    · rename_i he
      have hnone : m.find? k = none := OrdMap.contains_eq_false m |>.1 (by simpa using hk)
      rw [he, vectorAt, hnone]
      rfl
    · rfl

/-- The map is as before if the key is not new. -/
theorem afterAt_eq_self {m : OrdMap UInt64 (List UInt64)} {k : UInt64} : afterAt m k = m ↔ m.contains k = true := by
  unfold afterAt
  split
  · rename_i hk
    exact ⟨fun _ => hk, fun _ => rfl⟩
  · rename_i hk
    refine ⟨fun he => ?_, fun h => absurd h hk⟩
    rw [← he]
    exact (OrdMap.contains_iff _).2 ⟨[], OrdMap.find?_insert_self m k []⟩

namespace FullyIndexedPredicate

variable (p : FullyIndexedPredicate)

@[simp] theorem vector_lookup (r r' : VectorRef) : (p.lookup r).vector r' = p.vector r' := by
  cases r <;> cases r'
  case objectsOf.objectsOf => exact vectorAt_afterAt _ _ _
  case subjectsOf.subjectsOf => exact vectorAt_afterAt _ _ _
  all_goals rfl

@[simp] theorem subjects_lookup (r : VectorRef) : (p.lookup r).subjects = p.subjects := by cases r <;> rfl

@[simp] theorem objects_lookup (r : VectorRef) : (p.lookup r).objects = p.objects := by cases r <;> rfl

/-- A lookup leaves the maps alone if its key is there. -/
theorem lookup_eq_self {r : VectorRef} : p.lookup r = p ↔ p.hasKey r = true := by
  cases r with
  | objectsOf s =>
    rw [hasKey, ← afterAt_eq_self]
    exact ⟨congrArg subjectToObject, congrArg fun m => { p with subjectToObject := m }⟩
  | subjectsOf o =>
    rw [hasKey, ← afterAt_eq_self]
    exact ⟨congrArg objectToSubject, congrArg fun m => { p with objectToSubject := m }⟩

end FullyIndexedPredicate

/-- The two answer every call alike. -/
structure SameAnswers (p p' : FullyIndexedPredicate) : Prop where
  vector : ∀ r, p'.vector r = p.vector r
  subjects : p'.subjects = p.subjects
  objects : p'.objects = p.objects

namespace SameAnswers

variable {p p' : FullyIndexedPredicate}

theorem rfl' (p : FullyIndexedPredicate) : SameAnswers p p := ⟨fun _ => rfl, rfl, rfl⟩

theorem lookup (h : SameAnswers p p') (r : VectorRef) : SameAnswers p (p'.lookup r) :=
  ⟨fun r' => by rw [FullyIndexedPredicate.vector_lookup, h.vector], by rw [FullyIndexedPredicate.subjects_lookup, h.subjects],
    by rw [FullyIndexedPredicate.objects_lookup, h.objects]⟩

theorem has (h : SameAnswers p p') (s o : UInt64) : p'.has s o = p.has s o := by
  have hs : p'.getObjects s = p.getObjects s := h.vector (.objectsOf s)
  have ho : p'.getSubjects o = p.getSubjects o := h.vector (.subjectsOf o)
  unfold FullyIndexedPredicate.has
  rw [hs, ho]

theorem hasAt (h : SameAnswers p p') (s o : UInt64) :
    (p'.hasAt s o).1 = p.has s o ∧ SameAnswers p (p'.hasAt s o).2 := by
  have h2 : SameAnswers p (p'.hasAt s o).2 := (h.lookup (.objectsOf s)).lookup (.subjectsOf o)
  exact ⟨h2.has s o, h2⟩

end SameAnswers

namespace Shared

/-! ## One scanner -/

variable {p : FullyIndexedPredicate} {pastEnd : ℕ → UInt64}

namespace CachedSubjectObjectScanner

/-- The scanner with a copy of the source. -/
def copy (p : FullyIndexedPredicate) (pe : UInt64) (s : CachedSubjectObjectScanner) : K2Cache.CachedSubjectObjectScanner :=
  ⟨p, s.leftRightDir, s.baseSetIt, p.vector s.activeRightElements, s.currentBaseElement, s.currentActiveElementPosition, pe⟩

theorem vector_activeElements (dir : Bool) (e : UInt64) :
    p.vector (activeElements dir e) = K2Cache.CachedSubjectObjectScanner.getActiveElements p dir e := by
  cases dir <;> rfl

theorem copy_moveTo (it : List UInt64) (s : CachedSubjectObjectScanner) (c : CachedSource) :
    (s.moveTo pastEnd it c).1.copy p (pastEnd c.endReads) = (s.copy p (pastEnd c.endReads)).moveTo it := by
  unfold moveTo K2Cache.CachedSubjectObjectScanner.moveTo copy
  cases it <;> simp only [CachedSource.readIt, vector_activeElements, List.headD]

theorem same_moveTo (pastEnd : ℕ → UInt64) (it : List UInt64) (s : CachedSubjectObjectScanner) {c : CachedSource} (h : SameAnswers p c.predicate) :
    SameAnswers p (s.moveTo pastEnd it c).2.predicate := by
  unfold moveTo
  cases it <;> exact h.lookup _

/-- Reading an element counts nothing. -/
theorem endReads_moveTo_cons (e : UInt64) (it : List UInt64) (s : CachedSubjectObjectScanner) (c : CachedSource) :
    (s.moveTo pastEnd (e :: it) c).2.endReads = c.endReads := rfl

/-- **The loop** does what it does with a copy. Only its last read can be past the end. -/
theorem skip_copy (pastEnd : ℕ → UInt64) (it : List UInt64) (s : CachedSubjectObjectScanner)
    {c : CachedSource} (h : SameAnswers p c.predicate) :
    (skip pastEnd it s c).1.copy p (pastEnd c.endReads) = (s.copy p (pastEnd c.endReads)).skip it ∧
      SameAnswers p (skip pastEnd it s c).2.predicate := by
  induction it generalizing s c with
  | nil => exact ⟨rfl, h⟩
  | cons e it ih =>
    unfold skip K2Cache.CachedSubjectObjectScanner.skip
    rw [h.vector, ← copy_moveTo]
    have hsame := same_moveTo pastEnd it s h
    split
    · rename_i hle
      refine ⟨Eq.trans ?_ (if_pos hle).symm, (ih _ hsame).2⟩
      cases it with
      | nil => rfl
      | cons e' it =>
        have h1 := (ih (s.moveTo pastEnd (e' :: it) c).1 hsame).1
        rw [endReads_moveTo_cons] at h1
        exact h1
    · rename_i hlt
      exact ⟨(if_neg hlt).symm, h⟩

theorem ahead_copy (pe pe' : UInt64) (s : CachedSubjectObjectScanner) : (s.copy p pe).ahead = (s.copy p pe').ahead := by
  unfold K2Cache.CachedSubjectObjectScanner.ahead copy
  cases s.baseSetIt <;> rfl

end CachedSubjectObjectScanner

namespace CachedSourceScanner

/-- The scanner with a copy of the source. -/
def copy (p : FullyIndexedPredicate) (pe : UInt64) : CachedSourceScanner → K2Cache.CachedSourceScanner
  | .subjectObject s => .subjectObject (s.copy p pe)
  | .object objects pos v => .object (p.vector objects) pos v
  | .subject subjects pos v => .subject (p.vector subjects) pos v

/-- What a scanner has not visited. -/
def ahead (p : FullyIndexedPredicate) (s : CachedSourceScanner) : List Point := (s.copy p 0).ahead

theorem ahead_copy (pe : UInt64) (s : CachedSourceScanner) : (s.copy p pe).ahead = s.ahead p := by
  cases s with
  | subjectObject s => exact s.ahead_copy pe 0
  | object objects pos v => rfl
  | subject subjects pos v => rfl

theorem hasNext_copy (pastEnd : ℕ → UInt64) (s : CachedSourceScanner) {c : CachedSource} (h : SameAnswers p c.predicate) :
    (s.hasNext pastEnd c).1 = (s.copy p (pastEnd c.endReads)).hasNext.1 ∧
      (s.hasNext pastEnd c).2.1.copy p (pastEnd c.endReads) = (s.copy p (pastEnd c.endReads)).hasNext.2 ∧
      SameAnswers p (s.hasNext pastEnd c).2.2.predicate := by
  cases s with
  | subjectObject s =>
    obtain ⟨h1, h2⟩ := CachedSubjectObjectScanner.skip_copy pastEnd s.baseSetIt s h
    refine ⟨?_, congrArg K2Cache.CachedSourceScanner.subjectObject h1, h2⟩
    exact congrArg (fun s : K2Cache.CachedSubjectObjectScanner => !s.baseSetIt.isEmpty) h1
  | object objects pos v =>
    refine ⟨?_, rfl, h⟩
    simp only [hasNext, copy, K2Cache.CachedSourceScanner.hasNext, h.vector]
  | subject subjects pos v =>
    refine ⟨?_, rfl, h⟩
    simp only [hasNext, copy, K2Cache.CachedSourceScanner.hasNext, h.vector]

theorem next_copy (s : CachedSourceScanner) {c : CachedSource} (h : SameAnswers p c.predicate) (pe : UInt64) :
    (s.copy p pe).next = (s.next c).map fun r => (r.1, r.2.copy p pe) := by
  cases s with
  | subjectObject s =>
    simp only [next, copy, K2Cache.CachedSourceScanner.next, CachedSubjectObjectScanner.next,
      K2Cache.CachedSubjectObjectScanner.next, CachedSubjectObjectScanner.copy, h.vector]
    cases (p.vector s.activeRightElements)[s.currentActiveElementPosition]? <;> rfl
  | object objects pos v =>
    simp only [next, copy, K2Cache.CachedSourceScanner.next, h.vector]
    cases (p.vector objects)[pos]? <;> rfl
  | subject subjects pos v =>
    simp only [next, copy, K2Cache.CachedSourceScanner.next, h.vector]
    cases (p.vector subjects)[pos]? <;> rfl

/-- A scanner that has a point to give: this one, and then those. -/
def Gives (p : FullyIndexedPredicate) (s : CachedSourceScanner) : Prop :=
  ∃ x, ∀ c : CachedSource, SameAnswers p c.predicate → ∃ s', s.next c = .ok (x, s') ∧ s.ahead p = x :: s'.ahead p

/-- **`has_next`** says whether there is more, and `next` gives it. -/
theorem hasNext_spec (pastEnd : ℕ → UInt64) (s : CachedSourceScanner) {c : CachedSource} (h : SameAnswers p c.predicate) :
    SameAnswers p (s.hasNext pastEnd c).2.2.predicate ∧ (s.hasNext pastEnd c).2.1.ahead p = s.ahead p ∧
      ((s.hasNext pastEnd c).1 = false → s.ahead p = []) ∧
      ((s.hasNext pastEnd c).1 = true → Gives p (s.hasNext pastEnd c).2.1) := by
  obtain ⟨h1, h2, h3⟩ := s.hasNext_copy pastEnd h
  obtain ⟨h4, h5, h6⟩ := (s.copy p (pastEnd c.endReads)).hasNext_spec
  rw [← h2, ahead_copy, ahead_copy] at h4
  rw [ahead_copy] at h5 h6
  refine ⟨h3, h4, fun hf => h5 (h1 ▸ hf), fun ht => ?_⟩
  obtain ⟨x, sc, hnext, hcons⟩ := h6 (h1 ▸ ht)
  rw [← h2] at hnext
  refine ⟨x, fun c' hc' => ?_⟩
  rw [next_copy _ hc'] at hnext
  cases hr : (s.hasNext pastEnd c).2.1.next c' with
  | error e =>
    rw [hr] at hnext
    cases hnext
  | ok r =>
    rw [hr] at hnext
    obtain ⟨rfl, rfl⟩ := Prod.mk.inj (Except.ok.inj hnext)
    exact ⟨r.2, rfl, by rw [h4, hcons, ahead_copy]⟩

end CachedSourceScanner

/-! ## Runs -/

/-- What a new scanner has ahead of it. -/
def whole (p : FullyIndexedPredicate) : ScannerOf → List Point
  | .all => (K2Cache.CachedSubjectObjectScanner.construct p 0).ahead
  | .vector (.objectsOf s) => (K2Cache.CachedSourceScanner.object (p.getObjects s) 0 s).ahead
  | .vector (.subjectsOf o) => (K2Cache.CachedSourceScanner.subject (p.getSubjects o) 0 o).ahead

theorem construct_spec (pastEnd : ℕ → UInt64) (k : ScannerOf) {c : CachedSource} (h : SameAnswers p c.predicate) :
    (CachedSourceScanner.construct pastEnd c k).1.ahead p = whole p k ∧
      SameAnswers p (CachedSourceScanner.construct pastEnd c k).2.predicate := by
  match k with
  | .all =>
    refine ⟨?_, CachedSubjectObjectScanner.same_moveTo _ _ _ h⟩
    rw [← CachedSourceScanner.ahead_copy (pastEnd c.endReads)]
    unfold CachedSourceScanner.construct CachedSourceScanner.copy CachedSubjectObjectScanner.construct whole
      K2Cache.CachedSubjectObjectScanner.construct
    simp only
    rw [CachedSubjectObjectScanner.copy_moveTo, K2Cache.CachedSourceScanner.ahead,
      K2Cache.CachedSubjectObjectScanner.ahead_moveTo, K2Cache.CachedSubjectObjectScanner.ahead_moveTo, h.subjects, h.objects]
    rfl
  | .vector (.objectsOf s) => exact ⟨rfl, h.lookup (.objectsOf s)⟩
  | .vector (.subjectsOf o) => exact ⟨rfl, h.lookup (.subjectsOf o)⟩

/-- The scanner has visited the front of what it had ahead of it, and `has_next` was right. -/
structure OpenScanner.Follows (p : FullyIndexedPredicate) (o : OpenScanner) : Prop where
  split : o.visited ++ o.scanner.ahead p = whole p o.scannerOf
  done : o.more = some false → o.scanner.ahead p = []
  more : o.more = some true → o.scanner.Gives p

/-- The source answers as it did when it was built, and its scanners follow. -/
structure Inv (p : FullyIndexedPredicate) (st : State) : Prop where
  same : SameAnswers p st.source.predicate
  follows : ∀ o ∈ st.scanners, o.Follows p

/-- Only one scanner changes. -/
theorem follows_set {l : List OpenScanner} {i : ℕ} {o : OpenScanner} (h : ∀ o ∈ l, o.Follows p) (ho : o.Follows p) :
    ∀ o' ∈ l.set i o, o'.Follows p := by
  intro o' ho'
  rcases List.mem_or_eq_of_mem_set ho' with hm | rfl
  · exact h o' hm
  · exact ho

theorem OpenScanner.Follows.hasNext {o : OpenScanner} {c : CachedSource} (h : SameAnswers p c.predicate) (ho : o.Follows p) :
    OpenScanner.Follows p
      { o with scanner := (o.scanner.hasNext pastEnd c).2.1, more := some (o.scanner.hasNext pastEnd c).1 } := by
  obtain ⟨-, h2, h3, h4⟩ := o.scanner.hasNext_spec pastEnd h
  refine ⟨?_, fun hm => ?_, fun hm => h4 (Option.some.inj hm)⟩
  · rw [h2]
    exact ho.split
  · rw [h2]
    exact h3 (Option.some.inj hm)

theorem OpenScanner.Follows.next {o : OpenScanner} {c : CachedSource} {x : Point} {s' : CachedSourceScanner}
    (h : SameAnswers p c.predicate) (ho : o.Follows p) (hm : o.more = some true) (hnext : o.scanner.next c = .ok (x, s')) :
    o.scanner.ahead p = x :: s'.ahead p ∧ OpenScanner.Follows p ⟨o.scannerOf, s', o.visited ++ [x], none⟩ := by
  obtain ⟨y, hy⟩ := ho.more hm
  obtain ⟨s₁, h1, h2⟩ := hy c h
  obtain ⟨rfl, rfl⟩ := Prod.mk.inj (Except.ok.inj (h1.symm.trans hnext))
  refine ⟨h2, ?_, nofun, nofun⟩
  rw [← ho.split, h2, List.append_assoc]
  rfl

/-- **One call.** -/
theorem call_inv {st st' : State} {call : Call} (h : (machine pastEnd).step st call = some st') (hi : Inv p st) :
    Inv p st' := by
  cases call with
  | has subjectId objectId =>
    obtain rfl := Option.some.inj h
    exact ⟨(hi.same.hasAt subjectId objectId).2, hi.follows⟩
  | get r =>
    obtain rfl := Option.some.inj h
    exact ⟨hi.same.lookup r, hi.follows⟩
  | scan k =>
    obtain rfl := Option.some.inj h
    obtain ⟨h1, h2⟩ := construct_spec pastEnd k hi.same
    refine ⟨h2, List.forall_mem_append.2 ⟨hi.follows, List.forall_mem_singleton.2 ⟨?_, nofun, nofun⟩⟩⟩
    exact h1
  | hasNext i =>
    obtain ⟨o, ho, rfl⟩ := Option.map_eq_some_iff.1 h
    have hfollows := hi.follows o (List.mem_of_getElem? ho)
    exact ⟨(o.scanner.hasNext_spec pastEnd hi.same).1, follows_set hi.follows (hfollows.hasNext hi.same)⟩
  | next i =>
    obtain ⟨o, ho, hnext⟩ := Option.bind_eq_some_iff.1 h
    have hfollows := hi.follows o (List.mem_of_getElem? ho)
    unfold State.next at hnext
    split at hnext
    · rename_i hm
      split at hnext
      · cases hnext
      · rename_i r hr
        obtain rfl := Option.some.inj hnext
        exact ⟨hi.same, follows_set hi.follows (hfollows.next hi.same hm hr).2⟩
    · cases hnext

theorem start_inv (t : T) : Inv (.construct ops t) (start ops t) := ⟨.rfl' _, nofun⟩

theorem run_inv {t : T} {calls : List Call} {st : State} (h : (machine pastEnd).run calls (start ops t) = some st) :
    Inv (.construct ops t) st :=
  Machine.always (fun _ _ _ hstep hi => call_inv hstep hi) h (start_inv t)

/-! ## What the scanners are to visit -/

/-- The points of the tree that are the scanner's. -/
def ScannerOf.Visits (ops : TreeOps T) (t : T) (k : ScannerOf) (x : Point) : Prop :=
  ops.has t x = true ∧
    match k with
    | .all => True
    | .vector (.objectsOf s) => x.1 = s
    | .vector (.subjectsOf o) => x.2 = o

/-- An `int` does not have to walk `2 ^ 31` points. -/
def ScannerOf.Short (ops : TreeOps T) (t : T) : ScannerOf → Prop
  | .all => True
  | .vector (.objectsOf s) => (ops.bandScan t .column s).length < 2 ^ 31
  | .vector (.subjectsOf o) => (ops.bandScan t .row o).length < 2 ^ 31

/-- What an `int` walks of a vector is all of it if the vector is short. -/
theorem visits_walked {l : List UInt64} (hnodup : l.Nodup) {f : UInt64 → Point} (hf : Function.Injective f) {V : Point → Prop}
    (hV : ∀ x, V x ↔ ∃ v ∈ l, f v = x) :
    (((l.take (intLength l)).drop 0).map f).Nodup ∧ (∀ x ∈ ((l.take (intLength l)).drop 0).map f, V x) ∧
      ((∀ x, V x → x ∈ ((l.take (intLength l)).drop 0).map f) ↔ l.length < 2 ^ 31) := by
  rw [List.drop_zero, ← length_le_intLength]
  refine ⟨((hnodup.sublist (List.take_sublist _ _)).map hf), fun x hx => ?_, fun hall => ?_, fun hle x hx => ?_⟩
  · obtain ⟨v, hv, rfl⟩ := List.mem_map.1 hx
    exact (hV _).2 ⟨v, List.mem_of_mem_take hv, rfl⟩
  · have hsub : l ⊆ l.take (intLength l) := by
      intro v hv
      obtain ⟨v', hv', he⟩ := List.mem_map.1 (hall (f v) ((hV _).2 ⟨v, hv, rfl⟩))
      exact hf he ▸ hv'
    have hlen := (hnodup.subperm hsub).length_le
    rw [List.length_take] at hlen
    omega
  · rw [List.take_of_length_le hle]
    obtain ⟨v, hv, rfl⟩ := (hV x).1 hx
    exact List.mem_map_of_mem hv

theorem visits_whole (hl : ops.Lawful) (t : T) (k : ScannerOf) :
    (whole (.construct ops t) k).Nodup ∧ (∀ x ∈ whole (.construct ops t) k, k.Visits ops t x) ∧
      ((∀ x, k.Visits ops t x → x ∈ whole (.construct ops t) k) ↔ k.Short ops t) := by
  match k with
  | .all =>
    have hperm := K2Cache.CachedSubjectObjectScanner.ahead_construct hl t 0
    refine ⟨hperm.nodup_iff.2 (hl.nodup_fullScan t), fun x hx => ⟨(hl.mem_fullScan t x).1 (hperm.mem_iff.1 hx), trivial⟩, ?_⟩
    exact ⟨fun _ => trivial, fun _ x hx => hperm.mem_iff.2 ((hl.mem_fullScan t x).2 hx.1)⟩
  | .vector (.objectsOf s) =>
    have h := visits_walked (FullyIndexedPredicate.nodup_getObjects hl t s) (Prod.mk_right_injective s)
      (V := ScannerOf.Visits ops t (.vector (.objectsOf s))) ?_
    · rw [(FullyIndexedPredicate.getObjects_perm hl t s).length_eq] at h
      exact h
    · rintro ⟨s', o⟩
      simp only [ScannerOf.Visits, FullyIndexedPredicate.mem_getObjects hl, Prod.mk.injEq]
      constructor
      · rintro ⟨h, rfl⟩
        exact ⟨o, h, rfl, rfl⟩
      · rintro ⟨o, h, rfl, rfl⟩
        exact ⟨h, rfl⟩
  | .vector (.subjectsOf o) =>
    have h := visits_walked (FullyIndexedPredicate.nodup_getSubjects hl t o) (Prod.mk_left_injective o)
      (V := ScannerOf.Visits ops t (.vector (.subjectsOf o))) ?_
    · rw [(FullyIndexedPredicate.getSubjects_perm hl t o).length_eq] at h
      exact h
    · rintro ⟨s, o'⟩
      simp only [ScannerOf.Visits, FullyIndexedPredicate.mem_getSubjects hl, Prod.mk.injEq]
      constructor
      · rintro ⟨h, rfl⟩
        exact ⟨s, h, rfl, rfl⟩
      · rintro ⟨s, h, rfl, rfl⟩
        exact ⟨h, rfl⟩

/-! ## The source refines its tree -/

/-- The scanner has given points of its own, none twice. If it has said that there are no more it
has given all, and if it has said that there is one more it can give one that is new. -/
structure OpenScanner.Right (ops : TreeOps T) (t : T) (c : CachedSource) (o : OpenScanner) : Prop where
  nodup : o.visited.Nodup
  points : ∀ x ∈ o.visited, o.scannerOf.Visits ops t x
  all : o.more = some false → ∀ x, o.scannerOf.Visits ops t x → x ∈ o.visited
  more : o.more = some true → ∃ x s', o.scanner.next c = .ok (x, s') ∧ x ∉ o.visited

/-- **The source refines its tree**: its answers are the ones of the tree, and so are the points of
its scanners. -/
structure RefinesTree (ops : TreeOps T) (t : T) (st : State) : Prop where
  has : ∀ s o, (st.source.predicate.hasAt s o).1 = ops.has t (s, o)
  objects : ∀ s, (st.source.predicate.getAt (.objectsOf s)).1.Nodup ∧
    ∀ o, o ∈ (st.source.predicate.getAt (.objectsOf s)).1 ↔ ops.has t (s, o) = true
  subjects : ∀ o, (st.source.predicate.getAt (.subjectsOf o)).1.Nodup ∧
    ∀ s, s ∈ (st.source.predicate.getAt (.subjectsOf o)).1 ↔ ops.has t (s, o) = true
  allSubjects : ∀ s, s ∈ st.source.predicate.subjects.keys ↔ ∃ o, ops.has t (s, o) = true
  allObjects : ∀ o, o ∈ st.source.predicate.objects.keys ↔ ∃ s, ops.has t (s, o) = true
  scanners : ∀ o ∈ st.scanners, o.Right ops t st.source

theorem right_of_follows (hl : ops.Lawful) {t : T} {c : CachedSource} {o : OpenScanner}
    (hc : SameAnswers (.construct ops t) c.predicate) (h : o.Follows (.construct ops t)) (hk : o.scannerOf.Short ops t) :
    o.Right ops t c := by
  obtain ⟨hnodup, hpoints, hall⟩ := visits_whole hl t o.scannerOf
  rw [← h.split] at hnodup hpoints hall
  refine ⟨(List.nodup_append.1 hnodup).1, fun x hx => hpoints x (List.mem_append_left _ hx), fun hm x hx => ?_, fun hm => ?_⟩
  · have hmem := hall.2 hk x hx
    rw [h.done hm, List.append_nil] at hmem
    exact hmem
  · obtain ⟨x, hx⟩ := h.more hm
    obtain ⟨s', h1, h2⟩ := hx c hc
    refine ⟨x, s', h1, fun hmem => ?_⟩
    rw [h2] at hnodup
    exact (List.disjoint_of_nodup_append hnodup) hmem List.mem_cons_self

theorem mem_allSubjects (hl : ops.Lawful) (t : T) (s : UInt64) :
    s ∈ (FullyIndexedPredicate.construct ops t).subjects.keys ↔ ∃ o, ops.has t (s, o) = true := by
  refine ⟨fun h => ?_, fun ⟨o, h⟩ => FullyIndexedPredicate.mem_subjects hl h⟩
  rcases (FullyIndexedPredicate.mem_subjects_foldl _ _ s).1 h with h | ⟨⟨s, o⟩, hx, rfl⟩
  · exact absurd h List.not_mem_nil
  · exact ⟨o, (hl.mem_fullScan t _).1 hx⟩

theorem mem_allObjects (hl : ops.Lawful) (t : T) (o : UInt64) :
    o ∈ (FullyIndexedPredicate.construct ops t).objects.keys ↔ ∃ s, ops.has t (s, o) = true := by
  refine ⟨fun h => ?_, fun ⟨s, h⟩ => FullyIndexedPredicate.mem_objects hl h⟩
  rcases (FullyIndexedPredicate.mem_objects_foldl _ _ o).1 h with h | ⟨⟨s, o⟩, hx, rfl⟩
  · exact absurd h List.not_mem_nil
  · exact ⟨s, (hl.mem_fullScan t _).1 hx⟩

theorem refinesTree_of_inv (hl : ops.Lawful) {t : T} {st : State} (h : Inv (.construct ops t) st)
    (hk : ∀ o ∈ st.scanners, o.scannerOf.Short ops t) : RefinesTree ops t st where
  has s o := by rw [(h.same.hasAt s o).1, FullyIndexedPredicate.has_construct hl]
  objects s := by
    have hget : (st.source.predicate.getAt (.objectsOf s)).1 = (FullyIndexedPredicate.construct ops t).getObjects s :=
      (h.same.lookup (.objectsOf s)).vector (.objectsOf s)
    rw [hget]
    exact ⟨FullyIndexedPredicate.nodup_getObjects hl t s, fun o => FullyIndexedPredicate.mem_getObjects hl⟩
  subjects o := by
    have hget : (st.source.predicate.getAt (.subjectsOf o)).1 = (FullyIndexedPredicate.construct ops t).getSubjects o :=
      (h.same.lookup (.subjectsOf o)).vector (.subjectsOf o)
    rw [hget]
    exact ⟨FullyIndexedPredicate.nodup_getSubjects hl t o, fun s => FullyIndexedPredicate.mem_getSubjects hl⟩
  allSubjects s := by rw [h.same.subjects, mem_allSubjects hl]
  allObjects o := by rw [h.same.objects, mem_allObjects hl]
  scanners o ho := right_of_follows hl h.same (h.follows o ho) (hk o ho)

/-- The scanners of a run are the ones its calls have made. -/
theorem call_scanners {K : ScannerOf → Prop} {st st' : State} {call : Call} (hK : ∀ k, call = .scan k → K k)
    (h : (machine pastEnd).step st call = some st') (hi : ∀ o ∈ st.scanners, K o.scannerOf) :
    ∀ o ∈ st'.scanners, K o.scannerOf := by
  have hset : ∀ {i : ℕ} {o o' : OpenScanner}, o ∈ st.scanners → o'.scannerOf = o.scannerOf →
      ∀ o'' ∈ st.scanners.set i o', K o''.scannerOf := by
    intro i o o' ho he o'' ho''
    rcases List.mem_or_eq_of_mem_set ho'' with hm | rfl
    · exact hi o'' hm
    · exact he ▸ hi o ho
  cases call with
  | has subjectId objectId =>
    obtain rfl := Option.some.inj h
    exact hi
  | get r =>
    obtain rfl := Option.some.inj h
    exact hi
  | scan k =>
    obtain rfl := Option.some.inj h
    exact List.forall_mem_append.2 ⟨hi, List.forall_mem_singleton.2 (hK k rfl)⟩
  | hasNext i =>
    obtain ⟨o, ho, rfl⟩ := Option.map_eq_some_iff.1 h
    exact hset (List.mem_of_getElem? ho) rfl
  | next i =>
    obtain ⟨o, ho, hnext⟩ := Option.bind_eq_some_iff.1 h
    unfold State.next at hnext
    split at hnext
    · split at hnext
      · cases hnext
      · obtain rfl := Option.some.inj hnext
        exact hset (List.mem_of_getElem? ho) rfl
    · cases hnext

/-- A run whose scanners are short. -/
theorem refinesTree_run (hl : ops.Lawful) {t : T} {calls : List Call} {st : State}
    (hk : ∀ k, .scan k ∈ calls → k.Short ops t) (h : (machine pastEnd).run calls (start ops t) = some st) :
    RefinesTree ops t st := by
  have hmeets : (machine pastEnd).Meets (fun (_ : State) (call : Call) => ∀ k, call = .scan k → k.Short ops t) calls
      (start ops t) := by
    refine .of_forall_mem (fun call hcall _ k he => ?_) _
    subst he
    exact hk k hcall
  have hshort : ∀ o ∈ st.scanners, o.scannerOf.Short ops t :=
    Machine.invariant (I := fun st : State => ∀ o ∈ st.scanners, o.scannerOf.Short ops t)
      (fun _ _ _ hC hstep hi => call_scanners hC hstep hi) hmeets h nofun
  exact refinesTree_of_inv hl (run_inv h) hshort

theorem step_hasNext (pastEnd : ℕ → UInt64) {st : State} {i : ℕ} {o : OpenScanner} (ho : st.scanners[i]? = some o) :
    (machine pastEnd).step st (.hasNext i) = some (st.hasNext pastEnd i o) :=
  congrArg (Option.map (st.hasNext pastEnd i)) ho

theorem step_next (pastEnd : ℕ → UInt64) {st : State} {i : ℕ} {o : OpenScanner} (ho : st.scanners[i]? = some o) (hm : o.more = some true)
    {x : Point} {s' : CachedSourceScanner} (hnext : o.scanner.next st.source = .ok (x, s')) :
    (machine pastEnd).step st (.next i) =
      some ⟨st.source, st.scanners.set i ⟨o.scannerOf, s', o.visited ++ [x], none⟩⟩ := by
  have hstep : (machine pastEnd).step st (.next i) = st.next i o := congrArg (fun o => Option.bind o (st.next i)) ho
  rw [hstep, State.next, if_pos hm, hnext]

/-- A scanner is run until it says that there is no more. -/
theorem exists_exhausted (pastEnd : ℕ → UInt64) (n : ℕ) {st : State} (hi : Inv p st) {i : ℕ} {o : OpenScanner} (ho : st.scanners[i]? = some o)
    (hn : (o.scanner.ahead p).length < n) :
    ∃ calls st' o', (∀ k, .scan k ∉ calls) ∧ (machine pastEnd).run calls st = some st' ∧ o' ∈ st'.scanners ∧
      o'.scannerOf = o.scannerOf ∧ o'.more = some false := by
  induction n generalizing st o with
  | zero => omega
  | succ n ih =>
    have hlt : i < st.scanners.length := (List.getElem?_eq_some_iff.1 ho).1
    have hstep := step_hasNext pastEnd ho
    have hi₁ : Inv p (st.hasNext pastEnd i o) := call_inv hstep hi
    set r := o.scanner.hasNext pastEnd st.source with hr
    set o₁ : OpenScanner := { o with scanner := r.2.1, more := some r.1 } with ho₁
    have hget : (st.hasNext pastEnd i o).scanners[i]? = some o₁ := List.getElem?_set_self hlt
    obtain ⟨-, h2, -, h4⟩ := o.scanner.hasNext_spec pastEnd hi.same
    cases hmore : r.1 with
    | false =>
      refine ⟨[.hasNext i], _, o₁, by simp, by rw [Machine.run, hstep]; rfl, List.mem_of_getElem? hget, rfl, ?_⟩
      rw [ho₁, hmore]
    | true =>
      obtain ⟨x, hx⟩ := h4 hmore
      obtain ⟨s', hnext, hcons⟩ := hx _ hi₁.same
      have hstep₁ := step_next pastEnd hget (congrArg some hmore) hnext
      have hlen : (s'.ahead p).length < n := by
        have := congrArg List.length (h2.symm.trans hcons)
        rw [List.length_cons] at this
        omega
      have hget₂ := List.getElem?_set_self (a := (⟨o₁.scannerOf, s', o₁.visited ++ [x], none⟩ : OpenScanner))
        (List.getElem?_eq_some_iff.1 hget).1
      obtain ⟨calls, st', o', h5, h6, h7, h8, h9⟩ := ih (call_inv hstep₁ hi₁) hget₂ hlen
      refine ⟨.hasNext i :: .next i :: calls, st', o', fun k => by simpa using h5 k, ?_, h7, h8, h9⟩
      rw [Machine.run, hstep, Option.bind_some, Machine.run, hstep₁]
      exact h6

/-- Where the source refines its tree in every run with a scanner of a kind, these are short. -/
theorem short_of_refinesTree (hl : ops.Lawful) {t : T} {k : ScannerOf}
    (h : ∀ calls st, (∀ k', .scan k' ∈ calls → k' = k) → (machine pastEnd).run calls (start ops t) = some st →
      RefinesTree ops t st) : k.Short ops t := by
  have hopen : (machine pastEnd).step (start ops t) (.scan k) =
      some ⟨(CachedSourceScanner.construct pastEnd (.construct ops t) k).2,
        [⟨k, (CachedSourceScanner.construct pastEnd (.construct ops t) k).1, [], none⟩]⟩ := rfl
  obtain ⟨calls, st, o, hscan, hrun, ho, hof, hmore⟩ :=
    exists_exhausted pastEnd _ (call_inv hopen (start_inv t)) (i := 0) rfl (Nat.lt_succ_self _)
  have hall : (machine pastEnd).run (.scan k :: calls) (start ops t) = some st := by
    rw [Machine.run, hopen]
    exact hrun
  have hright := (h _ st (fun k' hk' => ?_) hall).scanners o ho
  · obtain ⟨hdone, hsplit⟩ : o.scanner.ahead (.construct ops t) = [] ∧ _ := by
      have hf := (run_inv hall).follows o ho
      exact ⟨hf.done hmore, hf.split⟩
    rw [hdone, List.append_nil] at hsplit
    refine (visits_whole hl t k).2.2.1 fun x hx => ?_
    obtain rfl : o.scannerOf = k := hof
    rw [← hsplit]
    exact hright.all hmore x hx
  · rcases List.mem_cons.1 hk' with he | hm
    · exact Call.scan.inj he
    · exact absurd hm (hscan k')

/-- **The indexed predicate refines its tree** in all runs with scanners of the kinds `K` if and
only if each of these has fewer than `2 ^ 31` points to walk with an `int`. -/
theorem refinesTree_iff (hl : ops.Lawful) (t : T) (pastEnd : ℕ → UInt64) (K : ScannerOf → Prop) :
    (∀ calls st, (∀ k, .scan k ∈ calls → K k) → (machine pastEnd).run calls (start ops t) = some st → RefinesTree ops t st) ↔
      ∀ k, K k → k.Short ops t := by
  constructor
  · intro h k hk
    exact short_of_refinesTree hl fun calls st hcalls hrun => h calls st (fun k' hk' => hcalls k' hk' ▸ hk) hrun
  · intro h calls st hcalls hrun
    exact refinesTree_run hl (fun k hk => h k (hcalls k hk)) hrun

open PointTree

/-- A scan of all points, and lookups of ids that are not there in between. -/
theorem refinesTree_iff_turned : ∃ st,
    (machine fun _ => 7).run [.scan .all, .hasNext 0, .has 5 1, .next 0, .get (.objectsOf 9), .hasNext 0, .next 0, .hasNext 0]
      (start PointTree.ops (ofList [(2, 3), (1, 1)])) = some st ∧
    RefinesTree PointTree.ops (ofList [(2, 3), (1, 1)]) st := by
  obtain ⟨st, hst⟩ : ∃ st, (machine fun _ => 7).run
      [.scan .all, .hasNext 0, .has 5 1, .next 0, .get (.objectsOf 9), .hasNext 0, .next 0, .hasNext 0]
      (start PointTree.ops (ofList [(2, 3), (1, 1)])) = some st := ⟨_, rfl⟩
  refine ⟨st, hst, (refinesTree_iff ops_lawful _ _ fun k => k = .all).2 (fun k hk => hk ▸ trivial) _ st (fun k hk => ?_) hst⟩
  simpa using hk

theorem not_short_column (n : ℕ) (h : n ≤ 2 ^ 64) (hn : 2 ^ 31 ≤ n) :
    ¬ ScannerOf.Short PointTree.ops (column n h) (.vector (.objectsOf 1)) := by
  intro hshort
  have hlen : (PointTree.ops.bandScan (column n h) .column 1).length = n :=
    (List.length_map _).symm.trans (length_scan_column n h)
  have hlt : (PointTree.ops.bandScan (column n h) .column 1).length < 2 ^ 31 := hshort
  omega

/-- A subject with `2 ^ 31` objects. -/
theorem not_refinesTree_column : ¬ ∀ calls st,
    (machine fun _ => 0).run calls (start PointTree.ops (column (2 ^ 31) (by norm_num))) = some st →
      RefinesTree PointTree.ops (column (2 ^ 31) (by norm_num)) st :=
  fun h => not_short_column _ _ le_rfl (short_of_refinesTree ops_lawful fun calls st _ hrun => h calls st hrun)

end Shared

end K2Cache
